import RgMemory.HashMap.Placed
import RgMemory.HashMap.Validate

/-!
# What the validator decides, and at what cost

The visit of `HashMap.Validate` decides whether the graph below a root unfolds to a trie that passes
the tests. `WellPlaced` states those tests as properties of the trie, apart from the code, and
`rgmHashMapValidateSubtree_eq_some_iff` says that the validator accepts exactly the well-placed
unfoldings that fit its budget, and takes from the budget what they have nodes.

For the cost the loops are run once more with a log of the nodes that they examine, also of those in
a graph that is rejected in the end. One node of the log takes one unit of the budget, so that an
open examines no more nodes than fit below the high-water mark (`validator_decides`).
-/

namespace RgMemory

open Bytes Trie

/-- A trie of nodes that lie where nodes may: on 8-byte boundaries, above the first cache line, with
the header and the inline key below the high-water mark, each above its parent, and no more of them
on a path than the validator's stack holds. -/
structure WellPlaced (img : Mem) (highWater : Nat) (t : Trie 4 (BitVec 32)) : Prop where
  aligned : ∀ a ∈ t.toList, 8 ∣ a.toNat
  above : ∀ a ∈ t.toList, 64 ≤ a.toNat
  inside : ∀ a ∈ t.toList,
    a.toNat + HashMapNode.size + (HashMapNode.keyLen img a).toNat ≤ highWater
  rising : Descends Rises 0 t
  depth : t.DepthLe 256

section

variable {img : Mem} {highWater : Nat}

/-- The tests along the paths are the properties of the trie. -/
theorem checked_iff_wellPlaced {t : Trie 4 (BitVec 32)} :
    Checked (rgmHashMapNodeOk img highWater) rgmHashMapValidateMaxDepth 0 t ↔
      WellPlaced img highWater t := by
  constructor
  · intro h
    have hnode : ∀ a ∈ t.toList, NodeInside img highWater a ∧ 8 ∣ a.toNat := by
      refine h.forall fun p a hok => ?_
      obtain ⟨hin, hdvd, -⟩ := rgmHashMapNodeOk_iff.mp hok
      exact ⟨hin, hdvd⟩
    refine ⟨fun a ha => (hnode a ha).2, fun a ha => (hnode a ha).1.1, fun a ha => (hnode a ha).1.2,
      h.descends fun p a hok => (rgmHashMapNodeOk_iff.mp hok).2.2, h.depthLe⟩
  · intro h
    refine h.rising.checked (P := fun a => NodeInside img highWater a ∧ 8 ∣ a.toNat) ?_ ?_ h.depth
    · intro p a hrise ha
      exact rgmHashMapNodeOk_iff.mpr ⟨ha.1, ha.2, hrise⟩
    · intro a ha
      exact ⟨⟨h.above a ha, h.inside a ha⟩, h.aligned a ha⟩

/-- **The validator decides its specification**: it accepts with `left` units over exactly when the
graph unfolds to a well-placed trie of all the other units. -/
theorem rgmHashMapValidateSubtree_eq_some_iff {root : BitVec 32} {budget left : Nat} :
    rgmHashMapValidateSubtree img highWater root budget = some left ↔
      ∃ t, Unfolds (hashMapLinks img) t (some root) ∧ WellPlaced img highWater t ∧
        t.toList.length + left = budget := by
  rw [rgmHashMapValidateSubtree_eq, visit_eq_some_iff]
  constructor
  · rintro ⟨t, ⟨hunf, hcheck⟩, hcost⟩
    exact ⟨t, hunf, checked_iff_wellPlaced.mp hcheck, hcost⟩
  · rintro ⟨t, hunf, hplaced, hcost⟩
    exact ⟨t, ⟨hunf, checked_iff_wellPlaced.mpr hplaced⟩, hcost⟩

end

/-! ## The nodes that are examined -/

/-- The `for (;;)` of the validator, with the nodes that it examines while it has budget. -/
def rgmHashMapValidateLoopLog (img : Mem) (highWater : Nat) :
    Nat → List ValidateFrame → BitVec 32 → BitVec 32 → List (BitVec 32) × Option Nat
  | 0, _, _, _ => ([], none)
  | budget + 1, stack, parent, off =>
    if stack.length = rgmHashMapValidateMaxDepth ∨ rgmHashMapNodeOk img highWater parent off = false
    then ([off], none)
    else
      match rgmHashMapFindNext img (⟨off, 0⟩ :: stack) with
      | none => ([off], some budget)
      | some (next, parent, stack) =>
        match rgmHashMapValidateLoopLog img highWater budget stack parent next with
        | (log, answer) => (off :: log, answer)

/-- The loop over the roots, with the nodes that are examined below them. -/
def rgmHashMapValidateRootsLog (img : Mem) (highWater : Nat) :
    List (BitVec 32) → Nat → List (BitVec 32) × Option Nat
  | [], budget => ([], some budget)
  | root :: rest, budget =>
    if root ≠ 0 then
      match rgmHashMapValidateLoopLog img highWater budget [] 0 root with
      | (log, none) => (log, none)
      | (log, some budget) =>
        match rgmHashMapValidateRootsLog img highWater rest budget with
        | (more, answer) => (log ++ more, answer)
    else rgmHashMapValidateRootsLog img highWater rest budget

/-- The nodes that `rgHashMapOpen` examines. -/
def rgHashMapOpenLog (s : ArenaState) : List (BitVec 32) :=
  if s.base = 0 then []
  else if s.committed < PersistHeader.size then []
  else if !rgmHashMapHeaderOk s.img (rgArenaCapacity s.toArena) s.committed then []
  else
    let highWater := (PersistHeader.highWater s.img).toNat
    let index := indexCopy s.img (PersistHeader.indexOffset s.img).toNat
    (rgmHashMapValidateRootsLog s.img highWater ((List.finRange 4096).map index)
      (highWater / HashMapNode.size)).1

section

variable {img : Mem} {highWater : Nat}

/-- The log is of the loop itself. -/
theorem rgmHashMapValidateLoopLog_snd (budget : Nat) (stack : List ValidateFrame)
    (parent off : BitVec 32) :
    (rgmHashMapValidateLoopLog img highWater budget stack parent off).2 =
      rgmHashMapValidateLoop img highWater budget stack parent off := by
  induction budget generalizing stack parent off with
  | zero => rfl
  | succ budget ih =>
    rw [rgmHashMapValidateLoopLog, rgmHashMapValidateLoop]
    split
    · rfl
    · cases rgmHashMapFindNext img (⟨off, 0⟩ :: stack) with
      | none => rfl
      | some next => exact ih next.2.2 next.2.1 next.1

/-- Each node of the log takes a unit of the budget; what an accepted graph leaves is the rest. -/
theorem rgmHashMapValidateLoopLog_cost (budget : Nat) (stack : List ValidateFrame)
    (parent off : BitVec 32) :
    (rgmHashMapValidateLoopLog img highWater budget stack parent off).1.length ≤ budget ∧
      ∀ left, (rgmHashMapValidateLoopLog img highWater budget stack parent off).2 = some left →
        (rgmHashMapValidateLoopLog img highWater budget stack parent off).1.length + left =
          budget := by
  induction budget generalizing stack parent off with
  | zero => exact ⟨Nat.le_refl 0, fun left h => absurd h (by simp [rgmHashMapValidateLoopLog])⟩
  | succ budget ih =>
    rw [rgmHashMapValidateLoopLog]
    split
    · refine ⟨Nat.succ_le_succ (Nat.zero_le _), fun left h => ?_⟩
      cases h
    · cases rgmHashMapFindNext img (⟨off, 0⟩ :: stack) with
      | none =>
        refine ⟨Nat.succ_le_succ (Nat.zero_le _), fun left h => ?_⟩
        cases h
        exact Nat.add_comm 1 budget
      | some next =>
        obtain ⟨hle, heq⟩ := ih next.2.2 next.2.1 next.1
        refine ⟨Nat.succ_le_succ hle, fun left h => ?_⟩
        exact (Nat.succ_add ..).trans (congrArg Nat.succ (heq left h))

theorem rgmHashMapValidateRootsLog_snd (roots : List (BitVec 32)) (budget : Nat) :
    (rgmHashMapValidateRootsLog img highWater roots budget).2 =
      rgmHashMapValidateRoots img highWater roots budget := by
  induction roots generalizing budget with
  | nil => rfl
  | cons root rest ih =>
    rw [rgmHashMapValidateRootsLog, rgmHashMapValidateRoots, rgmHashMapValidateSubtree]
    split
    · have hsnd : (rgmHashMapValidateLoopLog img highWater budget [] 0 root).2 = _ :=
        rgmHashMapValidateLoopLog_snd ..
      cases hlog : rgmHashMapValidateLoopLog img highWater budget [] 0 root with
      | mk log answer =>
        rw [hlog] at hsnd
        rw [← hsnd]
        cases answer with
        | none => rfl
        | some left => exact ih left
    · exact ih budget

/-- All roots together examine no more nodes than their common budget. -/
theorem rgmHashMapValidateRootsLog_length_le (roots : List (BitVec 32)) (budget : Nat) :
    (rgmHashMapValidateRootsLog img highWater roots budget).1.length ≤ budget := by
  induction roots generalizing budget with
  | nil => exact Nat.zero_le _
  | cons root rest ih =>
    rw [rgmHashMapValidateRootsLog]
    split
    · have hcost := @rgmHashMapValidateLoopLog_cost img highWater budget [] 0 root
      obtain ⟨hle, heq⟩ := hcost
      cases hlog : rgmHashMapValidateLoopLog img highWater budget [] 0 root with
      | mk log answer =>
        rw [hlog] at hle heq
        cases answer with
        | none => exact hle
        | some left =>
          have hmore := ih left
          have hsum := heq left rfl
          show (log ++ _).length ≤ budget
          rw [List.length_append]
          have : log.length + left = budget := hsum
          omega
    · exact ih budget

end

/-- **The validator decides its specification, and an open does linear work.** For every image and
every budget the validator accepts exactly when the graph unfolds from the root to a well-placed trie
of no more nodes than the budget, from which it takes their number; it examines no more nodes than
its budget, accepted or not. An open answers as its roots do and examines at most one node for every
40 bytes below the high-water mark. -/
theorem validator_decides :
    (∀ img highWater root budget left,
      rgmHashMapValidateSubtree img highWater root budget = some left ↔
        ∃ t, Unfolds (hashMapLinks img) t (some root) ∧ WellPlaced img highWater t ∧
          t.toList.length + left = budget) ∧
    (∀ img highWater root budget,
      (rgmHashMapValidateLoopLog img highWater budget [] 0 root).2 =
          rgmHashMapValidateSubtree img highWater root budget ∧
        (rgmHashMapValidateLoopLog img highWater budget [] 0 root).1.length ≤ budget) ∧
    (∀ img highWater roots budget,
      (rgmHashMapValidateRootsLog img highWater roots budget).2 =
        rgmHashMapValidateRoots img highWater roots budget) ∧
    ∀ s : ArenaState, (rgHashMapOpenLog s).length ≤ (PersistHeader.highWater s.img).toNat / 40 := by
  refine ⟨fun _ _ _ _ _ => rgmHashMapValidateSubtree_eq_some_iff, fun img highWater root budget =>
    ⟨rgmHashMapValidateLoopLog_snd .., (rgmHashMapValidateLoopLog_cost ..).1⟩,
    fun _ _ _ _ => rgmHashMapValidateRootsLog_snd .., fun s => ?_⟩
  unfold rgHashMapOpenLog
  split
  · exact Nat.zero_le _
  split
  · exact Nat.zero_le _
  split
  · exact Nat.zero_le _
  · exact rgmHashMapValidateRootsLog_length_le ..

/-- A node that links to itself is examined twice and rejected. -/
example : rgmHashMapValidateLoopLog (store32 (fun _ => 0) 64 64) 4096 102 [] 0 64 =
    ([64, 64], none) := by decide

end RgMemory
