import RgMemory.HashMap.Batch
import RgMemory.Slots.Call

/-!
# Batched lookup in a lock-free trie

The lanes of `rgm_hash_trie_batch_walk` and `rgm_hash_index_batch_walk` load pointers instead of
offsets; the loop around them is the one of the hash map, so they are lanes of `Lanes.walk`.

When no other thread does anything, a lane takes the steps of a Get of its key
(`slotWalker_ends`). A Get ends and answers from the finite map, so the lane does too
(`slotBatchWalk_eq`).
-/

namespace RgMemory

open Links Concurrent

section

variable {ω β ι κ τ : Type} {K : SlotKeys β κ} {page : Nat} {s s' : Slots β τ}
  {code : SlotCode ω β ι} {t : τ} {op : ω} {pr : SlotProbe β} {probe : Nat → SlotProbe β}

/-- What a lane does with its key: the key with its digest, the register, and the pointer. -/
def slotWalker (s : Slots β τ) (probe : Nat → SlotProbe β) :
    Lanes.Walker (SlotProbe β × Descent × Option Nat) (BitVec 64) Stop where
  load j := (probe j, (probe j).descend, s.read (.root (probe j).root))
  step := fun (pr, d, cur) =>
    match cur with
    | none => .ok (.inr none)
    | some a =>
      match s.heap a with
      | none => .error .fault
      | some n =>
        match pr.test a n.body with
        | none => .error .fault
        | some false => .ok (.inl (pr, d.next pr.reseed, n.child d.digit))
        | some true => .ok (.inr (some n.value))

variable [DecidableEq τ]

variable (probe) in
/-- A Get at a slot and a lane at its pointer end alike, unless the Get faults. -/
theorem slotWalker_ends (hop : code.op op = .get pr true) {n : Nat} {os : Nat → OsReply}
    {x : NodeSlot} {d : Descent} {r : SlotResult ι}
    (hcall : slotCall page code t op n os (.load x d) s = some (s', r)) (hr : r ≠ .fault) :
    ∃ m v, Lanes.Ends (slotWalker s probe) (pr, d, s.read x) m v ∧
      r = getAnswer code.missing true v ∧
      ∀ os, slotCall page code t op n os (.load x d) s = some (s, r) := by
  -- by the number of steps: a node takes two, and the value one
  induction n using Nat.strong_induction_on generalizing os x d with
  | _ n ih =>
    obtain ⟨n, rfl⟩ : ∃ n', n = n' + 1 := by
      cases n with
      | zero => cases hcall
      | succ n => exact ⟨n, rfl⟩
    cases hread : s.read x with
    | none =>
      have hstep : ∀ os, slotStep page code t os op (.load x d) s =
          (s, .inr (.answer code.missing none)) := fun os => by
        simp only [slotStep, hop, slotGetStep, hread]
      simp only [slotCall, hstep] at hcall ⊢
      cases hcall
      exact ⟨0, none, .last rfl, rfl, fun _ => rfl⟩
    | some cur =>
      have hprobe : (code.op op).probe = some pr := by rw [hop]; rfl
      have hload : ∀ os, slotStep page code t os op (.load x d) s = (s, .inl (.inspect cur d)) :=
        slotStep_load hprobe hread
      simp only [slotCall, hload] at hcall ⊢
      obtain ⟨n, rfl⟩ : ∃ n', n = n' + 1 := by
        cases n with
        | zero => cases hcall
        | succ n => exact ⟨n, rfl⟩
      cases hheap : s.heap cur with
      | none =>
        simp only [slotCall, slotStep, hop, slotGetStep, hheap, Option.bind_none] at hcall
        cases hcall
        exact absurd rfl hr
      | some node =>
        cases htest : pr.test cur node.body with
        | none =>
          simp only [slotCall, slotStep, hop, slotGetStep, hheap, Option.bind_some, htest] at hcall
          cases hcall
          exact absurd rfl hr
        | some found =>
          have htest' : ((s.heap cur).bind fun n => pr.test cur n.body) = some found := by
            rw [hheap, Option.bind_some, htest]
          cases found with
          | true =>
            have hinspect : ∀ os, slotStep page code t os op (.inspect cur d) s =
                (s, .inl (.access cur)) := fun os => by
              simp only [slotStep, hop, slotGetStep, htest', if_true]
            have haccess : ∀ os, slotStep page code t os op (.access cur) s =
                (s, .inr (.answer .ok (some node.value))) := fun os => by
              simp only [slotStep, hop, slotGetStep, hheap]
            simp only [slotCall, hinspect] at hcall ⊢
            obtain ⟨n, rfl⟩ : ∃ n', n = n' + 1 := by
              cases n with
              | zero => cases hcall
              | succ n => exact ⟨n, rfl⟩
            simp only [slotCall, haccess] at hcall ⊢
            cases hcall
            refine ⟨0, some node.value, .last ?_, rfl, fun _ => rfl⟩
            simp only [slotWalker, hheap, htest]
          | false =>
            have hinspect : ∀ os, slotStep page code t os op (.inspect cur d) s =
                (s, .inl (.load (.child cur d.digit) (d.next pr.reseed))) :=
              slotStep_inspect hprobe htest'
            simp only [slotCall, hinspect] at hcall ⊢
            obtain ⟨m, v, hends, hv, hsame⟩ := ih n (by omega) hcall
            have hchild : s.read (.child cur d.digit) = node.child d.digit := by
              simp only [Slots.read, hheap, Option.bind_some]
            rw [hchild] at hends
            refine ⟨m + 1, v, .more ?_ hends, hv, fun os => hsame _⟩
            simp only [slotWalker, hheap, htest]

theorem getAnswer_inj {missing : Status} {v v' : Option (BitVec 64)}
    (h : (getAnswer missing true v : SlotResult ι) = getAnswer missing true v') : v = v' := by
  cases v <;> cases v' <;> cases h <;> rfl

variable (probe) in
/-- A single Get and a lane for its key. -/
theorem slotCall_get [DecidableEq κ] (hpage : IsPageSize page) (hcode : code.Lawful K)
    (h : s.Sound K page) {m : κ → Option (BitVec 64)} (hm : s.Holds K m) {nodes : List Nat}
    (hnodes : ∀ x a, s.read x = some a → a ∈ nodes) (t : τ) {op : ω} {j : Nat}
    (hop : code.op op = .get (probe j) true) :
    (∃ n, ∀ os, slotCall page code t op n os .enter s =
        some (s, getAnswer code.missing true (m (K.keyOf (probe j).body)))) ∧
      ∃ n, Lanes.Ends (slotWalker s probe) ((slotWalker s probe).load j) n
        (m (K.keyOf (probe j).body)) := by
  obtain ⟨n, ⟨s', r⟩, hcall⟩ :=
    slotCall_ends hpage hcode h hnodes t op fun _ => ⟨0, true, true, fun _ => 0⟩
  have hrelies := (slot_simulation hpage hcode).start s m t op ⟨h, hm⟩
  obtain ⟨-, m', hspec, -⟩ := slotCall_spec hpage hcode h hm hrelies hcall
  rw [SlotSpec, hop] at hspec
  obtain ⟨hr, -⟩ : r = getAnswer code.missing true (m (K.keyOf (probe j).body)) ∧ m' = m := hspec
  have hfault : r ≠ .fault := by
    rw [hr]
    cases m (K.keyOf (probe j).body) <;> nofun
  obtain ⟨n, rfl⟩ : ∃ n', n = n' + 1 := by
    cases n with
    | zero => cases hcall
    | succ n => exact ⟨n, rfl⟩
  have henter : ∀ os, slotStep page code t os op .enter s =
      (s, .inl (.load (.root (probe j).root) (probe j).descend)) := fun os => by
    simp only [slotStep, hop, slotGetStep]
  simp only [slotCall, henter] at hcall
  obtain ⟨k, v, hends, hv, hsame⟩ := slotWalker_ends probe hop hcall hfault
  have hvalue : v = m (K.keyOf (probe j).body) := getAnswer_inj (hv.symm.trans hr)
  rw [← hvalue] at hr ⊢
  refine ⟨⟨n + 1, fun os => ?_⟩, k, hends⟩
  simp only [slotCall, henter]
  rw [hsame, hv]

/-- **The lanes end with every key looked up once**, as the Gets of the keys do. -/
theorem slotBatchWalk_eq [DecidableEq κ] (hpage : IsPageSize page) (hcode : code.Lawful K)
    (h : s.Sound K page) {m : κ → Option (BitVec 64)} (hm : s.Holds K m) {nodes : List Nat}
    (hnodes : ∀ x a, s.read x = some a → a ∈ nodes) (t : τ) {ops : Nat → ω}
    (hops : ∀ j, code.op (ops j) = .get (probe j) true) {k : Nat} (hk : 0 < k) (count : Nat)
    (outValues : Option (Nat → BitVec 64)) (outFound : Option (Nat → Int)) :
    ∃ N, ∀ fuel ≥ N, Lanes.walk (slotWalker s probe) count .diverge k fuel outValues outFound =
      .ok ⟨count, 0, Lanes.hitsBelow (fun j => m (K.keyOf (probe j).body)) count,
        outValues.map (Lanes.valuesOf (fun j => m (K.keyOf (probe j).body))
          fun j => decide (j < count)),
        outFound.map (Lanes.foundOf (fun j => m (K.keyOf (probe j).body)) outValues.isSome
          (fun j => decide (j < count)) count)⟩ := by
  have hends := fun j => (slotCall_get probe hpage hcode h hm hnodes t (hops j)).2
  choose cost hcost using hends
  exact ⟨Lanes.waiting cost count 0, fun fuel hfuel =>
    Lanes.walk_spec .diverge hk (fun j _ => hcost j) outValues outFound hfuel⟩

end

end RgMemory
