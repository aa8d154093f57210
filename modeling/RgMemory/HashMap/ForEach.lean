import RgMemory.HashMap.Rep
import RgMemory.HashMap.Validate

/-!
# Iteration

`rgHashMapForEach`: the index roots in order, each subtree in pre-order with an explicit stack of 64
frames, and below that by recursion. On a map whose nodes can be read it reports what a list
traversal of the forest reports, cut where the callback asks to stop (`rgHashMapForEach_eq`); the
bound of the stack cannot be seen in the answer.

The callback is a function of its own state. It gets the key's bytes and the value of an entry.
-/

namespace RgMemory

open Bytes Trie

/-- What an iteration carries: the entries reported, the callback's state, its wish to stop. -/
structure Report (σ : Type) where
  count : Nat
  user : σ
  stop : Bool

/-- `rgm_hash_iter_frame`. -/
structure IterFrame where
  node : BitVec 32
  visited : Bool
  nextChild : Nat

/-- `RGM_HASH_ITER_STACK_DEPTH`. -/
def rgmHashIterStackDepth : Nat := 64

section

variable {σ : Type} (fn : σ → List Byte → BitVec 64 → Bool × σ)

/-- One entry more. -/
def Report.add (img : Mem) (r : Report σ) (off : BitVec 32) : Report σ :=
  match fn r.user (HashMapNode.keyBytes img off) (HashMapNode.value img off) with
  | (stop, user) => ⟨r.count + 1, user, stop⟩

/-- The call of the callback on a node. -/
def rgmHashMapVisit (s : ArenaState) (r : Report σ) (off : BitVec 32) : Except Stop (Report σ) :=
  if off.toNat < rgmCacheLine ∨ s.pos < off.toNat + HashMapNode.size then .error .fault
  else if s.pos < off.toNat + HashMapNode.size + (HashMapNode.keyLen s.img off).toNat then
    .error .fault
  else .ok (r.add fn s.img off)

/-- The loop over the children of a node in `rgm_hash_map_foreach_rec`. -/
def rgmHashMapForeachKids (s : ArenaState) (rec : BitVec 32 → Report σ → Except Stop (Report σ))
    (off : BitVec 32) : List (Fin 4) → Report σ → Except Stop (Report σ)
  | [], r => .ok r
  | i :: rest, r =>
    let cur := HashMapNode.child s.img off i
    if cur ≠ 0 then
      match rec cur r with
      | .error e => .error e
      | .ok r => if r.stop then .ok r else rgmHashMapForeachKids s rec off rest r
    else rgmHashMapForeachKids s rec off rest r

/-- `rgm_hash_map_foreach_rec`. -/
def rgmHashMapForeachRec (s : ArenaState) : Nat → BitVec 32 → Report σ → Except Stop (Report σ)
  | 0, _, _ => .error .diverge
  | fuel + 1, off, r =>
    match rgmHashMapVisit fn s r off with
    | .error e => .error e
    | .ok r =>
      if r.stop then .ok r
      else rgmHashMapForeachKids s (rgmHashMapForeachRec s fuel) off (List.finRange 4) r

/-- The first half of a round: the callback, when the frame is new. -/
def rgmHashMapForeachEnter (s : ArenaState) (f : IterFrame) (r : Report σ) :
    Except Stop (Report σ) :=
  if f.visited then .ok r else rgmHashMapVisit fn s r f.node

/-- The `while (sp > 0 && !stop)` of `rgHashMapForEach`. -/
def rgmHashMapForEachLoop (s : ArenaState) : Nat → List IterFrame → Report σ →
    Except Stop (Report σ)
  | _, [], r => .ok r
  | 0, _ :: _, _ => .error .diverge
  | fuel + 1, f :: rest, r =>
    match rgmHashMapForeachEnter fn s f r with
    | .error e => .error e
    | .ok r =>
      if r.stop then .ok r
      else if f.nextChild < 4 then
        let cur := HashMapNode.child s.img f.node f.nextChild
        let stack := ⟨f.node, true, f.nextChild + 1⟩ :: rest
        if cur ≠ 0 then
          if stack.length < rgmHashIterStackDepth then
            rgmHashMapForEachLoop s fuel (⟨cur, false, 0⟩ :: stack) r
          else
            match rgmHashMapForeachRec fn s fuel cur r with
            | .error e => .error e
            | .ok r => if r.stop then .ok r else rgmHashMapForEachLoop s fuel stack r
        else rgmHashMapForEachLoop s fuel stack r
      else rgmHashMapForEachLoop s fuel rest r

/-- The loop over the index, `for (top = 0; top < RG_HASH_TOP_SIZE && !stop; ++top)`. -/
def rgmHashMapForEachRoots (fuel : Nat) (s : ArenaState) :
    List (BitVec 32) → Report σ → Except Stop (Report σ)
  | [], r => .ok r
  | root :: rest, r =>
    if r.stop then .ok r
    else if root = 0 then rgmHashMapForEachRoots fuel s rest r
    else
      match rgmHashMapForEachLoop fn s fuel [⟨root, false, 0⟩] r with
      | .error e => .error e
      | .ok r => rgmHashMapForEachRoots fuel s rest r

/-- Iterate over the entries; the answer is their number. -/
def rgHashMapForEach (fuel : Nat) (map : HashMap) (s : ArenaState) (user : σ) :
    Except Stop (Nat × σ) :=
  if !rgmMapIsLive map s.toArena then .ok (0, user)
  else
    match rgmHashMapForEachRoots fn fuel s ((List.finRange 4096).map map.top) ⟨0, user, false⟩ with
    | .error e => .error e
    | .ok r => .ok (r.count, r.user)

/-! ## Reports of a list -/

/-- Report the entries of a list of nodes until the callback asks to stop. -/
def Report.over (img : Mem) : List (BitVec 32) → Report σ → Report σ
  | [], r => r
  | off :: rest, r => if r.stop then r else Report.over img rest (r.add fn img off)

variable {fn} {img : Mem}

theorem over_stop {r : Report σ} (h : r.stop = true) (l : List (BitVec 32)) :
    r.over fn img l = r := by
  cases l with
  | nil => rfl
  | cons a rest => rw [Report.over, if_pos h]

theorem over_cons {r : Report σ} (h : r.stop = false) (a : BitVec 32) (l : List (BitVec 32)) :
    r.over fn img (a :: l) = (r.add fn img a).over fn img l := by
  rw [Report.over, h]
  exact if_neg (by decide)

theorem over_append (l m : List (BitVec 32)) (r : Report σ) :
    r.over fn img (l ++ m) = (r.over fn img l).over fn img m := by
  induction l generalizing r with
  | nil => rfl
  | cons a rest ih =>
    cases h : r.stop with
    | true => rw [over_stop h, over_stop h, over_stop h]
    | false => rw [List.cons_append, over_cons h, over_cons h, ih]

variable (fn img) in
/-- A report has at most one entry for each node of the list. -/
theorem over_count_le (l : List (BitVec 32)) (r : Report σ) :
    (r.over fn img l).count ≤ r.count + l.length := by
  induction l generalizing r with
  | nil => exact Nat.le_refl _
  | cons a rest ih =>
    rw [Report.over]
    split
    · exact Nat.le_add_right ..
    · have hadd : (r.add fn img a).count = r.count + 1 := rfl
      have := ih (r.add fn img a)
      rw [List.length_cons]
      omega

end

/-! ## The recursion -/

section

variable {σ : Type} {fn : σ → List Byte → BitVec 64 → Bool × σ} {s : ArenaState}

theorem visit_inside {off : BitVec 32} (h : NodeInside s.img s.pos off) (r : Report σ) :
    rgmHashMapVisit fn s r off = .ok (r.add fn s.img off) := by
  obtain ⟨hlow, hhigh⟩ := h
  rw [rgmHashMapVisit, if_neg (by omega), if_neg (by omega)]

/-- The nodes of the children in a list. -/
def kidNodes (kids : Fin 4 → Trie 4 (BitVec 32)) (is : List (Fin 4)) : List (BitVec 32) :=
  is.flatMap fun i => (kids i).toList

theorem foreachKids_eq {rec : BitVec 32 → Report σ → Except Stop (Report σ)} {off : BitVec 32}
    {kids : Fin 4 → Trie 4 (BitVec 32)}
    (hunf : ∀ i, Unfolds (hashMapLinks s.img) (kids i) (hashMapLinks s.img off i))
    (hrec : ∀ i c, hashMapLinks s.img off i = some c → ∀ r : Report σ, r.stop = false →
      rec c r = .ok (r.over fn s.img (kids i).toList))
    (is : List (Fin 4)) (r : Report σ) (hr : r.stop = false) :
    rgmHashMapForeachKids s rec off is r = .ok (r.over fn s.img (kidNodes kids is)) := by
  induction is generalizing r with
  | nil => rfl
  | cons i rest ih =>
    rw [rgmHashMapForeachKids, kidNodes, List.flatMap_cons, over_append]
    by_cases hcur : HashMapNode.child s.img off i = 0
    · have hnil : kids i = nil := (hunf i).eq_none_iff.mp (slotLink_eq_none.mpr hcur)
      rw [if_neg (not_not.mpr hcur), hnil]
      exact ih r hr
    · have hlink : hashMapLinks s.img off i = some (HashMapNode.child s.img off i) :=
        slotLink_of_ne hcur
      rw [if_pos hcur, hrec i _ hlink r hr]
      dsimp only
      cases hstop : (r.over fn s.img (kids i).toList).stop with
      | true => rw [if_pos rfl, over_stop hstop]
      | false =>
        rw [if_neg (by decide)]
        exact ih _ hstop

variable (fn) in
/-- The recursive fallback reports the nodes of a subtree in pre-order. -/
theorem foreachRec_eq {t : Trie 4 (BitVec 32)} {off : BitVec 32} {fuel : Nat} {r : Report σ}
    (hunf : Unfolds (hashMapLinks s.img) t (some off))
    (hin : ∀ a ∈ t.toList, NodeInside s.img s.pos a) (hdepth : t.DepthLe fuel)
    (hr : r.stop = false) :
    rgmHashMapForeachRec fn s fuel off r = .ok (r.over fn s.img t.toList) := by
  induction t generalizing off fuel r with
  | nil => cases hunf
  | node a kids ih =>
    obtain ⟨hnode, hkids⟩ := hunf
    cases hnode
    cases fuel with
    | zero => exact absurd hdepth id
    | succ fuel =>
      rw [rgmHashMapForeachRec, visit_inside (hin _ List.mem_cons_self), toList_node,
        over_cons hr]
      dsimp only
      cases hstop : (r.add fn s.img a).stop with
      | true => rw [if_pos rfl, over_stop hstop]
      | false =>
        rw [if_neg (by decide)]
        refine foreachKids_eq hkids (fun i c hlink r' hr' => ?_) _ _ hstop
        exact ih i (hlink ▸ hkids i) (fun b hb => hin b (mem_kid hb)) (hdepth i) hr'

/-! ## The stack -/

theorem loop_nil (fuel : Nat) (r : Report σ) : rgmHashMapForEachLoop fn s fuel [] r = .ok r := by
  cases fuel <;> rfl

/-- What is left of a loop once a subtree was reported: nothing, when the callback asked to stop. -/
def afterReport (fn : σ → List Byte → BitVec 64 → Bool × σ) (s : ArenaState) (fuel : Nat)
    (rest : List IterFrame) (r : Report σ) : Except Stop (Report σ) :=
  if r.stop then .ok r else rgmHashMapForEachLoop fn s fuel rest r

theorem afterReport_stop {fuel : Nat} {rest : List IterFrame} {r : Report σ}
    (h : r.stop = true) : afterReport fn s fuel rest r = .ok r := if_pos h

theorem afterReport_go {fuel : Nat} {rest : List IterFrame} {r : Report σ} (h : r.stop = false) :
    afterReport fn s fuel rest r = rgmHashMapForEachLoop fn s fuel rest r := by
  rw [afterReport, h]
  exact if_neg (by decide)

/-- A new frame reports its node and becomes a visited one. -/
theorem loop_enter {off : BitVec 32} (hin : NodeInside s.img s.pos off) {fuel : Nat}
    {rest : List IterFrame} {r : Report σ} :
    rgmHashMapForEachLoop fn s (fuel + 1) (⟨off, false, 0⟩ :: rest) r =
      afterReport fn s (fuel + 1) (⟨off, true, 0⟩ :: rest) (r.add fn s.img off) := by
  have hnew : rgmHashMapForeachEnter fn s ⟨off, false, 0⟩ r = .ok (r.add fn s.img off) :=
    visit_inside hin r
  have hold : rgmHashMapForeachEnter fn s ⟨off, true, 0⟩ (r.add fn s.img off) =
      .ok (r.add fn s.img off) := rfl
  rw [rgmHashMapForEachLoop, hnew]
  cases hstop : (r.add fn s.img off).stop with
  | true =>
    rw [afterReport_stop hstop]
    dsimp only
    rw [if_pos hstop]
  | false =>
    rw [afterReport_go hstop, rgmHashMapForEachLoop, hold]

/-- A visited frame whose children are done is popped. -/
theorem loop_pop {off : BitVec 32} {fuel : Nat} {rest : List IterFrame} {r : Report σ}
    (hr : r.stop = false) :
    rgmHashMapForEachLoop fn s (fuel + 1) (⟨off, true, 4⟩ :: rest) r =
      rgmHashMapForEachLoop fn s fuel rest r := by
  have hold : rgmHashMapForeachEnter fn s ⟨off, true, 4⟩ r = .ok r := rfl
  rw [rgmHashMapForEachLoop, hold]
  dsimp only
  rw [hr, if_neg (by decide), if_neg (by decide)]

theorem loop_skip {off : BitVec 32} {k fuel : Nat} {rest : List IterFrame} {r : Report σ}
    (hr : r.stop = false) (hk : k < 4) (hchild : HashMapNode.child s.img off k = 0) :
    rgmHashMapForEachLoop fn s (fuel + 1) (⟨off, true, k⟩ :: rest) r =
      rgmHashMapForEachLoop fn s fuel (⟨off, true, k + 1⟩ :: rest) r := by
  have hold : rgmHashMapForeachEnter fn s ⟨off, true, k⟩ r = .ok r := rfl
  rw [rgmHashMapForEachLoop, hold]
  dsimp only
  rw [hr, if_neg (by decide), if_pos hk, if_neg (not_not.mpr hchild)]

/-- A child with room on the stack gets a frame. -/
theorem loop_push {off : BitVec 32} {k fuel : Nat} {rest : List IterFrame} {r : Report σ}
    (hr : r.stop = false) (hk : k < 4) (hchild : HashMapNode.child s.img off k ≠ 0)
    (hroom : rest.length + 1 < rgmHashIterStackDepth) :
    rgmHashMapForEachLoop fn s (fuel + 1) (⟨off, true, k⟩ :: rest) r =
      rgmHashMapForEachLoop fn s fuel
        (⟨HashMapNode.child s.img off k, false, 0⟩ :: ⟨off, true, k + 1⟩ :: rest) r := by
  have hold : rgmHashMapForeachEnter fn s ⟨off, true, k⟩ r = .ok r := rfl
  rw [rgmHashMapForEachLoop, hold]
  dsimp only
  rw [hr, if_neg (by decide), if_pos hk, if_pos hchild]
  exact if_pos hroom

/-- A child without room is visited by recursion. -/
theorem loop_recurse {off : BitVec 32} {k fuel : Nat} {rest : List IterFrame} {r r' : Report σ}
    (hr : r.stop = false) (hk : k < 4) (hchild : HashMapNode.child s.img off k ≠ 0)
    (hfull : ¬ rest.length + 1 < rgmHashIterStackDepth)
    (hrec : rgmHashMapForeachRec fn s fuel (HashMapNode.child s.img off k) r = .ok r') :
    rgmHashMapForEachLoop fn s (fuel + 1) (⟨off, true, k⟩ :: rest) r =
      afterReport fn s fuel (⟨off, true, k + 1⟩ :: rest) r' := by
  have hold : rgmHashMapForeachEnter fn s ⟨off, true, k⟩ r = .ok r := rfl
  rw [rgmHashMapForEachLoop, hold]
  dsimp only
  rw [hr, if_neg (by decide), if_pos hk, if_pos hchild]
  rw [if_neg (by exact hfull), hrec]
  rfl

variable (fn) in
/-- The children of a visited frame from `k` on. `cost` rounds pass at most; `slack` is what the
recursion needs. -/
theorem loop_kids {off : BitVec 32} {kids : Fin 4 → Trie 4 (BitVec 32)} {slack : Nat}
    (hunf : ∀ i, Unfolds (hashMapLinks s.img) (kids i) (hashMapLinks s.img off i))
    (hin : ∀ i, ∀ a ∈ (kids i).toList, NodeInside s.img s.pos a)
    (hdepth : ∀ i, (kids i).DepthLe slack)
    (hkid : ∀ i c rest, hashMapLinks s.img off i = some c →
      ∃ cost ≤ 5 * (kids i).toList.length, ∀ fuel (r : Report σ), slack ≤ fuel → r.stop = false →
        rgmHashMapForEachLoop fn s (cost + fuel) (⟨c, false, 0⟩ :: rest) r =
          afterReport fn s fuel rest (r.over fn s.img (kids i).toList))
    (rest : List IterFrame) {is : List (Fin 4)} {k : Nat} (his : (List.finRange 4).drop k = is)
    (hk : k ≤ 4) :
    ∃ cost ≤ is.length + 5 * (kidNodes kids is).length, ∀ fuel (r : Report σ),
      slack ≤ fuel → r.stop = false →
        rgmHashMapForEachLoop fn s (cost + fuel + 1) (⟨off, true, k⟩ :: rest) r =
          afterReport fn s fuel rest (r.over fn s.img (kidNodes kids is)) := by
  induction is generalizing k with
  | nil =>
    have hlen := congrArg List.length his
    rw [List.length_drop, List.length_finRange] at hlen
    obtain rfl : k = 4 := by
      have : 4 - k = 0 := hlen
      omega
    refine ⟨0, Nat.zero_le _, fun fuel r _ hr => ?_⟩
    rw [Nat.zero_add, loop_pop hr]
    exact (afterReport_go hr).symm
  | cons i js ih =>
    have hlt : k < 4 := by
      have hlen := congrArg List.length his
      rw [List.length_drop, List.length_finRange] at hlen
      have : 4 - k = js.length + 1 := hlen
      omega
    have hdrop := List.drop_eq_getElem_cons (l := List.finRange 4) (i := k)
      (by rwa [List.length_finRange])
    rw [his, List.getElem_finRange] at hdrop
    obtain ⟨hi, hjs⟩ := List.cons.inj hdrop
    have hik : (i : Nat) = k := by rw [hi]; rfl
    obtain ⟨costRest, hcostRest, hloop⟩ := ih hjs.symm hlt
    have hnodes : kidNodes kids (i :: js) = (kids i).toList ++ kidNodes kids js :=
      List.flatMap_cons
    simp only [hnodes, List.length_append, List.length_cons, over_append]
    by_cases hchild : HashMapNode.child s.img off k = 0
    · have hnil : kids i = nil := (hunf i).eq_none_iff.mp (slotLink_eq_none.mpr (hik ▸ hchild))
      refine ⟨costRest + 1, by omega, fun fuel r hfuel hr => ?_⟩
      rw [Nat.add_right_comm costRest 1 fuel, loop_skip hr hlt hchild, hnil]
      exact hloop fuel r hfuel hr
    · have hlink : hashMapLinks s.img off i = some (HashMapNode.child s.img off k) := by
        rw [hashMapLinks, hik]
        exact slotLink_of_ne hchild
      -- what follows the child, whether or not the callback stopped in it
      have hcont : ∀ fuel (r : Report σ), slack ≤ fuel →
          afterReport fn s (costRest + fuel + 1) (⟨off, true, k + 1⟩ :: rest) r =
            afterReport fn s fuel rest (r.over fn s.img (kidNodes kids js)) := by
        intro fuel r hfuel
        cases hstop : r.stop with
        | true => rw [over_stop hstop, afterReport_stop hstop, afterReport_stop hstop]
        | false => rw [afterReport_go hstop, hloop fuel r hfuel hstop]
      by_cases hroom : rest.length + 1 < rgmHashIterStackDepth
      · obtain ⟨cost, hcost, hchildLoop⟩ := hkid i _ (⟨off, true, k + 1⟩ :: rest) hlink
        refine ⟨cost + costRest + 1, by omega, fun fuel r hfuel hr => ?_⟩
        have hsplit : cost + costRest + 1 + fuel = cost + (costRest + fuel + 1) := by omega
        rw [hsplit, loop_push hr hlt hchild hroom, hchildLoop _ r (by omega) hr]
        exact hcont fuel _ hfuel
      · refine ⟨costRest + 1, by omega, fun fuel r hfuel hr => ?_⟩
        have hrec := foreachRec_eq fn (hlink ▸ hunf i) (hin i)
          ((hdepth i).mono (Nat.le_trans hfuel (Nat.le_succ_of_le (Nat.le_add_left fuel costRest)))) hr
        rw [Nat.add_right_comm costRest 1 fuel, loop_recurse hr hlt hchild hroom hrec]
        exact hcont fuel _ hfuel

variable (fn) in
/-- A subtree is reported in pre-order, and then the loop goes on with the frames below it. -/
theorem loop_subtree {t : Trie 4 (BitVec 32)} {slack : Nat} {off : BitVec 32}
    (hunf : Unfolds (hashMapLinks s.img) t (some off))
    (hin : ∀ a ∈ t.toList, NodeInside s.img s.pos a) (hdepth : t.DepthLe slack)
    (rest : List IterFrame) :
    ∃ cost ≤ 5 * t.toList.length, ∀ fuel (r : Report σ), slack ≤ fuel → r.stop = false →
      rgmHashMapForEachLoop fn s (cost + fuel) (⟨off, false, 0⟩ :: rest) r =
        afterReport fn s fuel rest (r.over fn s.img t.toList) := by
  induction t generalizing off slack rest with
  | nil => cases hunf
  | node a kids ih =>
    obtain ⟨hnode, hkids⟩ := hunf
    cases hnode
    have hdepth' : ∀ i, (kids i).DepthLe slack := fun i => by
      cases slack with
      | zero => exact absurd hdepth id
      | succ n => exact (hdepth i).mono (Nat.le_succ n)
    obtain ⟨cost, hcost, hloop⟩ := loop_kids fn hkids
      (fun i b hb => hin b (mem_kid hb)) hdepth'
      (fun i c rest hlink => ih i (hlink ▸ hkids i) (fun b hb => hin b (mem_kid hb)) (hdepth' i) rest)
      rest List.drop_zero (Nat.zero_le 4)
    have hall : kidNodes kids (List.finRange 4) = listAll kids := rfl
    rw [List.length_finRange, hall] at hcost
    refine ⟨cost + 1, ?_, fun fuel r hfuel hr => ?_⟩
    · rw [toList_node, List.length_cons]
      omega
    · rw [Nat.add_right_comm cost 1 fuel, loop_enter (hin _ List.mem_cons_self), toList_node,
        over_cons hr]
      cases hstop : (r.add fn s.img a).stop with
      | true => rw [over_stop hstop, afterReport_stop hstop, afterReport_stop hstop]
      | false =>
        rw [afterReport_go hstop]
        exact hloop fuel _ hfuel hstop

/-! ## The whole iteration -/

theorem forEachRoots_eq {map : HashMap} {forest : Fin 4096 → Trie 4 (BitVec 32)}
    (h : map.Readable s forest) {fuel : Nat} (hfuel : 6 * (listAll forest).length ≤ fuel)
    (is : List (Fin 4096)) (r : Report σ) :
    rgmHashMapForEachRoots fn fuel s (is.map map.top) r =
      .ok (r.over fn s.img (is.flatMap fun i => (forest i).toList)) := by
  induction is generalizing r with
  | nil => rfl
  | cons i rest ih =>
    rw [List.map_cons, rgmHashMapForEachRoots, List.flatMap_cons, over_append]
    cases hr : r.stop with
    | true => rw [if_pos rfl, over_stop hr, over_stop hr]
    | false =>
      rw [if_neg (by decide)]
      by_cases hroot : map.top i = 0
      · have hnil : forest i = nil := (h.unfolds i).eq_none_iff.mp (slotLink_eq_none.mpr hroot)
        rw [if_pos hroot, hnil]
        exact ih r
      · have hunf := h.unfolds i
        rw [slotLink_of_ne hroot] at hunf
        obtain ⟨cost, hcost, hloop⟩ := loop_subtree fn hunf
          (fun a ha => h.inside a (mem_listAll.mpr ⟨i, ha⟩)) (depthLe_length _) []
        have hsize := length_member_le forest i
        have hsplit : fuel = cost + (fuel - cost) := by omega
        have hrun := hloop (fuel - cost) r (by omega) hr
        rw [← hsplit] at hrun
        have hdone : afterReport fn s (fuel - cost) [] (r.over fn s.img (forest i).toList) =
            .ok (r.over fn s.img (forest i).toList) := by
          rw [afterReport, loop_nil, ite_self]
        rw [if_neg hroot, hrun, hdone]
        exact ih _

/-- **Iteration is a pre-order traversal.** The entries of the forest are reported in order, up to
the one at which the callback asks to stop. -/
theorem rgHashMapForEach_eq {map : HashMap} {forest : Fin 4096 → Trie 4 (BitVec 32)}
    (h : map.Readable s forest) {fuel : Nat} (hfuel : 6 * (listAll forest).length ≤ fuel)
    (user : σ) :
    rgHashMapForEach fn fuel map s user =
      .ok ((Report.over fn s.img (listAll forest) ⟨0, user, false⟩).count,
        (Report.over fn s.img (listAll forest) ⟨0, user, false⟩).user) := by
  rw [rgHashMapForEach, h.live, forEachRoots_eq h hfuel]
  rfl

end

end RgMemory
