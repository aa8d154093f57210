import RgMemory.Lib.Visit
import RgMemory.HashMap.Walk
import RgMemory.HashMap.Persist

/-!
# What the validator accepts

The validator's stack machine is the checked visit of the node graph
(`rgmHashMapValidateLoop_eq`). So `rgHashMapOpen` accepts an image exactly when its header is
consistent and the graph unfolds from the copied index to finite tries whose nodes lie where they
should, each above its parent, no deeper than 256 and no more of them than fit below the high-water
mark (`rgHashMapOpen_cases`).
-/

namespace RgMemory

open Bytes Trie

/-! ## The stack -/

/-- Continue the loop with the stack that a finished subtree leaves. -/
def rgmHashMapResume (img : Mem) (highWater budget : Nat) (stack : List ValidateFrame) :
    Option Nat :=
  match rgmHashMapFindNext img stack with
  | none => some budget
  | some (off, parent, stack) => rgmHashMapValidateLoop img highWater budget stack parent off

section

variable {img : Mem} {highWater : Nat}

theorem validateLoop_succ (budget : Nat) (stack : List ValidateFrame) (parent off : BitVec 32) :
    rgmHashMapValidateLoop img highWater (budget + 1) stack parent off =
      if stack.length = rgmHashMapValidateMaxDepth ∨
          rgmHashMapNodeOk img highWater parent off = false then none
      else rgmHashMapResume img highWater budget (⟨off, 0⟩ :: stack) := rfl

theorem scanChild_succ (node : BitVec 32) (left : Nat) :
    rgmHashMapScanChild img node (left + 1) =
      if HashMapNode.child img node (4 - (left + 1)) ≠ 0 then
        (HashMapNode.child img node (4 - (left + 1)), 4 - left)
      else rgmHashMapScanChild img node left := rfl

/-- A frame with no child left is popped. -/
theorem resume_done (budget : Nat) (off : BitVec 32) (stack : List ValidateFrame) :
    rgmHashMapResume img highWater budget (⟨off, 4⟩ :: stack) =
      rgmHashMapResume img highWater budget stack := rfl

/-- An empty child is skipped. -/
theorem resume_skip {budget k : Nat} {off : BitVec 32} {stack : List ValidateFrame} (hk : k < 4)
    (hchild : HashMapNode.child img off k = 0) :
    rgmHashMapResume img highWater budget (⟨off, k⟩ :: stack) =
      rgmHashMapResume img highWater budget (⟨off, k + 1⟩ :: stack) := by
  obtain ⟨left, hleft⟩ : ∃ left, 4 - k = left + 1 := ⟨3 - k, by omega⟩
  have hrest : 4 - (k + 1) = left := by omega
  have hidx : 4 - (left + 1) = k := by omega
  have hfind : rgmHashMapFindNext img (⟨off, k⟩ :: stack) =
      rgmHashMapFindNext img (⟨off, k + 1⟩ :: stack) := by
    rw [rgmHashMapFindNext, rgmHashMapFindNext]
    simp only [hleft, hrest]
    rw [scanChild_succ, hidx, if_neg (not_not.mpr hchild)]
  rw [rgmHashMapResume, rgmHashMapResume, hfind]

/-- A child is entered. -/
theorem resume_enter {budget k : Nat} {off : BitVec 32} {stack : List ValidateFrame} (hk : k < 4)
    (hchild : HashMapNode.child img off k ≠ 0) :
    rgmHashMapResume img highWater budget (⟨off, k⟩ :: stack) =
      rgmHashMapValidateLoop img highWater budget (⟨off, k + 1⟩ :: stack) off
        (HashMapNode.child img off k) := by
  obtain ⟨left, hleft⟩ : ∃ left, 4 - k = left + 1 := ⟨3 - k, by omega⟩
  have hidx : 4 - (left + 1) = k := by omega
  have hnext : 4 - left = k + 1 := by omega
  have hfind : rgmHashMapFindNext img (⟨off, k⟩ :: stack) =
      some (HashMapNode.child img off k, off, ⟨off, k + 1⟩ :: stack) := by
    rw [rgmHashMapFindNext]
    simp only [hleft]
    rw [scanChild_succ, hidx, if_pos hchild, hnext]
    exact if_pos hchild
  rw [rgmHashMapResume, hfind]

/-! ## The loop is a visit -/

/-- The visit that the validator makes. -/
abbrev validateVisit (img : Mem) (highWater : Nat) : Nat → Nat → BitVec 32 → BitVec 32 →
    Option Nat :=
  visit (hashMapLinks img) (rgmHashMapNodeOk img highWater)

/-- The children of a node from `k` on, visited through the stack. -/
theorem resume_eq_visitSlots {off : BitVec 32} {stack : List ValidateFrame} {depth n : Nat}
    (hloop : ∀ m ≤ n, ∀ k c, rgmHashMapValidateLoop img highWater m (⟨off, k⟩ :: stack) off c =
      (validateVisit img highWater depth m off c).bind fun left =>
        rgmHashMapResume img highWater left (⟨off, k⟩ :: stack))
    {ks : List (Fin 4)} {k : Nat} (hks : (List.finRange 4).drop k = ks) (hk : k ≤ 4) {m : Nat}
    (hm : m ≤ n) :
    rgmHashMapResume img highWater m (⟨off, k⟩ :: stack) =
      (visitSlots (fun n c => validateVisit img highWater depth n off c)
        (ks.map (hashMapLinks img off)) m).bind fun left =>
          rgmHashMapResume img highWater left stack := by
  induction ks generalizing k m with
  | nil =>
    have hlen := congrArg List.length hks
    rw [List.length_drop, List.length_finRange] at hlen
    obtain rfl : k = 4 := by
      have : 4 - k = 0 := hlen
      omega
    exact resume_done ..
  | cons i rest ih =>
    have hlt : k < 4 := by
      have hlen := congrArg List.length hks
      rw [List.length_drop, List.length_finRange] at hlen
      have : 4 - k = rest.length + 1 := hlen
      omega
    have hdrop := List.drop_eq_getElem_cons (l := List.finRange 4) (i := k)
      (by rwa [List.length_finRange])
    rw [hks, List.getElem_finRange] at hdrop
    obtain ⟨rfl, hrest⟩ := List.cons.inj hdrop
    rw [List.map_cons]
    have hlink : hashMapLinks img off (Fin.cast List.length_finRange ⟨k, by
        rwa [List.length_finRange]⟩) = slotLink (HashMapNode.child img off k) := rfl
    rw [hlink]
    by_cases hchild : HashMapNode.child img off k = 0
    · rw [resume_skip hlt hchild, hchild, slotLink_zero, visitSlots]
      exact ih hrest.symm hlt hm
    · rw [resume_enter hlt hchild, slotLink_of_ne hchild, visitSlots, hloop m hm, Option.bind_assoc]
      cases hvisit : validateVisit img highWater depth m off (HashMapNode.child img off k) with
      | none => rfl
      | some left => exact ih hrest.symm hlt ((visit_le hvisit).trans hm)

/-- The stack machine visits what is below a node, then resumes with the stack it had. -/
theorem rgmHashMapValidateLoop_eq {budget : Nat} {stack : List ValidateFrame} {depth : Nat}
    (hdepth : stack.length + depth = rgmHashMapValidateMaxDepth) {parent off : BitVec 32} :
    rgmHashMapValidateLoop img highWater budget stack parent off =
      (validateVisit img highWater depth budget parent off).bind fun left =>
        rgmHashMapResume img highWater left stack := by
  induction budget using Nat.strong_induction_on generalizing stack depth parent off with
  | _ budget ih =>
    cases budget with
    | zero => cases depth <;> rfl
    | succ budget =>
      rw [validateLoop_succ]
      cases depth with
      | zero =>
        rw [if_pos (.inl hdepth)]
        rfl
      | succ depth =>
        have hroom : stack.length ≠ rgmHashMapValidateMaxDepth := by omega
        unfold validateVisit
        rw [visit]
        cases hok : rgmHashMapNodeOk img highWater parent off with
        | false => simp
        | true =>
          simp only [hroom, Bool.true_eq_false, or_self, if_false, Nat.succ_ne_zero,
            Nat.add_sub_cancel]
          refine resume_eq_visitSlots (fun m hm k c => ?_) List.drop_zero (Nat.zero_le 4)
            (Nat.le_refl budget)
          refine ih m (Nat.lt_succ_of_le hm) ?_
          simp only [List.length_cons]
          omega

/-- The validator is a visit to depth 256. -/
theorem rgmHashMapValidateSubtree_eq (root : BitVec 32) (budget : Nat) :
    rgmHashMapValidateSubtree img highWater root budget =
      validateVisit img highWater rgmHashMapValidateMaxDepth budget 0 root := by
  rw [rgmHashMapValidateSubtree, rgmHashMapValidateLoop_eq (Nat.zero_add rgmHashMapValidateMaxDepth)]
  exact Option.bind_fun_some _

theorem rgmHashMapValidateRoots_eq (roots : List (BitVec 32)) (budget : Nat) :
    rgmHashMapValidateRoots img highWater roots budget =
      visitSlots (fun n c => validateVisit img highWater rgmHashMapValidateMaxDepth n 0 c)
        (roots.map slotLink) budget := by
  induction roots generalizing budget with
  | nil => rfl
  | cons root rest ih =>
    rw [rgmHashMapValidateRoots, List.map_cons]
    by_cases hroot : root = 0
    · rw [if_neg (not_not.mpr hroot), hroot, slotLink_zero, visitSlots]
      exact ih budget
    · rw [if_pos hroot, slotLink_of_ne hroot, visitSlots, rgmHashMapValidateSubtree_eq]
      cases validateVisit img highWater rgmHashMapValidateMaxDepth budget 0 root with
      | none => rfl
      | some left => exact ih left

end

/-! ## What is accepted -/

/-- The low bits of an offset, as divisibility. -/
theorem mask_eq_zero_iff {w k : Nat} {x : BitVec w} (hk : k ≤ w) :
    x &&& BitVec.ofNat w (2 ^ k - 1) = 0 ↔ 2 ^ k ∣ x.toNat := by
  have hmask : (2 ^ k - 1) % 2 ^ w = 2 ^ k - 1 :=
    Nat.mod_eq_of_lt (Nat.lt_of_lt_of_le (Nat.sub_lt (Nat.two_pow_pos k) Nat.one_pos)
      (Nat.pow_le_pow_right (by decide) hk))
  have hzero : (0 : BitVec w).toNat = 0 := Nat.zero_mod _
  rw [← BitVec.toNat_inj, BitVec.toNat_and, BitVec.toNat_ofNat, hmask, hzero,
    Nat.and_two_pow_sub_one_eq_mod, Nat.dvd_iff_mod_eq_zero]

/-- A node passes when it lies inside, on an 8-byte boundary and above its parent. -/
theorem rgmHashMapNodeOk_iff {img : Mem} {highWater : Nat} {parent off : BitVec 32} :
    rgmHashMapNodeOk img highWater parent off = true ↔
      NodeInside img highWater off ∧ 8 ∣ off.toNat ∧ parent.toNat < off.toNat := by
  have hmask : off &&& 7 = 0 ↔ 8 ∣ off.toNat := mask_eq_zero_iff (w := 32) (k := 3) (by decide)
  unfold rgmHashMapNodeOk NodeInside
  simp only [Bool.and_eq_true, Bool.not_eq_true', Bool.or_eq_false_iff, decide_eq_false_iff_not,
    not_not, hmask]
  constructor
  · rintro ⟨⟨⟨⟨h1, h2⟩, h3⟩, h4⟩, h5⟩
    exact ⟨⟨by omega, by omega⟩, h3, by omega⟩
  · rintro ⟨⟨h1, h2⟩, h3, h4⟩
    exact ⟨⟨⟨⟨by omega, by omega⟩, h3⟩, by omega⟩, by omega⟩

/-- The index of an image leads to a forest that the validator accepts. -/
structure Accepted (img : Mem) (highWater : Nat) (index : Fin 4096 → BitVec 32)
    (forest : Fin 4096 → Trie 4 (BitVec 32)) : Prop where
  unfolds : ∀ i, Unfolds (hashMapLinks img) (forest i) (slotLink (index i))
  checked : ∀ i, Checked (rgmHashMapNodeOk img highWater) rgmHashMapValidateMaxDepth 0 (forest i)
  size : (listAll forest).length ≤ highWater / HashMapNode.size

/-- The validator decides acceptance. -/
theorem rgmHashMapValidateRoots_isSome_iff {img : Mem} {highWater : Nat}
    {index : Fin 4096 → BitVec 32} :
    (rgmHashMapValidateRoots img highWater ((List.finRange 4096).map index)
      (highWater / HashMapNode.size)).isSome ↔ ∃ forest, Accepted img highWater index forest := by
  have hlinks : ((List.finRange 4096).map index).map slotLink =
      (List.finRange 4096).map fun i => slotLink (index i) := List.map_map
  have hrow : ∀ left, visitSlots
      (fun n c => validateVisit img highWater rgmHashMapValidateMaxDepth n 0 c)
      ((List.finRange 4096).map fun i => slotLink (index i)) (highWater / HashMapNode.size) =
        some left ↔ _ := fun left => @visitSlots_finRange (BitVec 32) 4 4096
    (fun n c => validateVisit img highWater rgmHashMapValidateMaxDepth n 0 c)
    (fun t r => Unfolds (hashMapLinks img) t r ∧
      Checked (rgmHashMapNodeOk img highWater) rgmHashMapValidateMaxDepth 0 t)
    unfolds_none_iff (fun _ _ _ => visit_eq_some_iff) (fun i => slotLink (index i))
    (highWater / HashMapNode.size) left
  rw [rgmHashMapValidateRoots_eq, hlinks, Option.isSome_iff_exists]
  constructor
  · rintro ⟨left, hleft⟩
    obtain ⟨forest, hforest, hcost⟩ := (hrow left).mp hleft
    exact ⟨forest, fun i => (hforest i).1, fun i => (hforest i).2, by omega⟩
  · rintro ⟨forest, h⟩
    have := h.size
    exact ⟨highWater / HashMapNode.size - (listAll forest).length,
      (hrow _).mpr ⟨forest, fun i => ⟨h.unfolds i, h.checked i⟩, by omega⟩⟩

/-- The conditions on the header, one by one. -/
structure HeaderOk (img : Mem) (cap committed : Nat) : Prop where
  magic : PersistHeader.magic img = rgmHashMapMagic
  version : PersistHeader.version img = rgmHashMapPersistVersion
  topBits : PersistHeader.topBits img = rgmHashMapIndexTopBits
  above : rgmCacheLine ≤ (PersistHeader.indexOffset img).toNat
  word : (PersistHeader.indexOffset img).toNat ≤ 2 ^ 32 - 1
  aligned : 4 ∣ (PersistHeader.indexOffset img).toNat
  covered : (PersistHeader.indexOffset img).toNat + rgmHashMapIndexBytes ≤
    (PersistHeader.highWater img).toNat
  cap : (PersistHeader.highWater img).toNat ≤ cap
  committed : (PersistHeader.highWater img).toNat ≤ committed

theorem rgmHashMapHeaderOk_iff {img : Mem} {cap committed : Nat} :
    rgmHashMapHeaderOk img cap committed = true ↔ HeaderOk img cap committed := by
  have hmask : PersistHeader.indexOffset img &&& 3 = 0 ↔
      4 ∣ (PersistHeader.indexOffset img).toNat := mask_eq_zero_iff (w := 64) (k := 2) (by decide)
  unfold rgmHashMapHeaderOk
  simp only [Bool.not_eq_true', Bool.or_eq_false_iff, decide_eq_false_iff_not, not_not, hmask]
  constructor
  · rintro ⟨⟨⟨⟨⟨⟨⟨⟨⟨⟨h1, h2⟩, h3⟩, h4⟩, h5⟩, h6⟩, h7⟩, h8⟩, h9⟩, h10⟩, h11⟩
    exact ⟨h1, h2, h3, by omega, by omega, h8, by omega, by omega, by omega⟩
  · rintro ⟨h1, h2, h3, h4, h5, h6, h7, h8, h9⟩
    exact ⟨⟨⟨⟨⟨⟨⟨⟨⟨⟨h1, h2⟩, h3⟩, by omega⟩, by omega⟩, by omega⟩, by omega⟩, h6⟩, by omega⟩, by omega⟩,
      by omega⟩

/-! ## Open -/

/-- The index that an image holds. -/
def savedIndex (img : Mem) : Fin 4096 → BitVec 32 :=
  indexCopy img (PersistHeader.indexOffset img).toNat

/-- The conditions under which `rgHashMapOpen` accepts an arena. -/
structure Openable (s : ArenaState) (forest : Fin 4096 → Trie 4 (BitVec 32)) : Prop where
  live : s.base ≠ 0
  room : PersistHeader.size ≤ s.committed
  header : HeaderOk s.img s.reserved s.committed
  accepted : Accepted s.img (PersistHeader.highWater s.img).toNat (savedIndex s.img) forest

/-- The arena with another position. -/
def ArenaState.setPos (s : ArenaState) (pos : Nat) : ArenaState := { s with pos := pos }

@[simp] theorem setPos_img (s : ArenaState) (pos : Nat) : (s.setPos pos).img = s.img := rfl
@[simp] theorem setPos_pos (s : ArenaState) (pos : Nat) : (s.setPos pos).pos = pos := rfl
@[simp] theorem setPos_base (s : ArenaState) (pos : Nat) : (s.setPos pos).base = s.base := rfl
@[simp] theorem setPos_capacity (s : ArenaState) (pos : Nat) :
    rgArenaCapacity (s.setPos pos).toArena = rgArenaCapacity s.toArena := rfl

/-- The arena after a successful open. -/
def ArenaState.opened (s : ArenaState) : ArenaState :=
  s.setPos (PersistHeader.highWater s.img).toNat

@[simp] theorem opened_img (s : ArenaState) : s.opened.img = s.img := setPos_img ..
@[simp] theorem opened_base (s : ArenaState) : s.opened.base = s.base := setPos_base ..
@[simp] theorem opened_capacity (s : ArenaState) :
    rgArenaCapacity s.opened.toArena = rgArenaCapacity s.toArena := setPos_capacity ..
@[simp] theorem opened_pos (s : ArenaState) :
    s.opened.pos = (PersistHeader.highWater s.img).toNat := setPos_pos ..

/-- What an open does to an image that it accepts. -/
theorem rgHashMapOpen_eq {s : ArenaState} {forest : Fin 4096 → Trie 4 (BitVec 32)}
    (h : Openable s forest) (map : HashMap) :
    rgHashMapOpen map s = (.ok, ⟨true, savedIndex s.img⟩, s.opened) := by
  have hcap : rgArenaCapacity s.toArena = s.reserved := if_pos (decide_eq_true h.live)
  have hroom : ¬ s.committed < PersistHeader.size := Nat.not_lt.mpr h.room
  obtain ⟨left, hleft⟩ := Option.isSome_iff_exists.mp
    (rgmHashMapValidateRoots_isSome_iff.mpr ⟨forest, h.accepted⟩)
  unfold rgHashMapOpen
  rw [if_neg h.live, if_neg hroom, hcap, rgmHashMapHeaderOk_iff.mpr h.header]
  dsimp only
  rw [if_neg (by decide)]
  unfold savedIndex at hleft
  rw [hleft]
  rfl

/-- An open either accepts, or changes nothing. -/
theorem rgHashMapOpen_cases (map : HashMap) (s : ArenaState) :
    (∃ forest, Openable s forest) ∨
      (¬ ∃ forest, Openable s forest) ∧ ∃ e, rgHashMapOpen map s = (e, map, s) ∧ e ≠ .ok := by
  unfold rgHashMapOpen
  by_cases hlive : s.base = 0
  · rw [if_pos hlive]
    exact .inr ⟨fun ⟨_, h⟩ => h.live hlive, _, rfl, by decide⟩
  rw [if_neg hlive]
  have hcap : rgArenaCapacity s.toArena = s.reserved := if_pos (decide_eq_true hlive)
  by_cases hroom : s.committed < PersistHeader.size
  · rw [if_pos hroom]
    exact .inr ⟨fun ⟨_, h⟩ => absurd h.room (Nat.not_le.mpr hroom), _, rfl, by decide⟩
  rw [if_neg hroom, hcap]
  cases hheader : rgmHashMapHeaderOk s.img s.reserved s.committed with
  | false =>
    refine .inr ⟨fun ⟨_, h⟩ => ?_, .errFormat, rfl, by decide⟩
    rw [rgmHashMapHeaderOk_iff.mpr h.header] at hheader
    cases hheader
  | true =>
    dsimp only
    rw [if_neg (by decide)]
    cases hroots : rgmHashMapValidateRoots s.img (PersistHeader.highWater s.img).toNat
        ((List.finRange 4096).map (indexCopy s.img (PersistHeader.indexOffset s.img).toNat))
        ((PersistHeader.highWater s.img).toNat / HashMapNode.size) with
    | none =>
      refine .inr ⟨fun ⟨forest, h⟩ => ?_, .errFormat, rfl, by decide⟩
      have hsome := rgmHashMapValidateRoots_isSome_iff.mpr ⟨forest, h.accepted⟩
      unfold savedIndex at hsome
      rw [hroots] at hsome
      cases hsome
    | some left =>
      have hsome := Option.isSome_iff_exists.mpr ⟨left, hroots⟩
      obtain ⟨forest, hacc⟩ := rgmHashMapValidateRoots_isSome_iff.mp hsome
      exact .inl ⟨forest, hlive, Nat.not_lt.mp hroom, rgmHashMapHeaderOk_iff.mp hheader, hacc⟩

theorem rgHashMapOpen_ok_iff (map : HashMap) (s : ArenaState) :
    (rgHashMapOpen map s).1 = .ok ↔ ∃ forest, Openable s forest := by
  constructor
  · intro hok
    rcases rgHashMapOpen_cases map s with h | ⟨-, e, heq, he⟩
    · exact h
    · rw [heq] at hok
      exact absurd hok he
  · rintro ⟨forest, h⟩
    rw [rgHashMapOpen_eq h]

/-! ## The opened map -/

/-- A map whose nodes can be read: its links unfold to a forest inside the arena. -/
structure HashMap.Readable (map : HashMap) (s : ArenaState)
    (forest : Fin 4096 → Trie 4 (BitVec 32)) : Prop where
  live : rgmMapIsLive map s.toArena = true
  unfolds : ∀ i, Unfolds (hashMapLinks s.img) (forest i) (slotLink (map.top i))
  inside : ∀ a ∈ listAll forest, NodeInside s.img s.pos a

theorem Openable.readable {s : ArenaState} {forest : Fin 4096 → Trie 4 (BitVec 32)}
    (h : Openable s forest) : HashMap.Readable ⟨true, savedIndex s.img⟩ s.opened forest := by
  refine ⟨?_, fun i => ?_, fun a ha => ?_⟩
  · have hbase : s.opened.base ≠ 0 := by
      rw [opened_base]
      exact h.live
    exact decide_eq_true hbase
  · rw [opened_img]
    exact h.accepted.unfolds i
  · rw [opened_img, opened_pos]
    obtain ⟨i, hi⟩ := mem_listAll.mp ha
    exact (h.accepted.checked i).forall (P := NodeInside s.img (PersistHeader.highWater s.img).toNat)
      (fun _ _ hok => (rgmHashMapNodeOk_iff.mp hok).1) a hi

end RgMemory
