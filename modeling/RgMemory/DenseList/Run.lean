import RgMemory.Arena.Run
import RgMemory.DenseList.Model
import RgMemory.FreeList.Run
import RgMemory.Lib.SwapList

/-!
# Runs of a dense list

A dense list in use: allocations, frees of live blocks, clears, and client writes into live blocks.
What it stores is the list of the byte contents of its live blocks, and each step does to that list
what a sequence with swap-remove does (`step_refines`): an allocation appends whatever the slot
holds, a free moves the last element into the gap.

A free copies one block over another. The copy is 16 bytes a round and ends at the block's size
because that is a multiple of 16 below `2 ^ 32` (`rgmDenselistMove_eq`).
-/

namespace RgMemory

open Bytes SwapList

/-- The address of slot `i`. -/
def DenseList.slot (dl : DenseList) (i : Nat) : Nat := dl.buffer + i * dl.blockSize

/-- A step of a run: a library call on a live slot, or a client write to a byte of one. -/
inductive DenseListEvent
  | alloc
  | allocFast
  | free (i : Nat)
  | clear
  | write (i off : Nat) (v : Byte)

/-- What the step does to the sequence of blocks. -/
def DenseListEvent.op : DenseListEvent → Op (List Byte)
  | .alloc => .append
  | .allocFast => .append
  | .free i => .remove i
  | .clear => .clear
  | .write i off v => .edit i fun block => block.set off v

/-- The list and the memory. -/
structure DenseListRun where
  list : DenseList
  mem : Mem

namespace DenseListRun

/-- The byte contents of the live blocks. -/
def contents (r : DenseListRun) : List (List Byte) :=
  (List.range r.list.count).map fun i => slice r.mem (r.list.slot i) r.list.blockSize

/-- One step, `none` when a call does not end. A client frees and writes live blocks only. -/
def step (r : DenseListRun) : DenseListEvent → Option DenseListRun
  | .alloc => some { r with list := (rgDenseListAlloc r.list).2 }
  | .allocFast => some { r with list := (rgDenseListAllocFast r.list).2 }
  | .free i =>
    if i < r.list.count then
      (rgDenseListFree r.mem r.list (r.list.slot i)).map fun a => ⟨a.2, a.1⟩
    else some r
  | .clear => some { r with list := rgDenseListClear r.list }
  | .write i off v =>
    if i < r.list.count ∧ off < r.list.blockSize then
      some { r with mem := fun x => if x = r.list.slot i + off then v else r.mem x }
    else some r

def run (r : DenseListRun) (events : List DenseListEvent) : Option DenseListRun :=
  events.foldlM step r

/-- The start of a run: a list that one of the creators has just made. -/
inductive Fresh (page : Nat) : DenseListRun → Prop
  | create {os : OsReply} {a a' : ArenaState} {list list' : DenseList} {blockSize : BitVec 64}
      {maxBlocks : BitVec 32} (arena : a.Ok page)
      (made : rgDenseListCreate page os a list blockSize.toNat maxBlocks.toNat = (.ok, a', list')) :
      Fresh page ⟨list', a'.mem⟩
  | createFromMemory {m : Mem} {buffer bufferSize : Nat} {list list' : DenseList}
      {blockSize : BitVec 64} {maxBlocks : BitVec 32} (memory : buffer + bufferSize ≤ 2 ^ 64)
      (made : rgDenseListCreateFromMemory buffer bufferSize list blockSize.toNat maxBlocks.toNat =
        (.ok, list')) :
      Fresh page ⟨list', m⟩

/-- A list whose blocks fit the address space, in steps of 16 bytes. -/
structure Sound (r : DenseListRun) : Prop where
  live : r.list.buffer ≠ 0
  size_pos : 0 < r.list.blockSize
  size_dvd : 16 ∣ r.list.blockSize
  size_lt : r.list.blockSize < 2 ^ 32
  fits : r.list.buffer + r.list.maxBlocks * r.list.blockSize ≤ 2 ^ 64
  max_lt : r.list.maxBlocks < 2 ^ 32
  count_le : r.list.count ≤ r.list.maxBlocks

end DenseListRun

/-! ## The checks -/

theorem rgmDenselistEffectiveBlockSize_eq (blockSize : Nat) :
    rgmDenselistEffectiveBlockSize blockSize = roundedBlockSize (max blockSize 1) := by
  have hmax : (if blockSize = 0 then 1 else blockSize) = max blockSize 1 := by
    split <;> omega
  rw [rgmDenselistEffectiveBlockSize, hmax]
  rfl

theorem rgmDenselistEffectiveBlockSize_lt (blockSize : Nat) :
    rgmDenselistEffectiveBlockSize blockSize < 2 ^ 32 := by
  rw [rgmDenselistEffectiveBlockSize_eq]
  exact roundedBlockSize_lt _

theorem rgmDenselistCheck_spec {blockSize maxBlocks bs : Nat}
    (h : rgmDenselistCheck blockSize maxBlocks = .ok bs) :
    0 < bs ∧ 16 ∣ bs ∧ bs < 2 ^ 32 ∧ bs * maxBlocks < 2 ^ 64 := by
  obtain ⟨rfl, -, hbs, hmul⟩ := poolCheck_spec h
  have hdvd : 16 ∣ rgmDenselistEffectiveBlockSize blockSize := by
    rw [rgmDenselistEffectiveBlockSize_eq]
    exact roundedBlockSize_dvd _
  exact ⟨hbs, hdvd, rgmDenselistEffectiveBlockSize_lt blockSize, hmul⟩

theorem rgmDenselistCheck_error {blockSize maxBlocks : Nat} {e : Status}
    (h : rgmDenselistCheck blockSize maxBlocks = .error e) : e ≠ .ok := poolCheck_error h

/-! ## The move -/

/-- A round of the move copies 16 bytes. -/
theorem rgmDenselistCopy16_eq (m : Mem) {dst src : Nat} :
    rgmDenselistCopy16 m dst src = copy m dst (fun i => m (src + i)) 16 := by
  have hnext : (fun i => m (src + 8 + i)) = fun i => m (src + (8 + i)) :=
    funext fun i => by rw [Nat.add_assoc]
  rw [rgmDenselistCopy16, store64_load64, store64_load64, hnext]
  exact copy_append m dst (fun i => m (src + i)) 8 8

/-- The move copies the block, when its size is a multiple of 16 that fits 32 bits and source and
destination are apart. -/
theorem rgmDenselistMove_eq (m : Mem) {dst src n : Nat} (hdvd : 16 ∣ n) (hn : n < 2 ^ 32)
    (hapart : Apart dst n src n) :
    rgmDenselistMove dst src n (2 ^ 32) m 0 = some (copy m dst (fun i => m (src + i)) n) := by
  obtain ⟨k, rfl⟩ := hdvd
  -- the induction runs on the rounds that are left; `j` of them are done
  suffices key : ∀ left j fuel, j + left = k → left < fuel →
      rgmDenselistMove dst src (16 * k) fuel (copy m dst (fun i => m (src + i)) (16 * j)) (16 * j) =
        some (copy m dst (fun i => m (src + i)) (16 * k)) by
    have hall := key k 0 (2 ^ 32) (Nat.zero_add k) (by omega)
    rwa [Nat.mul_zero, copy_zero] at hall
  intro left
  induction left with
  | zero =>
    intro j fuel hj hfuel
    obtain ⟨fuel, rfl⟩ := Nat.exists_eq_add_of_lt hfuel
    obtain rfl : j = k := by omega
    rw [Nat.zero_add, rgmDenselistMove, if_neg (Nat.lt_irrefl _)]
  | succ left ih =>
    intro j fuel hj hfuel
    obtain ⟨fuel, rfl⟩ := Nat.exists_eq_add_of_lt hfuel
    have hstep : (16 * j + 16) % 2 ^ 32 = 16 * (j + 1) := by omega
    have hread : (fun i => copy m dst (fun i => m (src + i)) (16 * j) (src + 16 * j + i)) = fun i =>
        if i < 16 then m (src + (16 * j + i))
        else copy m dst (fun i => m (src + i)) (16 * j) (src + 16 * j + i) := by
      funext i
      unfold Apart at hapart
      by_cases hi : i < 16
      · rw [if_pos hi, copy_out _ _ (by unfold Out; omega), Nat.add_assoc]
      · rw [if_neg hi]
    have hround : rgmDenselistCopy16 (copy m dst (fun i => m (src + i)) (16 * j)) (dst + 16 * j)
        (src + 16 * j) = copy m dst (fun i => m (src + i)) (16 * (j + 1)) := by
      rw [rgmDenselistCopy16_eq, hread, Nat.mul_succ, ← copy_append]
      exact copy_congr _ _ fun i hi => if_pos hi
    rw [rgmDenselistMove, if_pos (by omega), hround, hstep]
    exact ih (j + 1) _ (by omega) (by omega)

/-! ## Contents -/

namespace DenseListRun

@[simp] theorem contents_length (r : DenseListRun) : r.contents.length = r.list.count := by
  simp [contents]

theorem contents_getElem? (r : DenseListRun) {i : Nat} (hi : i < r.list.count) :
    r.contents[i]? = some (slice r.mem (r.list.slot i) r.list.blockSize) := by
  simp [contents, hi]

/-- Two lists of contents are one when their lengths and blocks are. -/
theorem contents_eq {r : DenseListRun} {l : List (List Byte)} (hlen : l.length = r.list.count)
    (hget : ∀ i, i < r.list.count →
      l[i]? = some (slice r.mem (r.list.slot i) r.list.blockSize)) : r.contents = l := by
  apply List.ext_getElem?
  intro i
  rcases Nat.lt_or_ge i r.list.count with hi | hi
  · rw [r.contents_getElem? hi, hget i hi]
  · rw [List.getElem?_eq_none (by simpa using hi), List.getElem?_eq_none (by omega)]

/-- The memory after a free of slot `i`: the last block is copied over it, unless it is the last
itself. -/
def moved (r : DenseListRun) (i : Nat) : Mem :=
  if i = r.list.count - 1 then r.mem
  else
    copy r.mem (r.list.slot i) (fun k => r.mem (r.list.slot (r.list.count - 1) + k))
      r.list.blockSize

namespace Sound

variable {r : DenseListRun}

theorem isLive (h : r.Sound) : rgmDenselistIsLive r.list = true := decide_eq_true h.live

theorem alloc_of_lt (h : r.Sound) (hroom : r.list.count < r.list.maxBlocks) :
    rgDenseListAlloc r.list =
      (r.list.slot r.list.count, { r.list with count := r.list.count + 1 }) := by
  have hmax := h.max_lt
  have hmod : (r.list.count + 1) % 2 ^ 32 = r.list.count + 1 := Nat.mod_eq_of_lt (by omega)
  have hgo : ¬ ((!rgmDenselistIsLive r.list) = true ∨ r.list.count ≥ r.list.maxBlocks) := by
    simp [h.isLive, hroom]
  rw [rgDenseListAlloc, if_neg hgo, hmod]
  rfl

theorem alloc_of_full (hfull : r.list.count = r.list.maxBlocks) :
    rgDenseListAlloc r.list = (0, r.list) := by
  have hstop : (!rgmDenselistIsLive r.list) = true ∨ r.list.count ≥ r.list.maxBlocks :=
    .inr (Nat.le_of_eq hfull.symm)
  rw [rgDenseListAlloc, if_pos hstop]

theorem free_eq (h : r.Sound) {i : Nat} (hi : i < r.list.count) :
    rgDenseListFree r.mem r.list (r.list.slot i) =
      some (r.moved i, { r.list with count := r.list.count - 1 }) := by
  have hgo : ¬ ((!rgmDenselistIsLive r.list) = true ∨ r.list.count = 0) := by
    rw [h.isLive]
    simp only [Bool.not_true, Bool.false_eq_true, false_or]
    omega
  rw [rgDenseListFree, if_neg hgo]
  dsimp only
  change Option.map _ (if r.list.slot i ≠ r.list.slot (r.list.count - 1) then _ else _) = _
  unfold moved
  by_cases hlast : i = r.list.count - 1
  · rw [if_pos hlast, if_neg (not_not.mpr (congrArg r.list.slot hlast))]
    rfl
  · have hne : r.list.slot i ≠ r.list.slot (r.list.count - 1) := by
      intro heq
      have hmul := Nat.add_left_cancel heq
      exact hlast (Nat.eq_of_mul_eq_mul_right h.size_pos hmul)
    have hmove := rgmDenselistMove_eq r.mem h.size_dvd h.size_lt
      (stride_apart r.list.buffer r.list.blockSize hlast)
    rw [if_neg hlast, if_pos hne]
    change Option.map _ (rgmDenselistMove (r.list.buffer + i * r.list.blockSize)
      (r.list.buffer + (r.list.count - 1) * r.list.blockSize) r.list.blockSize (2 ^ 32) r.mem 0) = _
    rw [hmove]
    rfl

/-! ## One step -/

/-- The blocks after a free. -/
theorem contents_free {i : Nat} (hi : i < r.list.count) :
    contents ⟨{ r.list with count := r.list.count - 1 }, r.moved i⟩ = swapRemove r.contents i := by
  have hlen : i < r.contents.length := by rwa [contents_length]
  apply contents_eq
  · rw [swapRemove_length hlen, contents_length]
  · intro j hj
    change j < r.list.count - 1 at hj
    rw [swapRemove_getElem? hlen (by rwa [contents_length]), contents_length]
    change _ = some (slice (r.moved i) (r.list.slot j) r.list.blockSize)
    unfold moved
    by_cases hji : j = i
    · -- the gap holds what was last
      subst hji
      rw [if_pos rfl, r.contents_getElem? (by omega), if_neg (by omega)]
      exact congrArg some (slice_congr fun k hk => (copy_in r.mem
        (fun k => r.mem (r.list.slot (r.list.count - 1) + k)) hk).symm)
    · rw [if_neg hji, r.contents_getElem? (by omega)]
      by_cases hlast : i = r.list.count - 1
      · rw [if_pos hlast]
      · rw [if_neg hlast]
        exact congrArg some (slice_copy_apart _ (stride_apart _ _ (Ne.symm hji))).symm

/-- The blocks after a client write. -/
theorem contents_write {i off : Nat} (hoff : off < r.list.blockSize)
    (v : Byte) :
    contents ⟨r.list, fun x => if x = r.list.slot i + off then v else r.mem x⟩ =
      r.contents.modify i fun block => block.set off v := by
  apply contents_eq
  · rw [List.length_modify, contents_length]
  · intro j hj
    change j < r.list.count at hj
    rw [List.getElem?_modify, r.contents_getElem? hj, Option.map_eq_map, Option.map_some]
    change _ = some (slice (fun x => if x = r.list.slot i + off then v else r.mem x)
      (r.list.slot j) r.list.blockSize)
    by_cases hij : i = j
    · subst hij
      simp only [if_true]
      refine congrArg some (List.ext_getElem (by simp) fun k hk hk' => ?_)
      simp only [slice, List.getElem_map, List.getElem_range, List.getElem_set]
      by_cases hko : off = k
      · rw [if_pos hko, if_pos (by omega)]
      · rw [if_neg hko, if_neg (by omega)]
    · simp only [if_neg hij]
      refine congrArg some (slice_congr fun k hk => (if_neg fun heq => ?_).symm)
      have hapart : Apart (r.list.slot i) r.list.blockSize (r.list.slot j) r.list.blockSize :=
        stride_apart _ _ hij
      unfold Apart at hapart
      omega

/-- A list whose count changes within its bounds stays sound. -/
theorem recount (h : r.Sound) {n : Nat} (hn : n ≤ r.list.maxBlocks) (m : Mem) :
    Sound ⟨{ r.list with count := n }, m⟩ :=
  ⟨h.live, h.size_pos, h.size_dvd, h.size_lt, h.fits, h.max_lt, hn⟩

/-- What a step keeps: the invariant, and all of the control block but the count. -/
def Next (r r' : DenseListRun) : Prop :=
  r'.Sound ∧ r'.list.buffer = r.list.buffer ∧ r'.list.blockSize = r.list.blockSize ∧
    r'.list.maxBlocks = r.list.maxBlocks

theorem alloc_refines (h : r.Sound) :
    Next r ⟨(rgDenseListAlloc r.list).2, r.mem⟩ ∧
      Step (fun b => b.length = r.list.blockSize) r.list.maxBlocks r.contents .append
        (contents ⟨(rgDenseListAlloc r.list).2, r.mem⟩) := by
  rcases Nat.lt_or_eq_of_le h.count_le with hroom | hfull
  · rw [h.alloc_of_lt hroom]
    refine ⟨⟨h.recount hroom _, rfl, rfl, rfl⟩, ?_⟩
    have happ : contents ⟨{ r.list with count := r.list.count + 1 }, r.mem⟩ =
        r.contents ++ [slice r.mem (r.list.slot r.list.count) r.list.blockSize] := by
      simp [contents, List.range_succ, DenseList.slot]
    rw [happ]
    exact .append (by rwa [contents_length]) (slice_length _ _ _)
  · rw [alloc_of_full hfull]
    exact ⟨⟨h, rfl, rfl, rfl⟩, .full (by rwa [contents_length])⟩

/-- **One step.** It ends, keeps the invariant, and does to the contents what the operation does to
a sequence. -/
theorem step_refines (h : r.Sound) (e : DenseListEvent) :
    ∃ r', r.step e = some r' ∧ Next r r' ∧
      Step (fun b => b.length = r.list.blockSize) r.list.maxBlocks r.contents e.op r'.contents := by
  cases e with
  | alloc => exact ⟨_, rfl, h.alloc_refines.1, h.alloc_refines.2⟩
  | allocFast =>
    have hfast : rgDenseListAllocFast r.list = rgDenseListAlloc r.list := by
      simp [rgDenseListAllocFast, rgDenseListAlloc, rgmDenselistIsLive]
    refine ⟨⟨(rgDenseListAllocFast r.list).2, r.mem⟩, rfl, ?_⟩
    rw [hfast]
    exact h.alloc_refines
  | free i =>
    have hcount := h.count_le
    by_cases hi : i < r.list.count
    · refine ⟨⟨{ r.list with count := r.list.count - 1 }, r.moved i⟩, ?_,
        ⟨h.recount (by omega) _, rfl, rfl, rfl⟩, ?_⟩
      · exact (if_pos hi).trans (by rw [h.free_eq hi]; rfl)
      · rw [contents_free hi]
        exact .remove (by rwa [contents_length])
    · exact ⟨r, if_neg hi, ⟨h, rfl, rfl, rfl⟩, .removeNone (by rw [contents_length]; omega)⟩
  | clear =>
    have hclear : rgDenseListClear r.list = { r.list with count := 0 } := if_pos h.isLive
    refine ⟨⟨rgDenseListClear r.list, r.mem⟩, rfl, ?_⟩
    rw [hclear]
    exact ⟨⟨h.recount (Nat.zero_le _) _, rfl, rfl, rfl⟩, .clear⟩
  | write i off v =>
    by_cases hin : i < r.list.count ∧ off < r.list.blockSize
    · refine ⟨_, if_pos hin, ⟨h.recount h.count_le _, rfl, rfl, rfl⟩, ?_⟩
      rw [contents_write hin.2]
      exact .edit
    · refine ⟨r, if_neg hin, ⟨h, rfl, rfl, rfl⟩, ?_⟩
      have hsame : r.contents.modify i (fun block => block.set off v) = r.contents := by
        apply List.ext_getElem?
        intro j
        rw [List.getElem?_modify, Option.map_eq_map]
        rcases Nat.lt_or_ge j r.list.count with hj | hj
        · rw [r.contents_getElem? hj, Option.map_some]
          by_cases hij : i = j
          · subst hij
            simp only [if_true]
            rw [List.set_eq_of_length_le]
            rw [slice_length]
            omega
          · simp only [if_neg hij]
        · rw [List.getElem?_eq_none (by simpa using hj)]
          rfl
      have hedit := @Step.edit _ (fun b : List Byte => b.length = r.list.blockSize)
        r.list.maxBlocks r.contents i fun block => block.set off v
      rwa [hsame] at hedit

/-- A whole run ends, keeps the invariant, and is a run of the sequence. -/
theorem run_refines (h : r.Sound) (events : List DenseListEvent) :
    ∃ r', r.run events = some r' ∧ Next r r' ∧
      Run (fun b => b.length = r.list.blockSize) r.list.maxBlocks r.contents
        (events.map DenseListEvent.op) r'.contents := by
  induction events generalizing r with
  | nil => exact ⟨r, rfl, ⟨h, rfl, rfl, rfl⟩, .nil⟩
  | cons e events ih =>
    obtain ⟨r1, hstep, ⟨hsound, hbuf, hsize, hmax⟩, hrefines⟩ := h.step_refines e
    obtain ⟨r2, hrun, ⟨hsound', hbuf', hsize', hmax'⟩, hrest⟩ := ih hsound
    rw [hsize, hmax] at hrest
    refine ⟨r2, ?_, ⟨hsound', hbuf'.trans hbuf, hsize'.trans hsize, hmax'.trans hmax⟩,
      .cons hrefines hrest⟩
    rw [run, List.foldlM_cons, hstep]
    exact hrun

/-! ## Queries -/

theorem at_eq (h : r.Sound) (i : Nat) :
    rgDenseListAt r.list i = if i < r.list.count then r.list.slot i else 0 := by
  rw [rgDenseListAt, h.isLive]
  by_cases hi : i < r.list.count
  · rw [if_pos hi, if_neg (by simpa using hi)]
    rfl
  · rw [if_neg hi, if_pos (.inr (by omega))]

theorem atFast_eq (h : r.Sound) (i : Nat) :
    rgDenseListAtFast r.list i = if i < r.list.count then r.list.slot i else 0 := by
  rw [← h.at_eq]
  simp [rgDenseListAtFast, rgDenseListAt, rgmDenselistIsLive]

/-- `IndexOf` of the start of a slot is the slot's number. -/
theorem indexOf_slot (h : r.Sound) {i : Nat} (hi : i < r.list.maxBlocks) :
    rgDenseListIndexOf r.list (r.list.slot i) = i := by
  have hlive := h.live
  have hfits := h.fits
  have hmax := h.max_lt
  have hsize := h.size_pos
  have hend := Nat.mul_lt_mul_of_pos_right hi hsize
  have hbytes : u64 (r.list.maxBlocks * r.list.blockSize) = r.list.maxBlocks * r.list.blockSize :=
    u64_of_lt (by omega)
  have hgo : ¬ ((!rgmDenselistIsLive r.list) = true ∨ r.list.slot i = 0) := by
    rw [h.isLive]
    unfold DenseList.slot
    simp only [Bool.not_true, Bool.false_eq_true, false_or]
    omega
  have hoff : r.list.slot i - r.list.buffer = i * r.list.blockSize := Nat.add_sub_cancel_left ..
  rw [rgDenseListIndexOf, if_neg hgo]
  dsimp only
  have hge : ¬ r.list.slot i < r.list.buffer := Nat.not_lt.mpr (Nat.le_add_right _ _)
  rw [hoff, hbytes, if_neg hge, if_neg (by omega),
    Nat.mul_div_cancel _ hsize, Nat.mod_eq_of_lt (by omega)]

/-- A free leaves every block but the freed one where it is. -/
theorem free_keeps (h : r.Sound) {i j : Nat} (hi : i < r.list.count) (hij : j ≠ i) {m : Mem}
    {list : DenseList} (hfree : rgDenseListFree r.mem r.list (r.list.slot i) = some (m, list)) :
    slice m (r.list.slot j) r.list.blockSize = slice r.mem (r.list.slot j) r.list.blockSize := by
  rw [h.free_eq hi] at hfree
  cases hfree
  unfold moved
  split
  · rfl
  · exact slice_copy_apart _ (stride_apart _ _ (Ne.symm hij))

end Sound

/-! ## The creators -/

theorem fresh_sound {page : Nat} (hpage : IsPageSize page) {r : DenseListRun} (h : Fresh page r) :
    r.Sound ∧ r.contents = [] := by
  cases h with
  | @create os a a' list list' blockSize maxBlocks ha made =>
    unfold rgDenseListCreate at made
    split at made
    · next hcheck =>
      cases made
      exact absurd rfl (rgmDenselistCheck_error hcheck)
    next bs hcheck =>
    obtain ⟨hbs, hdvd, hlt, hmul⟩ := rgmDenselistCheck_spec hcheck
    split at made
    next buffer a1 halloc =>
    split at made
    · exact absurd (congrArg Prod.fst made) (refusal_ne_ok _)
    next hbuf =>
    cases made
    have hend := rgArenaAlloc_end_le hpage ha hmul halloc hbuf
    rw [Nat.mul_comm] at hend
    exact ⟨⟨hbuf, hbs, hdvd, hlt, hend, maxBlocks.isLt, Nat.zero_le _⟩, rfl⟩
  | @createFromMemory m buffer bufferSize list list' blockSize maxBlocks hmem made =>
    unfold rgDenseListCreateFromMemory at made
    split at made
    · cases made
    next hbuf =>
    split at made
    · next hcheck =>
      cases made
      exact absurd rfl (rgmDenselistCheck_error hcheck)
    next bs hcheck =>
    obtain ⟨hbs, hdvd, hlt, hmul⟩ := rgmDenselistCheck_spec hcheck
    split at made
    · cases made
    next hroom =>
    cases made
    have hend : buffer + maxBlocks.toNat * bs ≤ 2 ^ 64 := by
      rw [Nat.mul_comm]
      omega
    exact ⟨⟨hbuf, hbs, hdvd, hlt, hend, maxBlocks.isLt, Nat.zero_le _⟩, rfl⟩

end DenseListRun

/-- **A dense list is a sequence with swap-remove.** Every run of a fresh list ends; the contents of
its live slots are those of a sequence under the same operations, which never holds more than
`maxBlocks` blocks. `At` and `AtFast` answer the live slots and nothing else, `IndexOf` inverts
them, an allocation hands out the next slot, and a free changes no block but the freed one. -/
theorem dense_list_refines_sequence {page : Nat} (hpage : IsPageSize page) {fresh : DenseListRun}
    (hfresh : DenseListRun.Fresh page fresh) (events : List DenseListEvent) :
    ∃ r, fresh.run events = some r ∧
      Run (fun b => b.length = fresh.list.blockSize) fresh.list.maxBlocks []
        (events.map DenseListEvent.op) r.contents ∧
      rgDenseListCount r.list = r.contents.length ∧
      r.contents.length ≤ fresh.list.maxBlocks ∧
      (r.list.buffer = fresh.list.buffer ∧ r.list.blockSize = fresh.list.blockSize ∧
        r.list.maxBlocks = fresh.list.maxBlocks) ∧
      (∀ i, rgDenseListAt r.list i = (if i < r.contents.length then r.list.slot i else 0) ∧
        rgDenseListAtFast r.list i = rgDenseListAt r.list i) ∧
      (∀ i, i < r.contents.length → rgDenseListAt r.list i ≠ 0 ∧
        rgDenseListIndexOf r.list (rgDenseListAt r.list i) = i) ∧
      (∀ answer, answer = rgDenseListAlloc r.list ∨ answer = rgDenseListAllocFast r.list →
        answer.1 = if r.contents.length < fresh.list.maxBlocks then r.list.slot r.contents.length
          else 0) ∧
      (∀ i j, i < r.contents.length → j ≠ i → ∀ m list,
        rgDenseListFree r.mem r.list (r.list.slot i) = some (m, list) →
        slice m (r.list.slot j) r.list.blockSize =
          slice r.mem (r.list.slot j) r.list.blockSize) := by
  obtain ⟨hsound, hempty⟩ := DenseListRun.fresh_sound hpage hfresh
  obtain ⟨r, hrun, ⟨h, hbuf, hsize, hmax⟩, hrefines⟩ := hsound.run_refines events
  rw [hempty] at hrefines
  have hlen := r.contents_length
  have hcount : rgDenseListCount r.list = r.list.count := if_pos h.isLive
  have hle := h.count_le
  rw [hmax] at hle
  refine ⟨r, hrun, hrefines, hcount.trans hlen.symm, hlen ▸ hle, ⟨hbuf, hsize, hmax⟩,
    fun i => ?_, fun i hi => ?_, fun answer hanswer => ?_, fun i j hi hij m list hfree => ?_⟩
  · rw [hlen, h.at_eq, h.atFast_eq]
    exact ⟨rfl, rfl⟩
  · rw [hlen] at hi
    have hlive := h.live
    rw [h.at_eq, if_pos hi]
    refine ⟨?_, h.indexOf_slot (Nat.lt_of_lt_of_le hi h.count_le)⟩
    unfold DenseList.slot
    omega
  · have heq : answer = rgDenseListAlloc r.list := by
      rcases hanswer with rfl | rfl
      · rfl
      · simp [rgDenseListAllocFast, rgDenseListAlloc, rgmDenselistIsLive]
    rw [heq, hlen, ← hmax]
    rcases Nat.lt_or_eq_of_le h.count_le with hroom | hfull
    · rw [h.alloc_of_lt hroom, if_pos hroom]
    · rw [DenseListRun.Sound.alloc_of_full hfull, if_neg (by omega)]
  · rw [hlen] at hi
    exact h.free_keeps hi hij hfree

/-- Two blocks of 16 bytes at address 4096. -/
def sampleDenseList : DenseListRun :=
  ⟨(rgDenseListCreateFromMemory 4096 32 ⟨0, 0, 0, 0⟩ 10 2).2, fun _ => 0⟩

theorem sampleDenseList_fresh : DenseListRun.Fresh 4096 sampleDenseList :=
  @DenseListRun.Fresh.createFromMemory 4096 (fun _ => 0) 4096 32 ⟨0, 0, 0, 0⟩ _ 10 2 (by decide) rfl

/-- Two blocks, an allocation with none left, then the first block freed. -/
def sampleDenseListEvents : List DenseListEvent :=
  [.alloc, .write 0 2 5, .allocFast, .write 1 3 7, .alloc, .free 0]

/-- The block that was last is in the slot of the freed one. -/
theorem sampleDenseList_refines :
    ∃ r, sampleDenseList.run sampleDenseListEvents = some r ∧
      Run (fun b => b.length = 16) 2 [] (sampleDenseListEvents.map DenseListEvent.op) r.contents ∧
      r.contents = [[0, 0, 0, 7, 0, 0, 0, 0, 0, 0, 0, 0, 0, 0, 0, 0]] ∧
      rgDenseListIndexOf r.list (rgDenseListAt r.list 0) = 0 ∧ rgDenseListAt r.list 1 = 0 := by
  obtain ⟨r, hrun, hrefines, -, -, -, hat, hindex, -⟩ :=
    dense_list_refines_sequence ⟨12, by decide, rfl⟩ sampleDenseList_fresh sampleDenseListEvents
  have hcontents : (sampleDenseList.run sampleDenseListEvents).map DenseListRun.contents =
      some [[0, 0, 0, 7, 0, 0, 0, 0, 0, 0, 0, 0, 0, 0, 0, 0]] := by decide
  rw [hrun] at hcontents
  have hone : r.contents = _ := Option.some.inj hcontents
  refine ⟨r, hrun, hrefines, hone, (hindex 0 ?_).2, ?_⟩
  · rw [hone]
    decide
  · rw [(hat 1).1, hone]
    rfl

end RgMemory
