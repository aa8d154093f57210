import Mathlib.Data.List.Nodup
import RgMemory.Arena.Alloc
import RgMemory.FreeList.Checks

/-!
# Runs of a free list

A free list in use: allocations, frees of blocks that are currently allocated, and writes of the
client into such blocks, in any order. `FreeListRun` carries the list, the memory and the blocks
that the client holds.

The invariant is `FreeListRun.Sound`. Its one structural clause says that the chain together with
the allocated blocks is a permutation of the blocks ever handed out; that no block is in both, that
none is lost, and how many there are of each follow from it. A link and a client write touch one
block each, and distinct blocks are apart (`stride_apart`).
-/

namespace RgMemory

open Bytes

/-- The address of block `i`. -/
def FreeList.block (fl : FreeList) (i : Nat) : Nat := fl.buffer + i * fl.blockSize

/-- A call on a free list. -/
inductive FreeListCall
  | alloc
  | allocFast
  | free (ptr : Nat)
  | freeFast (ptr : Nat)

/-- A step of a run: a library call, or a client write to a byte of a block. -/
inductive FreeListEvent
  | call (c : FreeListCall)
  | write (ptr i : Nat) (v : Byte)

/-- The list, the memory, and the blocks that the client holds. -/
structure FreeListRun where
  list : FreeList
  mem : Mem
  allocated : List Nat

namespace FreeListRun

/-- After an allocation: the block handed out is the client's. -/
def take (r : FreeListRun) (answer : Nat × FreeList) : FreeListRun where
  list := answer.2
  mem := r.mem
  allocated := if answer.1 = 0 then r.allocated else answer.1 :: r.allocated

/-- After a free: the block is no longer the client's. -/
def give (r : FreeListRun) (ptr : Nat) (answer : Mem × FreeList) : FreeListRun where
  list := answer.2
  mem := answer.1
  allocated := r.allocated.erase ptr

/-- One call. A client frees only what it holds. -/
def call (r : FreeListRun) : FreeListCall → FreeListRun
  | .alloc => r.take (rgFreeListAlloc r.mem r.list)
  | .allocFast => r.take (rgFreeListAllocFast r.mem r.list)
  | .free p => if p ∈ r.allocated then r.give p (rgFreeListFree r.mem r.list p) else r
  | .freeFast p => if p ∈ r.allocated then r.give p (rgFreeListFreeFast r.mem r.list p) else r

/-- The client writes only into blocks that it holds. -/
def write (r : FreeListRun) (p i : Nat) (v : Byte) : FreeListRun :=
  if p ∈ r.allocated ∧ i < r.list.blockSize then
    { r with mem := fun x => if x = p + i then v else r.mem x }
  else r

def step (r : FreeListRun) : FreeListEvent → FreeListRun
  | .call c => r.call c
  | .write p i v => r.write p i v

def run (r : FreeListRun) (events : List FreeListEvent) : FreeListRun := events.foldl step r

/-- The start of a run: a list that one of the creators has just made. -/
inductive Fresh (page : Nat) : FreeListRun → Prop
  | create {os : OsReply} {a a' : ArenaState} {list list' : FreeList} {blockSize : BitVec 64}
      {maxBlocks : BitVec 32} (arena : a.Ok page)
      (made : rgFreeListCreate page os a list blockSize.toNat maxBlocks.toNat = (.ok, a', list')) :
      Fresh page ⟨list', a'.mem, []⟩
  | createLazy {os : OsReply} {a a' : ArenaState} {list list' : FreeList} {blockSize : BitVec 64}
      {maxBlocks : BitVec 32} (arena : a.Ok page)
      (made : rgFreeListCreateLazy page os a list blockSize.toNat maxBlocks.toNat =
        (.ok, a', list')) :
      Fresh page ⟨list', a'.mem, []⟩
  | createFromMemory {m m' : Mem} {buffer bufferSize : Nat} {list list' : FreeList}
      {blockSize : BitVec 64} {maxBlocks : BitVec 32} (memory : buffer + bufferSize ≤ 2 ^ 64)
      (made : rgFreeListCreateFromMemory m buffer bufferSize list blockSize.toNat maxBlocks.toNat =
        (.ok, m', list')) :
      Fresh page ⟨list', m', []⟩

/-! ## The invariant -/

/-- A list whose blocks fit the address space: of the blocks ever handed out or linked, those of
`chain` are free and the others allocated. -/
structure Sound (r : FreeListRun) (chain : List Nat) : Prop where
  live : r.list.buffer ≠ 0
  link_fits : 8 ≤ r.list.blockSize
  fits : r.list.buffer + r.list.maxBlocks * r.list.blockSize ≤ 2 ^ 64
  max_lt : r.list.maxBlocks < 2 ^ 32
  high_le : r.list.initHigh ≤ r.list.maxBlocks
  links : Chain r.mem r.list.next chain
  blocks : (chain ++ r.allocated).Perm ((List.range r.list.initHigh).map r.list.block)
  free : r.list.blocksFree = chain.length + (r.list.maxBlocks - r.list.initHigh)

end FreeListRun

/-! ## Blocks -/

/-- What no call changes: the buffer, the size of a block and their number. -/
def FreeList.shape (fl : FreeList) : Nat × Nat × Nat := (fl.buffer, fl.blockSize, fl.maxBlocks)

theorem shape_update (fl : FreeList) (free high next : Nat) :
    FreeList.shape { fl with blocksFree := free, initHigh := high, next := next } = fl.shape := rfl

theorem alloc_shape (m : Mem) (fl : FreeList) : (rgFreeListAlloc m fl).2.shape = fl.shape := by
  unfold rgFreeListAlloc
  split
  · rfl
  · dsimp only
    split
    · exact shape_update fl _ fl.initHigh _
    · exact shape_update fl _ _ fl.next

theorem free_shape (m : Mem) (fl : FreeList) (p : Nat) :
    (rgFreeListFree m fl p).2.shape = fl.shape := by
  unfold rgFreeListFree
  split
  · rfl
  · exact shape_update fl _ fl.initHigh p

/-- Distinct blocks share no byte. -/
theorem stride_apart (buffer size : Nat) {i j : Nat} (hij : i ≠ j) :
    Apart (buffer + i * size) size (buffer + j * size) size := by
  unfold Apart
  rcases Nat.lt_or_gt_of_ne hij with hlt | hgt
  · have := Nat.mul_le_mul_right size hlt
    rw [Nat.succ_mul] at this
    exact .inl (by omega)
  · have := Nat.mul_le_mul_right size hgt
    rw [Nat.succ_mul] at this
    exact .inr (by omega)

theorem block_injective {fl : FreeList} (hsize : 8 ≤ fl.blockSize) {i j : Nat}
    (h : fl.block i = fl.block j) : i = j := by
  have := Nat.add_left_cancel h
  exact Nat.eq_of_mul_eq_mul_right (by omega) this

/-- A block ends inside the buffer. -/
theorem block_end_le (fl : FreeList) {i : Nat} (hi : i < fl.maxBlocks) :
    fl.block i + fl.blockSize ≤ fl.buffer + fl.maxBlocks * fl.blockSize := by
  have := Nat.mul_le_mul_right fl.blockSize hi
  rw [Nat.succ_mul] at this
  unfold FreeList.block
  omega

/-- The list after the head of the chain has been handed out. -/
def FreeListRun.popped (r : FreeListRun) : FreeList :=
  { r.list with
    blocksFree := r.list.blocksFree - 1
    next := (load64 r.mem r.list.next).toNat }

/-- The list after the block at the watermark has been handed out. -/
def FreeListRun.bumped (r : FreeListRun) : FreeList :=
  { r.list with
    blocksFree := r.list.blocksFree - 1
    initHigh := r.list.initHigh + 1 }

namespace FreeListRun.Sound

variable {r : FreeListRun} {chain : List Nat}

theorem block_ne_zero (h : r.Sound chain) (i : Nat) : r.list.block i ≠ 0 := by
  have := h.live
  unfold FreeList.block
  omega

/-- The blocks handed out or linked so far are those of the chain and those allocated. -/
theorem mem_iff (h : r.Sound chain) (p : Nat) :
    p ∈ chain ∨ p ∈ r.allocated ↔ ∃ i, i < r.list.initHigh ∧ r.list.block i = p := by
  rw [← List.mem_append, h.blocks.mem_iff, List.mem_map]
  simp only [List.mem_range]

theorem nodup (h : r.Sound chain) : (chain ++ r.allocated).Nodup := by
  rw [h.blocks.nodup_iff]
  exact List.Nodup.map (fun i j => block_injective h.link_fits) List.nodup_range

theorem not_both (h : r.Sound chain) {p : Nat} (hp : p ∈ chain) : p ∉ r.allocated :=
  fun hq => (List.nodup_append.mp h.nodup).2.2 p hp p hq rfl

/-- Two different blocks of the chain or the client's share no byte. -/
theorem apart (h : r.Sound chain) {p q : Nat} (hp : p ∈ chain ∨ p ∈ r.allocated)
    (hq : q ∈ chain ∨ q ∈ r.allocated) (hpq : p ≠ q) :
    Apart p r.list.blockSize q r.list.blockSize := by
  obtain ⟨i, _, rfl⟩ := (h.mem_iff p).mp hp
  obtain ⟨j, _, rfl⟩ := (h.mem_iff q).mp hq
  exact stride_apart _ _ fun hij => hpq (by rw [hij])

theorem length (h : r.Sound chain) : chain.length + r.allocated.length = r.list.initHigh := by
  have := h.blocks.length_eq
  rwa [List.length_append, List.length_map, List.length_range] at this

/-- A link is a word. -/
theorem next_lt (h : r.Sound chain) : r.list.next < 2 ^ 64 := by
  by_cases h0 : r.list.next = 0
  · omega
  · obtain ⟨rest, rfl, _⟩ := h.links.uncons h0
    obtain ⟨i, hi, hb⟩ := (h.mem_iff r.list.next).mp (.inl List.mem_cons_self)
    have hend := block_end_le r.list (Nat.lt_of_lt_of_le hi h.high_le)
    have := h.fits
    have := h.link_fits
    omega

/-! ## The calls -/

/-- A list that is live and has blocks left does not refuse. -/
theorem not_refused (h : r.Sound chain) (hfree : 0 < r.list.blocksFree) :
    ¬ ((!rgmFreelistIsLive r.list) = true ∨ r.list.blocksFree = 0) := by
  have hlive : rgmFreelistIsLive r.list = true := decide_eq_true h.live
  rw [hlive]
  simpa using Nat.ne_of_gt hfree

theorem blocksFree_lt (h : r.Sound chain) : r.list.blocksFree < 2 ^ 32 := by
  have hfree := h.free
  have hlen := h.length
  have hhigh := h.high_le
  have hmax := h.max_lt
  omega

/-- An allocation pops a chain that is not empty. -/
theorem alloc_pop {p : Nat} {rest : List Nat} (h : r.Sound (p :: rest)) :
    rgFreeListAlloc r.mem r.list = (p, popped r) ∧ (r.take (p, popped r)).Sound rest := by
  obtain ⟨hnext, hp, hrest⟩ := chain_cons.mp h.links
  have hfree := h.free
  have hlt := h.blocksFree_lt
  rw [List.length_cons] at hfree
  have hdec : u32 (r.list.blocksFree + (2 ^ 32 - 1)) = r.list.blocksFree - 1 := by
    unfold u32
    omega
  constructor
  · rw [rgFreeListAlloc, if_neg (h.not_refused (by omega))]
    simp only [hnext, hp, ne_eq, not_false_eq_true, if_true, hdec, popped]
  · have hall : (r.take (p, popped r)).allocated = p :: r.allocated := if_neg hp
    refine ⟨h.live, h.link_fits, h.fits, h.max_lt, h.high_le, ?_, ?_, ?_⟩
    · show Chain r.mem (load64 r.mem r.list.next).toNat rest
      rwa [hnext]
    · rw [hall]
      exact List.perm_middle.trans h.blocks
    · show r.list.blocksFree - 1 = rest.length + (r.list.maxBlocks - r.list.initHigh)
      omega

/-- With an empty chain it takes the next block that was never handed out. -/
theorem alloc_bump (h : r.Sound []) (hroom : r.list.initHigh < r.list.maxBlocks) :
    rgFreeListAlloc r.mem r.list = (r.list.block r.list.initHigh, bumped r) ∧
      (r.take (r.list.block r.list.initHigh, bumped r)).Sound [] := by
  have hnext : r.list.next = 0 := h.links
  have hfree := h.free
  have hlt := h.blocksFree_lt
  have hmax := h.max_lt
  rw [List.length_nil] at hfree
  have hdec : u32 (r.list.blocksFree + (2 ^ 32 - 1)) = r.list.blocksFree - 1 := by
    unfold u32
    omega
  have hinc : u32 (r.list.initHigh + 1) = r.list.initHigh + 1 := by
    unfold u32
    omega
  constructor
  · rw [rgFreeListAlloc, if_neg (h.not_refused (by omega))]
    simp only [hnext, ne_eq, not_true_eq_false, if_false, hdec, hinc, FreeList.block, bumped]
  · have hall : (r.take (r.list.block r.list.initHigh, bumped r)).allocated =
        r.list.block r.list.initHigh :: r.allocated := if_neg (h.block_ne_zero _)
    refine ⟨h.live, h.link_fits, h.fits, h.max_lt, hroom, hnext, ?_, ?_⟩
    · show ([] ++ _).Perm ((List.range (r.list.initHigh + 1)).map r.list.block)
      rw [hall, List.range_succ, List.map_append, List.nil_append]
      exact (h.blocks.cons _).trans (List.perm_append_singleton _ _).symm
    · show r.list.blocksFree - 1 = 0 + (r.list.maxBlocks - (r.list.initHigh + 1))
      omega

/-- With an empty chain and the watermark at the end it refuses. -/
theorem alloc_full (h : r.Sound []) (hfull : r.list.initHigh = r.list.maxBlocks) :
    rgFreeListAlloc r.mem r.list = (0, r.list) := by
  have hfree := h.free
  rw [List.length_nil, hfull, Nat.sub_self] at hfree
  rw [rgFreeListAlloc, if_pos (.inr hfree)]

/-- What an allocation does: it is refused when no block is left, and hands out a block that nobody
holds otherwise. -/
theorem alloc_spec (h : r.Sound chain) :
    (rgFreeListAlloc r.mem r.list = (0, r.list) ∧ chain = [] ∧
        r.list.initHigh = r.list.maxBlocks) ∨
      ∃ p list' chain', rgFreeListAlloc r.mem r.list = (p, list') ∧ p ≠ 0 ∧ p ∉ r.allocated ∧
        (∃ i, i < r.list.maxBlocks ∧ p = r.list.block i) ∧ (r.take (p, list')).Sound chain' := by
  have hhigh := h.high_le
  cases chain with
  | nil =>
    rcases Nat.lt_or_eq_of_le hhigh with hroom | hfull
    · obtain ⟨heq, hsound⟩ := h.alloc_bump hroom
      refine .inr ⟨_, _, [], heq, h.block_ne_zero _, fun hmem => ?_, ⟨_, hroom, rfl⟩, hsound⟩
      obtain ⟨i, hi, hb⟩ := (h.mem_iff _).mp (.inr hmem)
      have := block_injective h.link_fits hb
      omega
    · exact .inl ⟨h.alloc_full hfull, rfl, hfull⟩
  | cons p rest =>
    obtain ⟨heq, hsound⟩ := h.alloc_pop
    obtain ⟨i, hi, hb⟩ := (h.mem_iff p).mp (.inl List.mem_cons_self)
    exact .inr ⟨p, _, rest, heq, (chain_cons.mp h.links).2.1, h.not_both List.mem_cons_self,
      ⟨i, Nat.lt_of_lt_of_le hi hhigh, hb.symm⟩, hsound⟩

/-- On a sound list the inline copy does what the exported function does. -/
theorem allocFast_eq (h : r.Sound chain) :
    rgFreeListAllocFast r.mem r.list = rgFreeListAlloc r.mem r.list := by
  unfold rgFreeListAllocFast
  split
  · next hnext =>
    obtain ⟨rest, rfl, _⟩ := h.links.uncons hnext
    have hfree := h.free
    rw [List.length_cons] at hfree
    rw [rgFreeListAlloc, if_neg (h.not_refused (by omega))]
    simp only [hnext, ne_eq, not_false_eq_true, if_true]
  · rfl

/-- A freed block becomes the head of the chain. -/
theorem free_sound (h : r.Sound chain) {p : Nat} (hp : p ∈ r.allocated) :
    (r.give p (rgFreeListFree r.mem r.list p)).Sound (p :: chain) := by
  have hlive : rgmFreelistIsLive r.list = true := decide_eq_true h.live
  have hne : p ≠ 0 := by
    obtain ⟨i, _, rfl⟩ := (h.mem_iff p).mp (.inr hp)
    exact h.block_ne_zero i
  have hlen := h.length
  have hpos : 0 < r.allocated.length := List.length_pos_of_mem hp
  have hmax := h.max_lt
  have hhigh := h.high_le
  have hfree := h.free
  have hsize := h.link_fits
  have hgo : rgFreeListFree r.mem r.list p = (store64 r.mem p (BitVec.ofNat 64 r.list.next),
      { r.list with next := p, blocksFree := u32 (r.list.blocksFree + 1) }) := by
    simp only [rgFreeListFree, hlive, Bool.not_true, Bool.false_eq_true, if_false]
  rw [hgo]
  refine ⟨h.live, h.link_fits, h.fits, h.max_lt, h.high_le, ?_, ?_, ?_⟩
  · refine h.links.push hne h.next_lt fun c hc => ?_
    have hpc : p ≠ c := fun heq => h.not_both hc (heq ▸ hp)
    exact (h.apart (.inr hp) (.inl hc) hpc).mono (Nat.le_refl _) (by omega) (Nat.le_refl _)
      (by omega)
  · show (p :: (chain ++ r.allocated.erase p)).Perm ((List.range r.list.initHigh).map r.list.block)
    calc (p :: (chain ++ r.allocated.erase p)).Perm (chain ++ p :: r.allocated.erase p) :=
          List.perm_middle.symm
      _ |>.Perm (chain ++ r.allocated) := (List.perm_cons_erase hp).symm.append_left chain
      _ |>.Perm _ := h.blocks
  · show u32 (r.list.blocksFree + 1) = (p :: chain).length + (r.list.maxBlocks - r.list.initHigh)
    rw [List.length_cons]
    unfold u32
    omega

end Sound

theorem freeFast_eq (m : Mem) (fl : FreeList) (p : Nat) :
    rgFreeListFreeFast m fl p = rgFreeListFree m fl p := by
  unfold rgFreeListFreeFast rgFreeListFree rgmFreelistIsLive
  by_cases h : fl.buffer = 0 <;> simp [h]

theorem call_freeFast (r : FreeListRun) (p : Nat) : r.call (.freeFast p) = r.call (.free p) := by
  simp only [call, freeFast_eq]

theorem call_free_of_mem {r : FreeListRun} {p : Nat} (hp : p ∈ r.allocated) :
    r.call (.free p) = r.give p (rgFreeListFree r.mem r.list p) := if_pos hp

theorem call_free_of_not_mem {r : FreeListRun} {p : Nat} (hp : p ∉ r.allocated) :
    r.call (.free p) = r := if_neg hp

namespace Sound

variable {r : FreeListRun} {chain : List Nat}

/-! ## Steps and runs -/

theorem take_sound (h : r.Sound chain) :
    ∃ chain', (r.take (rgFreeListAlloc r.mem r.list)).Sound chain' := by
  rcases h.alloc_spec with ⟨hnull, _⟩ | ⟨p, list', chain', hok, _, _, _, hsound⟩
  · rw [hnull]
    exact ⟨chain, h⟩
  · rw [hok]
    exact ⟨chain', hsound⟩

theorem call_free_sound (h : r.Sound chain) (p : Nat) :
    ∃ chain', (r.call (.free p)).Sound chain' := by
  by_cases hp : p ∈ r.allocated
  · rw [call_free_of_mem hp]
    exact ⟨p :: chain, h.free_sound hp⟩
  · rw [call_free_of_not_mem hp]
    exact ⟨chain, h⟩

theorem call_sound (h : r.Sound chain) (c : FreeListCall) :
    ∃ chain', (r.call c).Sound chain' := by
  cases c with
  | alloc => exact h.take_sound
  | allocFast =>
    show ∃ chain', (r.take (rgFreeListAllocFast r.mem r.list)).Sound chain'
    rw [h.allocFast_eq]
    exact h.take_sound
  | free p =>
    exact h.call_free_sound p
  | freeFast p =>
    rw [call_freeFast]
    exact h.call_free_sound p

/-- A client write stays inside its block, so no link changes. -/
theorem write_sound (h : r.Sound chain) (p i : Nat) (v : Byte) : (r.write p i v).Sound chain := by
  unfold write
  split
  · next hp =>
    refine ⟨h.live, h.link_fits, h.fits, h.max_lt, h.high_le, h.links.congr fun c hc => ?_,
      h.blocks, h.free⟩
    have hpc : p ≠ c := fun heq => h.not_both hc (heq ▸ hp.1)
    have hapart := h.apart (.inr hp.1) (.inl hc) hpc
    have hsize := h.link_fits
    refine load64_congr fun j hj => if_neg ?_
    unfold Apart at hapart
    omega
  · exact h

theorem step_sound (h : r.Sound chain) (e : FreeListEvent) :
    ∃ chain', (r.step e).Sound chain' := by
  cases e with
  | call c => exact h.call_sound c
  | write p i v => exact ⟨chain, h.write_sound p i v⟩

theorem call_shape (h : r.Sound chain) (c : FreeListCall) :
    (r.call c).list.shape = r.list.shape := by
  have hfree : ∀ p, (r.call (.free p)).list.shape = r.list.shape := by
    intro p
    by_cases hp : p ∈ r.allocated
    · rw [call_free_of_mem hp]
      exact free_shape r.mem r.list p
    · rw [call_free_of_not_mem hp]
  cases c with
  | alloc => exact alloc_shape r.mem r.list
  | allocFast =>
    show (rgFreeListAllocFast r.mem r.list).2.shape = _
    rw [h.allocFast_eq]
    exact alloc_shape r.mem r.list
  | free p => exact hfree p
  | freeFast p =>
    rw [call_freeFast]
    exact hfree p

/-- A free writes into the block that it frees and nowhere else. -/
theorem free_keeps_bytes (h : r.Sound chain) {p b : Nat} (hb : b ∈ r.allocated)
    (hb' : b ∈ (r.call (.free p)).allocated) :
    slice (r.call (.free p)).mem b r.list.blockSize = slice r.mem b r.list.blockSize := by
  by_cases hp : p ∈ r.allocated
  · rw [call_free_of_mem hp] at hb' ⊢
    have hpb : p ≠ b := by
      rintro rfl
      exact List.Nodup.not_mem_erase (List.nodup_append.mp h.nodup).2.1 hb'
    have hapart := h.apart (.inr hp) (.inr hb) hpb
    have hsize := h.link_fits
    show slice (rgFreeListFree r.mem r.list p).1 b r.list.blockSize = _
    unfold rgFreeListFree
    split
    · rfl
    · exact slice_storeLE_apart _ (hapart.mono (Nat.le_refl _) (by omega) (Nat.le_refl _)
        (Nat.le_refl _))
  · rw [call_free_of_not_mem hp]

theorem call_keeps_bytes (h : r.Sound chain) (c : FreeListCall) {b : Nat} (hb : b ∈ r.allocated)
    (hb' : b ∈ (r.call c).allocated) :
    slice (r.call c).mem b r.list.blockSize = slice r.mem b r.list.blockSize := by
  cases c with
  | alloc => rfl
  | allocFast => rfl
  | free p => exact h.free_keeps_bytes hb hb'
  | freeFast p =>
    rw [call_freeFast] at hb' ⊢
    exact h.free_keeps_bytes hb hb'

/-- A whole run keeps the invariant and the shape of the list. -/
theorem run_sound (h : r.Sound chain) (events : List FreeListEvent) :
    (∃ chain', (r.run events).Sound chain') ∧ (r.run events).list.shape = r.list.shape := by
  induction events generalizing r chain with
  | nil => exact ⟨⟨chain, h⟩, rfl⟩
  | cons e rest ih =>
    obtain ⟨chain', h'⟩ := h.step_sound e
    obtain ⟨hsound, hshape⟩ := ih h'
    refine ⟨hsound, hshape.trans ?_⟩
    cases e with
    | call c => exact h.call_shape c
    | write p i v =>
      show (r.write p i v).list.shape = _
      unfold write
      split <;> rfl

end Sound

/-! ## The creators -/

theorem rgmFreelistCheck_spec {blockSize maxBlocks bs : Nat}
    (h : rgmFreelistCheck blockSize maxBlocks = .ok bs) :
    0 < maxBlocks ∧ 16 ≤ bs ∧ bs * maxBlocks < 2 ^ 64 := by
  obtain ⟨rfl, hmax, hbs, hmul⟩ := poolCheck_spec h
  have hdvd : 16 ∣ rgmFreelistEffectiveBlockSize blockSize := by
    rw [rgmFreelistEffectiveBlockSize_eq]
    exact roundedBlockSize_dvd _
  exact ⟨hmax, Nat.le_of_dvd hbs hdvd, hmul⟩

theorem rgmFreelistCheck_error {blockSize maxBlocks : Nat} {e : Status}
    (h : rgmFreelistCheck blockSize maxBlocks = .error e) : e ≠ .ok := poolCheck_error h

/-- The linking pass: every block holds the address of the next one, the last holds 0. -/
theorem rgmFreelistLink_spec (m : Mem) {buffer size count : Nat} (hsize : 8 ≤ size)
    (hfits : buffer + count * size ≤ 2 ^ 64) (i : Nat) (hi : i < count) :
    (load64 (rgmFreelistLink m buffer size count) (buffer + i * size)).toNat =
      if i + 1 < count then buffer + (i + 1) * size else 0 := by
  have hapart : ∀ {i j : Nat}, i ≠ j → Apart (buffer + i * size) 8 (buffer + j * size) 8 :=
    fun hij => (stride_apart buffer size hij).mono (Nat.le_refl _) (by omega) (Nat.le_refl _)
      (by omega)
  -- after `n` rounds of the loop the first `n` blocks are linked
  have hloop : ∀ n, n < count → ∀ i, i < n →
      load64 ((List.range n).foldl (fun m i => store64 m (buffer + i * size)
        (BitVec.ofNat 64 (buffer + (i + 1) * size))) m) (buffer + i * size) =
        BitVec.ofNat 64 (buffer + (i + 1) * size) := by
    intro n
    induction n with
    | zero => exact fun _ i hi => absurd hi (Nat.not_lt_zero i)
    | succ n ih =>
      intro hn i hi
      rw [List.range_succ, List.foldl_append, List.foldl_cons, List.foldl_nil]
      rcases Nat.lt_or_eq_of_le (Nat.le_of_lt_succ hi) with hlt | rfl
      · rw [store64, load64_storeLE_apart _ (hapart (Nat.ne_of_gt hlt))]
        exact ih (by omega) i hlt
      · exact load64_store64_self _ _ _
  unfold rgmFreelistLink
  dsimp only
  by_cases hlast : i + 1 < count
  · rw [if_pos hlast, store64, load64_storeLE_apart _ (hapart (by omega)),
      hloop (count - 1) (by omega) i (by omega), BitVec.toNat_ofNat, Nat.mod_eq_of_lt]
    have := Nat.mul_le_mul_right size hlast
    rw [Nat.succ_mul] at this
    omega
  · obtain rfl : i = count - 1 := by omega
    rw [if_neg hlast, load64_store64_self]
    rfl

/-- An eagerly linked list is sound, with every block in the chain. -/
theorem install_sound (m : Mem) {buffer size count : Nat} (hbuf : buffer ≠ 0) (hsize : 8 ≤ size)
    (hcount : 0 < count) (hlt : count < 2 ^ 32) (hfits : buffer + count * size ≤ 2 ^ 64) :
    (⟨(rgmFreelistInstall m buffer size count).2, (rgmFreelistInstall m buffer size count).1,
      []⟩ : FreeListRun).Sound ((List.range count).map fun i => buffer + i * size) := by
  have hchain := Chain.of_links (m := rgmFreelistLink m buffer size count)
    (f := fun i => buffer + i * size) (n := count) (fun i _ => by omega)
    (rgmFreelistLink_spec m hsize hfits) 0 (Nat.zero_le _)
  rw [if_pos hcount, Nat.zero_mul, Nat.add_zero, Nat.sub_zero, ← List.range_eq_range'] at hchain
  refine ⟨hbuf, hsize, hfits, hlt, Nat.le_refl _, hchain, ?_, ?_⟩
  · rw [List.append_nil]
    exact .refl _
  · rw [List.length_map, List.length_range]
    exact (congrArg (count + ·) (Nat.sub_self count)).symm

/-- A lazily made list is sound, with an empty chain. -/
theorem installLazy_sound (m : Mem) {buffer size count : Nat} (hbuf : buffer ≠ 0)
    (hsize : 8 ≤ size) (hlt : count < 2 ^ 32) (hfits : buffer + count * size ≤ 2 ^ 64) :
    (⟨rgmFreelistInstallLazy buffer size count, m, []⟩ : FreeListRun).Sound [] :=
  ⟨hbuf, hsize, hfits, hlt, Nat.zero_le _, rfl, .nil, (Nat.zero_add _).symm⟩

/-- The buffer that the arena gives ends inside the address space. -/
theorem rgmFreelistReserve_spec {page : Nat} (hpage : IsPageSize page) {os : OsReply}
    {a a' : ArenaState} (ha : a.Ok page) {blockSize maxBlocks buffer bs : Nat}
    (h : rgmFreelistReserve page os a blockSize maxBlocks = (.ok (buffer, bs), a')) :
    buffer ≠ 0 ∧ 8 ≤ bs ∧ 0 < maxBlocks ∧ buffer + maxBlocks * bs ≤ 2 ^ 64 := by
  unfold rgmFreelistReserve at h
  split at h
  · cases h
  · next bs' hcheck =>
    obtain ⟨hmax, hbs, hmul⟩ := rgmFreelistCheck_spec hcheck
    split at h
    next buffer' a'' halloc =>
    split at h
    · cases h
    · next hbuf =>
      cases h
      refine ⟨hbuf, by omega, hmax, ?_⟩
      have hend := rgArenaAlloc_end_le hpage ha hmul halloc hbuf
      rwa [Nat.mul_comm]

theorem rgmFreelistReserve_error {page : Nat} {os : OsReply} {a a' : ArenaState}
    {blockSize maxBlocks : Nat} {e : Status}
    (h : rgmFreelistReserve page os a blockSize maxBlocks = (.error e, a')) : e ≠ .ok := by
  unfold rgmFreelistReserve at h
  split at h
  · next hcheck =>
    cases h
    exact rgmFreelistCheck_error hcheck
  · split at h
    split at h
    · cases h
      exact refusal_ne_ok _
    · cases h

/-- A list that has just been made in an arena, linked. -/
theorem rgFreeListCreate_ok {page : Nat} (hpage : IsPageSize page) {os : OsReply}
    {a a' : ArenaState} (ha : a.Ok page) {list list' : FreeList} {blockSize maxBlocks : Nat}
    (made : rgFreeListCreate page os a list blockSize maxBlocks = (.ok, a', list')) :
    ∃ m buffer bs, a'.mem = (rgmFreelistInstall m buffer bs maxBlocks).1 ∧
      list' = (rgmFreelistInstall m buffer bs maxBlocks).2 ∧
      buffer ≠ 0 ∧ 8 ≤ bs ∧ 0 < maxBlocks ∧ buffer + maxBlocks * bs ≤ 2 ^ 64 := by
  unfold rgFreeListCreate at made
  split at made
  · next heq =>
    cases made
    exact absurd rfl (rgmFreelistReserve_error heq)
  · next buffer bs a1 heq =>
    cases made
    exact ⟨a1.mem, buffer, bs, rfl, rfl, rgmFreelistReserve_spec hpage ha heq⟩

/-- And one that has been made lazily. -/
theorem rgFreeListCreateLazy_ok {page : Nat} (hpage : IsPageSize page) {os : OsReply}
    {a a' : ArenaState} (ha : a.Ok page) {list list' : FreeList} {blockSize maxBlocks : Nat}
    (made : rgFreeListCreateLazy page os a list blockSize maxBlocks = (.ok, a', list')) :
    ∃ buffer bs, list' = rgmFreelistInstallLazy buffer bs maxBlocks ∧
      buffer ≠ 0 ∧ 8 ≤ bs ∧ 0 < maxBlocks ∧ buffer + maxBlocks * bs ≤ 2 ^ 64 := by
  unfold rgFreeListCreateLazy at made
  split at made
  · next heq =>
    cases made
    exact absurd rfl (rgmFreelistReserve_error heq)
  · next buffer bs a1 heq =>
    cases made
    exact ⟨buffer, bs, rfl, rgmFreelistReserve_spec hpage ha heq⟩

theorem fresh_sound {page : Nat} (hpage : IsPageSize page) {r : FreeListRun}
    (h : Fresh page r) : ∃ chain, r.Sound chain := by
  cases h with
  | @create os a a' list list' blockSize maxBlocks ha made =>
    obtain ⟨m, buffer, bs, hmem, rfl, hbuf, hbs, hmax, hfits⟩ := rgFreeListCreate_ok hpage ha made
    rw [hmem]
    exact ⟨_, install_sound m hbuf hbs hmax maxBlocks.isLt hfits⟩
  | @createLazy os a a' list list' blockSize maxBlocks ha made =>
    obtain ⟨buffer, bs, rfl, hbuf, hbs, -, hfits⟩ := rgFreeListCreateLazy_ok hpage ha made
    exact ⟨[], installLazy_sound _ hbuf hbs maxBlocks.isLt hfits⟩
  | @createFromMemory m m' buffer bufferSize list list' blockSize maxBlocks hmem made =>
    unfold rgFreeListCreateFromMemory at made
    split at made
    · cases made
    · next hbuf =>
      split at made
      · next hcheck =>
        cases made
        exact absurd rfl (rgmFreelistCheck_error hcheck)
      · next bs hcheck =>
        obtain ⟨hmax, hbs, _⟩ := rgmFreelistCheck_spec hcheck
        split at made
        · cases made
        · next hroom =>
          cases made
          have hfits : buffer + maxBlocks.toNat * bs ≤ 2 ^ 64 := by
            rw [Nat.mul_comm]
            omega
          exact ⟨_, install_sound m hbuf (by omega) hmax maxBlocks.isLt hfits⟩

end FreeListRun

/-- **The in-band chain of a free list is sound along every run.** The chain from `next` ends and
visits each free block below the watermark once; `blocksFree` counts it together with the blocks
above the watermark. An allocation hands out a block of the buffer that nobody holds, and fails only
when every block is allocated; no call changes a byte of a block that stays allocated. -/
theorem free_list_chain_sound {page : Nat} (hpage : IsPageSize page) {fresh : FreeListRun}
    (hfresh : FreeListRun.Fresh page fresh) (events : List FreeListEvent) :
    let r := fresh.run events
    r.list.shape = fresh.list.shape ∧
    (∃ chain, Chain r.mem r.list.next chain ∧ chain.Nodup ∧
      (∀ p, p ∈ chain ↔ (∃ i, i < r.list.initHigh ∧ p = r.list.block i) ∧ p ∉ r.allocated) ∧
      r.list.initHigh ≤ r.list.maxBlocks ∧
      r.list.blocksFree = chain.length + (r.list.maxBlocks - r.list.initHigh)) ∧
    (∀ answer, answer = rgFreeListAlloc r.mem r.list ∨ answer = rgFreeListAllocFast r.mem r.list →
      (answer.1 = 0 ↔ ∀ i, i < r.list.maxBlocks → r.list.block i ∈ r.allocated) ∧
      (answer.1 ≠ 0 → answer.1 ∉ r.allocated ∧
        ∃ i, i < r.list.maxBlocks ∧ answer.1 = r.list.block i)) ∧
    (∀ c, ∀ b ∈ r.allocated, b ∈ (r.call c).allocated →
      slice (r.call c).mem b r.list.blockSize = slice r.mem b r.list.blockSize) := by
  intro r
  obtain ⟨chain0, hfresh⟩ := FreeListRun.fresh_sound hpage hfresh
  obtain ⟨⟨chain, h⟩, hshape⟩ := hfresh.run_sound events
  refine ⟨hshape, ⟨chain, h.links, (List.nodup_append.mp h.nodup).1, fun p => ?_, h.high_le, h.free⟩,
    fun answer hanswer => ?_, fun c b hb hb' => h.call_keeps_bytes c hb hb'⟩
  · constructor
    · intro hp
      obtain ⟨i, hi, hb⟩ := (h.mem_iff p).mp (.inl hp)
      exact ⟨⟨i, hi, hb.symm⟩, h.not_both hp⟩
    · rintro ⟨⟨i, hi, rfl⟩, hfree⟩
      exact ((h.mem_iff _).mpr ⟨i, hi, rfl⟩).resolve_right hfree
  · have heq : answer = rgFreeListAlloc r.mem r.list := by
      rcases hanswer with rfl | rfl
      · rfl
      · exact h.allocFast_eq
    rw [heq]
    rcases h.alloc_spec with ⟨hnull, rfl, hall⟩ | ⟨p, list', chain', hok, hne, hfree, hblock, _⟩
    · rw [hnull]
      refine ⟨⟨fun _ i hi => ?_, fun _ => rfl⟩, fun hne => absurd rfl hne⟩
      exact ((h.mem_iff _).mpr ⟨i, hall ▸ hi, rfl⟩).resolve_left List.not_mem_nil
    · rw [hok]
      obtain ⟨i, hi, rfl⟩ := hblock
      exact ⟨⟨fun h0 => absurd h0 hne, fun hall => absurd (hall i hi) hfree⟩,
        fun _ => ⟨hfree, i, hi, rfl⟩⟩

/-- Four blocks of 16 bytes at address 4096, linked. -/
def sampleList : FreeListRun :=
  let made := rgFreeListCreateFromMemory (fun _ => 0) 4096 64 ⟨0, 0, 0, 0, 0, 0⟩ 10 4
  ⟨made.2.2, made.2.1, []⟩

theorem sampleList_chain_sound :
    let r := sampleList.run
      [.call .alloc, .call .allocFast, .write 4112 3 7, .call (.free 4096)]
    r.allocated = [4112] ∧ ∃ chain, Chain r.mem r.list.next chain ∧ chain.Nodup := by
  refine ⟨by decide, ?_⟩
  have hfresh : FreeListRun.Fresh 4096 sampleList :=
    @FreeListRun.Fresh.createFromMemory 4096 (fun _ => 0) _ 4096 64 ⟨0, 0, 0, 0, 0, 0⟩ _ 10 4
      (by decide) rfl
  obtain ⟨chain, hchain, hnodup, _⟩ := (free_list_chain_sound ⟨12, by decide, rfl⟩ hfresh _).2.1
  exact ⟨chain, hchain, hnodup⟩

end RgMemory
