import RgMemory.Arena.Run
import RgMemory.FreeList.Run
import RgMemory.Lib.Mealy

/-!
# Lazy, eager and inline free lists

What a free list does, said without memory: a `Pool` is the stack of free block numbers and the
numbers held by the client. An allocation takes the top of the stack, a free puts a number back. The
chain of a list, followed by the blocks that it never handed out, is that stack (`Shows`); an eager
list starts with all of them in the chain, a lazy one with all of them untouched.

Every list simulates the pool, whichever entry points it is driven with and whatever the client
writes into its blocks (`uses_simulate`). Two lists of one size therefore answer alike.
-/

namespace RgMemory

open Bytes

/-! ## The pool -/

/-- The free block numbers, the next one to hand out first, and those that the client holds. -/
structure Pool where
  free : List Nat
  held : List Nat

/-- An operation on a free list, with blocks by number. -/
inductive FreeListOp
  | alloc
  | free (i : Nat)

/-- One operation: the number handed out, if any, and how many blocks are free afterwards. -/
def Pool.use (p : Pool) : FreeListOp → Pool × (Option Nat × Nat)
  | .alloc =>
    match p.free with
    | [] => (p, none, 0)
    | i :: rest => (⟨rest, i :: p.held⟩, some i, rest.length)
  | .free i =>
    if i ∈ p.held then (⟨i :: p.free, p.held.erase i⟩, none, p.free.length + 1)
    else (p, none, p.free.length)

/-! ## Using a list -/

/-- What the client does next: writes into blocks that it holds (block, byte within it, value), then
an operation, through the exported function or its inline copy. -/
structure FreeListUse where
  op : FreeListOp
  fast : Bool
  writes : List (Nat × Nat × Byte)

namespace FreeListRun

/-- The client's writes before an operation. -/
def writes (r : FreeListRun) (ws : List (Nat × Nat × Byte)) : FreeListRun :=
  ws.foldl (fun r w => r.write (r.list.block w.1) w.2.1 w.2.2) r

/-- One use: the pointer it answers (0 for a free) and the number of free blocks that the list
reports afterwards. -/
def use (r : FreeListRun) (u : FreeListUse) : FreeListRun × (Nat × Nat) :=
  let r := r.writes u.writes
  match u.op with
  | .alloc =>
    let answer := if u.fast then rgFreeListAllocFast r.mem r.list else rgFreeListAlloc r.mem r.list
    (r.take answer, answer.1, rgFreeListBlocksFree answer.2)
  | .free i =>
    let p := r.list.block i
    let r := r.call (if u.fast then .freeFast p else .free p)
    (r, 0, rgFreeListBlocksFree r.list)

/-- The list shows the pool: chain and untouched blocks are its stack. -/
def Shows (r : FreeListRun) (p : Pool) : Prop :=
  ∃ chain : List Nat, r.Sound (chain.map r.list.block) ∧
    p.free = chain ++ List.range' r.list.initHigh (r.list.maxBlocks - r.list.initHigh) ∧
    r.allocated = p.held.map r.list.block

end FreeListRun

/-- What an answer says: no block, or the block of that number, and the same count. -/
def FreeList.Answers (fl : FreeList) (a : Nat × Nat) (b : Option Nat × Nat) : Prop :=
  a.2 = b.2 ∧ (b.1 = none ∧ a.1 = 0 ∨ ∃ i, b.1 = some i ∧ i < fl.maxBlocks ∧ a.1 = fl.block i ∧
    a.1 ≠ 0)

theorem block_of_shape {fl fl' : FreeList} (h : fl'.shape = fl.shape) : fl'.block = fl.block := by
  have hb : fl'.buffer = fl.buffer := congrArg (fun s => s.1) h
  have hs : fl'.blockSize = fl.blockSize := congrArg (fun s => s.2.1) h
  funext i
  rw [FreeList.block, FreeList.block, hb, hs]

theorem maxBlocks_of_shape {fl fl' : FreeList} (h : fl'.shape = fl.shape) :
    fl'.maxBlocks = fl.maxBlocks :=
  congrArg (fun s => s.2.2) h

namespace FreeListRun

variable {r : FreeListRun} {p : Pool}

theorem write_shape (r : FreeListRun) (q i : Nat) (v : Byte) :
    (r.write q i v).list = r.list ∧ (r.write q i v).allocated = r.allocated := by
  unfold write
  split
  · exact ⟨rfl, rfl⟩
  · exact ⟨rfl, rfl⟩

namespace Shows

theorem sound (h : r.Shows p) : ∃ chain, r.Sound chain := by
  obtain ⟨chain, hsound, -⟩ := h
  exact ⟨_, hsound⟩

/-- The number of free blocks is the height of the stack. -/
theorem blocksFree (h : r.Shows p) : rgFreeListBlocksFree r.list = p.free.length := by
  obtain ⟨chain, hsound, hfree, -⟩ := h
  have hlive : rgmFreelistIsLive r.list = true := decide_eq_true hsound.live
  rw [rgFreeListBlocksFree, if_pos hlive, hsound.free, hfree, List.length_map, List.length_append,
    List.length_range']

theorem mem_held (h : r.Shows p) (i : Nat) : r.list.block i ∈ r.allocated ↔ i ∈ p.held := by
  obtain ⟨chain, hsound, -, hheld⟩ := h
  rw [hheld, List.mem_map_of_injective fun _ _ => block_injective hsound.link_fits]

/-- Client writes leave links and bookkeeping alone. -/
theorem writes (h : r.Shows p) (ws : List (Nat × Nat × Byte)) :
    (r.writes ws).Shows p ∧ (r.writes ws).list = r.list := by
  induction ws generalizing r with
  | nil => exact ⟨h, rfl⟩
  | cons w ws ih =>
    obtain ⟨chain, hsound, hfree, hheld⟩ := h
    obtain ⟨hlist, hall⟩ := write_shape r (r.list.block w.1) w.2.1 w.2.2
    have hnext : (r.write (r.list.block w.1) w.2.1 w.2.2).Shows p := by
      refine ⟨chain, ?_, ?_, ?_⟩
      · rw [hlist]
        exact hsound.write_sound _ _ _
      · rw [hlist]
        exact hfree
      · rw [hlist, hall]
        exact hheld
    obtain ⟨hshows, hsame⟩ := ih hnext
    exact ⟨hshows, hsame.trans hlist⟩

/-- An allocation hands out the top of the stack. -/
theorem alloc (h : r.Shows p) :
    (r.take (rgFreeListAlloc r.mem r.list)).Shows (p.use .alloc).1 ∧
      r.list.Answers ((rgFreeListAlloc r.mem r.list).1,
        rgFreeListBlocksFree (rgFreeListAlloc r.mem r.list).2) (p.use .alloc).2 := by
  obtain ⟨chain, hsound, hfree, hheld⟩ := h
  have hhigh := hsound.high_le
  cases chain with
  | cons i chain =>
    -- the top is the head of the chain
    obtain ⟨heq, hnext⟩ := hsound.alloc_pop
    have hne : r.list.block i ≠ 0 := hsound.block_ne_zero i
    obtain ⟨j, hj, hb⟩ := (hsound.mem_iff (r.list.block i)).mp (.inl List.mem_cons_self)
    obtain rfl : j = i := block_injective hsound.link_fits hb
    have hall : (r.take (r.list.block j, popped r)).allocated = r.list.block j :: r.allocated :=
      if_neg hne
    have hshows : (r.take (r.list.block j, popped r)).Shows
        ⟨chain ++ List.range' r.list.initHigh (r.list.maxBlocks - r.list.initHigh),
          j :: p.held⟩ := by
      refine ⟨chain, hnext, rfl, ?_⟩
      rw [hall, hheld]
      rfl
    rw [heq, Pool.use, hfree]
    exact ⟨hshows, hshows.blocksFree, .inr ⟨j, rfl, Nat.lt_of_lt_of_le hj hhigh, rfl, hne⟩⟩
  | nil =>
    rcases Nat.lt_or_eq_of_le hhigh with hroom | hfull
    · -- the top is the block at the watermark
      obtain ⟨heq, hnext⟩ := hsound.alloc_bump hroom
      have hne := hsound.block_ne_zero r.list.initHigh
      have hall : (r.take (r.list.block r.list.initHigh, bumped r)).allocated =
          r.list.block r.list.initHigh :: r.allocated := if_neg hne
      have hrange : List.range' r.list.initHigh (r.list.maxBlocks - r.list.initHigh) =
          r.list.initHigh ::
            List.range' (r.list.initHigh + 1) (r.list.maxBlocks - (r.list.initHigh + 1)) := by
        rw [show r.list.maxBlocks - r.list.initHigh =
          r.list.maxBlocks - (r.list.initHigh + 1) + 1 by omega]
        exact List.range'_succ
      have hshows : (r.take (r.list.block r.list.initHigh, bumped r)).Shows
          ⟨List.range' (r.list.initHigh + 1) (r.list.maxBlocks - (r.list.initHigh + 1)),
            r.list.initHigh :: p.held⟩ := by
        refine ⟨[], hnext, rfl, ?_⟩
        rw [hall, hheld]
        rfl
      rw [heq, Pool.use, hfree, List.nil_append, hrange]
      exact ⟨hshows, hshows.blocksFree, .inr ⟨_, rfl, hroom, rfl, hne⟩⟩
    · have hshows : r.Shows p := ⟨[], hsound, hfree, hheld⟩
      have hempty : p.free = [] := by
        rw [hfree, hfull, Nat.sub_self]
        rfl
      have hcount : rgFreeListBlocksFree r.list = 0 := by
        rw [hshows.blocksFree, hempty]
        rfl
      rw [hsound.alloc_full hfull, Pool.use, hempty]
      exact ⟨hshows, hcount, .inl ⟨rfl, rfl⟩⟩

/-- A free puts a held block on top of the stack. -/
theorem free (h : r.Shows p) (i : Nat) :
    (r.call (.free (r.list.block i))).Shows (p.use (.free i)).1 ∧
      r.list.Answers (0, rgFreeListBlocksFree (r.call (.free (r.list.block i))).list)
        (p.use (.free i)).2 ∧
      (r.call (.free (r.list.block i))).list.shape = r.list.shape := by
  by_cases hi : i ∈ p.held
  · have hmem := (h.mem_held i).mpr hi
    obtain ⟨chain, hsound, hfree, hheld⟩ := h
    have hshape : (r.call (.free (r.list.block i))).list.shape = r.list.shape :=
      hsound.call_shape _
    have hhigh : (r.call (.free (r.list.block i))).list.initHigh = r.list.initHigh := by
      have hlive : rgmFreelistIsLive r.list = true := decide_eq_true hsound.live
      rw [call_free_of_mem hmem]
      show (rgFreeListFree r.mem r.list (r.list.block i)).2.initHigh = _
      rw [rgFreeListFree, hlive]
      rfl
    have hnext := hsound.free_sound hmem
    rw [← call_free_of_mem hmem] at hnext
    have hshows : (r.call (.free (r.list.block i))).Shows ⟨i :: p.free, p.held.erase i⟩ := by
      refine ⟨i :: chain, ?_, ?_, ?_⟩
      · rw [block_of_shape hshape]
        exact hnext
      · rw [hhigh, maxBlocks_of_shape hshape, hfree]
        rfl
      · rw [block_of_shape hshape, call_free_of_mem hmem,
          List.map_erase (fun _ _ => block_injective hsound.link_fits), ← hheld]
        rfl
    rw [Pool.use, if_pos hi]
    exact ⟨hshows, ⟨hshows.blocksFree, .inl ⟨rfl, rfl⟩⟩, hshape⟩
  · rw [call_free_of_not_mem fun hmem => hi ((h.mem_held i).mp hmem), Pool.use, if_neg hi]
    exact ⟨h, ⟨h.blocksFree, .inl ⟨rfl, rfl⟩⟩, rfl⟩

end Shows

/-- **Every list is the pool.** One use keeps the list showing the pool and answers as it does. -/
theorem uses_simulate (fl : FreeList) :
    Mealy.Simulates use Pool.use FreeListUse.op (fun r p => r.Shows p ∧ r.list.shape = fl.shape)
      fl.Answers := by
  rintro r p u ⟨h, hshape⟩
  obtain ⟨hw, hlist⟩ := h.writes u.writes
  rw [← hlist] at hshape
  have hanswers : (r.writes u.writes).list.Answers = fl.Answers := by
    unfold FreeList.Answers
    rw [block_of_shape hshape, maxBlocks_of_shape hshape]
  obtain ⟨chain, hsound⟩ := hw.sound
  unfold use
  cases hop : u.op with
  | alloc =>
    have hfast : (if u.fast then rgFreeListAllocFast (r.writes u.writes).mem (r.writes u.writes).list
        else rgFreeListAlloc (r.writes u.writes).mem (r.writes u.writes).list) =
        rgFreeListAlloc (r.writes u.writes).mem (r.writes u.writes).list := by
      split
      · exact hsound.allocFast_eq
      · rfl
    simp only [hfast]
    obtain ⟨hshows, hans⟩ := hw.alloc
    exact ⟨⟨hshows, (alloc_shape _ _).trans hshape⟩, hanswers ▸ hans⟩
  | free i =>
    have hfast : (r.writes u.writes).call (if u.fast then
        .freeFast ((r.writes u.writes).list.block i) else
        .free ((r.writes u.writes).list.block i)) =
        (r.writes u.writes).call (.free ((r.writes u.writes).list.block i)) := by
      split
      · exact call_freeFast _ _
      · rfl
    simp only [hfast]
    obtain ⟨hshows, hans, hsame⟩ := hw.free i
    exact ⟨⟨hshows, hsame.trans hshape⟩, hanswers ▸ hans⟩

/-! ## The creators -/

/-- A list that `rgFreeListCreate` has just made. -/
def MadeEager (page : Nat) (blockSize : BitVec 64) (maxBlocks : BitVec 32) (r : FreeListRun) :
    Prop :=
  r.allocated = [] ∧ ∃ (os : OsReply) (a a' : ArenaState) (list : FreeList), a.Ok page ∧
    rgFreeListCreate page os a list blockSize.toNat maxBlocks.toNat = (.ok, a', r.list) ∧
    r.mem = a'.mem

/-- A list that `rgFreeListCreateLazy` has just made. -/
def MadeLazy (page : Nat) (blockSize : BitVec 64) (maxBlocks : BitVec 32) (r : FreeListRun) :
    Prop :=
  r.allocated = [] ∧ ∃ (os : OsReply) (a a' : ArenaState) (list : FreeList), a.Ok page ∧
    rgFreeListCreateLazy page os a list blockSize.toNat maxBlocks.toNat = (.ok, a', r.list) ∧
    r.mem = a'.mem

/-- The pool of a new list. -/
def fullPool (maxBlocks : BitVec 32) : Pool := ⟨List.range maxBlocks.toNat, []⟩

variable {page : Nat} {blockSize : BitVec 64} {maxBlocks : BitVec 32}

theorem MadeEager.shows (hpage : IsPageSize page) (h : MadeEager page blockSize maxBlocks r) :
    r.Shows (fullPool maxBlocks) ∧ r.list.maxBlocks = maxBlocks.toNat := by
  obtain ⟨list, mem, allocated⟩ := r
  obtain ⟨rfl, os, a, a', list0, ha, made, rfl⟩ := h
  obtain ⟨m, buffer, bs, hmem, rfl, hbuf, hbs, hmax, hfits⟩ := rgFreeListCreate_ok hpage ha made
  rw [hmem]
  refine ⟨⟨List.range maxBlocks.toNat, install_sound m hbuf hbs hmax maxBlocks.isLt hfits, ?_, rfl⟩,
    rfl⟩
  show List.range maxBlocks.toNat = List.range maxBlocks.toNat ++
    List.range' maxBlocks.toNat (maxBlocks.toNat - maxBlocks.toNat)
  rw [Nat.sub_self, List.range'_zero, List.append_nil]

theorem MadeLazy.shows (hpage : IsPageSize page) (h : MadeLazy page blockSize maxBlocks r) :
    r.Shows (fullPool maxBlocks) ∧ r.list.maxBlocks = maxBlocks.toNat := by
  obtain ⟨list, mem, allocated⟩ := r
  obtain ⟨rfl, os, a, a', list0, ha, made, rfl⟩ := h
  obtain ⟨buffer, bs, rfl, hbuf, hbs, -, hfits⟩ := rgFreeListCreateLazy_ok hpage ha made
  exact ⟨⟨[], installLazy_sound _ hbuf hbs maxBlocks.isLt hfits, List.range_eq_range', rfl⟩, rfl⟩

end FreeListRun

/-! ## Observations -/

/-- Two answers name no block, or blocks of one number in the two lists, and the same count. -/
def SameAnswer (fl fl' : FreeList) (a b : Nat × Nat) : Prop :=
  a.2 = b.2 ∧ (a.1 = 0 ∧ b.1 = 0 ∨ ∃ i, i < fl.maxBlocks ∧ i < fl'.maxBlocks ∧
    a.1 = fl.block i ∧ a.1 ≠ 0 ∧ b.1 = fl'.block i ∧ b.1 ≠ 0)

/-- **Lazy, eager and inline lists cannot be told apart.** A lazy and an eager list of one block size
and count, driven by the same operations, each through any mixture of exported and inline functions
and with any client writes in between, answer alike at every step. -/
theorem free_lists_answer_alike {page page' : Nat} (hpage : IsPageSize page)
    (hpage' : IsPageSize page') {blockSize : BitVec 64} {maxBlocks : BitVec 32}
    {lazy eager : FreeListRun} (hlazy : FreeListRun.MadeLazy page blockSize maxBlocks lazy)
    (heager : FreeListRun.MadeEager page' blockSize maxBlocks eager) (us vs : List FreeListUse)
    (hops : us.map FreeListUse.op = vs.map FreeListUse.op) :
    List.Forall₂ (SameAnswer lazy.list eager.list) (Mealy.trace FreeListRun.use lazy us)
      (Mealy.trace FreeListRun.use eager vs) := by
  have hleft := (FreeListRun.uses_simulate lazy.list).trace ⟨(hlazy.shows hpage).1, rfl⟩ us
  have hright := (FreeListRun.uses_simulate eager.list).trace ⟨(heager.shows hpage').1, rfl⟩ vs
  rw [hops] at hleft
  refine Mealy.forall₂_of_common ?_ hleft hright
  rintro a b ⟨found, count⟩ ⟨hcount, hfound⟩ ⟨hcount', hfound'⟩
  refine ⟨hcount.trans hcount'.symm, ?_⟩
  rcases hfound with ⟨rfl, ha⟩ | ⟨i, rfl, hi, ha, hne⟩
  · rcases hfound' with ⟨-, hb⟩ | ⟨j, hj, -⟩
    · exact .inl ⟨ha, hb⟩
    · cases hj
  · rcases hfound' with ⟨hnone, -⟩ | ⟨j, hj, hjlt, hb, hne'⟩
    · cases hnone
    · cases hj
      exact .inr ⟨i, hi, hjlt, ha, hne, hb, hne'⟩

/-- Three blocks taken lazily and eagerly from one arena. -/
def sampleLists : FreeListRun × FreeListRun :=
  let lazy := rgFreeListCreateLazy 4096 sampleOs sampleArena ⟨0, 0, 0, 0, 0, 0⟩ 24 3
  let eager := rgFreeListCreate 4096 sampleOs sampleArena ⟨0, 0, 0, 0, 0, 0⟩ 24 3
  (⟨lazy.2.2, lazy.2.1.mem, []⟩, ⟨eager.2.2, eager.2.1.mem, []⟩)

theorem sampleLists_answer_alike :
    List.Forall₂ (SameAnswer sampleLists.1.list sampleLists.2.list)
      (Mealy.trace FreeListRun.use sampleLists.1
        [⟨.alloc, true, []⟩, ⟨.alloc, false, [(0, 3, 7)]⟩, ⟨.free 0, true, []⟩, ⟨.alloc, true, []⟩])
      (Mealy.trace FreeListRun.use sampleLists.2
        [⟨.alloc, false, []⟩, ⟨.alloc, true, []⟩, ⟨.free 0, false, []⟩, ⟨.alloc, true, []⟩]) := by
  have hpage : IsPageSize 4096 := ⟨12, by decide, rfl⟩
  have hlazy : FreeListRun.MadeLazy 4096 24 3 sampleLists.1 :=
    ⟨rfl, sampleOs, sampleArena, _, ⟨0, 0, 0, 0, 0, 0⟩, sampleArena_ok, rfl, rfl⟩
  have heager : FreeListRun.MadeEager 4096 24 3 sampleLists.2 :=
    ⟨rfl, sampleOs, sampleArena, _, ⟨0, 0, 0, 0, 0, 0⟩, sampleArena_ok, rfl, rfl⟩
  exact free_lists_answer_alike hpage hpage hlazy heager _ _ rfl

end RgMemory
