import RgMemory.Arena.Model
import RgMemory.Lib.Chain

/-!
# The free list

`rg_free_list.c` and the inline copies of its header: a pool of equally sized blocks whose free
blocks hold the links of the free chain. The memory is the address space that the buffer lies in;
a link is the eight-byte address of the next free block, 0 at the end of the chain.

A list made lazily has no chain at first. Its blocks from `initHigh` on have never been handed out,
and are taken in order when the chain is empty.
-/

namespace RgMemory

open Bytes

/-- A natural number as a 32-bit word. -/
def u32 (n : Nat) : Nat := n % 2 ^ 32

/-- The control block. `buffer = 0` marks it uninitialised, `next` is the head of the chain. -/
structure FreeList where
  maxBlocks : Nat
  blockSize : Nat
  blocksFree : Nat
  initHigh : Nat
  buffer : Nat
  next : Nat

def rgmFreelistIsLive (fl : FreeList) : Bool := fl.buffer ≠ 0

/-- The requested block size with room for a link, rounded up to 16; 0 when it does not fit 32
bits. -/
def rgmFreelistEffectiveBlockSize (blockSize : Nat) : Nat :=
  let blockSize := if blockSize < 8 then 8 else blockSize
  let blockSize := u64 (blockSize + 15) &&& u64Not 15
  if blockSize = 0 ∨ blockSize > 0xFFFFFFFF then 0 else blockSize

/-! ## Installing -/

/-- The linking pass: block `i` gets the address of block `i + 1`, the last one gets 0. -/
def rgmFreelistLink (m : Mem) (buffer blockSize maxBlocks : Nat) : Mem :=
  let m := (List.range (maxBlocks - 1)).foldl
    (fun m i => store64 m (buffer + i * blockSize)
      (BitVec.ofNat 64 (buffer + (i + 1) * blockSize))) m
  store64 m (buffer + (maxBlocks - 1) * blockSize) 0

/-- Link every block into the chain. -/
def rgmFreelistInstall (m : Mem) (buffer blockSize maxBlocks : Nat) : Mem × FreeList :=
  (rgmFreelistLink m buffer blockSize maxBlocks,
    { maxBlocks, blockSize, blocksFree := maxBlocks, initHigh := maxBlocks, buffer, next := buffer })

/-- Leave the buffer alone: the chain starts empty. -/
def rgmFreelistInstallLazy (buffer blockSize maxBlocks : Nat) : FreeList :=
  { maxBlocks, blockSize, blocksFree := maxBlocks, initHigh := 0, buffer, next := 0 }

/-- The bytes of a buffer; 0 when there is none. -/
def rgFreeListBufferSize (blockSize maxBlocks : Nat) : Nat :=
  if maxBlocks = 0 then 0
  else
    let bs := rgmFreelistEffectiveBlockSize blockSize
    if bs = 0 ∨ bs > (2 ^ 64 - 1) / maxBlocks then 0 else u64 (bs * maxBlocks)

/-- The checks that the creators share: the effective block size, or the error. -/
def rgmFreelistCheck (blockSize maxBlocks : Nat) : Except Status Nat :=
  if maxBlocks = 0 then .error .errInvalid
  else
    let bs := rgmFreelistEffectiveBlockSize blockSize
    if bs = 0 ∨ bs > (2 ^ 64 - 1) / maxBlocks then .error .errOverflow
    else .ok bs

/-- Checks and allocation, which `rgFreeListCreate` and `rgFreeListCreateLazy` share: the buffer and
the effective block size, or the error. -/
def rgmFreelistReserve (page : Nat) (os : OsReply) (a : ArenaState) (blockSize maxBlocks : Nat) :
    Except Status (Nat × Nat) × ArenaState :=
  match rgmFreelistCheck blockSize maxBlocks with
  | .error e => (.error e, a)
  | .ok bs =>
    match rgArenaAlloc page os a (bs * maxBlocks) with
    | (buffer, a) =>
      if buffer = 0 then
        (.error (if rgArenaIsValid a.toArena then .errNoMemory else .errInvalid), a)
      else (.ok (buffer, bs), a)

/-- Populate `list` with a linked buffer from the arena. -/
def rgFreeListCreate (page : Nat) (os : OsReply) (a : ArenaState) (list : FreeList)
    (blockSize maxBlocks : Nat) : Status × ArenaState × FreeList :=
  match rgmFreelistReserve page os a blockSize maxBlocks with
  | (.error e, a) => (e, a, list)
  | (.ok (buffer, bs), a) =>
    match rgmFreelistInstall a.mem buffer bs maxBlocks with
    | (m, list) => (.ok, { a with mem := m }, list)

/-- The same without the linking pass. -/
def rgFreeListCreateLazy (page : Nat) (os : OsReply) (a : ArenaState) (list : FreeList)
    (blockSize maxBlocks : Nat) : Status × ArenaState × FreeList :=
  match rgmFreelistReserve page os a blockSize maxBlocks with
  | (.error e, a) => (e, a, list)
  | (.ok (buffer, bs), a) => (.ok, a, rgmFreelistInstallLazy buffer bs maxBlocks)

/-- Populate `list` with a linked buffer of the caller's. -/
def rgFreeListCreateFromMemory (m : Mem) (buffer bufferSize : Nat) (list : FreeList)
    (blockSize maxBlocks : Nat) : Status × Mem × FreeList :=
  if buffer = 0 then (.errInvalid, m, list)
  else
    match rgmFreelistCheck blockSize maxBlocks with
    | .error e => (e, m, list)
    | .ok bs =>
      if bufferSize < bs * maxBlocks then (.errTooSmall, m, list)
      else
        match rgmFreelistInstall m buffer bs maxBlocks with
        | (m, list) => (.ok, m, list)

/-! ## Allocating and freeing -/

/-- Pop the head of the chain, or take the next block that was never handed out. -/
def rgFreeListAlloc (m : Mem) (list : FreeList) : Nat × FreeList :=
  if !rgmFreelistIsLive list ∨ list.blocksFree = 0 then (0, list)
  else
    let list := { list with blocksFree := u32 (list.blocksFree + (2 ^ 32 - 1)) }
    if list.next ≠ 0 then
      (list.next, { list with next := (load64 m list.next).toNat })
    else
      (list.buffer + list.initHigh * list.blockSize,
        { list with initHigh := u32 (list.initHigh + 1) })

/-- Push a block onto the chain. -/
def rgFreeListFree (m : Mem) (list : FreeList) (ptr : Nat) : Mem × FreeList :=
  if !rgmFreelistIsLive list then (m, list)
  else
    (store64 m ptr (BitVec.ofNat 64 list.next),
      { list with next := ptr, blocksFree := u32 (list.blocksFree + 1) })

/-- The inline copy of `rgFreeListAlloc`: it pops the chain without looking at `blocksFree`. -/
def rgFreeListAllocFast (m : Mem) (list : FreeList) : Nat × FreeList :=
  if list.next ≠ 0 then
    (list.next, { list with
      next := (load64 m list.next).toNat
      blocksFree := u32 (list.blocksFree + (2 ^ 32 - 1)) })
  else rgFreeListAlloc m list

/-- The inline copy of `rgFreeListFree`. -/
def rgFreeListFreeFast (m : Mem) (list : FreeList) (ptr : Nat) : Mem × FreeList :=
  if list.buffer ≠ 0 then
    (store64 m ptr (BitVec.ofNat 64 list.next),
      { list with next := ptr, blocksFree := u32 (list.blocksFree + 1) })
  else (m, list)

/-- The number of blocks that can be allocated. -/
def rgFreeListBlocksFree (list : FreeList) : Nat :=
  if rgmFreelistIsLive list then list.blocksFree else 0

end RgMemory
