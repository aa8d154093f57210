import RgMemory.Arena.Model
import RgMemory.Lib.Bytes

/-!
# The dense list

`rg_dense_list.c` and the inline copies of its header: a pool of equally sized blocks whose live
blocks are always the first `count` of the buffer. `Alloc` hands out the next one, `Free` moves the
last one into the gap.

The move copies 16 bytes a round under a 32-bit induction variable. A loop that has made `2 ^ 32`
rounds has seen one value of it twice and never ends; the model answers `none` there.
-/

namespace RgMemory

open Bytes

/-- The control block. `buffer = 0` marks it uninitialised. -/
structure DenseList where
  maxBlocks : Nat
  blockSize : Nat
  count : Nat
  buffer : Nat

def rgmDenselistIsLive (dl : DenseList) : Bool := dl.buffer ≠ 0

/-- The requested block size rounded up to 16; 0 when it does not fit 32 bits. -/
def rgmDenselistEffectiveBlockSize (blockSize : Nat) : Nat :=
  let blockSize := if blockSize = 0 then 1 else blockSize
  let blockSize := u64 (blockSize + 15) &&& u64Not 15
  if blockSize = 0 ∨ blockSize > 0xFFFFFFFF then 0 else blockSize

def rgmDenselistInstall (buffer blockSize maxBlocks : Nat) : DenseList :=
  { maxBlocks, blockSize, count := 0, buffer }

/-! ## Creation -/

/-- The bytes of a buffer; 0 when there is none. -/
def rgDenseListBufferSize (blockSize maxBlocks : Nat) : Nat :=
  if maxBlocks = 0 then 0
  else
    let bs := rgmDenselistEffectiveBlockSize blockSize
    if bs = 0 ∨ bs > (2 ^ 64 - 1) / maxBlocks then 0 else u64 (bs * maxBlocks)

/-- The checks that the creators share: the effective block size, or the error. -/
def rgmDenselistCheck (blockSize maxBlocks : Nat) : Except Status Nat :=
  if maxBlocks = 0 then .error .errInvalid
  else
    let bs := rgmDenselistEffectiveBlockSize blockSize
    if bs = 0 ∨ bs > (2 ^ 64 - 1) / maxBlocks then .error .errOverflow
    else .ok bs

/-- Populate `list` with a buffer from the arena. -/
def rgDenseListCreate (page : Nat) (os : OsReply) (a : ArenaState) (list : DenseList)
    (blockSize maxBlocks : Nat) : Status × ArenaState × DenseList :=
  match rgmDenselistCheck blockSize maxBlocks with
  | .error e => (e, a, list)
  | .ok bs =>
    match rgArenaAlloc page os a (bs * maxBlocks) with
    | (buffer, a) =>
      if buffer = 0 then
        (if rgArenaIsValid a.toArena then .errNoMemory else .errInvalid, a, list)
      else (.ok, a, rgmDenselistInstall buffer bs maxBlocks)

/-- Populate `list` with a buffer of the caller's. -/
def rgDenseListCreateFromMemory (buffer bufferSize : Nat) (list : DenseList)
    (blockSize maxBlocks : Nat) : Status × DenseList :=
  if buffer = 0 then (.errInvalid, list)
  else
    match rgmDenselistCheck blockSize maxBlocks with
    | .error e => (e, list)
    | .ok bs =>
      if bufferSize < bs * maxBlocks then (.errTooSmall, list)
      else (.ok, rgmDenselistInstall buffer bs maxBlocks)

/-! ## The calls -/

/-- Forget every block; the buffer is left alone. -/
def rgDenseListClear (list : DenseList) : DenseList :=
  if rgmDenselistIsLive list then { list with count := 0 } else list

/-- Hand out the next block. -/
def rgDenseListAlloc (list : DenseList) : Nat × DenseList :=
  if !rgmDenselistIsLive list ∨ list.count ≥ list.maxBlocks then (0, list)
  else
    (list.buffer + list.count * list.blockSize, { list with count := (list.count + 1) % 2 ^ 32 })

/-- The inline copy of `rgDenseListAlloc`. -/
def rgDenseListAllocFast (list : DenseList) : Nat × DenseList :=
  if list.buffer = 0 ∨ list.count ≥ list.maxBlocks then (0, list)
  else
    (list.buffer + list.count * list.blockSize, { list with count := (list.count + 1) % 2 ^ 32 })

/-- One round of the move: 16 bytes through two locals. -/
def rgmDenselistCopy16 (m : Mem) (dst src : Nat) : Mem :=
  let a := load64 m src
  let b := load64 m (src + 8)
  let m := store64 m dst a
  store64 m (dst + 8) b

/-- The move of a block of `n` bytes, from byte `i` on. -/
def rgmDenselistMove (dst src n : Nat) : Nat → Mem → Nat → Option Mem
  | 0, _, _ => none
  | fuel + 1, m, i =>
    if i < n then
      rgmDenselistMove dst src n fuel (rgmDenselistCopy16 m (dst + i) (src + i))
        ((i + 16) % 2 ^ 32)
    else some m

/-- Remove the block at `ptr`: the last one takes its place. -/
def rgDenseListFree (m : Mem) (list : DenseList) (ptr : Nat) : Option (Mem × DenseList) :=
  if !rgmDenselistIsLive list ∨ list.count = 0 then some (m, list)
  else
    let last := list.buffer + (list.count - 1) * list.blockSize
    let moved := if ptr ≠ last then rgmDenselistMove ptr last list.blockSize (2 ^ 32) m 0 else some m
    moved.map fun m => (m, { list with count := list.count - 1 })

/-! ## Queries -/

/-- The address of slot `index`. -/
def rgDenseListAt (list : DenseList) (index : Nat) : Nat :=
  if !rgmDenselistIsLive list ∨ index ≥ list.count then 0
  else list.buffer + index * list.blockSize

/-- The inline copy of `rgDenseListAt`. -/
def rgDenseListAtFast (list : DenseList) (index : Nat) : Nat :=
  if list.buffer = 0 ∨ index ≥ list.count then 0 else list.buffer + index * list.blockSize

/-- The slot that `ptr` points into, `2 ^ 32 - 1` when it lies outside the buffer. -/
def rgDenseListIndexOf (list : DenseList) (ptr : Nat) : Nat :=
  if !rgmDenselistIsLive list ∨ ptr = 0 then 2 ^ 32 - 1
  else
    let bufferBytes := u64 (list.maxBlocks * list.blockSize)
    if ptr < list.buffer then 2 ^ 32 - 1
    else
      let offset := ptr - list.buffer
      if offset ≥ bufferBytes then 2 ^ 32 - 1 else (offset / list.blockSize) % 2 ^ 32

def rgDenseListCount (list : DenseList) : Nat := if rgmDenselistIsLive list then list.count else 0

end RgMemory
