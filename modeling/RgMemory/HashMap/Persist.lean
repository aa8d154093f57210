import RgMemory.HashMap.Model

/-!
# Saving and opening a map

The persistence part of `rg_hash_map.c`. The only state of a map outside its arena is the index of
roots; `rgHashMapSave` copies it into the arena behind a header at offset 0, `rgHashMapOpen` checks
header and node graph and copies it back.

The validator keeps the source's explicit stack. Its outer loop spends one unit of the budget in each
round, so it is by recursion on the budget.
-/

namespace RgMemory

open Bytes

/-! ## The header -/

def rgmHashMapMagic : BitVec 64 := 0x52474d484d415031
def rgmHashMapPersistVersion : BitVec 32 := 2

/-- `RGM_HASH_MAP_INDEX_BYTES`. -/
def rgmHashMapIndexBytes : Nat := 4096 * 4

/-- `RGM_HASH_MAP_INDEX_TOPBITS`. -/
def rgmHashMapIndexTopBits : BitVec 32 := 12

namespace PersistHeader

/-- The size of the header. -/
def size : Nat := 32

def magic (img : Mem) : BitVec 64 := load64 img 0
def version (img : Mem) : BitVec 32 := load32 img 8
def topBits (img : Mem) : BitVec 32 := load32 img 12
def highWater (img : Mem) : BitVec 64 := load64 img 16
def indexOffset (img : Mem) : BitVec 64 := load64 img 24

end PersistHeader

/-- The stores that write the header at the address `base`. -/
def rgmHashMapWriteHeader (m : Mem) (base highWater indexOffset : Nat) : Mem :=
  let m := store64 m base rgmHashMapMagic
  let m := store32 m (base + 8) rgmHashMapPersistVersion
  let m := store32 m (base + 12) rgmHashMapIndexTopBits
  let m := store64 m (base + 16) (BitVec.ofNat 64 highWater)
  store64 m (base + 24) (BitVec.ofNat 64 indexOffset)

/-- The bytes of the index, `RGM_HASH_MAP_INDEX_PTR`. -/
def HashMap.indexPtr (map : HashMap) : Mem := fun i =>
  store32 (fun _ => 0) 0 (map.top (Fin.ofNat 4096 (i / 4))) (i % 4)

/-- A copy of the index in an image. -/
def indexCopy (img : Mem) (off : Nat) (i : Fin 4096) : BitVec 32 := load32 img (off + 4 * i)

/-! ## Save -/

/-- The test that lets a save reuse the index region of an earlier one. -/
def rgmHashMapIndexReusable (img : Mem) (cap : Nat) : Bool :=
  PersistHeader.magic img = rgmHashMapMagic &&
    PersistHeader.version img = rgmHashMapPersistVersion &&
    PersistHeader.topBits img = rgmHashMapIndexTopBits &&
    (PersistHeader.indexOffset img).toNat ≥ rgmCacheLine &&
    (PersistHeader.indexOffset img).toNat ≤ 2 ^ 32 - 1 &&
    (PersistHeader.indexOffset img).toNat ≤ cap &&
    rgmHashMapIndexBytes ≤ cap - (PersistHeader.indexOffset img).toNat

/-- The offset of the index region: the one of an earlier save, or a new allocation. -/
def rgmHashMapIndexRegion (page : Nat) (os : OsReply) (s : ArenaState) :
    Option Nat × ArenaState :=
  if rgmHashMapIndexReusable s.img (rgArenaCapacity s.toArena) then
    (some (PersistHeader.indexOffset s.img).toNat, s)
  else
    match rgArenaAllocAligned page os s rgmHashMapIndexBytes 16 with
    | (idx, s) =>
      if idx = 0 then (none, s)
      else if idx - s.base > 2 ^ 32 - 1 then (none, rgArenaPop s rgmHashMapIndexBytes)
      else (some (idx - s.base), s)

/-- Checkpoint a map: the copy of its index, then the header. The stores do not ask whether their pages
are accessible: where a reused region reaches above the committed part, the source traps and the
model stores. -/
def rgHashMapSave (page : Nat) (os : OsReply) (map : HashMap) (s : ArenaState) :
    Status × ArenaState :=
  if !rgmMapIsLive map s.toArena then (.errInvalid, s)
  else if rgArenaUsed s.toArena < rgmCacheLine then (.errInvalid, s)
  else
    match rgmHashMapIndexRegion page os s with
    | (none, s) => (.errNoMemory, s)
    | (some indexOffset, s) =>
      let m := copy s.mem (s.base + indexOffset) map.indexPtr rgmHashMapIndexBytes
      (.ok, s.setMem (rgmHashMapWriteHeader m s.base (rgArenaUsed s.toArena) indexOffset))

/-! ## The validator -/

/-- `RGM_HASH_MAP_VALIDATE_MAX_DEPTH`. -/
def rgmHashMapValidateMaxDepth : Nat := 256

/-- A frame of the validator's stack: a node and its next child. -/
structure ValidateFrame where
  off : BitVec 32
  next : Nat

/-- The inner `while`: the first non-zero one of the last `left` children, and the child after it. -/
def rgmHashMapScanChild (img : Mem) (node : BitVec 32) : Nat → BitVec 32 × Nat
  | 0 => (0, 4)
  | left + 1 =>
    let off := HashMapNode.child img node (4 - (left + 1))
    if off ≠ 0 then (off, 4 - left) else rgmHashMapScanChild img node left

/-- The next node to descend into and its parent, with finished frames popped; none when the stack
runs empty. -/
def rgmHashMapFindNext (img : Mem) :
    List ValidateFrame → Option (BitVec 32 × BitVec 32 × List ValidateFrame)
  | [] => none
  | top :: rest =>
    match rgmHashMapScanChild img top.off (4 - top.next) with
    | (off, next) =>
      if off ≠ 0 then some (off, top.off, ⟨top.off, next⟩ :: rest)
      else rgmHashMapFindNext img rest

/-- The checks on a node, apart from budget and depth. -/
def rgmHashMapNodeOk (img : Mem) (highWater : Nat) (parent off : BitVec 32) : Bool :=
  !(off.toNat < rgmCacheLine || off.toNat ≤ parent.toNat || off &&& 7 ≠ 0 ||
      off.toNat + HashMapNode.size > highWater) &&
    !((HashMapNode.keyLen img off).toNat > highWater - off.toNat - HashMapNode.size)

/-- The `for (;;)` of the validator; the answer is the budget that is left, none for an invalid
graph. -/
def rgmHashMapValidateLoop (img : Mem) (highWater : Nat) :
    Nat → List ValidateFrame → BitVec 32 → BitVec 32 → Option Nat
  | 0, _, _, _ => none
  | budget + 1, stack, parent, off =>
    if stack.length = rgmHashMapValidateMaxDepth ∨ rgmHashMapNodeOk img highWater parent off = false
    then none
    else
      match rgmHashMapFindNext img (⟨off, 0⟩ :: stack) with
      | none => some budget
      | some (off, parent, stack) => rgmHashMapValidateLoop img highWater budget stack parent off

def rgmHashMapValidateSubtree (img : Mem) (highWater : Nat) (root : BitVec 32) (budget : Nat) :
    Option Nat :=
  rgmHashMapValidateLoop img highWater budget [] 0 root

/-- The loop over the roots, which share one budget. -/
def rgmHashMapValidateRoots (img : Mem) (highWater : Nat) : List (BitVec 32) → Nat → Option Nat
  | [], budget => some budget
  | root :: rest, budget =>
    if root ≠ 0 then
      match rgmHashMapValidateSubtree img highWater root budget with
      | none => none
      | some budget => rgmHashMapValidateRoots img highWater rest budget
    else rgmHashMapValidateRoots img highWater rest budget

/-! ## Open -/

/-- The checks of `rgHashMapOpen` on the header. -/
def rgmHashMapHeaderOk (img : Mem) (cap committed : Nat) : Bool :=
  let indexOffset := (PersistHeader.indexOffset img).toNat
  let highWater := (PersistHeader.highWater img).toNat
  !(PersistHeader.magic img ≠ rgmHashMapMagic || PersistHeader.version img ≠ rgmHashMapPersistVersion ||
    PersistHeader.topBits img ≠ rgmHashMapIndexTopBits || indexOffset < rgmCacheLine ||
    indexOffset > 2 ^ 32 - 1 || indexOffset > cap || rgmHashMapIndexBytes > cap - indexOffset ||
    PersistHeader.indexOffset img &&& 3 ≠ 0 || highWater > cap || highWater > committed ||
    highWater < indexOffset + rgmHashMapIndexBytes)

/-- Reconstruct a map over the image in an arena. -/
def rgHashMapOpen (map : HashMap) (s : ArenaState) : Status × HashMap × ArenaState :=
  if s.base = 0 then (.errInvalid, map, s)
  else if s.committed < PersistHeader.size then (.errFormat, map, s)
  else if !rgmHashMapHeaderOk s.img (rgArenaCapacity s.toArena) s.committed then
    (.errFormat, map, s)
  else
    let highWater := (PersistHeader.highWater s.img).toNat
    let index := indexCopy s.img (PersistHeader.indexOffset s.img).toNat
    match rgmHashMapValidateRoots s.img highWater ((List.finRange 4096).map index)
        (highWater / HashMapNode.size) with
    | none => (.errFormat, map, s)
    | some _ => (.ok, ⟨true, index⟩, { s with pos := highWater })

end RgMemory
