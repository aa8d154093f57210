import RgMemory.Arena.Model
import RgMemory.Hash.Wide

/-!
# The Bloom filter

`rg_bloom_filter.c`: an array of 512-bit blocks, each one cache line of eight words. A digest pair
selects one block by its first word and, by double hashing inside the block, `hashCount` bits by its
second. The array lies in memory as words at the address `bits`.

This module has the sequential reading of the code; the atomic accesses of `rgm_bloom_add_h` and
`rgm_bloom_test_h` become steps of their own in `Bloom.Shared`.
-/

namespace RgMemory

open Bytes

def rgmBloomBlockBits : Nat := 512
def rgmBloomBlockWords : Nat := 8
def rgmBloomBlockBytes : Nat := 64
def rgmBloomMaxBlocks : Nat := 2 ^ 28

/-- The control block. `bits = 0` marks it uninitialised. -/
structure BloomFilter where
  blockMask : BitVec 64
  blockCount : Nat
  hashCount : Nat
  bits : Nat

def rgmBloomIsLive (bf : BloomFilter) : Bool := bf.bits ≠ 0

/-! ## Creation -/

/-- Copy every set bit of a word to all lower positions. -/
def rgmBloomSmear (b : BitVec 32) : BitVec 32 :=
  let b := b ||| b >>> 1
  let b := b ||| b >>> 2
  let b := b ||| b >>> 4
  let b := b ||| b >>> 8
  b ||| b >>> 16

/-- The number of blocks for a budget of `bits`: whole blocks, rounded up to a power of two; 0 when
the budget is 0 or too large. -/
def rgmBloomRoundBlocks (bits : Nat) : Nat :=
  if bits = 0 then 0
  else if bits > 2 ^ 64 - 1 - (rgmBloomBlockBits - 1) then 0
  else
    let blocks := (bits + rgmBloomBlockBits - 1) / rgmBloomBlockBits
    if blocks > rgmBloomMaxBlocks then 0
    else if blocks ≤ 1 then 1
    else (rgmBloomSmear (BitVec.ofNat 32 (blocks - 1)) + 1).toNat

/-- The loop that zeroes the array. -/
def rgmBloomZero (m : Mem) (bits blockCount : Nat) : Mem :=
  (List.range (blockCount * rgmBloomBlockWords % 2 ^ 32)).foldl
    (fun m i => store64 m (bits + 8 * i) 0) m

def rgmBloomInstall (m : Mem) (bits blockCount hashCount : Nat) : Mem × BloomFilter :=
  (rgmBloomZero m bits blockCount,
    { blockMask := BitVec.ofNat 64 (blockCount - 1), blockCount, hashCount, bits })

/-- The bytes of an array for a budget of `bits`; 0 when the budget is 0 or too large. -/
def rgBloomFilterBufferSize (bits : Nat) : Nat :=
  let blocks := rgmBloomRoundBlocks bits
  if blocks = 0 then 0 else blocks * rgmBloomBlockBytes

/-- The checks that the creators share: the number of blocks, or the error. -/
def rgmBloomCheck (bits hashCount : Nat) : Except Status Nat :=
  if bits = 0 ∨ hashCount = 0 ∨ hashCount > rgmBloomBlockBytes * 8 then .error .errInvalid
  else
    let blocks := rgmBloomRoundBlocks bits
    if blocks = 0 then .error .errOverflow else .ok blocks

/-- Populate `bf` with an array from the arena. -/
def rgBloomFilterCreate (page : Nat) (os : OsReply) (a : ArenaState) (bf : BloomFilter)
    (bits hashCount : Nat) : Status × ArenaState × BloomFilter :=
  match rgmBloomCheck bits hashCount with
  | .error e => (e, a, bf)
  | .ok blocks =>
    match rgArenaAllocAligned page os a (blocks * rgmBloomBlockBytes) 64 with
    | (buf, a) =>
      if buf = 0 then
        (if rgArenaIsValid a.toArena then .errNoMemory else .errInvalid, a, bf)
      else
        match rgmBloomInstall a.mem buf blocks hashCount with
        | (m, bf) => (.ok, { a with mem := m }, bf)

/-- Populate `bf` with an array of the caller's. -/
def rgBloomFilterCreateFromMemory (m : Mem) (buffer bufferSize : Nat) (bf : BloomFilter)
    (bits hashCount : Nat) : Status × Mem × BloomFilter :=
  if buffer = 0 then (.errInvalid, m, bf)
  else
    match rgmBloomCheck bits hashCount with
    | .error e => (e, m, bf)
    | .ok blocks =>
      if bufferSize < blocks * rgmBloomBlockBytes then (.errTooSmall, m, bf)
      else
        match rgmBloomInstall m buffer blocks hashCount with
        | (m, bf) => (.ok, m, bf)

def rgBloomFilterClear (m : Mem) (bf : BloomFilter) : Mem :=
  if !rgmBloomIsLive bf then m else rgmBloomZero m bf.bits bf.blockCount

/-! ## Positions -/

/-- The address of the block that `h1` selects. -/
def rgmBloomBlock (bf : BloomFilter) (h1 : BitVec 64) : Nat :=
  bf.bits + 8 * ((h1 &&& bf.blockMask).toNat * rgmBloomBlockWords)

/-- The first bit position, and the odd step between positions. -/
def rgmBloomStart (h2 : BitVec 64) : Nat := h2.toNat &&& 0x1FF

def rgmBloomDelta (h2 : BitVec 64) : Nat := ((h2 >>> 32).toNat &&& 0x1FF) ||| 1

/-- The next position of the double hashing. -/
def rgmBloomNext (delta pos : Nat) : Nat := (pos + delta) &&& 0x1FF

/-- The loop that folds `k` positions from `pos` on into one mask a word. -/
def rgmBloomMasks (delta : Nat) : Nat → Nat → (Nat → BitVec 64) → Nat → BitVec 64
  | 0, _, wmask => wmask
  | k + 1, pos, wmask =>
    rgmBloomMasks delta k (rgmBloomNext delta pos) fun j =>
      if j = pos >>> 6 then wmask j ||| 1#64 <<< (pos &&& 63) else wmask j

/-- The masks of the words of the block that `h2` touches. -/
def rgmBloomWmask (bf : BloomFilter) (h2 : BitVec 64) : Nat → BitVec 64 :=
  rgmBloomMasks (rgmBloomDelta h2) bf.hashCount (rgmBloomStart h2) fun _ => 0

/-! ## Add -/

/-- Whether the atomic OR of a word is made: a bit of the mask is missing from what was loaded. -/
def rgmBloomMissing (loaded wmask : BitVec 64) : Bool := wmask ≠ 0 && (loaded &&& wmask) ≠ wmask

/-- One word of an `Add`: a plain OR, or the atomic one that is skipped when its bits are set. -/
def rgmBloomAddWord (atomic : Bool) (block : Nat) (wmask : Nat → BitVec 64) (m : Mem) (i : Nat) :
    Mem :=
  let loaded := load64 m (block + 8 * i)
  if atomic then
    if rgmBloomMissing loaded (wmask i) then store64 m (block + 8 * i) (loaded ||| wmask i) else m
  else store64 m (block + 8 * i) (loaded ||| wmask i)

/-- Add the bits of a digest pair. -/
def rgmBloomAddH (bf : BloomFilter) (m : Mem) (h1 h2 : BitVec 64) (atomic : Bool) : Mem :=
  (List.range rgmBloomBlockWords).foldl
    (rgmBloomAddWord atomic (rgmBloomBlock bf h1) (rgmBloomWmask bf h2)) m

def rgBloomFilterAddH (bf : BloomFilter) (m : Mem) (h1 h2 : BitVec 64) : Mem :=
  if !rgmBloomIsLive bf then m else rgmBloomAddH bf m h1 h2 true

def rgBloomFilterAddU64 (bf : BloomFilter) (m : Mem) (key : BitVec 64) : Mem :=
  if !rgmBloomIsLive bf then m
  else
    match rgmHashU64_128 key with
    | (h1, h2) => rgmBloomAddH bf m h1 h2 true

def rgBloomFilterAdd (bf : BloomFilter) (m : Mem) (key : KeyArg) : Mem :=
  if !rgmBloomIsLive bf || (key.null && key.bytes.length ≠ 0) then m
  else
    match rgmHashWyhash128 (ptr key.bytes) key.bytes.length with
    | (h1, h2) => rgmBloomAddH bf m h1 h2 true

def rgBloomFilterAddHUnsync (bf : BloomFilter) (m : Mem) (h1 h2 : BitVec 64) : Mem :=
  if !rgmBloomIsLive bf then m else rgmBloomAddH bf m h1 h2 false

def rgBloomFilterAddU64Unsync (bf : BloomFilter) (m : Mem) (key : BitVec 64) : Mem :=
  if !rgmBloomIsLive bf then m
  else
    match rgmHashU64_128 key with
    | (h1, h2) => rgmBloomAddH bf m h1 h2 false

def rgBloomFilterAddUnsync (bf : BloomFilter) (m : Mem) (key : KeyArg) : Mem :=
  if !rgmBloomIsLive bf || (key.null && key.bytes.length ≠ 0) then m
  else
    match rgmHashWyhash128 (ptr key.bytes) key.bytes.length with
    | (h1, h2) => rgmBloomAddH bf m h1 h2 false

/-! ## Test -/

/-- Whether the bit at `pos` is set in a loaded word. -/
def rgmBloomHasBit (loaded : BitVec 64) (pos : Nat) : Bool := (loaded &&& 1#64 <<< (pos &&& 63)) ≠ 0

/-- The loop over `k` positions from `pos` on: 0 on the first missing bit. -/
def rgmBloomTestLoop (m : Mem) (block delta : Nat) : Nat → Nat → Nat
  | 0, _ => 1
  | k + 1, pos =>
    if !rgmBloomHasBit (load64 m (block + 8 * (pos >>> 6))) pos then 0
    else rgmBloomTestLoop m block delta k (rgmBloomNext delta pos)

def rgmBloomTestH (bf : BloomFilter) (m : Mem) (h1 h2 : BitVec 64) : Nat :=
  rgmBloomTestLoop m (rgmBloomBlock bf h1) (rgmBloomDelta h2) bf.hashCount (rgmBloomStart h2)

def rgBloomFilterTestH (bf : BloomFilter) (m : Mem) (h1 h2 : BitVec 64) : Nat :=
  if !rgmBloomIsLive bf then 0 else rgmBloomTestH bf m h1 h2

def rgBloomFilterTestU64 (bf : BloomFilter) (m : Mem) (key : BitVec 64) : Nat :=
  if !rgmBloomIsLive bf then 0
  else
    match rgmHashU64_128 key with
    | (h1, h2) => rgmBloomTestH bf m h1 h2

def rgBloomFilterTest (bf : BloomFilter) (m : Mem) (key : KeyArg) : Nat :=
  if !rgmBloomIsLive bf || (key.null && key.bytes.length ≠ 0) then 0
  else
    match rgmHashWyhash128 (ptr key.bytes) key.bytes.length with
    | (h1, h2) => rgmBloomTestH bf m h1 h2

/-! ## Queries -/

def rgBloomFilterBitCount (bf : BloomFilter) : Nat :=
  if rgmBloomIsLive bf then bf.blockCount * rgmBloomBlockBits else 0

/-- The number of set bits of a word, by the compiler's builtin or by the portable branch. -/
def rgmBloomPopcount64 (builtin : Bool) (v : BitVec 64) : BitVec 32 :=
  if builtin then v.cpop.setWidth 32
  else
    let v := v - (v >>> 1 &&& 0x5555555555555555#64)
    let v := (v &&& 0x3333333333333333#64) + (v >>> 2 &&& 0x3333333333333333#64)
    let v := (v + v >>> 4) &&& 0x0f0f0f0f0f0f0f0f#64
    ((v * 0x0101010101010101#64) >>> 56).setWidth 32

/-- The number of set bits of the array. -/
def rgBloomFilterPopCount (builtin : Bool) (bf : BloomFilter) (m : Mem) : BitVec 64 :=
  if !rgmBloomIsLive bf then 0
  else
    (List.range (bf.blockCount * rgmBloomBlockWords % 2 ^ 32)).foldl
      (fun set i => set + (rgmBloomPopcount64 builtin (load64 m (bf.bits + 8 * i))).setWidth 64) 0

end RgMemory
