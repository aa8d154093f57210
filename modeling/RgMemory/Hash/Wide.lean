import RgMemory.Hash.Func

/-!
# The hash functions that give two words

The `_128` variants of `rg_hash_func.h`, whose last mix hands out the upper half of its product as a
second digest, and the dual-seeded hash, which runs two seeds through the loops at once. The latter
is the pair of the two single hashes (`rgmHashWyhashDualSeeded_eq`).

The source writes the body of `rg_hash_wyhash_seeded` out again in each of them, and so do the
definitions here; lemmas say that the copies compute the same words and lanes.
-/

namespace RgMemory

open Bytes

/-- The protected mix with both halves of the product. -/
def rgmHashWymix128 (a b s1 s2 : BitVec 64) : BitVec 64 × BitVec 64 :=
  let x := a ^^^ s1 ^^^ s2
  let y := b ^^^ s2
  let (lo, hi) := rgmHashWymum128 x y
  (x ^^^ y ^^^ lo ^^^ hi, y ^^^ hi)

/-- The digests of an eight-byte key in a register. -/
def rgmHashU64_128 (key : BitVec 64) : BitVec 64 × BitVec 64 :=
  let a := key <<< 32 ||| key >>> 32
  rgmHashWymix128 a (key ^^^ 8) rgmHashWyp1 rgmHashWyp0

/-- The words of a key of at most 16 bytes, in this body. -/
def rgmHash128ShortWords (p : Mem) (len : Nat) : BitVec 64 × BitVec 64 :=
  if 4 ≤ len then
    ((rgmHashLoadU32 p 0).setWidth 64 <<< 32 ||| (rgmHashLoadU32 p (len / 8 * 4)).setWidth 64,
      (rgmHashLoadU32 p (len - 4)).setWidth 64 <<< 32
        ||| (rgmHashLoadU32 p (len - 4 - len / 8 * 4)).setWidth 64)
  else if 0 < len then (rgmHashLoadU3 p len, 0)
  else (0, 0)

/-- One round of its 48-byte loop. -/
def rgmHash128Block48 (p : Mem) (l : HashLanes) : HashLanes where
  off := l.off + 48
  left := l.left - 48
  seed := rgmHashWymix (rgmHashLoadU64 p l.off) (rgmHashLoadU64 p (l.off + 8)) rgmHashWyp1 l.seed
  see1 := rgmHashWymix (rgmHashLoadU64 p (l.off + 16)) (rgmHashLoadU64 p (l.off + 24)) rgmHashWyp2
    l.see1
  see2 := rgmHashWymix (rgmHashLoadU64 p (l.off + 32)) (rgmHashLoadU64 p (l.off + 40)) rgmHashWyp3
    l.see2

def rgmHash128Loop48 (p : Mem) : Nat → HashLanes → HashLanes
  | 0, l => l
  | fuel + 1, l => if l.left > 48 then rgmHash128Loop48 p fuel (rgmHash128Block48 p l) else l

/-- One round of its 16-byte loop. -/
def rgmHash128Block16 (p : Mem) (l : HashLanes) : HashLanes :=
  { l with
    off := l.off + 16
    left := l.left - 16
    seed := rgmHashWymix (rgmHashLoadU64 p l.off) (rgmHashLoadU64 p (l.off + 8)) rgmHashWyp1
      l.seed }

def rgmHash128Loop16 (p : Mem) : Nat → HashLanes → HashLanes
  | 0, l => l
  | fuel + 1, l => if l.left > 16 then rgmHash128Loop16 p fuel (rgmHash128Block16 p l) else l

/-- The lanes of a key of more than 16 bytes, in this body. -/
def rgmHash128LongLanes (p : Mem) (len : Nat) (seed : BitVec 64) : HashLanes :=
  let l : HashLanes := ⟨0, len, seed, seed, seed⟩
  let l :=
    if len > 48 then
      let l := rgmHash128Loop48 p len l
      { l with seed := l.seed ^^^ (l.see1 ^^^ l.see2) }
    else l
  rgmHash128Loop16 p len l

/-- The seeded digests of the `len` bytes at `p`. -/
def rgmHashWyhash128Seeded (p : Mem) (len : Nat) (seed : BitVec 64) : BitVec 64 × BitVec 64 :=
  if len = 8 then
    let b := rgmHashLoadU64 p 0
    let a := b <<< 32 ||| b >>> 32
    rgmHashWymix128 a (b ^^^ 8) rgmHashWyp1 seed
  else if len ≤ 16 then
    let (a, b) := rgmHash128ShortWords p len
    rgmHashWymix128 a (b ^^^ BitVec.ofNat 64 len) rgmHashWyp1 seed
  else
    let l := rgmHash128LongLanes p len seed
    let a := rgmHashLoadU64 p (l.off + l.left - 16)
    let b := rgmHashLoadU64 p (l.off + l.left - 8)
    rgmHashWymix128 a (b ^^^ BitVec.ofNat 64 len) rgmHashWyp1 l.seed

theorem rgmHash128ShortWords_eq (p : Mem) (len : Nat) :
    rgmHash128ShortWords p len = rgmHashShortWords p len := rfl

theorem rgmHash128Loop48_eq (p : Mem) (fuel : Nat) (l : HashLanes) :
    rgmHash128Loop48 p fuel l = rgmHashLoop48 p fuel l := by
  induction fuel generalizing l with
  | zero => rfl
  | succ fuel ih =>
    rw [rgmHash128Loop48, rgmHashLoop48]
    split
    · exact ih (rgmHash128Block48 p l)
    · rfl

theorem rgmHash128Loop16_eq (p : Mem) (fuel : Nat) (l : HashLanes) :
    rgmHash128Loop16 p fuel l = rgmHashLoop16 p fuel l := by
  induction fuel generalizing l with
  | zero => rfl
  | succ fuel ih =>
    rw [rgmHash128Loop16, rgmHashLoop16]
    split
    · exact ih (rgmHash128Block16 p l)
    · rfl

/-- The loops are those of the plain body. -/
theorem rgmHash128LongLanes_eq (p : Mem) (len : Nat) (seed : BitVec 64) :
    rgmHash128LongLanes p len seed = rgmHashLongLanes p len seed := by
  simp only [rgmHash128LongLanes, rgmHashLongLanes, rgmHash128Loop48_eq, rgmHash128Loop16_eq]

def rgmHashWyhash128 (p : Mem) (len : Nat) : BitVec 64 × BitVec 64 :=
  rgmHashWyhash128Seeded p len rgmHashWyp0

/-- The register form gives the digests of the eight little-endian bytes. -/
theorem rgmHashU64_128_eq (key : BitVec 64) :
    rgmHashU64_128 key = rgmHashWyhash128 (ptr (leBytes key)) 8 := by
  rw [rgmHashWyhash128, rgmHashWyhash128Seeded, if_pos rfl, loadU64_eq, load64_leBytes]
  rfl

/-! ## Two seeds at once -/

/-- The state of the dual block loops: where they read, and the lanes of either seed. -/
structure HashDualLanes where
  off : Nat
  left : Nat
  seed1 : BitVec 64
  see1_1 : BitVec 64
  see2_1 : BitVec 64
  seed2 : BitVec 64
  see1_2 : BitVec 64
  see2_2 : BitVec 64

/-- The lanes of the first and of the second seed. -/
def HashDualLanes.fst (l : HashDualLanes) : HashLanes := ⟨l.off, l.left, l.seed1, l.see1_1, l.see2_1⟩

def HashDualLanes.snd (l : HashDualLanes) : HashLanes := ⟨l.off, l.left, l.seed2, l.see1_2, l.see2_2⟩

/-- One round of the 48-byte loop: the six words are loaded once. -/
def rgmHashDualBlock48 (p : Mem) (l : HashDualLanes) : HashDualLanes :=
  let l0 := rgmHashLoadU64 p l.off
  let l1 := rgmHashLoadU64 p (l.off + 8)
  let l2 := rgmHashLoadU64 p (l.off + 16)
  let l3 := rgmHashLoadU64 p (l.off + 24)
  let l4 := rgmHashLoadU64 p (l.off + 32)
  let l5 := rgmHashLoadU64 p (l.off + 40)
  { off := l.off + 48
    left := l.left - 48
    seed1 := rgmHashWymix l0 l1 rgmHashWyp1 l.seed1
    see1_1 := rgmHashWymix l2 l3 rgmHashWyp2 l.see1_1
    see2_1 := rgmHashWymix l4 l5 rgmHashWyp3 l.see2_1
    seed2 := rgmHashWymix l0 l1 rgmHashWyp1 l.seed2
    see1_2 := rgmHashWymix l2 l3 rgmHashWyp2 l.see1_2
    see2_2 := rgmHashWymix l4 l5 rgmHashWyp3 l.see2_2 }

def rgmHashDualLoop48 (p : Mem) : Nat → HashDualLanes → HashDualLanes
  | 0, l => l
  | fuel + 1, l => if l.left > 48 then rgmHashDualLoop48 p fuel (rgmHashDualBlock48 p l) else l

/-- One round of the 16-byte loop. -/
def rgmHashDualBlock16 (p : Mem) (l : HashDualLanes) : HashDualLanes :=
  let l0 := rgmHashLoadU64 p l.off
  let l1 := rgmHashLoadU64 p (l.off + 8)
  { l with
    off := l.off + 16
    left := l.left - 16
    seed1 := rgmHashWymix l0 l1 rgmHashWyp1 l.seed1
    seed2 := rgmHashWymix l0 l1 rgmHashWyp1 l.seed2 }

def rgmHashDualLoop16 (p : Mem) : Nat → HashDualLanes → HashDualLanes
  | 0, l => l
  | fuel + 1, l => if l.left > 16 then rgmHashDualLoop16 p fuel (rgmHashDualBlock16 p l) else l

/-- The lanes of a key of more than 16 bytes after both loops. -/
def rgmHashDualLongLanes (p : Mem) (len : Nat) (seed1 seed2 : BitVec 64) : HashDualLanes :=
  let l : HashDualLanes := ⟨0, len, seed1, seed1, seed1, seed2, seed2, seed2⟩
  let l :=
    if len > 48 then
      let l := rgmHashDualLoop48 p len l
      { l with
        seed1 := l.seed1 ^^^ (l.see1_1 ^^^ l.see2_1)
        seed2 := l.seed2 ^^^ (l.see1_2 ^^^ l.see2_2) }
    else l
  rgmHashDualLoop16 p len l

/-- The words of a key of at most 16 bytes, in this body. -/
def rgmHashDualShortWords (p : Mem) (len : Nat) : BitVec 64 × BitVec 64 :=
  if 4 ≤ len then
    ((rgmHashLoadU32 p 0).setWidth 64 <<< 32 ||| (rgmHashLoadU32 p (len / 8 * 4)).setWidth 64,
      (rgmHashLoadU32 p (len - 4)).setWidth 64 <<< 32
        ||| (rgmHashLoadU32 p (len - 4 - len / 8 * 4)).setWidth 64)
  else if 0 < len then (rgmHashLoadU3 p len, 0)
  else (0, 0)

theorem rgmHashDualShortWords_eq (p : Mem) (len : Nat) :
    rgmHashDualShortWords p len = rgmHashShortWords p len := rfl

/-- The digests of the `len` bytes at `p` for two seeds. -/
def rgmHashWyhashDualSeeded (p : Mem) (len : Nat) (seed1 seed2 : BitVec 64) :
    BitVec 64 × BitVec 64 :=
  if len = 8 then
    let b := rgmHashLoadU64 p 0
    let a := b <<< 32 ||| b >>> 32
    (rgmHashWymix a (b ^^^ 8) rgmHashWyp1 seed1, rgmHashWymix a (b ^^^ 8) rgmHashWyp1 seed2)
  else if len ≤ 16 then
    let (a, b) := rgmHashDualShortWords p len
    (rgmHashWymix a (b ^^^ BitVec.ofNat 64 len) rgmHashWyp1 seed1,
      rgmHashWymix a (b ^^^ BitVec.ofNat 64 len) rgmHashWyp1 seed2)
  else
    let l := rgmHashDualLongLanes p len seed1 seed2
    let a := rgmHashLoadU64 p (l.off + l.left - 16)
    let b := rgmHashLoadU64 p (l.off + l.left - 8)
    (rgmHashWymix a (b ^^^ BitVec.ofNat 64 len) rgmHashWyp1 l.seed1,
      rgmHashWymix a (b ^^^ BitVec.ofNat 64 len) rgmHashWyp1 l.seed2)

/-- Each seed's lanes run as they run alone. -/
theorem rgmHashDualLoop48_eq (p : Mem) (fuel : Nat) (l : HashDualLanes) :
    (rgmHashDualLoop48 p fuel l).fst = rgmHashLoop48 p fuel l.fst ∧
      (rgmHashDualLoop48 p fuel l).snd = rgmHashLoop48 p fuel l.snd := by
  induction fuel generalizing l with
  | zero => exact ⟨rfl, rfl⟩
  | succ fuel ih =>
    have hfst : l.fst.left = l.left := rfl
    have hsnd : l.snd.left = l.left := rfl
    rw [rgmHashDualLoop48, rgmHashLoop48, rgmHashLoop48, hfst, hsnd]
    split
    · exact ih (rgmHashDualBlock48 p l)
    · exact ⟨rfl, rfl⟩

theorem rgmHashDualLoop16_eq (p : Mem) (fuel : Nat) (l : HashDualLanes) :
    (rgmHashDualLoop16 p fuel l).fst = rgmHashLoop16 p fuel l.fst ∧
      (rgmHashDualLoop16 p fuel l).snd = rgmHashLoop16 p fuel l.snd := by
  induction fuel generalizing l with
  | zero => exact ⟨rfl, rfl⟩
  | succ fuel ih =>
    have hfst : l.fst.left = l.left := rfl
    have hsnd : l.snd.left = l.left := rfl
    rw [rgmHashDualLoop16, rgmHashLoop16, rgmHashLoop16, hfst, hsnd]
    split
    · exact ih (rgmHashDualBlock16 p l)
    · exact ⟨rfl, rfl⟩

theorem rgmHashDualLongLanes_eq (p : Mem) (len : Nat) (seed1 seed2 : BitVec 64) :
    (rgmHashDualLongLanes p len seed1 seed2).fst = rgmHashLongLanes p len seed1 ∧
      (rgmHashDualLongLanes p len seed1 seed2).snd = rgmHashLongLanes p len seed2 := by
  unfold rgmHashDualLongLanes rgmHashLongLanes
  dsimp only
  obtain ⟨hfst, hsnd⟩ :=
    rgmHashDualLoop48_eq p len ⟨0, len, seed1, seed1, seed1, seed2, seed2, seed2⟩
  split
  · rw [(rgmHashDualLoop16_eq ..).1, (rgmHashDualLoop16_eq ..).2]
    change _ = rgmHashLoop48 p len ⟨0, len, seed1, seed1, seed1⟩ at hfst
    change _ = rgmHashLoop48 p len ⟨0, len, seed2, seed2, seed2⟩ at hsnd
    rw [← hfst, ← hsnd]
    exact ⟨rfl, rfl⟩
  · exact rgmHashDualLoop16_eq ..

/-- One pass gives the digests of two. -/
theorem rgmHashWyhashDualSeeded_eq (p : Mem) (len : Nat) (seed1 seed2 : BitVec 64) :
    rgmHashWyhashDualSeeded p len seed1 seed2 =
      (rgmHashWyhashSeeded p len seed1, rgmHashWyhashSeeded p len seed2) := by
  obtain ⟨hfst, hsnd⟩ := rgmHashDualLongLanes_eq p len seed1 seed2
  unfold rgmHashWyhashDualSeeded rgmHashWyhashSeeded
  split
  · rfl
  split
  · rfl
  · rw [← hfst, ← hsnd]
    rfl

end RgMemory
