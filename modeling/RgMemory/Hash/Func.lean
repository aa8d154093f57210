import RgMemory.Lib.Bytes

/-!
# The hash function

`rg_hash_func.h`: the protected wyhash that every keyed container uses, its loads, and the reseed of
the trie descent. A key is a pointer and a length; a 64-bit word is a `BitVec 64`, so each operation
wraps where the machine does.

The branch with a native 128-bit multiply is the one embedded here (`Hash.Portable` has the other),
and the byte ladders stand for the unaligned loads. `loadU64_eq` and `loadU32_eq` say that a ladder
is the little-endian load of `Lib.Bytes`.
-/

namespace RgMemory

open Bytes

/-- The key of a call: a pointer, perhaps null, and the bytes that the length says are behind it. -/
structure KeyArg where
  null : Bool
  bytes : List Byte

/-! ## Loads -/

/-- The byte ladder of eight bytes. -/
def rgmHashLoadU64 (p : Mem) (i : Nat) : BitVec 64 :=
  (p i).setWidth 64
    ||| (p (i + 1)).setWidth 64 <<< 8
    ||| (p (i + 2)).setWidth 64 <<< 16
    ||| (p (i + 3)).setWidth 64 <<< 24
    ||| (p (i + 4)).setWidth 64 <<< 32
    ||| (p (i + 5)).setWidth 64 <<< 40
    ||| (p (i + 6)).setWidth 64 <<< 48
    ||| (p (i + 7)).setWidth 64 <<< 56

/-- The byte ladder of four bytes. -/
def rgmHashLoadU32 (p : Mem) (i : Nat) : BitVec 32 :=
  (p i).setWidth 32
    ||| (p (i + 1)).setWidth 32 <<< 8
    ||| (p (i + 2)).setWidth 32 <<< 16
    ||| (p (i + 3)).setWidth 32 <<< 24

/-- One to three bytes, packed: the first, the middle and the last. -/
def rgmHashLoadU3 (p : Mem) (k : Nat) : BitVec 64 :=
  (p 0).setWidth 64 <<< 16 ||| (p (k / 2)).setWidth 64 <<< 8 ||| (p (k - 1)).setWidth 64

/-! ## The mix -/

/-- The 128-bit product, as its low and high half. -/
def rgmHashWymum128 (a b : BitVec 64) : BitVec 64 × BitVec 64 :=
  let r : BitVec 128 := a.setWidth 128 * b.setWidth 128
  (r.setWidth 64, (r >>> 64).setWidth 64)

/-- In terms of the exact product. -/
theorem rgmHashWymum128_eq (a b : BitVec 64) :
    rgmHashWymum128 a b =
      (BitVec.ofNat 64 (a.toNat * b.toNat), BitVec.ofNat 64 (a.toNat * b.toNat / 2 ^ 64)) := by
  have hfit : a.toNat * b.toNat < 2 ^ 128 := by
    calc a.toNat * b.toNat < 2 ^ 64 * 2 ^ 64 := Nat.mul_lt_mul'' a.isLt b.isLt
      _ = 2 ^ 128 := by rw [← Nat.pow_add]
  have hprod : (a.setWidth 128 * b.setWidth 128).toNat = a.toNat * b.toNat := by
    have ha : (a.setWidth 128).toNat = a.toNat := BitVec.toNat_setWidth_of_le (by decide)
    have hb : (b.setWidth 128).toNat = b.toNat := BitVec.toNat_setWidth_of_le (by decide)
    rw [BitVec.toNat_mul, ha, hb, Nat.mod_eq_of_lt hfit]
  refine Prod.ext ?_ ?_
  · apply BitVec.eq_of_toNat_eq
    rw [rgmHashWymum128, BitVec.toNat_setWidth, hprod, BitVec.toNat_ofNat]
  · apply BitVec.eq_of_toNat_eq
    rw [rgmHashWymum128, BitVec.toNat_setWidth, BitVec.toNat_ushiftRight, hprod,
      Nat.shiftRight_eq_div_pow, BitVec.toNat_ofNat]

def rgmHashWymum (a b : BitVec 64) : BitVec 64 :=
  let (lo, hi) := rgmHashWymum128 a b
  lo ^^^ hi

/-- The protected mix: both multiplicands carry the seed and are folded back into the result. -/
def rgmHashWymix (a b s1 s2 : BitVec 64) : BitVec 64 :=
  let x := a ^^^ s1 ^^^ s2
  let y := b ^^^ s2
  x ^^^ y ^^^ rgmHashWymum x y

def rgmHashWyp0 : BitVec 64 := 0x2d358dccaa6c78a5
def rgmHashWyp1 : BitVec 64 := 0x8bb84b93962eacc9
def rgmHashWyp2 : BitVec 64 := 0x4b33a62ed433d4a3
def rgmHashWyp3 : BitVec 64 := 0x4d5a2da51de1aa47

/-! ## The digest -/

/-- The two words that a key of at most 16 bytes is packed into. -/
def rgmHashShortWords (p : Mem) (len : Nat) : BitVec 64 × BitVec 64 :=
  if 4 ≤ len then
    let step := len / 8 * 4
    ((rgmHashLoadU32 p 0).setWidth 64 <<< 32 ||| (rgmHashLoadU32 p step).setWidth 64,
      (rgmHashLoadU32 p (len - 4)).setWidth 64 <<< 32
        ||| (rgmHashLoadU32 p (len - 4 - step)).setWidth 64)
  else if 0 < len then (rgmHashLoadU3 p len, 0)
  else (0, 0)

/-- The state of the block loops: where they read, how many bytes are left, and the seeds. -/
structure HashLanes where
  off : Nat
  left : Nat
  seed : BitVec 64
  see1 : BitVec 64
  see2 : BitVec 64

/-- One round of the 48-byte loop: three lanes of two words each. -/
def rgmHashBlock48 (p : Mem) (l : HashLanes) : HashLanes where
  off := l.off + 48
  left := l.left - 48
  seed := rgmHashWymix (rgmHashLoadU64 p l.off) (rgmHashLoadU64 p (l.off + 8)) rgmHashWyp1 l.seed
  see1 := rgmHashWymix (rgmHashLoadU64 p (l.off + 16)) (rgmHashLoadU64 p (l.off + 24)) rgmHashWyp2
    l.see1
  see2 := rgmHashWymix (rgmHashLoadU64 p (l.off + 32)) (rgmHashLoadU64 p (l.off + 40)) rgmHashWyp3
    l.see2

/-- The loop on 48-byte blocks, for keys of more than 48 bytes. It never runs more rounds than the
key has bytes. -/
def rgmHashLoop48 (p : Mem) : Nat → HashLanes → HashLanes
  | 0, l => l
  | fuel + 1, l => if l.left > 48 then rgmHashLoop48 p fuel (rgmHashBlock48 p l) else l

/-- One round of the 16-byte loop. -/
def rgmHashBlock16 (p : Mem) (l : HashLanes) : HashLanes :=
  { l with
    off := l.off + 16
    left := l.left - 16
    seed := rgmHashWymix (rgmHashLoadU64 p l.off) (rgmHashLoadU64 p (l.off + 8)) rgmHashWyp1
      l.seed }

def rgmHashLoop16 (p : Mem) : Nat → HashLanes → HashLanes
  | 0, l => l
  | fuel + 1, l => if l.left > 16 then rgmHashLoop16 p fuel (rgmHashBlock16 p l) else l

/-- The lanes of a key of more than 16 bytes after both loops. -/
def rgmHashLongLanes (p : Mem) (len : Nat) (seed : BitVec 64) : HashLanes :=
  let l : HashLanes := ⟨0, len, seed, seed, seed⟩
  let l :=
    if len > 48 then
      let l := rgmHashLoop48 p len l
      { l with seed := l.seed ^^^ (l.see1 ^^^ l.see2) }
    else l
  rgmHashLoop16 p len l

/-- The seeded digest of the `len` bytes at `p`. -/
def rgmHashWyhashSeeded (p : Mem) (len : Nat) (seed : BitVec 64) : BitVec 64 :=
  if len = 8 then
    let b := rgmHashLoadU64 p 0
    let a := b <<< 32 ||| b >>> 32
    rgmHashWymix a (b ^^^ 8) rgmHashWyp1 seed
  else if len ≤ 16 then
    let (a, b) := rgmHashShortWords p len
    rgmHashWymix a (b ^^^ BitVec.ofNat 64 len) rgmHashWyp1 seed
  else
    let l := rgmHashLongLanes p len seed
    -- the last 16 bytes of the key, which the loops may have read already
    let a := rgmHashLoadU64 p (l.off + l.left - 16)
    let b := rgmHashLoadU64 p (l.off + l.left - 8)
    rgmHashWymix a (b ^^^ BitVec.ofNat 64 len) rgmHashWyp1 l.seed

def rgmHashWyhash (p : Mem) (len : Nat) : BitVec 64 := rgmHashWyhashSeeded p len rgmHashWyp0

/-- The digest of an eight-byte key in a register. -/
def rgmHashU64Seeded (key seed : BitVec 64) : BitVec 64 :=
  let a := key <<< 32 ||| key >>> 32
  rgmHashWymix a (key ^^^ 8) rgmHashWyp1 seed

def rgmHashU64 (key : BitVec 64) : BitVec 64 := rgmHashU64Seeded key rgmHashWyp0

/-! ## The descent reseed -/

/-- The seed of a reseed round. -/
def rgmHashReseedSeed (round : BitVec 32) : BitVec 64 :=
  rgmHashWyp0 ^^^ (rgmHashWyp3 * round.setWidth 64)

def rgmHashReseedBytes (p : Mem) (len : Nat) (round : BitVec 32) : BitVec 64 :=
  rgmHashWyhashSeeded p len (rgmHashReseedSeed round)

def rgmHashReseedU64 (key : BitVec 64) (round : BitVec 32) : BitVec 64 :=
  rgmHashU64Seeded key (rgmHashReseedSeed round)

/-- The reseed of a descent that has digests for a key. -/
def rgmHashReseedH (h1 h2 : BitVec 64) (round : BitVec 32) : BitVec 64 :=
  rgmHashWymix (h1 ^^^ (rgmHashWyp3 * round.setWidth 64)) h2 rgmHashWyp1 rgmHashWyp2

/-! ## Comparing keys -/

/-- The loop of `rgm_hash_keys_equal`: eight bytes at a time, up to the last eight. -/
def rgmHashKeysEqualLoop (pa pb : Mem) (len : Nat) : Nat → Nat → Bool
  | 0, _ => true
  | fuel + 1, i =>
    if i + 8 < len then
      if rgmHashLoadU64 pa i ≠ rgmHashLoadU64 pb i then false
      else rgmHashKeysEqualLoop pa pb len fuel (i + 8)
    else true

/-- Equality of two keys of `len` bytes, the tail by one load that may overlap what was compared. -/
def rgmHashKeysEqual (pa pb : Mem) (len : Nat) : Bool :=
  if 8 ≤ len then
    rgmHashKeysEqualLoop pa pb len len 0
      && rgmHashLoadU64 pa (len - 8) == rgmHashLoadU64 pb (len - 8)
  else if 4 ≤ len then
    (rgmHashLoadU32 pa 0 ^^^ rgmHashLoadU32 pb 0)
      ||| (rgmHashLoadU32 pa (len - 4) ^^^ rgmHashLoadU32 pb (len - 4)) == 0
  else if len ≠ 0 then rgmHashLoadU3 pa len == rgmHashLoadU3 pb len
  else true

/-! ## A ladder is a little-endian load -/

/-- A byte put above the bytes that are there adds at its weight. -/
theorem ladder_step {w k v : Nat} {lo : BitVec w} (hlo : lo.toNat = v) (hv : v < 2 ^ k) (b : Byte)
    (hk : k + 8 ≤ w) : (lo ||| b.setWidth w <<< k).toNat = v + 2 ^ k * b.toNat := by
  have hb := b.isLt
  have hw : (2 : Nat) ^ 8 ≤ 2 ^ w := Nat.pow_le_pow_right (by decide) (by omega)
  have hfit : b.toNat * 2 ^ k < 2 ^ w := by
    calc b.toNat * 2 ^ k < 2 ^ 8 * 2 ^ k :=
          Nat.mul_lt_mul_of_pos_right hb (Nat.two_pow_pos k)
      _ = 2 ^ (k + 8) := by rw [Nat.mul_comm, ← Nat.pow_add]
      _ ≤ 2 ^ w := Nat.pow_le_pow_right (by decide) hk
  rw [BitVec.toNat_or, BitVec.toNat_shiftLeft, BitVec.toNat_setWidth,
    Nat.mod_eq_of_lt (by omega : b.toNat < 2 ^ w), Nat.shiftLeft_eq, Nat.mod_eq_of_lt hfit,
    hlo, Nat.mul_comm, Nat.or_comm, ← Nat.two_pow_add_eq_or_of_lt hv, Nat.add_comm]

theorem loadU32_eq (p : Mem) (i : Nat) : rgmHashLoadU32 p i = load32 p i := by
  apply BitVec.eq_of_toNat_eq
  have h0 := (p i).isLt
  have h1 := (p (i + 1)).isLt
  have h2 := (p (i + 2)).isLt
  have s0 : ((p i).setWidth 32).toNat = (p i).toNat := by
    rw [BitVec.toNat_setWidth]
    omega
  have s1 := ladder_step (k := 8) s0 (by omega) (p (i + 1)) (by decide : 8 + 8 ≤ 32)
  have s2 := ladder_step (k := 16) s1 (by omega) (p (i + 2)) (by decide : 16 + 8 ≤ 32)
  have s3 := ladder_step (k := 24) s2 (by omega) (p (i + 3)) (by decide : 24 + 8 ≤ 32)
  rw [rgmHashLoadU32, load32_toNat]
  simp only [leNat, Nat.add_assoc, Nat.reduceAdd]
  omega

theorem loadU64_eq (p : Mem) (i : Nat) : rgmHashLoadU64 p i = load64 p i := by
  apply BitVec.eq_of_toNat_eq
  have h0 := (p i).isLt
  have h1 := (p (i + 1)).isLt
  have h2 := (p (i + 2)).isLt
  have h3 := (p (i + 3)).isLt
  have h4 := (p (i + 4)).isLt
  have h5 := (p (i + 5)).isLt
  have h6 := (p (i + 6)).isLt
  have s0 : ((p i).setWidth 64).toNat = (p i).toNat := by
    rw [BitVec.toNat_setWidth]
    omega
  have s1 := ladder_step (k := 8) s0 (by omega) (p (i + 1)) (by decide : 8 + 8 ≤ 64)
  have s2 := ladder_step (k := 16) s1 (by omega) (p (i + 2)) (by decide : 16 + 8 ≤ 64)
  have s3 := ladder_step (k := 24) s2 (by omega) (p (i + 3)) (by decide : 24 + 8 ≤ 64)
  have s4 := ladder_step (k := 32) s3 (by omega) (p (i + 4)) (by decide : 32 + 8 ≤ 64)
  have s5 := ladder_step (k := 40) s4 (by omega) (p (i + 5)) (by decide : 40 + 8 ≤ 64)
  have s6 := ladder_step (k := 48) s5 (by omega) (p (i + 6)) (by decide : 48 + 8 ≤ 64)
  have s7 := ladder_step (k := 56) s6 (by omega) (p (i + 7)) (by decide : 56 + 8 ≤ 64)
  rw [rgmHashLoadU64, load64_toNat]
  simp only [leNat, Nat.add_assoc, Nat.reduceAdd]
  omega

/-! ## What the comparison decides -/

/-- The loop compares the bytes up to the last eight, when it has rounds enough. -/
theorem keysEqualLoop_spec {pa pb : Mem} {len : Nat} (fuel i : Nat) (hfuel : len ≤ i + 8 * fuel + 8) :
    rgmHashKeysEqualLoop pa pb len fuel i = true →
      ∀ k, i ≤ k → k + 8 < len → pa k = pb k := by
  induction fuel generalizing i with
  | zero =>
    intro _ k hk hlast
    omega
  | succ fuel ih =>
    intro h k hk hlast
    rw [rgmHashKeysEqualLoop, if_pos (by omega : i + 8 < len)] at h
    by_cases hne : rgmHashLoadU64 pa i ≠ rgmHashLoadU64 pb i
    · rw [if_pos hne] at h
      cases h
    · rw [if_neg hne] at h
      rcases Nat.lt_or_ge k (i + 8) with hin | hout
      · rw [Classical.not_not, loadU64_eq, loadU64_eq, load64_eq_iff] at hne
        have := hne (k - i) (by omega)
        rwa [Nat.add_sub_cancel' hk] at this
      · exact ih (i + 8) (by omega) h k hout hlast

theorem keysEqualLoop_of_eq {pa pb : Mem} {len : Nat} (h : ∀ k, k < len → pa k = pb k)
    (fuel i : Nat) : rgmHashKeysEqualLoop pa pb len fuel i = true := by
  induction fuel generalizing i with
  | zero => rfl
  | succ fuel ih =>
    rw [rgmHashKeysEqualLoop]
    split
    · next hlt =>
      have hload : rgmHashLoadU64 pa i = rgmHashLoadU64 pb i := by
        rw [loadU64_eq, loadU64_eq]
        exact load64_congr fun j hj => h (i + j) (by omega)
      rw [if_neg (not_not_intro hload)]
      exact ih (i + 8)
    · rfl

theorem loadU3_inj {pa pb : Mem} {len : Nat}
    (h : rgmHashLoadU3 pa len = rgmHashLoadU3 pb len) :
    pa 0 = pb 0 ∧ pa (len / 2) = pb (len / 2) ∧ pa (len - 1) = pb (len - 1) := by
  have hvalue : ∀ p : Mem, (rgmHashLoadU3 p len).toNat =
      (p (len - 1)).toNat + 2 ^ 8 * (p (len / 2)).toNat + 2 ^ 16 * (p 0).toNat := by
    intro p
    have h1 := (p (len - 1)).isLt
    have h2 := (p (len / 2)).isLt
    have s0 : ((p (len - 1)).setWidth 64).toNat = (p (len - 1)).toNat := by
      rw [BitVec.toNat_setWidth]
      omega
    have s1 := ladder_step (k := 8) s0 (by omega) (p (len / 2)) (by decide : 8 + 8 ≤ 64)
    have s2 := ladder_step (k := 16) s1 (by omega) (p 0) (by decide : 16 + 8 ≤ 64)
    rw [rgmHashLoadU3, BitVec.or_comm _ ((p (len - 1)).setWidth 64),
      BitVec.or_comm ((p 0).setWidth 64 <<< 16), ← BitVec.or_assoc]
    exact s2
  have heq := congrArg BitVec.toNat h
  rw [hvalue, hvalue] at heq
  have := (pa 0).isLt
  have := (pb 0).isLt
  have := (pa (len / 2)).isLt
  have := (pb (len / 2)).isLt
  have := (pa (len - 1)).isLt
  have := (pb (len - 1)).isLt
  exact ⟨BitVec.eq_of_toNat_eq (by omega), BitVec.eq_of_toNat_eq (by omega),
    BitVec.eq_of_toNat_eq (by omega)⟩

/-- `rgm_hash_keys_equal` compares exactly the bytes of the keys. -/
theorem rgmHashKeysEqual_iff {pa pb : Mem} {len : Nat} :
    rgmHashKeysEqual pa pb len = true ↔ ∀ i, i < len → pa i = pb i := by
  unfold rgmHashKeysEqual
  by_cases h8 : 8 ≤ len
  · rw [if_pos h8, Bool.and_eq_true, beq_iff_eq, loadU64_eq, loadU64_eq, load64_eq_iff]
    constructor
    · rintro ⟨hloop, hlast⟩ i hi
      rcases Nat.lt_or_ge (i + 8) len with hlt | hge
      · exact keysEqualLoop_spec len 0 (by omega) hloop i (Nat.zero_le i) hlt
      · have := hlast (i - (len - 8)) (by omega)
        rwa [Nat.add_sub_cancel' (by omega)] at this
    · intro h
      exact ⟨keysEqualLoop_of_eq h len 0, fun i hi => h _ (by omega)⟩
  rw [if_neg h8]
  by_cases h4 : 4 ≤ len
  · rw [if_pos h4, beq_iff_eq]
    simp only [loadU32_eq]
    constructor
    · intro h i hi
      obtain ⟨hlow, hhigh⟩ := BitVec.or_eq_zero_iff.mp h
      rw [BitVec.xor_eq_zero_iff, load32_eq_iff] at hlow hhigh
      rcases Nat.lt_or_ge i 4 with hlt | hge
      · simpa only [Nat.zero_add] using hlow i hlt
      · have := hhigh (i - (len - 4)) (by omega)
        rwa [Nat.add_sub_cancel' (by omega)] at this
    · intro h
      have hlow : load32 pa 0 = load32 pb 0 := load32_congr fun i hi => h _ (by omega)
      have hhigh : load32 pa (len - 4) = load32 pb (len - 4) :=
        load32_congr fun i hi => h _ (by omega)
      rw [hlow, hhigh, BitVec.xor_self, BitVec.xor_self]
      rfl
  rw [if_neg h4]
  by_cases h0 : len ≠ 0
  · rw [if_pos h0, beq_iff_eq]
    constructor
    · intro h i hi
      obtain ⟨hfirst, hmid, hlast⟩ := loadU3_inj h
      -- of one to three bytes each is the first, the middle or the last
      obtain rfl | rfl | rfl : i = 0 ∨ i = len / 2 ∨ i = len - 1 := by omega
      · exact hfirst
      · exact hmid
      · exact hlast
    · intro h
      rw [rgmHashLoadU3, rgmHashLoadU3, h 0 (by omega), h (len / 2) (by omega),
        h (len - 1) (by omega)]
  · rw [if_neg h0]
    simp only [true_iff]
    intro i hi
    omega

/-- The register form of the hash is the hash of the eight little-endian bytes. -/
theorem rgmHashU64Seeded_eq (key seed : BitVec 64) :
    rgmHashU64Seeded key seed = rgmHashWyhashSeeded (ptr (leBytes key)) 8 seed := by
  rw [rgmHashWyhashSeeded, if_pos rfl, loadU64_eq, load64_leBytes]
  rfl

end RgMemory
