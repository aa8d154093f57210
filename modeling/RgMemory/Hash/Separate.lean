import RgMemory.Hash.Func
import RgMemory.Lib.FoldMul

/-!
# Which keys a seed can separate

The containers tell colliding keys apart by hashing them again under another seed. The mix of
`rg_hash_func.h` is the folded mix of `Lib.FoldMul`: over all seeds it determines its two operands
up to their order, and the order is lost. So two keys whose operands are each other's, swapped,
share one digest under every seed.

The main law (`reseed_separates_iff`) decides the separation of keys of at most 16 bytes pair by
pair, and says at which lengths some pair cannot be separated.
-/

namespace RgMemory

open Bytes FoldMul

/-! ## The mix as a folded multiply -/

theorem rgmHashWymum_eq (a b : BitVec 64) : rgmHashWymum a b = foldMul a b := by
  rw [rgmHashWymum, rgmHashWymum128_eq, foldMul]

theorem rgmHashWymix_eq (a b s1 s2 : BitVec 64) :
    rgmHashWymix a b s1 s2 = foldMix (a ^^^ s1) b s2 := by
  rw [rgmHashWymix, rgmHashWymum_eq, foldMix]

/-- Swapping the operands, each moved by the constant that only the first carries, keeps the mix. -/
theorem rgmHashWymix_swap (a b s1 s2 : BitVec 64) :
    rgmHashWymix (b ^^^ s1) (a ^^^ s1) s1 s2 = rgmHashWymix a b s1 s2 := by
  rw [rgmHashWymix_eq, rgmHashWymix_eq, xor_cancel, foldMix_comm]

/-! ## Short keys -/

/-- The digest of a key under a seed. -/
def keyDigest (key : List Byte) (seed : BitVec 64) : BitVec 64 :=
  rgmHashWyhashSeeded (ptr key) key.length seed

/-- The operands of the one mix of a key of at most 16 bytes. -/
def rgmHashOperands (p : Mem) (len : Nat) : BitVec 64 × BitVec 64 :=
  if len = 8 then
    let b := rgmHashLoadU64 p 0
    (b <<< 32 ||| b >>> 32, b ^^^ 8)
  else
    let (a, b) := rgmHashShortWords p len
    (a, b ^^^ BitVec.ofNat 64 len)

theorem rgmHashWyhashSeeded_short {p : Mem} {len : Nat} (hlen : len ≤ 16) (seed : BitVec 64) :
    rgmHashWyhashSeeded p len seed =
      rgmHashWymix (rgmHashOperands p len).1 (rgmHashOperands p len).2 rgmHashWyp1 seed := by
  rw [rgmHashWyhashSeeded, rgmHashOperands]
  by_cases h8 : len = 8
  · rw [if_pos h8, if_pos h8]
  · rw [if_neg h8, if_neg h8, if_pos hlen]

/-- The operands of one key are those of the other, swapped. -/
def KeysMirrored (key key' : List Byte) : Prop :=
  rgmHashOperands (ptr key') key'.length =
    ((rgmHashOperands (ptr key) key.length).2 ^^^ rgmHashWyp1,
      (rgmHashOperands (ptr key) key.length).1 ^^^ rgmHashWyp1)

instance (key key' : List Byte) : Decidable (KeysMirrored key key') := by
  unfold KeysMirrored
  infer_instance

/-- Two 32-bit words packed into one. -/
theorem pack_toNat (a b : BitVec 32) :
    (a.setWidth 64 <<< 32 ||| b.setWidth 64).toNat = b.toNat + 2 ^ 32 * a.toNat := by
  have ha := a.isLt
  have hb := b.isLt
  have hwide : (a.setWidth 64).toNat = a.toNat := BitVec.toNat_setWidth_of_le (by decide)
  have hwide' : (b.setWidth 64).toNat = b.toNat := BitVec.toNat_setWidth_of_le (by decide)
  rw [BitVec.toNat_or, BitVec.toNat_shiftLeft, hwide, hwide', Nat.shiftLeft_eq,
    Nat.mod_eq_of_lt (by omega), Nat.mul_comm, ← Nat.two_pow_add_eq_or_of_lt hb, Nat.add_comm]

theorem pack_inj {a b a' b' : BitVec 32}
    (h : a.setWidth 64 <<< 32 ||| b.setWidth 64 = a'.setWidth 64 <<< 32 ||| b'.setWidth 64) :
    a = a' ∧ b = b' := by
  have heq := congrArg BitVec.toNat h
  rw [pack_toNat, pack_toNat] at heq
  have := b.isLt
  have := b'.isLt
  exact ⟨BitVec.eq_of_toNat_eq (by omega), BitVec.eq_of_toNat_eq (by omega)⟩

theorem rgmHashShortWords_inj {p q : Mem} {len : Nat} (hlen : len ≤ 16)
    (h : rgmHashShortWords p len = rgmHashShortWords q len) : ∀ i, i < len → p i = q i := by
  unfold rgmHashShortWords at h
  intro i hi
  by_cases h4 : 4 ≤ len
  · rw [if_pos h4, if_pos h4, Prod.mk.injEq] at h
    obtain ⟨hfirst, hlast⟩ := h
    obtain ⟨h0, h1⟩ := pack_inj hfirst
    obtain ⟨h2, h3⟩ := pack_inj hlast
    rw [loadU32_eq, loadU32_eq, load32_eq_iff] at h0 h1 h2 h3
    -- the four loads cover the key
    by_cases hc0 : i < 4
    · simpa only [Nat.zero_add] using h0 i hc0
    by_cases hc2 : len - 4 ≤ i
    · have := h2 (i - (len - 4)) (by omega)
      rwa [Nat.add_sub_cancel' hc2] at this
    by_cases hc1 : len / 8 * 4 ≤ i ∧ i < len / 8 * 4 + 4
    · have := h1 (i - len / 8 * 4) (by omega)
      rwa [Nat.add_sub_cancel' hc1.1] at this
    · have := h3 (i - (len - 4 - len / 8 * 4)) (by omega)
      rwa [Nat.add_sub_cancel' (by omega)] at this
  · rw [if_neg h4, if_neg h4, if_pos (by omega), if_pos (by omega), Prod.mk.injEq] at h
    obtain ⟨hfirst, hmid, hlast⟩ := loadU3_inj h.1
    obtain rfl | rfl | rfl : i = 0 ∨ i = len / 2 ∨ i = len - 1 := by omega
    · exact hfirst
    · exact hmid
    · exact hlast
/-- The operands determine the bytes. -/
theorem rgmHashOperands_inj {p q : Mem} {len : Nat} (hlen : len ≤ 16)
    (h : rgmHashOperands p len = rgmHashOperands q len) : ∀ i, i < len → p i = q i := by
  unfold rgmHashOperands at h
  by_cases h8 : len = 8
  · rw [if_pos h8, if_pos h8, Prod.mk.injEq, BitVec.xor_left_inj, loadU64_eq, loadU64_eq,
      load64_eq_iff] at h
    intro i hi
    simpa only [Nat.zero_add] using h.2 i (by omega)
  · rw [if_neg h8, if_neg h8, Prod.mk.injEq, BitVec.xor_left_inj] at h
    exact rgmHashShortWords_inj hlen (Prod.ext h.1 h.2)

/-- Distinct keys of one length, as the memories they are read from. -/
theorem exists_byte_ne {key key' : List Byte} (hlength : key.length = key'.length)
    (hne : key ≠ key') : ¬ ∀ i, i < key.length → ptr key i = ptr key' i := by
  intro h
  refine hne ?_
  rw [← slice_ptr key, ← slice_ptr key', ← hlength]
  exact slice_congr fun i hi => by simpa only [Nat.zero_add] using h i hi

/-- A seed separates two short keys unless they mirror each other. -/
theorem separates_short_iff {key key' : List Byte} (hlength : key.length = key'.length)
    (hne : key ≠ key') (hlen : key.length ≤ 16) :
    (∃ seed, keyDigest key seed ≠ keyDigest key' seed) ↔ ¬ KeysMirrored key key' := by
  rw [← not_forall, not_iff_not]
  have hmix : ∀ k : List Byte, k.length ≤ 16 → ∀ seed, keyDigest k seed =
      foldMix ((rgmHashOperands (ptr k) k.length).1 ^^^ rgmHashWyp1)
        (rgmHashOperands (ptr k) k.length).2 seed := fun k hk seed => by
    rw [keyDigest, rgmHashWyhashSeeded_short hk, rgmHashWymix_eq]
  simp only [hmix key hlen, hmix key' (hlength ▸ hlen)]
  rw [foldMix_eq_iff (by decide) (by decide), KeysMirrored, ← hlength]
  constructor
  · rintro (⟨hfirst, hsecond⟩ | ⟨hfirst, hsecond⟩)
    · -- the same operands: the keys are one
      have hsame := Prod.ext ((BitVec.xor_left_inj _).mp hfirst) hsecond
      exact absurd (rgmHashOperands_inj hlen hsame) (exists_byte_ne hlength hne)
    · exact Prod.ext (by rw [hsecond, xor_cancel]) hfirst.symm
  · intro hmirror
    right
    rw [hmirror]
    exact ⟨rfl, (xor_cancel _ _).symm⟩

/-! ## Keys of at most eight bytes -/

/-- No word is the other's half-swap mirrored: one bit of the constant forbids it. -/
theorem not_mirrored_u64 {b b' : BitVec 64}
    (hfirst : b' <<< 32 ||| b' >>> 32 = b ^^^ 8 ^^^ rgmHashWyp1)
    (hsecond : b' ^^^ 8 = (b <<< 32 ||| b >>> 32) ^^^ rgmHashWyp1) : False := by
  have h1 := congrArg (fun x => x.getLsbD 1) hfirst
  have h33 := congrArg (fun x => x.getLsbD 33) hsecond
  simp at h1
  simp [h1] at h33
  exact absurd h33 (by decide)

/-- A length has no bit above its size. -/
theorem ofNat_bit {len i : Nat} (hlen : len < 2 ^ i) (hi : i < 64) :
    (BitVec.ofNat 64 len)[i] = false := by
  rw [← BitVec.getLsbD_eq_getElem, BitVec.getLsbD_ofNat, Nat.testBit_lt_two_pow hlen,
    Bool.and_false]

/-- A word whose halves are equal stays so when mirrored, and the constant's are not. -/
theorem not_mirrored_twice {x y : BitVec 32} {len : Nat} (hlen : len < 8)
    (h : x.setWidth 64 <<< 32 ||| x.setWidth 64 =
      (y.setWidth 64 <<< 32 ||| y.setWidth 64) ^^^ BitVec.ofNat 64 len ^^^ rgmHashWyp1) : False := by
  have h3 := congrArg (fun x => x.getLsbD 3) h
  have h35 := congrArg (fun x => x.getLsbD 35) h
  have hc3 : (BitVec.ofNat 64 len)[3] = false := ofNat_bit (by omega) _
  have hc35 : (BitVec.ofNat 64 len)[35] = false := ofNat_bit (by omega) _
  simp [hc35] at h35
  simp [h35, hc3] at h3
  exact absurd h3 (by decide)

/-- No two keys of at most eight bytes mirror each other. -/
theorem not_keysMirrored {key key' : List Byte} (hlength : key.length = key'.length)
    (hne : key ≠ key') (hlen : key.length ≤ 8) : ¬ KeysMirrored key key' := by
  rw [KeysMirrored, ← hlength]
  generalize hp : ptr key = p
  generalize hq : ptr key' = q
  generalize hn : key.length = len at *
  unfold rgmHashOperands rgmHashShortWords
  intro hmirror
  by_cases h8 : len = 8
  · rw [if_pos h8, if_pos h8, Prod.mk.injEq] at hmirror
    exact not_mirrored_u64 hmirror.1 hmirror.2
  rw [if_neg h8, if_neg h8] at hmirror
  by_cases h4 : 4 ≤ len
  · have hstep : len / 8 * 4 = 0 := by omega
    rw [if_pos h4, if_pos h4, Prod.mk.injEq, hstep] at hmirror
    exact not_mirrored_twice (by omega : len < 8) hmirror.1
  rw [if_neg h4, if_neg h4] at hmirror
  by_cases h0 : 0 < len
  · rw [if_pos h0, if_pos h0, Prod.mk.injEq] at hmirror
    -- at most three bytes do not reach the top bit of the constant
    have htop := congrArg (fun x => x.getLsbD 63) hmirror.2
    have hc63 : (BitVec.ofNat 64 len)[63] = false := ofNat_bit (by omega) _
    simp [rgmHashLoadU3, hc63] at htop
    exact absurd htop (by decide)
  · refine hne ?_
    rw [List.length_eq_zero_iff.mp (hn.trans (by omega)),
      List.length_eq_zero_iff.mp (hlength.symm.trans (by omega))]

/-! ## Keys of several blocks -/

section

variable {p q : Mem} {len : Nat}

/-- The blocks of two keys feed the lanes alike: the first block mixes alike under every seed, and
the others up to the last hold the same words. -/
structure SameBlocks (p q : Mem) (len : Nat) : Prop where
  first : ∀ s, rgmHashWymix (rgmHashLoadU64 p 0) (rgmHashLoadU64 p 8) rgmHashWyp1 s =
    rgmHashWymix (rgmHashLoadU64 q 0) (rgmHashLoadU64 q 8) rgmHashWyp1 s
  rest : ∀ off, 16 ≤ off → off + 16 < len → rgmHashLoadU64 p off = rgmHashLoadU64 q off ∧
    rgmHashLoadU64 p (off + 8) = rgmHashLoadU64 q (off + 8)

/-- Where the block loops stand: at the start or past the first block, with the rest left. -/
structure HashLanes.At (l : HashLanes) (len : Nat) : Prop where
  start : l.off = 0 ∨ 16 ≤ l.off
  left : l.off + l.left = len

theorem SameBlocks.mix (h : SameBlocks p q len) {l : HashLanes} (hl : l.At len)
    (hleft : 16 < l.left) (s : BitVec 64) :
    rgmHashWymix (rgmHashLoadU64 p l.off) (rgmHashLoadU64 p (l.off + 8)) rgmHashWyp1 s =
      rgmHashWymix (rgmHashLoadU64 q l.off) (rgmHashLoadU64 q (l.off + 8)) rgmHashWyp1 s := by
  have hlen := hl.left
  rcases hl.start with h0 | hpast
  · rw [h0]
    exact h.first s
  · obtain ⟨h1, h2⟩ := h.rest l.off hpast (by omega)
    rw [h1, h2]

theorem SameBlocks.block48 (h : SameBlocks p q len) {l : HashLanes} (hl : l.At len)
    (hleft : 48 < l.left) : rgmHashBlock48 p l = rgmHashBlock48 q l := by
  have hlen := hl.left
  obtain ⟨h1, h2⟩ := h.rest (l.off + 16) (by omega) (by omega)
  obtain ⟨h3, h4⟩ := h.rest (l.off + 32) (by omega) (by omega)
  rw [rgmHashBlock48, rgmHashBlock48, h.mix hl (by omega), h1, h2, h3, h4]

theorem SameBlocks.loop48 (h : SameBlocks p q len) (fuel : Nat) {l : HashLanes} (hl : l.At len) :
    rgmHashLoop48 p fuel l = rgmHashLoop48 q fuel l ∧ (rgmHashLoop48 q fuel l).At len := by
  induction fuel generalizing l with
  | zero => exact ⟨rfl, hl⟩
  | succ fuel ih =>
    rw [rgmHashLoop48, rgmHashLoop48]
    by_cases hleft : l.left > 48
    · rw [if_pos hleft, if_pos hleft, h.block48 hl hleft]
      have hlen := hl.left
      refine ih ⟨.inr ?_, ?_⟩
      · show 16 ≤ l.off + 48
        omega
      · show l.off + 48 + (l.left - 48) = len
        omega
    · rw [if_neg hleft, if_neg hleft]
      exact ⟨rfl, hl⟩

theorem SameBlocks.loop16 (h : SameBlocks p q len) (fuel : Nat) {l : HashLanes} (hl : l.At len) :
    rgmHashLoop16 p fuel l = rgmHashLoop16 q fuel l ∧ (rgmHashLoop16 q fuel l).At len := by
  induction fuel generalizing l with
  | zero => exact ⟨rfl, hl⟩
  | succ fuel ih =>
    rw [rgmHashLoop16, rgmHashLoop16]
    by_cases hleft : l.left > 16
    · have hblock : rgmHashBlock16 p l = rgmHashBlock16 q l := by
        rw [rgmHashBlock16, rgmHashBlock16, h.mix hl hleft]
      rw [if_pos hleft, if_pos hleft, hblock]
      have hlen := hl.left
      refine ih ⟨.inr ?_, ?_⟩
      · show 16 ≤ l.off + 16
        omega
      · show l.off + 16 + (l.left - 16) = len
        omega
    · rw [if_neg hleft, if_neg hleft]
      exact ⟨rfl, hl⟩

/-- Blocks that feed the lanes alike and last words that mix alike give one digest. -/
theorem SameBlocks.digest (h : SameBlocks p q len) (hlen : 16 < len)
    (hlast : ∀ s, rgmHashWymix (rgmHashLoadU64 p (len - 16))
        (rgmHashLoadU64 p (len - 8) ^^^ BitVec.ofNat 64 len) rgmHashWyp1 s =
      rgmHashWymix (rgmHashLoadU64 q (len - 16))
        (rgmHashLoadU64 q (len - 8) ^^^ BitVec.ofNat 64 len) rgmHashWyp1 s) (seed : BitVec 64) :
    rgmHashWyhashSeeded p len seed = rgmHashWyhashSeeded q len seed := by
  have hstart : HashLanes.At ⟨0, len, seed, seed, seed⟩ len := ⟨.inl rfl, Nat.zero_add len⟩
  have hlanes : rgmHashLongLanes p len seed = rgmHashLongLanes q len seed ∧
      (rgmHashLongLanes q len seed).At len := by
    obtain ⟨h48, hat⟩ := h.loop48 len hstart
    unfold rgmHashLongLanes
    dsimp only
    by_cases hlong : len > 48
    · rw [if_pos hlong, if_pos hlong, h48]
      exact h.loop16 len ⟨hat.start, hat.left⟩
    · rw [if_neg hlong, if_neg hlong]
      exact h.loop16 len hstart
  obtain ⟨hsame, hat⟩ := hlanes
  have h8 : len ≠ 8 := by omega
  have h16 : ¬ len ≤ 16 := by omega
  rw [rgmHashWyhashSeeded, rgmHashWyhashSeeded, if_neg h8, if_neg h8, if_neg h16, if_neg h16, hsame]
  dsimp only
  rw [hat.left]
  exact hlast _

end

/-- Two keys of nine to 16 bytes that mirror each other. -/
def mirroredPair : Nat → List Byte × List Byte
  | 9 => ([0, 0, 0x3f, 0x65, 0x11, 0x42, 0x9a, 0x56, 0x3f],
      [0xd1, 0xd1, 0xee, 0xb4, 0xc0, 0x93, 0x4b, 0x87, 0xee])
  | 10 => ([0, 0, 0, 0, 0xbd, 0xdd, 0xed, 0x3a, 0xc6, 0xfa],
      [0x7e, 0x71, 0x7e, 0x71, 0xc3, 0xac, 0x93, 0x4b, 0xb8, 0x8b])
  | 11 => ([0, 0, 0, 0, 0x87, 0x6e, 0x05, 0xd6, 0, 0, 0xce],
      [0x45, 0x4b, 0xb8, 0x45, 0xc2, 0x2b, 0x40, 0x93, 0x4b, 0xb8, 0x8b])
  | 12 => ([0, 0, 0, 0, 0, 0, 0, 0, 0, 0, 0, 0],
      [0x93, 0x4b, 0xb8, 0x8b, 0xc5, 0xac, 0x2e, 0x96, 0x93, 0x4b, 0xb8, 0x8b])
  | 13 => ([0, 0, 0, 0, 0, 0, 0x68, 0x82, 0xd0, 0, 0, 0, 0],
      [0x93, 0x4b, 0xb8, 0x8b, 0xc4, 0xc4, 0xac, 0x46, 0x14, 0x93, 0x4b, 0xb8, 0x8b])
  | 14 => ([0, 0, 0, 0, 0, 0, 0, 0, 0xe9, 0x3a, 0, 0, 0, 0],
      [0x93, 0x4b, 0xb8, 0x8b, 0xc7, 0xac, 0xc7, 0xac, 0x2e, 0x96, 0x93, 0x4b, 0xb8, 0x8b])
  | 15 => ([0, 0, 0, 0, 0, 0, 0, 0, 0, 0, 0x50, 0, 0, 0, 0],
      [0x93, 0x4b, 0xb8, 0x8b, 0xc6, 0xac, 0x2e, 0xc6, 0xac, 0x2e, 0x96, 0x93, 0x4b, 0xb8, 0x8b])
  | 16 => ([0, 0, 0, 0, 0, 0, 0, 0, 0, 0, 0, 0, 0, 0, 0, 0],
      [0x93, 0x4b, 0xb8, 0x8b, 0xd9, 0xac, 0x2e, 0x96, 0xd9, 0xac, 0x2e, 0x96, 0x93, 0x4b, 0xb8, 0x8b])
  | _ => ([], [])

/-- Two keys of 24 bytes whose two mixes mirror each other. -/
def mirroredTwice : List Byte × List Byte :=
  ([0, 0, 0, 0, 0, 0, 0, 0, 0, 0, 0, 0, 0, 0, 0, 0,
    0x18, 0, 0, 0, 0, 0, 0, 0],
    [0xc9, 0xac, 0x2e, 0x96, 0x93, 0x4b, 0xb8, 0x8b, 0xc9, 0xac, 0x2e, 0x96, 0x93, 0x4b, 0xb8, 0x8b,
      0xd1, 0xac, 0x2e, 0x96, 0x93, 0x4b, 0xb8, 0x8b])

theorem mirroredTwice_digest (seed : BitVec 64) :
    keyDigest mirroredTwice.1 seed = keyDigest mirroredTwice.2 seed := by
  have hfirst : rgmHashLoadU64 (ptr mirroredTwice.2) 0 =
        rgmHashLoadU64 (ptr mirroredTwice.1) 8 ^^^ rgmHashWyp1 ∧
      rgmHashLoadU64 (ptr mirroredTwice.2) 8 =
        rgmHashLoadU64 (ptr mirroredTwice.1) 0 ^^^ rgmHashWyp1 := by decide
  have hlast : rgmHashLoadU64 (ptr mirroredTwice.2) 8 =
        rgmHashLoadU64 (ptr mirroredTwice.1) 16 ^^^ 24 ^^^ rgmHashWyp1 ∧
      rgmHashLoadU64 (ptr mirroredTwice.2) 16 ^^^ 24 =
        rgmHashLoadU64 (ptr mirroredTwice.1) 8 ^^^ rgmHashWyp1 := by decide
  have hsame : SameBlocks (ptr mirroredTwice.1) (ptr mirroredTwice.2) 24 := by
    refine ⟨fun s => ?_, fun off hoff hlt => by omega⟩
    rw [hfirst.1, hfirst.2, rgmHashWymix_swap]
  refine hsame.digest (by decide) (fun s => ?_) seed
  show rgmHashWymix (rgmHashLoadU64 (ptr mirroredTwice.1) 8)
      (rgmHashLoadU64 (ptr mirroredTwice.1) 16 ^^^ 24) rgmHashWyp1 s =
    rgmHashWymix (rgmHashLoadU64 (ptr mirroredTwice.2) 8)
      (rgmHashLoadU64 (ptr mirroredTwice.2) 16 ^^^ 24) rgmHashWyp1 s
  rw [hlast.1, hlast.2, rgmHashWymix_swap]

/-- Two keys of any length from 25 bytes on whose first blocks mirror each other. -/
def mirroredHead (n : Nat) : List Byte × List Byte :=
  (ofWords [0, rgmHashWyp1 ^^^ 1] ++ List.replicate (n - 16) 0,
    ofWords [1, rgmHashWyp1] ++ List.replicate (n - 16) 0)

theorem mirroredHead_length {n : Nat} (hn : 25 ≤ n) :
    (mirroredHead n).1.length = n ∧ (mirroredHead n).2.length = n := by
  simp [mirroredHead]
  omega

theorem mirroredHead_digest {n : Nat} (hn : 25 ≤ n) (seed : BitVec 64) :
    keyDigest (mirroredHead n).1 seed = keyDigest (mirroredHead n).2 seed := by
  obtain ⟨hlen1, hlen2⟩ := mirroredHead_length hn
  have hword : ∀ (x y : BitVec 64) (t : List Byte),
      rgmHashLoadU64 (ptr (ofWords [x, y] ++ t)) 0 = x ∧
        rgmHashLoadU64 (ptr (ofWords [x, y] ++ t)) 8 = y := fun x y t => by
    rw [loadU64_eq, loadU64_eq]
    exact ⟨load64_ofWords (i := 0) (by simp), load64_ofWords (i := 1) (by simp)⟩
  -- the heads differ in their first and ninth byte
  have hbyte : ∀ i, 9 ≤ i → ptr (mirroredHead n).1 i = ptr (mirroredHead n).2 i := by
    intro i hi
    rw [mirroredHead]
    rcases Nat.lt_or_ge i 16 with hlt | hge
    · rw [ptr_append_left (by simpa using hlt), ptr_append_left (by simpa using hlt)]
      have hheads : ∀ k : Fin 16, 9 ≤ (k : Nat) → ptr (ofWords [0, rgmHashWyp1 ^^^ 1]) k =
          ptr (ofWords [1, rgmHashWyp1]) k := by decide
      exact hheads ⟨i, hlt⟩ hi
    · rw [ptr_append_right (by simpa using hge), ptr_append_right (by simpa using hge)]
      rfl
  have hload : ∀ off, 9 ≤ off → rgmHashLoadU64 (ptr (mirroredHead n).1) off =
      rgmHashLoadU64 (ptr (mirroredHead n).2) off := fun off hoff => by
    rw [loadU64_eq, loadU64_eq]
    exact load64_congr fun i _ => hbyte _ (by omega)
  have hsame : SameBlocks (ptr (mirroredHead n).1) (ptr (mirroredHead n).2) n := by
    refine ⟨fun s => ?_, fun off hoff _ => ⟨hload off (by omega), hload (off + 8) (by omega)⟩⟩
    rw [mirroredHead, (hword _ _ _).1, (hword _ _ _).2, (hword _ _ _).1, (hword _ _ _).2]
    exact (rgmHashWymix_swap _ _ _ s).symm
  rw [keyDigest, keyDigest, hlen1, hlen2]
  refine hsame.digest (by omega) (fun s => ?_) seed
  rw [hload _ (by omega), hload _ (by omega)]

/-- From nine bytes on some keys cannot be separated; between 17 and 23 this is left open. -/
theorem inseparable_exists {n : Nat} (hn : 9 ≤ n) (hgap : n ≤ 16 ∨ 24 ≤ n) :
    ∃ key key' : List Byte, key.length = n ∧ key'.length = n ∧ key ≠ key' ∧
      ∀ seed, keyDigest key seed = keyDigest key' seed := by
  rcases hgap with hshort | hlong
  · have hpair : ∀ k : Fin 17, 9 ≤ (k : Nat) → (mirroredPair k).1.length = k ∧
        (mirroredPair k).2.length = k ∧ (mirroredPair k).1 ≠ (mirroredPair k).2 ∧
        KeysMirrored (mirroredPair k).1 (mirroredPair k).2 := by decide
    obtain ⟨hlen1, hlen2, hne, hmirror⟩ := hpair ⟨n, by omega⟩ hn
    refine ⟨_, _, hlen1, hlen2, hne, ?_⟩
    by_contra hsep
    have hiff := separates_short_iff (hlen1.trans hlen2.symm) hne (hlen1.trans_le hshort)
    exact hiff.mp (not_forall.mp hsep) hmirror
  · rcases Nat.eq_or_lt_of_le hlong with rfl | hlt
    · exact ⟨_, _, rfl, rfl, by decide, mirroredTwice_digest⟩
    · obtain ⟨hlen1, hlen2⟩ := mirroredHead_length hlt
      refine ⟨_, _, hlen1, hlen2, fun heq => ?_, mirroredHead_digest hlt⟩
      have hfirst : ptr (ofWords [0, rgmHashWyp1 ^^^ 1]) 0 = ptr (ofWords [1, rgmHashWyp1]) 0 := by
        have hbyte := congrFun (congrArg ptr heq) 0
        rwa [mirroredHead, ptr_append_left (by simp), ptr_append_left (by simp)] at hbyte
      exact absurd hfirst (by decide)

/-! ## Lanes that cancel -/

/-- A key of 64 bytes whose first two lanes are fed alike, whatever `i` is. -/
def deepKey (i : BitVec 64) : List Byte :=
  ofWords [i, 0, i ^^^ rgmHashWyp1 ^^^ rgmHashWyp2, 0, 0, 0, 0, 0]

@[simp] theorem deepKey_length (i : BitVec 64) : (deepKey i).length = 64 := by
  simp [deepKey]

theorem deepKey_word (i : BitVec 64) {k : Nat} (hk : k < 8) :
    rgmHashLoadU64 (ptr (deepKey i)) (8 * k) =
      [i, 0, i ^^^ rgmHashWyp1 ^^^ rgmHashWyp2, 0, 0, 0, 0, 0].get ⟨k, hk⟩ := by
  rw [loadU64_eq, deepKey, ← List.append_nil (ofWords _)]
  exact load64_ofWords hk

theorem deepKey_injective {i j : BitVec 64} (h : deepKey i = deepKey j) : i = j := by
  have hi := deepKey_word i (k := 0) (by decide)
  rw [h, deepKey_word j (by decide)] at hi
  exact hi.symm

/-- The two lanes take the same value, and their exclusive or drops out of the seed. -/
theorem deepKey_lanes (i seed : BitVec 64) :
    (rgmHashLongLanes (ptr (deepKey i)) 64 seed).off = 48 ∧
      (rgmHashLongLanes (ptr (deepKey i)) 64 seed).left = 16 ∧
      (rgmHashLongLanes (ptr (deepKey i)) 64 seed).seed = rgmHashWymix 0 0 rgmHashWyp3 seed := by
  have h0 : rgmHashLoadU64 (ptr (deepKey i)) 0 = i := deepKey_word i (k := 0) (by decide)
  have h8 : rgmHashLoadU64 (ptr (deepKey i)) 8 = 0 := deepKey_word i (k := 1) (by decide)
  have h16 : rgmHashLoadU64 (ptr (deepKey i)) 16 = i ^^^ rgmHashWyp1 ^^^ rgmHashWyp2 :=
    deepKey_word i (k := 2) (by decide)
  have h24 : rgmHashLoadU64 (ptr (deepKey i)) 24 = 0 := deepKey_word i (k := 3) (by decide)
  have h32 : rgmHashLoadU64 (ptr (deepKey i)) 32 = 0 := deepKey_word i (k := 4) (by decide)
  have h40 : rgmHashLoadU64 (ptr (deepKey i)) 40 = 0 := deepKey_word i (k := 5) (by decide)
  have hlane : rgmHashWymix (i ^^^ rgmHashWyp1 ^^^ rgmHashWyp2) 0 rgmHashWyp2 seed =
      rgmHashWymix i 0 rgmHashWyp1 seed := by
    rw [rgmHashWymix_eq, rgmHashWymix_eq, xor_cancel]
  refine ⟨rfl, rfl, ?_⟩
  -- one round of the 48-byte loop and none of the other
  show rgmHashWymix (rgmHashLoadU64 (ptr (deepKey i)) 0) (rgmHashLoadU64 (ptr (deepKey i)) 8)
      rgmHashWyp1 seed ^^^
    (rgmHashWymix (rgmHashLoadU64 (ptr (deepKey i)) 16) (rgmHashLoadU64 (ptr (deepKey i)) 24)
      rgmHashWyp2 seed ^^^
    rgmHashWymix (rgmHashLoadU64 (ptr (deepKey i)) 32) (rgmHashLoadU64 (ptr (deepKey i)) 40)
      rgmHashWyp3 seed) = rgmHashWymix 0 0 rgmHashWyp3 seed
  rw [h0, h8, h16, h24, h32, h40, hlane, ← BitVec.xor_assoc, BitVec.xor_self, BitVec.zero_xor]

theorem deepKey_digest (i j seed : BitVec 64) :
    keyDigest (deepKey i) seed = keyDigest (deepKey j) seed := by
  have hval : ∀ i, keyDigest (deepKey i) seed =
      rgmHashWymix 0 (0 ^^^ 64#64) rgmHashWyp1 (rgmHashWymix 0 0 rgmHashWyp3 seed) := fun i => by
    obtain ⟨hoff, hleft, hseed⟩ := deepKey_lanes i seed
    rw [keyDigest, deepKey_length, rgmHashWyhashSeeded, if_neg (by decide), if_neg (by decide)]
    dsimp only
    rw [hoff, hleft, hseed]
    have h48 : rgmHashLoadU64 (ptr (deepKey i)) 48 = 0 := deepKey_word i (k := 6) (by decide)
    have h56 : rgmHashLoadU64 (ptr (deepKey i)) 56 = 0 := deepKey_word i (k := 7) (by decide)
    rw [h48, h56]
  rw [hval i, hval j]

/-! ## What reseeding separates -/

/-- A seed separates two distinct keys of `n` bytes, up to 16, exactly when they do not mirror each
other. All pairs of keys of `n` bytes are separated by a seed exactly up to eight bytes. -/
theorem reseed_separates_iff (n : Nat) :
    (n ≤ 16 → ∀ key key' : List Byte, key.length = n → key'.length = n → key ≠ key' →
      ((∃ seed, keyDigest key seed ≠ keyDigest key' seed) ↔ ¬ KeysMirrored key key')) ∧
    (n < 17 ∨ 23 < n →
      ((∀ k k' : List Byte, k.length = n → k'.length = n → k ≠ k' →
        ∃ seed, keyDigest k seed ≠ keyDigest k' seed) ↔ n ≤ 8)) := by
  refine ⟨fun hn key key' hkey hkey' hne => ?_, fun hgap => ⟨fun hall => ?_, ?_⟩⟩
  · exact separates_short_iff (hkey.trans hkey'.symm) hne (hkey.trans_le hn)
  · by_contra hn
    obtain ⟨k, k', hk, hk', hkne, hsame⟩ := inseparable_exists (by omega : 9 ≤ n) (by omega)
    obtain ⟨seed, hseed⟩ := hall k k' hk hk' hkne
    exact hseed (hsame seed)
  · intro hn k k' hk hk' hkne
    exact (separates_short_iff (hk.trans hk'.symm) hkne (by omega)).mpr
      (not_keysMirrored (hk.trans hk'.symm) hkne (by omega))

/-- Two keys of 16 bytes that do not mirror each other are separated. -/
theorem wordKeys_separated :
    ∃ seed, keyDigest (mirroredPair 16).1 seed ≠ keyDigest (List.replicate 15 0 ++ [1]) seed := by
  have hmirror : ¬ KeysMirrored (mirroredPair 16).1 (List.replicate 15 0 ++ [1]) := by decide
  have hne : (mirroredPair 16).1 ≠ List.replicate 15 0 ++ [1] := by decide
  exact ((reseed_separates_iff 16).1 (by decide) _ _ rfl rfl hne).mpr hmirror

/-- The key of 16 zero bytes and its mirror: one digest under every seed. -/
theorem mirroredPair_inseparable :
    (mirroredPair 16).1.length = (mirroredPair 16).2.length ∧
      (mirroredPair 16).1 ≠ (mirroredPair 16).2 ∧
      ¬ ∃ seed, keyDigest (mirroredPair 16).1 seed ≠ keyDigest (mirroredPair 16).2 seed := by
  have hne : (mirroredPair 16).1 ≠ (mirroredPair 16).2 := by decide
  have hmirror : KeysMirrored (mirroredPair 16).1 (mirroredPair 16).2 := by decide
  have hlen : (mirroredPair 16).1.length = (mirroredPair 16).2.length := rfl
  exact ⟨hlen, hne, fun hsep => (separates_short_iff hlen hne (by decide)).mp hsep hmirror⟩

end RgMemory
