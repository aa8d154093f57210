import RgMemory.Bloom.Model
import RgMemory.Lib.PowerOfTwo

/-!
# Blocks of a Bloom filter

A budget of bits becomes whole blocks of 512, rounded up to a power of two, at most `2 ^ 28` of them.
The rounding is exact for every 64-bit budget (`rgmBloomRoundBlocks_eq`): the guard against a wrap
and the cap both come before it. The creators check the hash count and that there is a block.
-/

namespace RgMemory

/-! ## The number of blocks -/

/-- Five doublings of the window cover the 32 bits. -/
theorem rgmBloomSmear_toNat (b : BitVec 32) : (rgmBloomSmear b).toNat + 1 = 2 ^ b.toNat.size := by
  have hdouble (x : BitVec 32) (n : Nat) (h : PowerOfTwo.Window n b.toNat x.toNat) :
      PowerOfTwo.Window (2 * n) b.toNat (x ||| x >>> n).toNat := by
    rw [BitVec.toNat_or, BitVec.toNat_ushiftRight]
    exact PowerOfTwo.window_double h
  have h2 := hdouble b 1 (PowerOfTwo.window_one _)
  have h4 := hdouble _ 2 h2
  have h8 := hdouble _ 4 h4
  have h16 := hdouble _ 8 h8
  exact PowerOfTwo.window_full (hdouble _ 16 h16) b.isLt

/-- The rounding in exact integers. -/
theorem rgmBloomRoundBlocks_eq (bits : Nat) :
    rgmBloomRoundBlocks bits =
      if bits = 0 ∨ 2 ^ 28 < (bits + 511) / 512 then 0
      else 2 ^ ((bits + 511) / 512 - 1).size := by
  have hblocks : (bits + rgmBloomBlockBits - 1) / rgmBloomBlockBits = (bits + 511) / 512 := rfl
  have hmax : rgmBloomMaxBlocks = 2 ^ 28 := rfl
  have hbits : rgmBloomBlockBits = 512 := rfl
  unfold rgmBloomRoundBlocks
  by_cases hzero : bits = 0
  · rw [if_pos hzero, if_pos (Or.inl hzero)]
  rw [if_neg hzero]
  by_cases hcap : 2 ^ 28 < (bits + 511) / 512
  · -- the guard against a wrap refuses nothing that the cap would accept
    rw [if_pos (Or.inr hcap), hblocks, hmax]
    split
    · rfl
    · rw [if_pos hcap]
  · have hnowrap : ¬ bits > 2 ^ 64 - 1 - (rgmBloomBlockBits - 1) := by omega
    have hsome : ¬ (bits = 0 ∨ 2 ^ 28 < (bits + 511) / 512) := fun h => h.elim hzero hcap
    rw [if_neg hnowrap, if_neg hsome]
    dsimp only
    rw [hblocks, hmax, if_neg hcap]
    split
    · have hone : (bits + 511) / 512 - 1 = 0 := by omega
      rw [hone]
      rfl
    · have hb : (BitVec.ofNat 32 ((bits + 511) / 512 - 1)).toNat = (bits + 511) / 512 - 1 := by
        rw [BitVec.toNat_ofNat]
        exact Nat.mod_eq_of_lt (by omega)
      have hsmear := rgmBloomSmear_toNat (BitVec.ofNat 32 ((bits + 511) / 512 - 1))
      have hsize : ((bits + 511) / 512 - 1).size ≤ 28 := Nat.size_le.mpr (by omega)
      have hpow := Nat.pow_le_pow_right (n := 2) (by decide) hsize
      have hone : (1 : BitVec 32).toNat = 1 := rfl
      rw [hb] at hsmear
      rw [BitVec.toNat_add, hone, hsmear]
      exact Nat.mod_eq_of_lt (by omega)

theorem rgmBloomRoundBlocks_eq_zero_iff (bits : Nat) :
    rgmBloomRoundBlocks bits = 0 ↔ bits = 0 ∨ 2 ^ 28 < (bits + 511) / 512 := by
  rw [rgmBloomRoundBlocks_eq]
  split
  · next h => exact iff_of_true rfl h
  · next h => exact iff_of_false (Nat.two_pow_pos _).ne' h

theorem rgmBloomRoundBlocks_le (bits : Nat) : rgmBloomRoundBlocks bits ≤ rgmBloomMaxBlocks := by
  rw [rgmBloomRoundBlocks_eq]
  split
  · exact Nat.zero_le _
  · have hsize : ((bits + 511) / 512 - 1).size ≤ 28 := Nat.size_le.mpr (by omega)
    exact Nat.pow_le_pow_right (by decide) hsize

/-- A number of blocks is a power of two. -/
theorem rgmBloomRoundBlocks_pow {bits : Nat} (h : rgmBloomRoundBlocks bits ≠ 0) :
    ∃ j, j < 64 ∧ rgmBloomRoundBlocks bits = 2 ^ j := by
  have hsome := (rgmBloomRoundBlocks_eq_zero_iff bits).not.mp h
  have hsize : ((bits + 511) / 512 - 1).size ≤ 28 := Nat.size_le.mpr (by omega)
  refine ⟨((bits + 511) / 512 - 1).size, by omega, ?_⟩
  rw [rgmBloomRoundBlocks_eq, if_neg hsome]

/-- The least one that holds the budget. -/
theorem rgmBloomRoundBlocks_isLeast {bits : Nat} (h : rgmBloomRoundBlocks bits ≠ 0) :
    IsLeast {q | (∃ j, q = 2 ^ j) ∧ (bits + 511) / 512 ≤ q} (rgmBloomRoundBlocks bits) := by
  have hsome := (rgmBloomRoundBlocks_eq_zero_iff bits).not.mp h
  rw [rgmBloomRoundBlocks_eq, if_neg hsome]
  exact PowerOfTwo.isLeast_pow_size (by omega)

theorem rgBloomFilterBufferSize_eq (bits : Nat) :
    rgBloomFilterBufferSize bits = 64 * rgmBloomRoundBlocks bits := by
  unfold rgBloomFilterBufferSize
  dsimp only
  split
  · next h => rw [h]
  · exact Nat.mul_comm _ _

/-! ## The checks -/

theorem rgmBloomCheck_ok_iff {bits hashCount blocks : Nat} :
    rgmBloomCheck bits hashCount = .ok blocks ↔
      (0 < hashCount ∧ hashCount ≤ 512) ∧ blocks = rgmBloomRoundBlocks bits ∧ blocks ≠ 0 := by
  have hbytes : rgmBloomBlockBytes * 8 = 512 := rfl
  unfold rgmBloomCheck
  rw [hbytes]
  dsimp only
  split
  · next hargs =>
    refine iff_of_false (fun h => by cases h) ?_
    rintro ⟨hhash, rfl, hblocks⟩
    have hbits : ¬ bits = 0 := fun h0 =>
      hblocks ((rgmBloomRoundBlocks_eq_zero_iff bits).mpr (Or.inl h0))
    omega
  next hargs =>
  split
  · next hzero =>
    refine iff_of_false (fun h => by cases h) ?_
    rintro ⟨-, rfl, hblocks⟩
    exact hblocks hzero
  next hblocks =>
  constructor
  · intro h
    cases h
    exact ⟨by omega, rfl, hblocks⟩
  · rintro ⟨-, rfl, -⟩
    rfl

theorem rgmBloomCheck_spec {bits hashCount blocks : Nat}
    (h : rgmBloomCheck bits hashCount = .ok blocks) :
    0 < blocks ∧ blocks ≤ rgmBloomMaxBlocks ∧ 0 < hashCount ∧ hashCount ≤ 512 := by
  obtain ⟨⟨hhash, hhash'⟩, rfl, hblocks⟩ := rgmBloomCheck_ok_iff.mp h
  exact ⟨Nat.pos_of_ne_zero hblocks, rgmBloomRoundBlocks_le bits, hhash, hhash'⟩

/-- What has a size passes the checks. -/
theorem rgmBloomCheck_accepts {bits hashCount : Nat} {e : Status}
    (hhash : 0 < hashCount ∧ hashCount ≤ 512) (hsize : rgBloomFilterBufferSize bits ≠ 0) :
    rgmBloomCheck bits hashCount ≠ .error e := by
  have hblocks : rgmBloomRoundBlocks bits ≠ 0 := by
    rw [rgBloomFilterBufferSize_eq] at hsize
    omega
  rw [rgmBloomCheck_ok_iff.mpr ⟨hhash, rfl, hblocks⟩]
  intro h
  cases h

theorem rgmBloomCheck_error {bits hashCount : Nat} {e : Status}
    (h : rgmBloomCheck bits hashCount = .error e) : e ≠ .ok := by
  unfold rgmBloomCheck at h
  dsimp only at h
  split at h
  · cases h
    decide
  · split at h
    · cases h
      decide
    · cases h

end RgMemory
