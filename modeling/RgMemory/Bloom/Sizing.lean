import RgMemory.Bloom.Count

/-!
# Sizes of a Bloom filter

What a creator installs has as many blocks as the budget rounds up to (`rgmBloomRoundBlocks_eq`), and
all that depends on this number agrees on it: the size query, the loops that zero and count, and the
mask that selects a block. `Installed` says so of the filter that a creator leaves behind.
-/

namespace RgMemory

open Bytes BitArray

/-! ## The loops over the words -/

/-- The word count does not wrap, so the loop zeroes the array and nothing else. -/
theorem rgmBloomZero_apply {blocks : Nat} (h : blocks ≤ rgmBloomMaxBlocks) (m : Mem)
    (bits x : Nat) :
    rgmBloomZero m bits blocks x = if bits ≤ x ∧ x < bits + 64 * blocks then 0 else m x := by
  have hmax : rgmBloomMaxBlocks = 2 ^ 28 := rfl
  have hwords : blocks * rgmBloomBlockWords = 8 * blocks := Nat.mul_comm ..
  have hbytes : 8 * (8 * blocks) = 64 * blocks := by omega
  rw [rgmBloomZero, hwords, Nat.mod_eq_of_lt (by omega), zero_loop_apply, hbytes]

/-- A mask of a power of two is a remainder. -/
theorem and_mask_toNat (h1 : BitVec 64) {j : Nat} (hj : j < 64) :
    (h1 &&& BitVec.ofNat 64 (2 ^ j - 1)).toNat = h1.toNat % 2 ^ j := by
  have hlt := Nat.pow_lt_pow_right (a := 2) (by decide) hj
  rw [BitVec.toNat_and, BitVec.toNat_ofNat, Nat.mod_eq_of_lt (by omega),
    Nat.and_two_pow_sub_one_eq_mod]

/-! ## What a creator leaves behind -/

/-- A filter over `blocks` blocks at `buffer`: `m` became `m'` when they were zeroed. Clear, PopCount
and the selection of a block all keep to these blocks and miss none. -/
structure Installed (bf : BloomFilter) (m m' : Mem) (buffer blocks hashCount : Nat) : Prop where
  bits : bf.bits = buffer
  blockCount : bf.blockCount = blocks
  hashCount : bf.hashCount = hashCount
  zeroed : ∀ x, m' x = if buffer ≤ x ∧ x < buffer + 64 * blocks then 0 else m x
  cleared : ∀ m x, rgBloomFilterClear m bf x =
    if buffer ≤ x ∧ x < buffer + 64 * blocks then 0 else m x
  counted : ∀ builtin m, (rgBloomFilterPopCount builtin bf m).toNat =
    Nat.count (fun n => bit (fun j => load64 m (buffer + 8 * j)) n = true) (8 * (64 * blocks))
  selected : ∀ h1, (h1 &&& bf.blockMask).toNat < blocks
  selects : ∀ b, b < blocks → ∃ h1, (h1 &&& bf.blockMask).toNat = b
  block : ∀ h1, rgmBloomBlock bf h1 = buffer + 64 * (h1 &&& bf.blockMask).toNat

theorem rgmBloomInstall_spec (m : Mem) {buffer bits : Nat} (hashCount : Nat) (hbuffer : buffer ≠ 0)
    (hblocks : rgmBloomRoundBlocks bits ≠ 0) :
    Installed (rgmBloomInstall m buffer (rgmBloomRoundBlocks bits) hashCount).2 m
      (rgmBloomInstall m buffer (rgmBloomRoundBlocks bits) hashCount).1 buffer
      (rgmBloomRoundBlocks bits) hashCount := by
  have hle := rgmBloomRoundBlocks_le bits
  obtain ⟨j, hj, hpow⟩ := rgmBloomRoundBlocks_pow hblocks
  have hmask (h1 : BitVec 64) :
      (h1 &&& BitVec.ofNat 64 (rgmBloomRoundBlocks bits - 1)).toNat = h1.toNat % 2 ^ j := by
    rw [hpow]
    exact and_mask_toNat h1 hj
  have hlive : rgmBloomIsLive
      (rgmBloomInstall m buffer (rgmBloomRoundBlocks bits) hashCount).2 = true :=
    decide_eq_true hbuffer
  constructor
  case bits => rfl
  case blockCount => rfl
  case hashCount => rfl
  case zeroed => exact rgmBloomZero_apply hle m buffer
  case cleared =>
    intro m' x
    rw [rgBloomFilterClear, hlive]
    exact rgmBloomZero_apply hle m' buffer x
  case counted =>
    intro builtin m'
    have hbits : 8 * (64 * rgmBloomRoundBlocks bits) = 512 * rgmBloomRoundBlocks bits := by omega
    rw [rgBloomFilterPopCount_eq builtin hbuffer hle, hbits]
    rfl
  case selected =>
    intro h1
    refine (hmask h1).trans_lt ?_
    rw [hpow]
    exact Nat.mod_lt _ (Nat.two_pow_pos j)
  case selects =>
    intro b hb
    have hpow64 := Nat.pow_lt_pow_right (a := 2) (by decide) hj
    refine ⟨BitVec.ofNat 64 b, (hmask _).trans ?_⟩
    rw [BitVec.toNat_ofNat, Nat.mod_eq_of_lt (by omega), Nat.mod_eq_of_lt (by omega)]
  case block =>
    intro h1
    unfold rgmBloomBlock rgmBloomBlockWords
    rw [Nat.mul_comm _ 8, ← Nat.mul_assoc]
    rfl

/-! ## The creators -/

theorem rgBloomFilterCreate_spec (page : Nat) (os : OsReply) (a : ArenaState) (bf : BloomFilter)
    (bits hashCount : Nat) :
    let made := rgBloomFilterCreate page os a bf bits hashCount
    let got := rgArenaAllocAligned page os a (rgBloomFilterBufferSize bits) 64
    (made.1 = .ok ↔
      (0 < hashCount ∧ hashCount ≤ 512) ∧ rgBloomFilterBufferSize bits ≠ 0 ∧ got.1 ≠ 0) ∧
    (made.1 = .ok → Installed made.2.2 got.2.mem made.2.1.mem got.1 (rgmBloomRoundBlocks bits)
      hashCount) ∧
    (made.1 ≠ .ok → made.2.2 = bf) := by
  have hsize : rgBloomFilterBufferSize bits = rgmBloomRoundBlocks bits * rgmBloomBlockBytes := by
    rw [rgBloomFilterBufferSize_eq]
    exact Nat.mul_comm ..
  dsimp only
  unfold rgBloomFilterCreate
  cases hcheck : rgmBloomCheck bits hashCount with
  | error e =>
    have hne := rgmBloomCheck_error hcheck
    refine ⟨iff_of_false hne ?_, fun h => absurd h hne, fun _ => rfl⟩
    rintro ⟨hhash, hsize0, -⟩
    exact rgmBloomCheck_accepts hhash hsize0 hcheck
  | ok blocks =>
    obtain ⟨hhash, rfl, hblocks⟩ := rgmBloomCheck_ok_iff.mp hcheck
    have hsize0 : rgBloomFilterBufferSize bits ≠ 0 := by
      rw [rgBloomFilterBufferSize_eq]
      omega
    dsimp only
    rw [← hsize]
    rcases rgArenaAllocAligned page os a (rgBloomFilterBufferSize bits) 64 with ⟨buffer, a'⟩
    dsimp only
    by_cases hbuffer : buffer = 0
    · have hne := refusal_ne_ok a'.toArena
      rw [if_pos hbuffer]
      exact ⟨iff_of_false hne fun h => h.2.2 hbuffer, fun h => absurd h hne, fun _ => rfl⟩
    · rw [if_neg hbuffer]
      exact ⟨iff_of_true rfl ⟨hhash, hsize0, hbuffer⟩,
        fun _ => rgmBloomInstall_spec a'.mem hashCount hbuffer hblocks, fun h => absurd rfl h⟩

theorem rgBloomFilterCreateFromMemory_spec (m : Mem) (buffer bufferSize : Nat) (bf : BloomFilter)
    (bits hashCount : Nat) :
    let made := rgBloomFilterCreateFromMemory m buffer bufferSize bf bits hashCount
    (made.1 = .ok ↔ buffer ≠ 0 ∧ (0 < hashCount ∧ hashCount ≤ 512) ∧
      rgBloomFilterBufferSize bits ≠ 0 ∧ rgBloomFilterBufferSize bits ≤ bufferSize) ∧
    (made.1 = .ok → Installed made.2.2 m made.2.1 buffer (rgmBloomRoundBlocks bits) hashCount) ∧
    (made.1 ≠ .ok → made.2.2 = bf ∧ made.2.1 = m) := by
  have hsize : rgBloomFilterBufferSize bits = rgmBloomRoundBlocks bits * rgmBloomBlockBytes := by
    rw [rgBloomFilterBufferSize_eq]
    exact Nat.mul_comm ..
  dsimp only
  unfold rgBloomFilterCreateFromMemory
  by_cases hbuffer : buffer = 0
  · rw [if_pos hbuffer]
    have hne : Status.errInvalid ≠ .ok := by decide
    exact ⟨iff_of_false hne fun h => h.1 hbuffer, fun h => absurd h hne, fun _ => ⟨rfl, rfl⟩⟩
  rw [if_neg hbuffer]
  cases hcheck : rgmBloomCheck bits hashCount with
  | error e =>
    have hne := rgmBloomCheck_error hcheck
    refine ⟨iff_of_false hne ?_, fun h => absurd h hne, fun _ => ⟨rfl, rfl⟩⟩
    rintro ⟨-, hhash, hsize0, -⟩
    exact rgmBloomCheck_accepts hhash hsize0 hcheck
  | ok blocks =>
    obtain ⟨hhash, rfl, hblocks⟩ := rgmBloomCheck_ok_iff.mp hcheck
    have hsize0 : rgBloomFilterBufferSize bits ≠ 0 := by
      rw [rgBloomFilterBufferSize_eq]
      omega
    dsimp only
    rw [← hsize]
    by_cases hroom : bufferSize < rgBloomFilterBufferSize bits
    · rw [if_pos hroom]
      have hne : Status.errTooSmall ≠ .ok := by decide
      exact ⟨iff_of_false hne fun h => by omega, fun h => absurd h hne, fun _ => ⟨rfl, rfl⟩⟩
    · rw [if_neg hroom]
      exact ⟨iff_of_true rfl ⟨hbuffer, hhash, hsize0, by omega⟩,
        fun _ => rgmBloomInstall_spec m hashCount hbuffer hblocks, fun h => absurd rfl h⟩

/-- **Bloom sizing is exact for every bit count.** The number of blocks is 0 exactly when the budget
is 0 or needs more than `2 ^ 28` blocks in exact integers, and the least power of two that holds the
budget otherwise; its word count never wraps. Both creators accept what the size query has a size for,
given a hash count in range and the memory: from an arena that can supply it, from a buffer of at
least that size. What they install covers exactly those bytes; on every error the filter is
unchanged. -/
theorem bloom_sizing (bits : BitVec 64) :
    (rgmBloomRoundBlocks bits.toNat = 0 ↔ bits = 0 ∨ 2 ^ 28 < (bits.toNat + 511) / 512) ∧
    let blocks := rgmBloomRoundBlocks bits.toNat
    let size := rgBloomFilterBufferSize bits.toNat
    (blocks ≠ 0 → IsLeast {q | (∃ j, q = 2 ^ j) ∧ (bits.toNat + 511) / 512 ≤ q} blocks) ∧
    size = 64 * blocks ∧ blocks * rgmBloomBlockWords < 2 ^ 32 ∧
    (∀ page os a bf (hashCount : BitVec 32),
      let made := rgBloomFilterCreate page os a bf bits.toNat hashCount.toNat
      let got := rgArenaAllocAligned page os a size 64
      (made.1 = .ok ↔
        (0 < hashCount.toNat ∧ hashCount.toNat ≤ 512) ∧ size ≠ 0 ∧ got.1 ≠ 0) ∧
      (made.1 = .ok →
        Installed made.2.2 got.2.mem made.2.1.mem got.1 blocks hashCount.toNat) ∧
      (made.1 ≠ .ok → made.2.2 = bf)) ∧
    ∀ m buffer (bufferSize : BitVec 64) bf (hashCount : BitVec 32),
      let made := rgBloomFilterCreateFromMemory m buffer bufferSize.toNat bf bits.toNat
        hashCount.toNat
      (made.1 = .ok ↔ buffer ≠ 0 ∧ (0 < hashCount.toNat ∧ hashCount.toNat ≤ 512) ∧
        size ≠ 0 ∧ size ≤ bufferSize.toNat) ∧
      (made.1 = .ok → Installed made.2.2 m made.2.1 buffer blocks hashCount.toNat) ∧
      (made.1 ≠ .ok → made.2.2 = bf ∧ made.2.1 = m) := by
  have hle : rgmBloomRoundBlocks bits.toNat ≤ 2 ^ 28 := rgmBloomRoundBlocks_le _
  have hwords : rgmBloomRoundBlocks bits.toNat * rgmBloomBlockWords =
      rgmBloomRoundBlocks bits.toNat * 8 := rfl
  have hzero : bits.toNat = 0 ↔ bits = 0 :=
    ⟨fun h => BitVec.eq_of_toNat_eq h, fun h => congrArg BitVec.toNat h⟩
  refine ⟨?_, rgmBloomRoundBlocks_isLeast, rgBloomFilterBufferSize_eq bits.toNat, by omega,
    fun page os a bf hashCount => rgBloomFilterCreate_spec page os a bf bits.toNat hashCount.toNat,
    fun m buffer bufferSize bf hashCount =>
      rgBloomFilterCreateFromMemory_spec m buffer bufferSize.toNat bf bits.toNat hashCount.toNat⟩
  rw [← hzero]
  exact rgmBloomRoundBlocks_eq_zero_iff bits.toNat

end RgMemory
