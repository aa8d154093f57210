import RgMemory.Bloom.Run
import RgMemory.Lib.Swar

/-!
# Set bits of a Bloom filter

The step of the double hashing is odd, and so coprime to the 512 bits of a block: as long as it takes
at most 512 steps, the walk never meets a position twice (`bloomWalk_nodup`). One Add thus sets
exactly `hashCount` bits of a clear filter.

`rgBloomFilterPopCount` counts them word by word. The portable branch of `rgmBloomPopcount64` adds
fields of 1, 2 and 4 bits pairwise and then all bytes by one product; it is the same function as the
compiler's builtin (`rgmBloomPopcount64_eq`).
-/

namespace RgMemory

open Bytes BitArray

/-! ## Distinct positions -/

/-- Steps of a length coprime to the modulus meet no point twice before they have met all. -/
theorem nodup_steps {n delta : Nat} (hcoprime : Nat.Coprime n delta) {k : Nat} (hk : k ≤ n)
    (pos : Nat) : ((List.range k).map fun i => (pos + i * delta) % n).Nodup := by
  apply List.Nodup.map_on _ List.nodup_range
  intro i hi j hj heq
  rw [List.mem_range] at hi hj
  have hsteps : i * delta ≡ j * delta [MOD n] := Nat.ModEq.add_left_cancel' pos heq
  have hmod : i ≡ j [MOD n] := Nat.ModEq.cancel_right_of_coprime hcoprime hsteps
  exact hmod.eq_of_lt_of_lt (by omega) (by omega)

theorem rgmBloomDelta_coprime (h2 : BitVec 64) : Nat.Coprime 512 (rgmBloomDelta h2) := by
  have hodd : rgmBloomDelta h2 % 2 = 1 := by
    rw [Nat.mod_two_eq_one_iff_testBit_zero, rgmBloomDelta, Nat.testBit_or]
    simp
  have htwo : Nat.Coprime 2 (rgmBloomDelta h2) := by
    rw [Nat.Coprime, Nat.gcd_rec, hodd]
    rfl
  exact Nat.Coprime.pow_left 9 htwo

theorem bloomWalk_length (delta k pos : Nat) : (bloomWalk delta k pos).length = k := by
  induction k generalizing pos with
  | zero => rfl
  | succ k ih => rw [bloomWalk, List.length_cons, ih]

theorem bloomWalk_nodup (h2 : BitVec 64) {k : Nat} (hk : k ≤ 512) :
    (bloomWalk (rgmBloomDelta h2) k (rgmBloomStart h2)).Nodup := by
  rw [bloomWalk_eq _ _ (rgmBloomStart_lt h2)]
  exact nodup_steps (rgmBloomDelta_coprime h2) hk _

theorem positions_length (bf : BloomFilter) (d : Digests) :
    (bf.positions d).length = bf.hashCount := by
  rw [positions_eq, List.length_map, bloomWalk_length]

theorem positions_nodup {bf : BloomFilter} (h : bf.Sound) (d : Digests) :
    (bf.positions d).Nodup := by
  rw [positions_eq]
  apply List.Nodup.map _ (bloomWalk_nodup d.2 h.hash_le)
  intro p q heq
  exact Nat.add_left_cancel heq

/-! ## One word -/

theorem cpop_toNat (v : BitVec 64) :
    v.cpop.toNat = Nat.count (fun i => v.getLsbD i = true) 64 := by
  have hrec (n : Nat) : v.cpopNatRec n 0 = Nat.count (fun i => v.getLsbD i = true) n := by
    induction n with
    | zero => rfl
    | succ n ih =>
      rw [BitVec.cpopNatRec_succ, BitVec.cpopNatRec_eq, ih, Nat.count_succ, Nat.zero_add]
      cases v.getLsbD n <;> rfl
  rw [BitVec.toNat_cpop, hrec]

/-- A single bit round: the upper bits of the pairs are taken away once. -/
theorem swar_bits (v : BitVec 64) :
    (v - (v >>> 1 &&& 0x5555555555555555#64)).toNat = Swar.pairSum 1 32 v.toNat := by
  have hmask : (0x5555555555555555#64).toNat = Swar.mask 1 32 := rfl
  have hupper : (v >>> 1 &&& 0x5555555555555555#64).toNat = v.toNat / 2 &&& Swar.mask 1 32 := by
    rw [BitVec.toNat_and, BitVec.toNat_ushiftRight, Nat.shiftRight_eq_div_pow, hmask]
  have hle : v >>> 1 &&& 0x5555555555555555#64 ≤ v := by
    rw [BitVec.le_def, hupper]
    exact Nat.and_le_left.trans (Nat.div_le_self _ 2)
  rw [BitVec.toNat_sub_of_le hle, hupper]
  exact Swar.sub_upper 32 v.isLt

/-- A round on pairs of bits. -/
theorem swar_pairs (v : BitVec 64) :
    ((v &&& 0x3333333333333333#64) + (v >>> 2 &&& 0x3333333333333333#64)).toNat =
      Swar.pairSum 2 16 v.toNat := by
  have hmask : (0x3333333333333333#64).toNat = Swar.mask 2 16 := rfl
  have hlt : Swar.pairSum 2 16 v.toNat < 2 ^ 64 := Swar.pairSum_lt (by decide) 16 v.toNat
  rw [BitVec.toNat_add, BitVec.toNat_and, BitVec.toNat_and, BitVec.toNat_ushiftRight,
    Nat.shiftRight_eq_div_pow, hmask]
  exact Nat.mod_eq_of_lt hlt

/-- A round on small nibbles: their sums fit a nibble, and the mask can wait. -/
theorem swar_nibbles {v : BitVec 64} (h : Swar.FieldsLe (2 ^ 4) 4 v.toNat) :
    ((v + v >>> 4) &&& 0x0f0f0f0f0f0f0f0f#64).toNat = Swar.pairSum 4 8 v.toNat := by
  have hmask : (0x0f0f0f0f0f0f0f0f#64).toNat = Swar.mask 4 8 := rfl
  have hmask64 : Swar.mask 4 8 % 2 ^ 64 = Swar.mask 4 8 := rfl
  have hlt : Swar.pairSum 4 8 v.toNat < 2 ^ 64 := Swar.pairSum_lt (by decide) 8 v.toNat
  have hsum := Swar.and_mask_add (w := 4) (by decide) 8 h
  rw [BitVec.toNat_and, BitVec.toNat_add, BitVec.toNat_ushiftRight, Nat.shiftRight_eq_div_pow,
    hmask, ← hmask64, ← Nat.and_mod_two_pow, hsum, Nat.mod_eq_of_lt hlt]

/-- The product sums all bytes into the topmost one. -/
theorem swar_bytes {v : BitVec 64} (h : Swar.fieldSum (2 ^ 8) 8 v.toNat < 2 ^ 8) :
    (((v * 0x0101010101010101#64) >>> 56).setWidth 32).toNat = Swar.fieldSum (2 ^ 8) 8 v.toNat := by
  have hones : (0x0101010101010101#64).toNat = Swar.ones (2 ^ 8) 8 := rfl
  have hproduct : v.toNat * Swar.ones (2 ^ 8) 8 % 2 ^ 64 / 2 ^ 56 =
      Swar.fieldSum (2 ^ 8) 8 v.toNat := Swar.mul_ones h
  rw [BitVec.toNat_setWidth, BitVec.toNat_ushiftRight, Nat.shiftRight_eq_div_pow, BitVec.toNat_mul,
    hones, hproduct]
  exact Nat.mod_eq_of_lt (by omega)

/-- The portable branch: three rounds of pairwise sums and the product. -/
theorem swar_toNat (v : BitVec 64) :
    (rgmBloomPopcount64 false v).toNat = Nat.count (fun i => v.getLsbD i = true) 64 := by
  obtain ⟨v1, hv1⟩ : ∃ v1, v1 = v - (v >>> 1 &&& 0x5555555555555555#64) := ⟨_, rfl⟩
  obtain ⟨v2, hv2⟩ : ∃ v2, v2 = (v1 &&& 0x3333333333333333#64) +
    (v1 >>> 2 &&& 0x3333333333333333#64) := ⟨_, rfl⟩
  obtain ⟨v3, hv3⟩ : ∃ v3, v3 = (v2 + v2 >>> 4) &&& 0x0f0f0f0f0f0f0f0f#64 := ⟨_, rfl⟩
  have hbranch : rgmBloomPopcount64 false v =
      ((v3 * 0x0101010101010101#64) >>> 56).setWidth 32 := by
    rw [hv3, hv2, hv1]
    rfl
  have hround1 : v1.toNat = Swar.pairSum 1 32 v.toNat := hv1 ▸ swar_bits v
  have hround2 : v2.toNat = Swar.pairSum 2 16 v1.toNat := hv2 ▸ swar_pairs v1
  -- the fields stay small enough for the rounds to come
  have hle1 : Swar.FieldsLe (2 ^ 2) 2 v1.toNat := by
    rw [hround1]
    exact (Swar.fieldsLe_bits v.toNat).pairSum (w := 1) (by decide) 32
  have hle2 : Swar.FieldsLe (2 ^ 4) 4 v2.toNat := by
    rw [hround2]
    exact hle1.pairSum (by decide) 16
  have hround3 : v3.toNat = Swar.pairSum 4 8 v2.toNat := hv3 ▸ swar_nibbles hle2
  -- and each round keeps their sum, which is the number of set bits
  have hsum : Swar.fieldSum (2 ^ 8) 8 v3.toNat = Nat.count (fun i => v.getLsbD i = true) 64 :=
    calc Swar.fieldSum (2 ^ 8) 8 v3.toNat = Swar.fieldSum (2 ^ 4) 16 v2.toNat := by
          rw [hround3]
          exact Swar.fieldSum_pairSum (w := 4) (by decide) 8 _
      _ = Swar.fieldSum (2 ^ 2) 32 v1.toNat := by
          rw [hround2]
          exact Swar.fieldSum_pairSum (w := 2) (by decide) 16 _
      _ = Swar.fieldSum 2 64 v.toNat := by
          rw [hround1]
          exact Swar.fieldSum_pairSum (w := 1) (by decide) 32 _
      _ = _ := Swar.fieldSum_bits 64 _
  have hfits : Swar.fieldSum (2 ^ 8) 8 v3.toNat < 2 ^ 8 := by
    have hle := Nat.count_le (p := fun i => v.getLsbD i = true) (n := 64)
    omega
  rw [hbranch, swar_bytes hfits, hsum]

/-- The builtin and the portable branch are one function. -/
theorem rgmBloomPopcount64_eq (builtin : Bool) (v : BitVec 64) :
    (rgmBloomPopcount64 builtin v).toNat = Nat.count (fun i => v.getLsbD i = true) 64 := by
  cases builtin with
  | false => exact swar_toNat v
  | true =>
    have hle := Nat.count_le (p := fun i => v.getLsbD i = true) (n := 64)
    rw [rgmBloomPopcount64, if_pos rfl, BitVec.toNat_setWidth, cpop_toNat]
    exact Nat.mod_eq_of_lt (by omega)

/-! ## The array -/

/-- The loop of PopCount over the first `n` words. -/
theorem popCount_words (builtin : Bool) (w : Nat → BitVec 64) {n : Nat} (hn : 64 * n < 2 ^ 64) :
    ((List.range n).foldl
      (fun set i => set + (rgmBloomPopcount64 builtin (w i)).setWidth 64) 0#64).toNat =
      popCount w (64 * n) := by
  induction n with
  | zero => rfl
  | succ n ih =>
    have hword := Nat.count_le (p := fun i => (w n).getLsbD i = true) (n := 64)
    have hbound : popCount w (64 * n) ≤ 64 * n := Nat.count_le _
    rw [List.range_succ, List.foldl_append, List.foldl_cons, List.foldl_nil, BitVec.toNat_add,
      ih (by omega), BitVec.toNat_setWidth, rgmBloomPopcount64_eq, popCount_word]
    omega

/-- **PopCount is the number of set bits** of an array that the size cap allows, whichever branch
counts the words. -/
theorem rgBloomFilterPopCount_eq (builtin : Bool) {bf : BloomFilter} (hlive : bf.bits ≠ 0)
    (hcount : bf.blockCount ≤ rgmBloomMaxBlocks) (m : Mem) :
    (rgBloomFilterPopCount builtin bf m).toNat = popCount (bf.words m) (512 * bf.blockCount) := by
  have hmax : rgmBloomMaxBlocks = 2 ^ 28 := rfl
  have hwords : bf.blockCount * rgmBloomBlockWords = 8 * bf.blockCount := Nat.mul_comm ..
  have hisLive : rgmBloomIsLive bf = true := decide_eq_true hlive
  have hloop := popCount_words builtin (bf.words m) (n := 8 * bf.blockCount) (by omega)
  have hbits : 64 * (8 * bf.blockCount) = 512 * bf.blockCount := by omega
  rw [hbits] at hloop
  rw [rgBloomFilterPopCount, hisLive, hwords, Nat.mod_eq_of_lt (by omega)]
  exact hloop

theorem rgBloomFilterPopCount_le (builtin : Bool) {bf : BloomFilter}
    (hcount : bf.blockCount ≤ rgmBloomMaxBlocks) (m : Mem) :
    (rgBloomFilterPopCount builtin bf m).toNat ≤ rgBloomFilterBitCount bf := by
  by_cases hlive : bf.bits = 0
  · have hdead : rgmBloomIsLive bf = false := decide_eq_false (not_not.mpr hlive)
    rw [rgBloomFilterPopCount, hdead]
    exact Nat.zero_le _
  · have hle : popCount (bf.words m) (512 * bf.blockCount) ≤ 512 * bf.blockCount := Nat.count_le _
    have hbits : bf.blockCount * rgmBloomBlockBits = 512 * bf.blockCount := Nat.mul_comm ..
    have hisLive : rgmBloomIsLive bf = true := decide_eq_true hlive
    rw [rgBloomFilterPopCount_eq builtin hlive hcount, rgBloomFilterBitCount, if_pos hisLive, hbits]
    exact hle

/-! ## Counting after an Add -/

theorem BloomFilter.Sound.popCount_add_le {bf : BloomFilter} (h : bf.Sound) (m : Mem) (key : BloomKey)
    (unsync : Bool) (n : Nat) :
    popCount (bf.words m) n ≤ popCount (bf.words (bf.add m key unsync)) n ∧
      popCount (bf.words (bf.add m key unsync)) n ≤ popCount (bf.words m) n + bf.hashCount := by
  rw [h.add_eq]
  split
  · exact ⟨Nat.le_refl _, Nat.le_add_right _ _⟩
  · next d _ =>
    have hor := popCount_le_of_or (bit_addH bf m d (!unsync)) n
    rwa [positions_length] at hor

theorem BloomFilter.Sound.popCount_add_clear {bf : BloomFilter} (h : bf.Sound) {m : Mem}
    (hclear : ∀ n, n < 512 * bf.blockCount → bit (bf.words m) n = false) {key : BloomKey}
    {d : Digests} (hkey : key.pair = some d) (unsync : Bool) :
    popCount (bf.words (bf.add m key unsync)) (512 * bf.blockCount) = bf.hashCount := by
  have hcount := popCount_of_clear (bit_addH bf m d (!unsync)) hclear
    (fun n hn => h.position_lt hn) (positions_nodup h d)
  rw [h.add_eq, hkey]
  rwa [positions_length] at hcount

/-- **One Add sets `hashCount` bits of one block.** The positions of a digest pair are `hashCount`
different ones, and an Add sets these, in the one block, and no other bit. So PopCount answers
`hashCount` after an Add to a clear filter, and no Add raises it by more; and what it answers, by the
builtin or by the portable branch, is the number of set bits of any array that the size cap allows,
of as many as BitCount says. -/
theorem bloom_add_popCount {bf : BloomFilter} (h : bf.Sound) :
    (∀ d : Digests,
      let walk := bloomWalk (rgmBloomDelta d.2) bf.hashCount (rgmBloomStart d.2)
      walk.length = bf.hashCount ∧ walk.Nodup ∧ (∀ p ∈ walk, p < 512) ∧
      (∀ n, bit (rgmBloomWmask bf d.2) n = true ↔ n ∈ walk) ∧
      ∀ m atomic n, bit (bf.words (rgmBloomAddH bf m d.1 d.2 atomic)) n = true ↔
        bit (bf.words m) n = true ∨ n / 512 = bf.blockOf d ∧ n % 512 ∈ walk) ∧
    (∀ builtin m key unsync,
      let before := (rgBloomFilterPopCount builtin bf m).toNat
      let after := (rgBloomFilterPopCount builtin bf (bf.add m key unsync)).toNat
      before ≤ after ∧ after ≤ before + bf.hashCount ∧
      ((∀ j, j < 8 * bf.blockCount → bf.words m j = 0) → key.pair.isSome →
        after = bf.hashCount)) ∧
    ∀ builtin (bf' : BloomFilter) m, bf'.bits ≠ 0 → bf'.blockCount ≤ 2 ^ 28 →
      (rgBloomFilterPopCount builtin bf' m).toNat =
        Nat.count (fun n => bit (bf'.words m) n = true) (512 * bf'.blockCount) ∧
      (rgBloomFilterPopCount builtin bf' m).toNat ≤ rgBloomFilterBitCount bf' := by
  refine ⟨fun d => ?_, fun builtin m key unsync => ?_, fun builtin bf' m hlive hcount =>
    ⟨rgBloomFilterPopCount_eq builtin hlive hcount m,
      rgBloomFilterPopCount_le builtin hcount m⟩⟩
  · intro walk
    refine ⟨bloomWalk_length _ _ _, bloomWalk_nodup d.2 h.hash_le,
      bloomWalk_lt _ _ (rgmBloomStart_lt d.2), fun n => ?_, fun m atomic n => ?_⟩
    · rw [bit_wmask, decide_eq_true_eq]
    · rw [bit_addH, Bool.or_eq_true, decide_eq_true_eq, mem_positions_iff]
  · intro before after
    have hbefore : before = popCount (bf.words m) (512 * bf.blockCount) :=
      rgBloomFilterPopCount_eq builtin h.live h.count_le m
    have hafter : after = popCount (bf.words (bf.add m key unsync)) (512 * bf.blockCount) :=
      rgBloomFilterPopCount_eq builtin h.live h.count_le _
    rw [hbefore, hafter]
    obtain ⟨hmono, hraise⟩ := h.popCount_add_le m key unsync (512 * bf.blockCount)
    refine ⟨hmono, hraise, fun hzero hsome => ?_⟩
    obtain ⟨d, hkey⟩ := Option.isSome_iff_exists.mp hsome
    refine h.popCount_add_clear (fun n hn => ?_) hkey unsync
    rw [bit, hzero (n / 64) (by omega)]
    exact BitVec.getLsbD_zero

/-- Two bits for one key in a clear block. -/
theorem sampleBloom_popCount :
    (rgBloomFilterPopCount false sampleBloom.2
      (sampleBloom.2.add sampleBloom.1 (.u64 41) true)).toNat = 2 := by
  obtain ⟨hsound, hempty⟩ := BloomFilter.fresh_sound ⟨12, by decide, rfl⟩ sampleBloom_fresh
  have hzero : ∀ j, j < 8 * sampleBloom.2.blockCount → sampleBloom.2.words sampleBloom.1 j = 0 := by
    intro j hj
    apply word_eq_of_bit (v := fun _ => 0)
    intro n hn
    have hbit := hempty n (by omega)
    rw [bit_zero, Bool.eq_false_iff, Ne, hbit]
    simp
  obtain ⟨-, hadd, -⟩ := bloom_add_popCount hsound
  exact (hadd false sampleBloom.1 (.u64 41) true).2.2 hzero rfl

end RgMemory
