import RgMemory.Arena.Run
import RgMemory.Bloom.Blocks
import RgMemory.Lib.BitArray

/-!
# Runs of a Bloom filter

A filter in use by one thread: adds and tests through any entry point, and clears. What the array
holds is a function of the set of digest pairs added since the last clear: bit `n` is set exactly
when `n` is a position of one of them (`Image`). `positions` is the closed form of the double hashing;
the loops of Add and of Test both walk it (`rgmBloomMasks_eq`, `rgmBloomTestLoop_eq_one_iff`).

The atomic Add skips words whose bits are set. Storing them again would change nothing, so the two
write disciplines are one function (`rgmBloomAddH_atomic`).
-/

namespace RgMemory

open Bytes BitArray

/-- A digest pair. -/
abbrev Digests := BitVec 64 × BitVec 64

namespace BloomFilter

/-- The number of the block that a digest pair selects. -/
def blockOf (bf : BloomFilter) (d : Digests) : Nat := (d.1 &&& bf.blockMask).toNat

/-- The bits of a digest pair, by their number in the array. -/
def positions (bf : BloomFilter) (d : Digests) : List Nat :=
  (List.range bf.hashCount).map fun i =>
    512 * bf.blockOf d + (rgmBloomStart d.2 + i * rgmBloomDelta d.2) % 512

/-- The words of the array. -/
def words (bf : BloomFilter) (m : Mem) : Nat → BitVec 64 := fun j => load64 m (bf.bits + 8 * j)

/-- A filter as the creators make it: the mask selects the blocks of an array that fits the address
space. -/
structure Sound (bf : BloomFilter) : Prop where
  live : bf.bits ≠ 0
  count_pos : 0 < bf.blockCount
  count_le : bf.blockCount ≤ rgmBloomMaxBlocks
  mask : bf.blockMask = BitVec.ofNat 64 (bf.blockCount - 1)
  hash_pos : 0 < bf.hashCount
  hash_le : bf.hashCount ≤ 512
  fits : bf.bits + 64 * bf.blockCount ≤ 2 ^ 64

end BloomFilter

/-! ## Positions -/

/-- The positions of the loops, `k` of them from `pos` on. -/
def bloomWalk (delta : Nat) : Nat → Nat → List Nat
  | 0, _ => []
  | k + 1, pos => pos :: bloomWalk delta k (rgmBloomNext delta pos)

theorem rgmBloomNext_eq (delta pos : Nat) : rgmBloomNext delta pos = (pos + delta) % 512 :=
  Nat.and_two_pow_sub_one_eq_mod (pos + delta) 9

theorem rgmBloomStart_lt (h2 : BitVec 64) : rgmBloomStart h2 < 512 := by
  have heq : rgmBloomStart h2 = h2.toNat % 512 := Nat.and_two_pow_sub_one_eq_mod h2.toNat 9
  omega

/-- In closed form: the walk steps by `delta` modulo the block. -/
theorem bloomWalk_eq (delta k : Nat) {pos : Nat} (hpos : pos < 512) :
    bloomWalk delta k pos = (List.range k).map fun i => (pos + i * delta) % 512 := by
  induction k generalizing pos with
  | zero => rfl
  | succ k ih =>
    rw [bloomWalk, rgmBloomNext_eq, ih (Nat.mod_lt _ (by decide)), List.range_succ_eq_map,
      List.map_cons, List.map_map, Nat.zero_mul, Nat.add_zero, Nat.mod_eq_of_lt hpos]
    congr 1
    apply List.map_congr_left
    intro i _
    rw [Function.comp, Nat.mod_add_mod, Nat.succ_mul]
    congr 1
    omega

/-- The walk stays in the block. -/
theorem bloomWalk_lt (delta k : Nat) {pos : Nat} (hpos : pos < 512) :
    ∀ p ∈ bloomWalk delta k pos, p < 512 := by
  intro p hp
  rw [bloomWalk_eq delta k hpos, List.mem_map] at hp
  obtain ⟨i, -, rfl⟩ := hp
  exact Nat.mod_lt _ (by decide)

/-- The walk of a digest pair, seen from the whole array. -/
theorem positions_eq (bf : BloomFilter) (d : Digests) :
    bf.positions d = (bloomWalk (rgmBloomDelta d.2) bf.hashCount (rgmBloomStart d.2)).map
      fun p => 512 * bf.blockOf d + p := by
  rw [bloomWalk_eq _ _ (rgmBloomStart_lt d.2), List.map_map]
  rfl

theorem mem_positions_iff (bf : BloomFilter) (d : Digests) (n : Nat) :
    n ∈ bf.positions d ↔ n / 512 = bf.blockOf d ∧
      n % 512 ∈ bloomWalk (rgmBloomDelta d.2) bf.hashCount (rgmBloomStart d.2) := by
  rw [positions_eq, List.mem_map]
  constructor
  · rintro ⟨p, hp, rfl⟩
    have hlt := bloomWalk_lt _ _ (rgmBloomStart_lt d.2) p hp
    have hdiv : (512 * bf.blockOf d + p) / 512 = bf.blockOf d := by omega
    have hmod : (512 * bf.blockOf d + p) % 512 = p := by omega
    rw [hdiv, hmod]
    exact ⟨rfl, hp⟩
  · rintro ⟨hblock, hp⟩
    exact ⟨n % 512, hp, by omega⟩

theorem shiftRight_six (n : Nat) : n >>> 6 = n / 64 := Nat.shiftRight_eq_div_pow n 6

theorem and_63 (n : Nat) : n &&& 63 = n % 64 := Nat.and_two_pow_sub_one_eq_mod n 6

/-- The masks of the loop are the positions of the walk. -/
theorem rgmBloomMasks_eq (delta k pos : Nat) (w : Nat → BitVec 64) :
    rgmBloomMasks delta k pos w = markAll w (bloomWalk delta k pos) := by
  induction k generalizing pos w with
  | zero => rfl
  | succ k ih =>
    rw [rgmBloomMasks, ih, bloomWalk, markAll, markAll, List.foldl_cons, shiftRight_six, and_63]
    rfl

theorem bit_wmask (bf : BloomFilter) (h2 : BitVec 64) (n : Nat) :
    bit (rgmBloomWmask bf h2) n =
      decide (n ∈ bloomWalk (rgmBloomDelta h2) bf.hashCount (rgmBloomStart h2)) := by
  rw [rgmBloomWmask, rgmBloomMasks_eq, bit_markAll, bit_zero, Bool.false_or]

/-! ## Words -/

namespace BloomFilter

theorem words_store (bf : BloomFilter) (m : Mem) (i : Nat) (v : BitVec 64) (j : Nat) :
    bf.words (store64 m (bf.bits + 8 * i) v) j = if j = i then v else bf.words m j := by
  unfold words
  by_cases hij : j = i
  · rw [if_pos hij, hij, load64_store64_self]
  · rw [if_neg hij, load64_store64_apart]
    unfold Apart
    omega

/-- Words of the block that a digest pair selects. -/
theorem block_word (bf : BloomFilter) (m : Mem) (d : Digests) (i : Nat) :
    load64 m (rgmBloomBlock bf d.1 + 8 * i) = bf.words m (8 * bf.blockOf d + i) := by
  unfold words rgmBloomBlock blockOf rgmBloomBlockWords
  congr 1
  omega

variable {bf : BloomFilter}

theorem Sound.blockOf_lt (h : bf.Sound) (d : Digests) : bf.blockOf d < bf.blockCount := by
  have hpos := h.count_pos
  have hle : bf.blockOf d ≤ bf.blockMask.toNat := by
    rw [blockOf, BitVec.toNat_and]
    exact Nat.and_le_right
  have hmod : (bf.blockCount - 1) % 2 ^ 64 ≤ bf.blockCount - 1 := Nat.mod_le _ _
  rw [h.mask, BitVec.toNat_ofNat] at hle
  omega

theorem Sound.position_lt (h : bf.Sound) {d : Digests} {n : Nat} (hn : n ∈ bf.positions d) :
    n < 512 * bf.blockCount := by
  have hblock := ((mem_positions_iff bf d n).mp hn).1
  have hlt := h.blockOf_lt d
  omega

end BloomFilter

/-! ## Add -/

/-- The atomic OR is skipped when it would change nothing. -/
theorem rgmBloomAddWord_eq (atomic : Bool) (block : Nat) (wmask : Nat → BitVec 64) (m : Mem)
    (i : Nat) : rgmBloomAddWord atomic block wmask m i =
      store64 m (block + 8 * i) (load64 m (block + 8 * i) ||| wmask i) := by
  unfold rgmBloomAddWord
  cases atomic with
  | false => rfl
  | true =>
    dsimp only
    rw [if_pos rfl]
    split
    · rfl
    · next hskip =>
      have hcover : load64 m (block + 8 * i) &&& wmask i = wmask i := by
        by_contra hne
        have hnz : wmask i ≠ 0#64 := by
          intro h0
          rw [h0, BitVec.and_zero] at hne
          exact hne rfl
        exact hskip (by simp [rgmBloomMissing, hnz, hne])
      rw [or_eq_self_of_and_eq hcover, store64_load64, copy_self]

/-- The two write disciplines are one function. -/
theorem rgmBloomAddH_atomic (bf : BloomFilter) (m : Mem) (h1 h2 : BitVec 64) (atomic : Bool) :
    rgmBloomAddH bf m h1 h2 atomic = rgmBloomAddH bf m h1 h2 false := by
  have hword : rgmBloomAddWord atomic (rgmBloomBlock bf h1) (rgmBloomWmask bf h2) =
      rgmBloomAddWord false (rgmBloomBlock bf h1) (rgmBloomWmask bf h2) := by
    funext m i
    rw [rgmBloomAddWord_eq, rgmBloomAddWord_eq]
  rw [rgmBloomAddH, rgmBloomAddH, hword]

/-- The words after the first `n` rounds of an Add. -/
theorem words_addWords (bf : BloomFilter) (m : Mem) (d : Digests) (n : Nat) (hn : n ≤ 8) (j : Nat) :
    bf.words ((List.range n).foldl
      (rgmBloomAddWord false (rgmBloomBlock bf d.1) (rgmBloomWmask bf d.2)) m) j =
      if j / 8 = bf.blockOf d ∧ j % 8 < n then bf.words m j ||| rgmBloomWmask bf d.2 (j % 8)
      else bf.words m j := by
  induction n generalizing j with
  | zero => simp
  | succ n ih =>
    have haddr : rgmBloomBlock bf d.1 + 8 * n = bf.bits + 8 * (8 * bf.blockOf d + n) := by
      unfold rgmBloomBlock BloomFilter.blockOf rgmBloomBlockWords
      omega
    rw [List.range_succ, List.foldl_append, List.foldl_cons, List.foldl_nil, rgmBloomAddWord_eq,
      bf.block_word, haddr, bf.words_store]
    by_cases hj : j = 8 * bf.blockOf d + n
    · -- the word of this round, which the earlier ones left alone
      have hdiv : (8 * bf.blockOf d + n) / 8 = bf.blockOf d := by omega
      have hmod : (8 * bf.blockOf d + n) % 8 = n := by omega
      rw [if_pos hj, ih (by omega), hj, hdiv, hmod, if_neg (by omega), if_pos ⟨rfl, by omega⟩]
    · have hiff : (j / 8 = bf.blockOf d ∧ j % 8 < n) ↔ (j / 8 = bf.blockOf d ∧ j % 8 < n + 1) := by
        omega
      rw [if_neg hj, ih (by omega)]
      simp only [hiff]

/-- An Add sets the positions of its digest pair and no other bit. -/
theorem bit_addH (bf : BloomFilter) (m : Mem) (d : Digests) (atomic : Bool) (n : Nat) :
    bit (bf.words (rgmBloomAddH bf m d.1 d.2 atomic)) n =
      (bit (bf.words m) n || decide (n ∈ bf.positions d)) := by
  have hdiv8 : n / 64 / 8 = n / 512 := by omega
  have hinner : n % 512 / 64 = n / 64 % 8 := by omega
  have hbit : n % 512 % 64 = n % 64 := by omega
  have hmask := bit_wmask bf d.2 (n % 512)
  rw [bit, hinner, hbit] at hmask
  rw [rgmBloomAddH_atomic, bit, rgmBloomAddH, words_addWords bf m d rgmBloomBlockWords (by decide),
    hdiv8]
  by_cases hblock : n / 512 = bf.blockOf d
  · rw [if_pos ⟨hblock, Nat.mod_lt _ (by decide)⟩, BitVec.getLsbD_or, hmask]
    congr 1
    exact decide_eq_decide.mpr (by simp [mem_positions_iff, hblock])
  · have hout : n ∉ bf.positions d := fun h => hblock ((mem_positions_iff bf d n).mp h).1
    rw [if_neg fun h => hblock h.1, decide_eq_false hout, Bool.or_false, bit]

/-- An Add writes inside its block. -/
theorem addH_out (bf : BloomFilter) (m : Mem) (d : Digests) (atomic : Bool) {x : Nat}
    (hx : Out (rgmBloomBlock bf d.1) 64 x) : rgmBloomAddH bf m d.1 d.2 atomic x = m x := by
  rw [rgmBloomAddH_atomic, rgmBloomAddH]
  suffices key : ∀ n, n ≤ 8 → (List.range n).foldl
      (rgmBloomAddWord false (rgmBloomBlock bf d.1) (rgmBloomWmask bf d.2)) m x = m x from
    key 8 (Nat.le_refl 8)
  intro n
  induction n with
  | zero => exact fun _ => rfl
  | succ n ih =>
    intro hn
    rw [List.range_succ, List.foldl_append, List.foldl_cons, List.foldl_nil, rgmBloomAddWord_eq,
      store64, storeLE_out _ (by unfold Out at *; omega)]
    exact ih (by omega)

/-! ## Test -/

theorem rgmBloomHasBit_eq (loaded : BitVec 64) (pos : Nat) :
    rgmBloomHasBit loaded pos = loaded.getLsbD (pos % 64) := by
  have hlt : pos % 64 < 64 := Nat.mod_lt _ (by decide)
  have hiff := and_mask_eq_zero_iff (v := loaded) hlt
  rw [rgmBloomHasBit, and_63]
  cases hbit : loaded.getLsbD (pos % 64) with
  | false => exact decide_eq_false (not_not.mpr (hiff.mpr hbit))
  | true =>
    refine decide_eq_true fun h0 => ?_
    rw [hiff.mp h0] at hbit
    cases hbit

/-- The loop of Test answers 1 when every bit of the walk is set. -/
theorem rgmBloomTestLoop_eq_one_iff (bf : BloomFilter) (m : Mem) (d : Digests) (delta k : Nat)
    {pos : Nat} (hpos : pos < 512) :
    rgmBloomTestLoop m (rgmBloomBlock bf d.1) delta k pos = 1 ↔
      ∀ p ∈ bloomWalk delta k pos, bit (bf.words m) (512 * bf.blockOf d + p) = true := by
  induction k generalizing pos with
  | zero => simp [rgmBloomTestLoop, bloomWalk]
  | succ k ih =>
    have hnext : rgmBloomNext delta pos < 512 := by
      rw [rgmBloomNext_eq]
      exact Nat.mod_lt _ (by decide)
    have hdiv : (512 * bf.blockOf d + pos) / 64 = 8 * bf.blockOf d + pos / 64 := by omega
    have hmod : (512 * bf.blockOf d + pos) % 64 = pos % 64 := by omega
    rw [rgmBloomTestLoop, bloomWalk, List.forall_mem_cons, bit, hdiv, hmod, shiftRight_six,
      bf.block_word, rgmBloomHasBit_eq]
    cases (bf.words m (8 * bf.blockOf d + pos / 64)).getLsbD (pos % 64) with
    | false => simp
    | true => simp [ih hnext]

/-- Test answers 1 exactly when all positions of the pair are set, and 0 otherwise. -/
theorem rgmBloomTestH_eq_one_iff (bf : BloomFilter) (m : Mem) (d : Digests) :
    rgmBloomTestH bf m d.1 d.2 = 1 ↔ ∀ n ∈ bf.positions d, bit (bf.words m) n = true := by
  rw [rgmBloomTestH, rgmBloomTestLoop_eq_one_iff bf m d _ _ (rgmBloomStart_lt d.2), positions_eq,
    List.forall_mem_map]

theorem rgmBloomTestLoop_le (m : Mem) (block delta k pos : Nat) :
    rgmBloomTestLoop m block delta k pos ≤ 1 := by
  induction k generalizing pos with
  | zero => exact Nat.le_refl 1
  | succ k ih =>
    rw [rgmBloomTestLoop]
    split
    · exact Nat.zero_le 1
    · exact ih _

/-! ## One block -/

/-- The bytes of a block, as its words. -/
theorem agree_block_iff {m m' : Mem} {block : Nat} :
    Agree m m' block (block + 64) ↔
      ∀ w, w < 8 → load64 m' (block + 8 * w) = load64 m (block + 8 * w) := by
  constructor
  · intro h w hw
    exact h.load64 (by omega) (by omega)
  · intro h x hlo hhi
    have hbytes := load64_eq_iff.mp (h ((x - block) / 8) (by omega)) ((x - block) % 8) (by omega)
    have hx : block + 8 * ((x - block) / 8) + (x - block) % 8 = x := by omega
    rwa [hx] at hbytes

/-- Test reads its block and nothing else. -/
theorem rgmBloomTestLoop_congr {m m' : Mem} {block : Nat} (h : Agree m m' block (block + 64))
    (delta k : Nat) {pos : Nat} (hpos : pos < 512) :
    rgmBloomTestLoop m' block delta k pos = rgmBloomTestLoop m block delta k pos := by
  induction k generalizing pos with
  | zero => rfl
  | succ k ih =>
    have hnext : rgmBloomNext delta pos < 512 := by
      rw [rgmBloomNext_eq]
      exact Nat.mod_lt _ (by decide)
    rw [rgmBloomTestLoop, rgmBloomTestLoop, shiftRight_six,
      agree_block_iff.mp h (pos / 64) (by omega), ih hnext]

/-- What an Add leaves in its block depends on its block and nothing else. -/
theorem addH_congr (bf : BloomFilter) {m m' : Mem} (d : Digests)
    (h : Agree m m' (rgmBloomBlock bf d.1) (rgmBloomBlock bf d.1 + 64)) (atomic : Bool) :
    Agree (rgmBloomAddH bf m d.1 d.2 atomic) (rgmBloomAddH bf m' d.1 d.2 atomic)
      (rgmBloomBlock bf d.1) (rgmBloomBlock bf d.1 + 64) := by
  rw [rgmBloomAddH_atomic bf m, rgmBloomAddH_atomic bf m']
  refine agree_block_iff.mpr fun w hw => ?_
  have hold := agree_block_iff.mp h w hw
  rw [bf.block_word, bf.block_word] at hold ⊢
  rw [rgmBloomAddH, rgmBloomAddH, words_addWords bf m' d rgmBloomBlockWords (by decide),
    words_addWords bf m d rgmBloomBlockWords (by decide), hold]

/-! ## Zeroing -/

/-- The loop over the first `n` words writes their bytes and no others. -/
theorem zero_loop_apply (m : Mem) (bits n x : Nat) :
    (List.range n).foldl (fun m i => store64 m (bits + 8 * i) 0) m x =
      if bits ≤ x ∧ x < bits + 8 * n then 0 else m x := by
  induction n with
  | zero => rw [if_neg (by omega)]; rfl
  | succ n ih =>
    rw [List.range_succ, List.foldl_append, List.foldl_cons, List.foldl_nil, store64, storeLE, ih]
    have hzero : (0 : BitVec 64).toNat = 0 := rfl
    by_cases hword : bits + 8 * n ≤ x ∧ x < bits + 8 * n + 8
    · rw [if_pos hword, if_pos (by omega), hzero, Nat.zero_div]
      rfl
    · have hiff : (bits ≤ x ∧ x < bits + 8 * n) ↔ (bits ≤ x ∧ x < bits + 8 * (n + 1)) := by omega
      rw [if_neg hword]
      simp only [hiff]

theorem words_zero (bf : BloomFilter) (m : Mem) (n j : Nat) :
    bf.words ((List.range n).foldl (fun m i => store64 m (bf.bits + 8 * i) 0) m) j =
      if j < n then 0 else bf.words m j := by
  unfold BloomFilter.words
  split
  · next hj =>
    have hbytes : load64 ((List.range n).foldl (fun m i => store64 m (bf.bits + 8 * i) 0) m)
        (bf.bits + 8 * j) = load64 (fun _ => 0) 0 := by
      apply load64_congr
      intro i hi
      rw [zero_loop_apply, if_pos (by omega)]
    exact hbytes.trans rfl
  · next hj =>
    apply load64_congr
    intro i hi
    rw [zero_loop_apply, if_neg (by omega)]

/-- The zeroing loop clears every bit of the array. -/
theorem bit_zeroed {bf : BloomFilter} (h : bf.Sound) (m : Mem) {n : Nat}
    (hn : n < 512 * bf.blockCount) :
    bit (bf.words (rgmBloomZero m bf.bits bf.blockCount)) n = false := by
  have hle := h.count_le
  unfold rgmBloomMaxBlocks at hle
  have hcount : bf.blockCount * rgmBloomBlockWords % 2 ^ 32 = bf.blockCount * 8 :=
    Nat.mod_eq_of_lt (by unfold rgmBloomBlockWords; omega)
  rw [bit, rgmBloomZero, hcount, words_zero, if_pos (by omega)]
  exact BitVec.getLsbD_zero

/-! ## Keys and events -/

/-- The key of a call, by entry point. -/
inductive BloomKey
  | bytes (key : KeyArg)
  | u64 (key : BitVec 64)
  | digests (h1 h2 : BitVec 64)

/-- The digest pair that the entry point computes; none when it refuses the key. -/
def BloomKey.pair : BloomKey → Option Digests
  | .bytes key =>
    if key.null && key.bytes.length ≠ 0 then none
    else some (rgmHashWyhash128 (ptr key.bytes) key.bytes.length)
  | .u64 key => some (rgmHashU64_128 key)
  | .digests h1 h2 => some (h1, h2)

/-- A call on a filter; `unsync` selects the variant without atomics. -/
inductive BloomEvent
  | add (key : BloomKey) (unsync : Bool)
  | clear
  | test (key : BloomKey)

namespace BloomFilter

/-- The six entry points of Add. -/
def add (bf : BloomFilter) (m : Mem) : BloomKey → Bool → Mem
  | .bytes key, false => rgBloomFilterAdd bf m key
  | .bytes key, true => rgBloomFilterAddUnsync bf m key
  | .u64 key, false => rgBloomFilterAddU64 bf m key
  | .u64 key, true => rgBloomFilterAddU64Unsync bf m key
  | .digests h1 h2, false => rgBloomFilterAddH bf m h1 h2
  | .digests h1 h2, true => rgBloomFilterAddHUnsync bf m h1 h2

/-- The three entry points of Test. -/
def test (bf : BloomFilter) (m : Mem) : BloomKey → Nat
  | .bytes key => rgBloomFilterTest bf m key
  | .u64 key => rgBloomFilterTestU64 bf m key
  | .digests h1 h2 => rgBloomFilterTestH bf m h1 h2

def step (bf : BloomFilter) (m : Mem) : BloomEvent → Mem
  | .add key unsync => bf.add m key unsync
  | .clear => rgBloomFilterClear m bf
  | .test _ => m

def run (bf : BloomFilter) (m : Mem) (events : List BloomEvent) : Mem := events.foldl bf.step m

/-- The start of a run: a filter and the memory that one of the creators has just made. -/
inductive Fresh (page : Nat) : BloomFilter → Mem → Prop
  | create {os : OsReply} {a a' : ArenaState} {bf0 bf : BloomFilter} {bits : BitVec 64}
      {hashCount : BitVec 32} (arena : a.Ok page)
      (made : rgBloomFilterCreate page os a bf0 bits.toNat hashCount.toNat = (.ok, a', bf)) :
      Fresh page bf a'.mem
  | createFromMemory {m m' : Mem} {buffer bufferSize : Nat} {bf0 bf : BloomFilter}
      {bits : BitVec 64} {hashCount : BitVec 32} (memory : buffer + bufferSize ≤ 2 ^ 64)
      (made : rgBloomFilterCreateFromMemory m buffer bufferSize bf0 bits.toNat hashCount.toNat =
        (.ok, m', bf)) :
      Fresh page bf m'

end BloomFilter

/-- The digest pairs added since the last clear, given those before. -/
def BloomEvent.added (s : List Digests) : BloomEvent → List Digests
  | .add key _ => key.pair.toList ++ s
  | .clear => []
  | .test _ => s

/-- The digest pairs that a run has added since its last clear. -/
def addedPairs (events : List BloomEvent) : List Digests := events.foldl BloomEvent.added []

namespace BloomFilter

variable {bf : BloomFilter}

/-- Every entry point adds its digest pair. -/
theorem Sound.add_eq (h : bf.Sound) (m : Mem) (key : BloomKey) (unsync : Bool) :
    bf.add m key unsync =
      match key.pair with
      | none => m
      | some d => rgmBloomAddH bf m d.1 d.2 (!unsync) := by
  have hlive : rgmBloomIsLive bf = true := decide_eq_true h.live
  cases key with
  | bytes key =>
    by_cases href : key.null = true ∧ ¬ key.bytes = []
    · cases unsync <;> simp [add, rgBloomFilterAdd, rgBloomFilterAddUnsync, BloomKey.pair, href]
    · cases unsync <;>
        simp [add, rgBloomFilterAdd, rgBloomFilterAddUnsync, BloomKey.pair, href, hlive]
  | u64 key =>
    cases unsync <;>
      simp [add, rgBloomFilterAddU64, rgBloomFilterAddU64Unsync, BloomKey.pair, hlive]
  | digests h1 h2 =>
    cases unsync <;> simp [add, rgBloomFilterAddH, rgBloomFilterAddHUnsync, BloomKey.pair, hlive]

/-- Every entry point tests its digest pair. -/
theorem Sound.test_eq (h : bf.Sound) (m : Mem) (key : BloomKey) :
    bf.test m key =
      match key.pair with
      | none => 0
      | some d => rgmBloomTestH bf m d.1 d.2 := by
  have hlive : rgmBloomIsLive bf = true := decide_eq_true h.live
  cases key with
  | bytes key =>
    by_cases href : key.null = true ∧ ¬ key.bytes = []
    · simp [test, rgBloomFilterTest, BloomKey.pair, href]
    · simp [test, rgBloomFilterTest, BloomKey.pair, href, hlive]
  | u64 key => simp [test, rgBloomFilterTestU64, BloomKey.pair, hlive]
  | digests h1 h2 => simp [test, rgBloomFilterTestH, BloomKey.pair, hlive]

/-! ## The image of a set -/

/-- The array holds exactly the positions of the pairs of `s`. -/
def Image (bf : BloomFilter) (m : Mem) (s : List Digests) : Prop :=
  ∀ n, n < 512 * bf.blockCount → (bit (bf.words m) n = true ↔ ∃ d ∈ s, n ∈ bf.positions d)

/-- A step does to the set what it does to the array. -/
theorem Sound.image_step (h : bf.Sound) {m : Mem} {s : List Digests} (hm : bf.Image m s)
    (e : BloomEvent) : bf.Image (bf.step m e) (e.added s) := by
  cases e with
  | add key unsync =>
    show bf.Image (bf.add m key unsync) (key.pair.toList ++ s)
    rw [h.add_eq]
    cases key.pair with
    | none => exact hm
    | some d =>
      intro n hn
      simp only [bit_addH, Bool.or_eq_true, decide_eq_true_eq, hm n hn, Option.toList_some,
        List.cons_append, List.nil_append, List.exists_mem_cons_iff]
      exact or_comm
  | clear =>
    have hlive : rgmBloomIsLive bf = true := decide_eq_true h.live
    intro n hn
    simp [step, rgBloomFilterClear, hlive, bit_zeroed h m hn, BloomEvent.added]
  | test key => exact hm

theorem Sound.image_run (h : bf.Sound) {m : Mem} {s : List Digests} (hm : bf.Image m s)
    (events : List BloomEvent) :
    bf.Image (bf.run m events) (events.foldl BloomEvent.added s) := by
  induction events generalizing m s with
  | nil => exact hm
  | cons e events ih => exact ih (h.image_step hm e)

/-- Test on an image looks the positions up in the set. -/
theorem Sound.test_iff (h : bf.Sound) {m : Mem} {s : List Digests} (hm : bf.Image m s)
    {key : BloomKey} {d : Digests} (hkey : key.pair = some d) :
    bf.test m key = 1 ↔ ∀ n ∈ bf.positions d, ∃ d' ∈ s, n ∈ bf.positions d' := by
  rw [h.test_eq, hkey]
  dsimp only
  rw [rgmBloomTestH_eq_one_iff]
  exact forall₂_congr fun n hn => hm n (h.position_lt hn)

/-! ## The creators -/

/-- A new filter is sound and its array is clear. -/
theorem install_sound (m : Mem) {buf blocks hashCount : Nat} (hbuf : buf ≠ 0) (hpos : 0 < blocks)
    (hle : blocks ≤ rgmBloomMaxBlocks) (hhash : 0 < hashCount) (hhash' : hashCount ≤ 512)
    (hfits : buf + 64 * blocks ≤ 2 ^ 64) :
    (rgmBloomInstall m buf blocks hashCount).2.Sound ∧
      (rgmBloomInstall m buf blocks hashCount).2.Image
        (rgmBloomInstall m buf blocks hashCount).1 [] := by
  have hsound : (rgmBloomInstall m buf blocks hashCount).2.Sound :=
    ⟨hbuf, hpos, hle, rfl, hhash, hhash', hfits⟩
  refine ⟨hsound, fun n hn => ?_⟩
  have hzero : bit ((rgmBloomInstall m buf blocks hashCount).2.words
      (rgmBloomInstall m buf blocks hashCount).1) n = false := bit_zeroed hsound m hn
  simp [hzero]

theorem fresh_sound {page : Nat} (hpage : IsPageSize page) {m : Mem} (h : Fresh page bf m) :
    bf.Sound ∧ bf.Image m [] := by
  cases h with
  | @create os a a' bf0 bf bits hashCount ha made =>
    unfold rgBloomFilterCreate at made
    split at made
    · next hcheck =>
      cases made
      exact absurd rfl (rgmBloomCheck_error hcheck)
    next blocks hcheck =>
    obtain ⟨hpos, hle, hhash, hhash'⟩ := rgmBloomCheck_spec hcheck
    have hmax : rgmBloomMaxBlocks = 2 ^ 28 := rfl
    have hbytes : blocks * rgmBloomBlockBytes = blocks * 64 := rfl
    split at made
    next buf a1 halloc =>
    split at made
    · exact absurd (congrArg Prod.fst made) (refusal_ne_ok _)
    next hbuf =>
    have hend := rgArenaAllocAligned_end_le hpage ha (by omega) (by decide) halloc hbuf
    cases made
    exact install_sound a1.mem hbuf hpos hle hhash hhash' (by omega)
  | @createFromMemory m m' buffer bufferSize bf0 bf bits hashCount hmem made =>
    unfold rgBloomFilterCreateFromMemory at made
    split at made
    · cases made
    next hbuf =>
    split at made
    · next hcheck =>
      cases made
      exact absurd rfl (rgmBloomCheck_error hcheck)
    next blocks hcheck =>
    obtain ⟨hpos, hle, hhash, hhash'⟩ := rgmBloomCheck_spec hcheck
    have hbytes : blocks * rgmBloomBlockBytes = blocks * 64 := rfl
    split at made
    · cases made
    next hroom =>
    cases made
    exact install_sound m hbuf hpos hle hhash hhash' (by omega)

end BloomFilter

/-- **The filter is the image of the set of added keys.** After every run of a fresh filter a bit is
set exactly when it is a position of a digest pair added since the last clear; two runs that added
the same pairs, in whatever order, number and variant, leave the same words. A test answers 1 exactly
when every position of its key belongs to the union, so an added key is found, through any entry
point that computes its pair. Add and Test touch one block, the one that `h1` selects. -/
theorem bloom_image_of_set {page : Nat} (hpage : IsPageSize page) {bf : BloomFilter} {m0 : Mem}
    (hfresh : BloomFilter.Fresh page bf m0) (events : List BloomEvent) :
    let m := bf.run m0 events
    let s := addedPairs events
    (∀ n, n < 512 * bf.blockCount →
      (bit (bf.words m) n = true ↔ ∃ d ∈ s, n ∈ bf.positions d)) ∧
    (∀ m0' events', BloomFilter.Fresh page bf m0' →
      (∀ d, d ∈ addedPairs events' ↔ d ∈ s) →
      ∀ j, j < 8 * bf.blockCount → bf.words (bf.run m0' events') j = bf.words m j) ∧
    (∀ key (d : Digests), key.pair = some d →
      (bf.test m key = 1 ↔ ∀ n ∈ bf.positions d, ∃ d' ∈ s, n ∈ bf.positions d')) ∧
    (∀ key (d : Digests), key.pair = some d → d ∈ s → bf.test m key = 1) ∧
    (∀ key, bf.test m key ≤ 1) ∧
    (∀ k, (BloomKey.bytes ⟨false, leBytes k⟩).pair = (BloomKey.u64 k).pair) ∧
    (∀ key (d : Digests), key.pair = some d →
      (bf.blockOf d < bf.blockCount ∧
        rgmBloomBlock bf d.1 = bf.bits + 64 * (d.1 &&& bf.blockMask).toNat) ∧
      (∀ unsync x, Out (rgmBloomBlock bf d.1) 64 x → bf.add m key unsync x = m x) ∧
      ∀ m', Agree m m' (rgmBloomBlock bf d.1) (rgmBloomBlock bf d.1 + 64) →
        bf.test m' key = bf.test m key ∧
        ∀ unsync, Agree (bf.add m key unsync) (bf.add m' key unsync) (rgmBloomBlock bf d.1)
          (rgmBloomBlock bf d.1 + 64)) := by
  intro m s
  obtain ⟨hsound, hempty⟩ := BloomFilter.fresh_sound hpage hfresh
  have himage : bf.Image m s := hsound.image_run hempty events
  refine ⟨himage, fun m0' events' hfresh' hsame j hj => ?_,
    fun key d hkey => hsound.test_iff himage hkey,
    fun key d hkey hd => (hsound.test_iff himage hkey).mpr fun n hn => ⟨d, hd, hn⟩,
    fun key => ?_, fun k => ?_, fun key d hkey => ⟨⟨hsound.blockOf_lt d, ?_⟩, ?_, ?_⟩⟩
  · have himage' := hsound.image_run (BloomFilter.fresh_sound hpage hfresh').2 events'
    refine word_eq_of_bit fun n hn => ?_
    have hlt : n < 512 * bf.blockCount := by omega
    rw [Bool.eq_iff_iff, himage' n hlt, himage n hlt]
    exact exists_congr fun d => and_congr_left' (hsame d)
  · rw [hsound.test_eq]
    split
    · exact Nat.zero_le 1
    · exact rgmBloomTestLoop_le _ _ _ _ _
  · simp [BloomKey.pair, rgmHashU64_128_eq]
  · unfold rgmBloomBlock rgmBloomBlockWords
    omega
  · intro unsync x hx
    rw [hsound.add_eq, hkey]
    exact addH_out bf m d _ hx
  · intro m' hagree
    rw [hsound.test_eq, hsound.test_eq, hkey]
    refine ⟨rgmBloomTestLoop_congr hagree _ _ (rgmBloomStart_lt d.2), fun unsync => ?_⟩
    rw [hsound.add_eq, hsound.add_eq, hkey]
    exact addH_congr bf d hagree _

/-- One block at address 4096, two bits for each key. -/
def sampleBloom : Mem × BloomFilter :=
  let made := rgBloomFilterCreateFromMemory (fun _ => 7) 4096 64 ⟨0, 0, 0, 0⟩ 100 2
  (made.2.1, made.2.2)

theorem sampleBloom_fresh : sampleBloom.2.Fresh 4096 sampleBloom.1 :=
  @BloomFilter.Fresh.createFromMemory 4096 (fun _ => 7) _ 4096 64 ⟨0, 0, 0, 0⟩ _ 100 2
    (by decide) rfl

/-- A key added through the register entry point is found through the byte one. -/
theorem sampleBloom_found :
    sampleBloom.2.test (sampleBloom.2.run sampleBloom.1 [.clear, .add (.u64 41) true])
      (.bytes ⟨false, leBytes 41⟩) = 1 := by
  obtain ⟨-, -, -, hfound, -, hsame, -⟩ := bloom_image_of_set ⟨12, by decide, rfl⟩
    sampleBloom_fresh [.clear, .add (.u64 41) true]
  exact hfound _ (rgmHashU64_128 41) (hsame 41) (List.mem_append_left _ List.mem_cons_self)

end RgMemory
