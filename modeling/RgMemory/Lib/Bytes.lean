import Mathlib.Data.List.Nodup
import Mathlib.Tactic.Ring

/-!
# Byte memory

A memory is a function from addresses to bytes. A pointer into it is the same thing seen from an
offset, so one type serves both. Words are little-endian: `leNat m a n` is the number the `n` bytes
at `a` spell, `storeLE n m a v` spells `v` into them.

The laws are the ones every client uses: a load sees the store at its own address
(`leNat_storeLE_self`), misses a store elsewhere (`leNat_storeLE_disjoint`), and depends on the
bytes it covers and no others (`leNat_congr`). The width of a word is a parameter; the loads of
four and eight bytes are instances.
-/

namespace RgMemory.Bytes

abbrev Byte := BitVec 8

/-- A memory, or a pointer into one: the byte at each address. -/
abbrev Mem := Nat → Byte

/-! ## Reading -/

/-- The number that the `n` bytes at `a` spell, least significant first. -/
def leNat (m : Mem) (a : Nat) : Nat → Nat
  | 0 => 0
  | n + 1 => (m a).toNat + 256 * leNat m (a + 1) n

def load32 (m : Mem) (a : Nat) : BitVec 32 := BitVec.ofNat 32 (leNat m a 4)

def load64 (m : Mem) (a : Nat) : BitVec 64 := BitVec.ofNat 64 (leNat m a 8)

/-- The `n` bytes at `a`, as a list. -/
def slice (m : Mem) (a n : Nat) : List Byte := (List.range n).map fun i => m (a + i)

theorem leNat_lt (m : Mem) (a n : Nat) : leNat m a n < 256 ^ n := by
  induction n generalizing a with
  | zero => simp [leNat]
  | succ n ih =>
    have hb := (m a).isLt
    have hrest := ih (a + 1)
    rw [leNat, Nat.pow_succ]
    omega

/-- A load depends on the bytes it covers and no others. -/
theorem leNat_congr {m m' : Mem} {a a' n : Nat} (h : ∀ i, i < n → m (a + i) = m' (a' + i)) :
    leNat m a n = leNat m' a' n := by
  induction n generalizing a a' with
  | zero => rfl
  | succ n ih =>
    have h0 : m a = m' a' := h 0 (Nat.succ_pos n)
    have hrest : leNat m (a + 1) n = leNat m' (a' + 1) n :=
      ih fun i hi => by
        have := h (i + 1) (Nat.succ_lt_succ hi)
        rwa [Nat.add_right_comm a, Nat.add_right_comm a', Nat.add_assoc a, Nat.add_assoc a']
    rw [leNat, leNat, h0, hrest]

/-- And it determines them: equal words have equal bytes. -/
theorem bytes_eq_of_leNat_eq {m m' : Mem} {a a' n : Nat} (h : leNat m a n = leNat m' a' n) :
    ∀ i, i < n → m (a + i) = m' (a' + i) := by
  induction n generalizing a a' with
  | zero => intro i hi; exact absurd hi (Nat.not_lt_zero i)
  | succ n ih =>
    have hb := (m a).isLt
    have hb' := (m' a').isLt
    rw [leNat, leNat] at h
    have hhead : m a = m' a' := BitVec.eq_of_toNat_eq (by omega)
    have htail : leNat m (a + 1) n = leNat m' (a' + 1) n := by omega
    intro i hi
    cases i with
    | zero => exact hhead
    | succ i =>
      have := ih htail i (Nat.lt_of_succ_lt_succ hi)
      rwa [Nat.add_assoc, Nat.add_assoc, Nat.add_comm 1 i] at this

theorem load32_congr {m m' : Mem} {a a' : Nat} (h : ∀ i, i < 4 → m (a + i) = m' (a' + i)) :
    load32 m a = load32 m' a' := by
  rw [load32, load32, leNat_congr h]

theorem load64_congr {m m' : Mem} {a a' : Nat} (h : ∀ i, i < 8 → m (a + i) = m' (a' + i)) :
    load64 m a = load64 m' a' := by
  rw [load64, load64, leNat_congr h]

@[simp] theorem load32_toNat (m : Mem) (a : Nat) : (load32 m a).toNat = leNat m a 4 := by
  have := leNat_lt m a 4
  rw [load32, BitVec.toNat_ofNat]
  omega

@[simp] theorem load64_toNat (m : Mem) (a : Nat) : (load64 m a).toNat = leNat m a 8 := by
  have := leNat_lt m a 8
  rw [load64, BitVec.toNat_ofNat]
  omega

theorem load64_eq_iff {m m' : Mem} {a a' : Nat} :
    load64 m a = load64 m' a' ↔ ∀ i, i < 8 → m (a + i) = m' (a' + i) := by
  refine ⟨fun h => bytes_eq_of_leNat_eq ?_, load64_congr⟩
  simpa only [load64_toNat] using congrArg BitVec.toNat h

theorem load32_eq_iff {m m' : Mem} {a a' : Nat} :
    load32 m a = load32 m' a' ↔ ∀ i, i < 4 → m (a + i) = m' (a' + i) := by
  refine ⟨fun h => bytes_eq_of_leNat_eq ?_, load32_congr⟩
  simpa only [load32_toNat] using congrArg BitVec.toNat h

@[simp] theorem slice_length (m : Mem) (a n : Nat) : (slice m a n).length = n := by
  simp [slice]

theorem slice_congr {m m' : Mem} {a a' n : Nat} (h : ∀ i, i < n → m (a + i) = m' (a' + i)) :
    slice m a n = slice m' a' n := by
  apply List.map_congr_left
  intro i hi
  exact h i (List.mem_range.mp hi)

theorem slice_eq_iff {m m' : Mem} {a a' n : Nat} :
    slice m a n = slice m' a' n ↔ ∀ i, i < n → m (a + i) = m' (a' + i) := by
  refine ⟨fun h i hi => ?_, slice_congr⟩
  have hget := congrArg (fun l => l[i]?) h
  simpa [slice, List.getElem?_range, hi] using hget

/-! ## Writing -/

/-- Spell `v` into the `n` bytes at `a`. -/
def storeLE (n : Nat) (m : Mem) (a v : Nat) : Mem := fun x =>
  if a ≤ x ∧ x < a + n then BitVec.ofNat 8 (v / 256 ^ (x - a)) else m x

def store32 (m : Mem) (a : Nat) (v : BitVec 32) : Mem := storeLE 4 m a v.toNat

def store64 (m : Mem) (a : Nat) (v : BitVec 64) : Mem := storeLE 8 m a v.toNat

/-- Copy `n` bytes from the pointer `src` to `dst`. -/
def copy (m : Mem) (dst : Nat) (src : Mem) (n : Nat) : Mem := fun x =>
  if dst ≤ x ∧ x < dst + n then src (x - dst) else m x

/-- The address `x` lies outside the `n` bytes at `a`. -/
def Out (a n x : Nat) : Prop := x < a ∨ a + n ≤ x

/-- The `n` bytes at `a` and the `k` bytes at `b` share no address. -/
def Apart (a n b k : Nat) : Prop := a + n ≤ b ∨ b + k ≤ a

theorem Apart.symm {a n b k : Nat} (h : Apart a n b k) : Apart b k a n := Or.symm h

theorem Apart.mono {a n b k a' n' b' k' : Nat} (h : Apart a n b k)
    (ha : a ≤ a') (ha' : a' + n' ≤ a + n) (hb : b ≤ b') (hb' : b' + k' ≤ b + k) :
    Apart a' n' b' k' := by
  unfold Apart at *
  omega

/-- As many disjoint extents of at least `w` bytes fit below `hi` as their quotient. -/
theorem length_le_of_apart {l : List Nat} {w hi : Nat} (hw : 0 < w)
    (hl : l.Pairwise fun a b => Apart a w b w) (hin : ∀ a ∈ l, a + w ≤ hi) :
    l.length ≤ hi / w := by
  have hnodup : (l.map (· / w)).Nodup := by
    rw [List.Nodup, List.pairwise_map]
    refine hl.imp fun {a b} hab heq => ?_
    have ha := Nat.div_add_mod a w
    have hb := Nat.div_add_mod b w
    have hma := Nat.mod_lt a hw
    have hmb := Nat.mod_lt b hw
    rw [heq] at ha
    unfold Apart at hab
    omega
  have hsub : l.map (· / w) ⊆ List.range (hi / w) := by
    intro q hq
    obtain ⟨a, ha, rfl⟩ := List.mem_map.mp hq
    have := Nat.div_le_div_right (c := w) (hin a ha)
    rw [Nat.add_div_right a hw] at this
    exact List.mem_range.mpr this
  have hlen := hnodup.length_le_of_subset hsub
  rwa [List.length_map, List.length_range] at hlen

theorem storeLE_out {n a v x : Nat} (m : Mem) (h : Out a n x) : storeLE n m a v x = m x := by
  unfold Out at h
  rw [storeLE, if_neg (by omega)]

/-- Where one memory keeps its byte under a store, so does a memory with the same byte. -/
theorem storeLE_same {n a v x : Nat} {m m' : Mem} (h : m' x = m x)
    (hsame : storeLE n m a v x = m x) : storeLE n m' a v x = m' x := by
  unfold storeLE at *
  split at hsame
  · next hin => rw [if_pos hin, hsame, h]
  · next hout => rw [if_neg hout]

theorem copy_out {dst n x : Nat} (m src : Mem) (h : Out dst n x) : copy m dst src n x = m x := by
  unfold Out at h
  rw [copy, if_neg (by omega)]

theorem copy_in {dst n i : Nat} (m src : Mem) (h : i < n) : copy m dst src n (dst + i) = src i := by
  rw [copy, if_pos (by omega), Nat.add_sub_cancel_left]

theorem leNat_storeLE_self (m : Mem) (n a v : Nat) : leNat (storeLE n m a v) a n = v % 256 ^ n := by
  -- the bytes are peeled from the front, so the induction reads a suffix of one store
  suffices key : ∀ k j, j + k = n →
      leNat (storeLE n m a v) (a + j) k = v / 256 ^ j % 256 ^ k by
    simpa using key n 0 (Nat.zero_add n)
  intro k
  induction k with
  | zero => intro j _; simp [leNat, Nat.mod_one]
  | succ k ih =>
    intro j hj
    have hbyte : storeLE n m a v (a + j) = BitVec.ofNat 8 (v / 256 ^ j) := by
      rw [storeLE, if_pos (by omega), Nat.add_sub_cancel_left]
    have hrest : leNat (storeLE n m a v) (a + j + 1) k = v / 256 ^ (j + 1) % 256 ^ k := by
      rw [Nat.add_assoc]; exact ih (j + 1) (by omega)
    rw [leNat, hbyte, hrest, BitVec.toNat_ofNat, Nat.pow_succ 256 j, ← Nat.div_div_eq_div_mul,
      Nat.pow_succ 256 k, Nat.mul_comm (256 ^ k), Nat.mod_mul]

theorem leNat_storeLE_disjoint {n k a b v : Nat} (m : Mem) (h : Apart a n b k) :
    leNat (storeLE n m a v) b k = leNat m b k := by
  unfold Apart at h
  exact leNat_congr fun i hi => storeLE_out m (by unfold Out; omega)

@[simp] theorem load32_store32_self (m : Mem) (a : Nat) (v : BitVec 32) :
    load32 (store32 m a v) a = v := by
  apply BitVec.eq_of_toNat_eq
  have := v.isLt
  rw [load32_toNat, store32, leNat_storeLE_self]
  omega

@[simp] theorem load64_store64_self (m : Mem) (a : Nat) (v : BitVec 64) :
    load64 (store64 m a v) a = v := by
  apply BitVec.eq_of_toNat_eq
  have := v.isLt
  rw [load64_toNat, store64, leNat_storeLE_self]
  omega

theorem load32_storeLE_apart {n a b v : Nat} (m : Mem) (h : Apart a n b 4) :
    load32 (storeLE n m a v) b = load32 m b := by
  rw [load32, load32, leNat_storeLE_disjoint m h]

theorem load64_storeLE_apart {n a b v : Nat} (m : Mem) (h : Apart a n b 8) :
    load64 (storeLE n m a v) b = load64 m b := by
  rw [load64, load64, leNat_storeLE_disjoint m h]

theorem load32_store32_apart {a b : Nat} {v : BitVec 32} (m : Mem) (h : Apart a 4 b 4) :
    load32 (store32 m a v) b = load32 m b := load32_storeLE_apart m h

theorem load32_store64_apart {a b : Nat} {v : BitVec 64} (m : Mem) (h : Apart a 8 b 4) :
    load32 (store64 m a v) b = load32 m b := load32_storeLE_apart m h

theorem load64_store32_apart {a b : Nat} {v : BitVec 32} (m : Mem) (h : Apart a 4 b 8) :
    load64 (store32 m a v) b = load64 m b := load64_storeLE_apart m h

theorem load64_store64_apart {a b : Nat} {v : BitVec 64} (m : Mem) (h : Apart a 8 b 8) :
    load64 (store64 m a v) b = load64 m b := load64_storeLE_apart m h

theorem load32_copy_apart {a b n : Nat} {src : Mem} (m : Mem) (h : Apart a n b 4) :
    load32 (copy m a src n) b = load32 m b := by
  unfold Apart at h
  exact load32_congr fun i hi => copy_out m src (by unfold Out; omega)

theorem load64_copy_apart {a b n : Nat} {src : Mem} (m : Mem) (h : Apart a n b 8) :
    load64 (copy m a src n) b = load64 m b := by
  unfold Apart at h
  exact load64_congr fun i hi => copy_out m src (by unfold Out; omega)

/-- Storing a word that was loaded copies its bytes. -/
theorem store64_load64 (m m' : Mem) (a b : Nat) :
    store64 m a (load64 m' b) = copy m a (fun i => m' (b + i)) 8 := by
  funext x
  by_cases hx : a ≤ x ∧ x < a + 8
  · obtain ⟨i, rfl⟩ := Nat.exists_eq_add_of_le hx.1
    rw [copy_in _ _ (by omega)]
    exact load64_eq_iff.mp (load64_store64_self m a (load64 m' b)) i (by omega)
  · rw [store64, storeLE_out m (by unfold Out; omega), copy_out m _ (by unfold Out; omega)]

/-- Two copies one after the other are one copy. -/
theorem copy_append (m : Mem) (a : Nat) (src : Mem) (n k : Nat) :
    copy (copy m a src n) (a + n) (fun i => src (n + i)) k = copy m a src (n + k) := by
  funext x
  by_cases hlow : a ≤ x ∧ x < a + n
  · obtain ⟨i, rfl⟩ := Nat.exists_eq_add_of_le hlow.1
    rw [copy_out _ _ (.inl hlow.2), copy_in _ _ (by omega), copy_in _ _ (by omega)]
  · by_cases hhigh : a + n ≤ x ∧ x < a + n + k
    · obtain ⟨i, rfl⟩ := Nat.exists_eq_add_of_le hhigh.1
      rw [copy_in _ _ (by omega), Nat.add_assoc, copy_in _ _ (by omega)]
    · rw [copy_out _ _ (by unfold Out; omega), copy_out _ _ (by unfold Out; omega),
        copy_out _ _ (by unfold Out; omega)]

/-- Copying bytes onto themselves does nothing. -/
theorem copy_self (m : Mem) (a n : Nat) : copy m a (fun i => m (a + i)) n = m := by
  funext x
  by_cases hx : a ≤ x ∧ x < a + n
  · obtain ⟨i, rfl⟩ := Nat.exists_eq_add_of_le hx.1
    rw [copy_in _ _ (by omega)]
  · rw [copy_out _ _ (by unfold Out; omega)]

/-- A copy reads the bytes that it copies and no others. -/
theorem copy_congr {src src' : Mem} {n : Nat} (m : Mem) (a : Nat)
    (h : ∀ i, i < n → src i = src' i) : copy m a src n = copy m a src' n := by
  funext x
  by_cases hx : a ≤ x ∧ x < a + n
  · obtain ⟨i, rfl⟩ := Nat.exists_eq_add_of_le hx.1
    rw [copy_in _ _ (by omega), copy_in _ _ (by omega), h i (by omega)]
  · rw [copy_out _ _ (by unfold Out; omega), copy_out _ _ (by unfold Out; omega)]

theorem slice_copy_apart {a b n k : Nat} {src : Mem} (m : Mem) (h : Apart a n b k) :
    slice (copy m a src n) b k = slice m b k := by
  unfold Apart at h
  exact slice_congr fun i hi => copy_out m src (by unfold Out; omega)

@[simp] theorem copy_zero (m : Mem) (a : Nat) (src : Mem) : copy m a src 0 = m := by
  funext x
  exact copy_out m src (by unfold Out; omega)

theorem slice_storeLE_apart {n a b k v : Nat} (m : Mem) (h : Apart a n b k) :
    slice (storeLE n m a v) b k = slice m b k := by
  unfold Apart at h
  exact slice_congr fun i hi => storeLE_out m (by unfold Out; omega)

/-! ## Memory seen from an offset -/

theorem storeLE_shift (n : Nat) (m : Mem) (b a v : Nat) :
    (fun y => storeLE n m (b + a) v (b + y)) = storeLE n (fun y => m (b + y)) a v := by
  funext y
  have hsub : b + y - (b + a) = y - a := by omega
  unfold storeLE
  by_cases hy : a ≤ y ∧ y < a + n
  · rw [if_pos (by omega), if_pos hy, hsub]
  · rw [if_neg (by omega), if_neg hy]

theorem copy_shift (m : Mem) (b a : Nat) (src : Mem) (n : Nat) :
    (fun y => copy m (b + a) src n (b + y)) = copy (fun y => m (b + y)) a src n := by
  funext y
  have hsub : b + y - (b + a) = y - a := by omega
  unfold copy
  by_cases hy : a ≤ y ∧ y < a + n
  · rw [if_pos (by omega), if_pos hy, hsub]
  · rw [if_neg (by omega), if_neg hy]

/-! ## Lists of bytes -/

/-- The pointer to a buffer that holds the bytes of `l`. -/
def ptr (l : List Byte) : Mem := fun i => l.getD i 0

/-- The eight bytes of a word, least significant first. -/
def leBytes (v : BitVec 64) : List Byte := slice (store64 (fun _ => 0) 0 v) 0 8

@[simp] theorem ptr_slice {m : Mem} {a n i : Nat} (hi : i < n) :
    ptr (slice m a n) i = m (a + i) := by
  simp [ptr, slice, hi]

@[simp] theorem slice_ptr (l : List Byte) : slice (ptr l) 0 l.length = l := by
  apply List.ext_getElem
  · simp
  · intro i hi hi'
    simp [slice, ptr, hi']

/-- A buffer in memory holds `l` when its bytes are those behind the pointer to `l`. -/
theorem slice_eq_list {m : Mem} {a : Nat} {l : List Byte} :
    slice m a l.length = l ↔ ∀ i, i < l.length → m (a + i) = ptr l i := by
  have h := @slice_eq_iff m (ptr l) a 0 l.length
  simpa only [slice_ptr, Nat.zero_add] using h

@[simp] theorem leBytes_length (v : BitVec 64) : (leBytes v).length = 8 := slice_length ..

@[simp] theorem load64_leBytes (v : BitVec 64) : load64 (ptr (leBytes v)) 0 = v := by
  have hptr : load64 (ptr (leBytes v)) 0 = load64 (store64 (fun _ => 0) 0 v) 0 :=
    load64_congr fun i hi => by rw [Nat.zero_add, leBytes, ptr_slice hi, Nat.zero_add]
  rw [hptr, load64_store64_self]

theorem ptr_append_left {l t : List Byte} {i : Nat} (h : i < l.length) : ptr (l ++ t) i = ptr l i := by
  simp [ptr, List.getElem?_append_left h]

theorem ptr_append_right {l t : List Byte} {i : Nat} (h : l.length ≤ i) :
    ptr (l ++ t) i = ptr t (i - l.length) := by
  simp [ptr, List.getElem?_append_right h]

/-- Words laid out one after the other, each least significant byte first. -/
def ofWords (ws : List (BitVec 64)) : List Byte := ws.flatMap leBytes

@[simp] theorem ofWords_length (ws : List (BitVec 64)) : (ofWords ws).length = 8 * ws.length := by
  induction ws with
  | nil => rfl
  | cons w ws ih =>
    rw [ofWords, List.flatMap_cons, List.length_append, leBytes_length, ← ofWords, ih,
      List.length_cons, Nat.mul_add_one, Nat.add_comm]

theorem load64_ofWords {ws : List (BitVec 64)} {t : List Byte} {i : Nat} (h : i < ws.length) :
    load64 (ptr (ofWords ws ++ t)) (8 * i) = ws[i] := by
  induction ws generalizing i with
  | nil => exact absurd h (Nat.not_lt_zero i)
  | cons w ws ih =>
    rw [ofWords, List.flatMap_cons, List.append_assoc, ← ofWords]
    cases i with
    | zero =>
      rw [← load64_leBytes w, List.getElem_cons_zero]
      refine load64_congr fun j hj => ?_
      rw [ptr_append_left (by rw [leBytes_length]; omega), load64_leBytes, Nat.mul_zero]
    | succ i =>
      rw [List.getElem_cons_succ, ← ih (Nat.lt_of_succ_lt_succ h)]
      refine load64_congr fun j _ => ?_
      rw [ptr_append_right (by rw [leBytes_length]; omega), leBytes_length]
      congr 1
      omega

@[simp] theorem slice_copy_self (m : Mem) (a : Nat) (l : List Byte) :
    slice (copy m a (ptr l) l.length) a l.length = l :=
  slice_eq_list.mpr fun _ hi => copy_in m (ptr l) hi

/-! ## Agreement -/

/-- Two memories agree on the addresses of `[lo, hi)`. -/
def Agree (m m' : Mem) (lo hi : Nat) : Prop := ∀ x, lo ≤ x → x < hi → m' x = m x

theorem Agree.refl (m : Mem) (lo hi : Nat) : Agree m m lo hi := fun _ _ _ => rfl

theorem Agree.trans {m m' m'' : Mem} {lo hi : Nat} (h : Agree m m' lo hi)
    (h' : Agree m' m'' lo hi) : Agree m m'' lo hi :=
  fun x hlo hhi => (h' x hlo hhi).trans (h x hlo hhi)

theorem Agree.mono {m m' : Mem} {lo hi lo' hi' : Nat} (h : Agree m m' lo hi) (hlo : lo ≤ lo')
    (hhi : hi' ≤ hi) : Agree m m' lo' hi' :=
  fun x hx hx' => h x (Nat.le_trans hlo hx) (Nat.lt_of_lt_of_le hx' hhi)

theorem Agree.load32 {m m' : Mem} {lo hi a : Nat} (h : Agree m m' lo hi) (hlo : lo ≤ a)
    (hhi : a + 4 ≤ hi) : load32 m' a = load32 m a :=
  load32_congr fun i hi => h (a + i) (by omega) (by omega)

theorem Agree.load64 {m m' : Mem} {lo hi a : Nat} (h : Agree m m' lo hi) (hlo : lo ≤ a)
    (hhi : a + 8 ≤ hi) : load64 m' a = load64 m a :=
  load64_congr fun i hi => h (a + i) (by omega) (by omega)

theorem Agree.slice {m m' : Mem} {lo hi a n : Nat} (h : Agree m m' lo hi) (hlo : lo ≤ a)
    (hhi : a + n ≤ hi) : slice m' a n = slice m a n :=
  slice_congr fun i hi => h (a + i) (by omega) (by omega)

end RgMemory.Bytes
