import Mathlib.Order.Bounds.Basic
import RgMemory.Arena.Alloc
import RgMemory.FreeList.Model

/-!
# The checks of a pool of blocks

The free list and the dense list size their buffers alike: a block size is raised to a minimum,
rounded up to 16 and narrowed to 32 bits, and the creators and the size query repeat the same checks
on it. They are stated here once, over the effective block size (`poolSize`, `poolCheck`).

The rounding wraps for the last block sizes below `2 ^ 64`. It then answers 0, which is the error
value, so nothing is lost (`roundedBlockSize_eq`).
-/

namespace RgMemory

/-! ## The block size -/

/-- The rounding up to 16 that both lists do; 0 when the result does not fit 32 bits. -/
def roundedBlockSize (blockSize : Nat) : Nat :=
  let blockSize := u64 (blockSize + 15) &&& u64Not 15
  if blockSize = 0 ∨ blockSize > 0xFFFFFFFF then 0 else blockSize

theorem exists_isLeast_multiple (n : Nat) : ∃ e, IsLeast {q | 16 ∣ q ∧ n ≤ q} e := by
  refine ⟨16 * ((n + 15) / 16), ⟨Nat.dvd_mul_right _ _, by omega⟩, ?_⟩
  rintro q ⟨hdvd, hle⟩
  omega

/-- The rounding is that of exact integers. -/
theorem roundedBlockSize_eq {n e : Nat} (hn : 0 < n) (hlt : n < 2 ^ 64)
    (he : IsLeast {q | 16 ∣ q ∧ n ≤ q} e) :
    roundedBlockSize n = if e < 2 ^ 32 then e else 0 := by
  obtain ⟨⟨hdvd, hle⟩, hleast⟩ := he
  have hnear : e ≤ 16 * ((n + 15) / 16) := hleast ⟨Nat.dvd_mul_right _ _, by omega⟩
  unfold roundedBlockSize
  rw [Align.land_not_15]
  dsimp only
  by_cases hwrap : n + 15 < 2 ^ 64
  · have hround : u64 (n + 15) - u64 (n + 15) % 16 = e := by
      rw [u64_of_lt hwrap]
      omega
    rw [hround]
    split <;> split <;> omega
  · -- the sum has wrapped to less than 16
    have hsmall : u64 (n + 15) = n + 15 - 2 ^ 64 := by
      unfold u64
      omega
    rw [hsmall, if_pos (by omega), if_neg (by omega)]

theorem roundedBlockSize_lt (n : Nat) : roundedBlockSize n < 2 ^ 32 := by
  unfold roundedBlockSize
  dsimp only
  split <;> omega

theorem roundedBlockSize_dvd (n : Nat) : 16 ∣ roundedBlockSize n := by
  unfold roundedBlockSize
  rw [Align.land_not_15]
  dsimp only
  split
  · exact Nat.dvd_zero 16
  · exact Nat.dvd_sub_mod _

theorem rgmFreelistEffectiveBlockSize_eq (blockSize : Nat) :
    rgmFreelistEffectiveBlockSize blockSize = roundedBlockSize (max blockSize 8) := by
  have hmax : (if blockSize < 8 then 8 else blockSize) = max blockSize 8 := by
    split <;> omega
  rw [rgmFreelistEffectiveBlockSize, hmax]
  rfl

theorem rgmFreelistEffectiveBlockSize_lt (blockSize : Nat) :
    rgmFreelistEffectiveBlockSize blockSize < 2 ^ 32 := by
  rw [rgmFreelistEffectiveBlockSize_eq]
  exact roundedBlockSize_lt _

/-! ## The checks -/

/-- The size query on an effective block size. -/
def poolSize (bs maxBlocks : Nat) : Nat :=
  if maxBlocks = 0 then 0
  else if bs = 0 ∨ bs > (2 ^ 64 - 1) / maxBlocks then 0 else u64 (bs * maxBlocks)

/-- The checks of the creators on it. -/
def poolCheck (bs maxBlocks : Nat) : Except Status Nat :=
  if maxBlocks = 0 then .error .errInvalid
  else if bs = 0 ∨ bs > (2 ^ 64 - 1) / maxBlocks then .error .errOverflow
  else .ok bs

section

variable {bs maxBlocks : Nat}

theorem poolCheck_spec {b : Nat} (h : poolCheck bs maxBlocks = .ok b) :
    b = bs ∧ 0 < maxBlocks ∧ 0 < bs ∧ bs * maxBlocks < 2 ^ 64 := by
  unfold poolCheck at h
  split at h
  · cases h
  next hmax =>
  split at h
  · cases h
  next hbs =>
  cases h
  have hdiv : bs ≤ (2 ^ 64 - 1) / maxBlocks := by omega
  have hle := (Nat.le_div_iff_mul_le (by omega)).mp hdiv
  exact ⟨rfl, by omega, by omega, by omega⟩

theorem poolCheck_error {e : Status} (h : poolCheck bs maxBlocks = .error e) : e ≠ .ok := by
  unfold poolCheck at h
  split at h
  · cases h
    decide
  · split at h
    · cases h
      decide
    · cases h

/-- The product of a block size and a count of 32 bits each passes the guard and does not wrap. -/
theorem poolSize_eq (hbs : bs < 2 ^ 32) (hmax : maxBlocks < 2 ^ 32) :
    poolSize bs maxBlocks = bs * maxBlocks := by
  have hmul : bs * maxBlocks < 2 ^ 64 := by
    have hle := Nat.mul_le_mul (Nat.le_of_lt_succ hbs) (Nat.le_of_lt_succ hmax)
    omega
  unfold poolSize
  split
  · next h0 => rw [h0, Nat.mul_zero]
  next hpos =>
  have hguard : ¬ bs > (2 ^ 64 - 1) / maxBlocks := by
    rw [Nat.not_lt, Nat.le_div_iff_mul_le (by omega)]
    omega
  split
  · next hbad => rw [hbad.resolve_right hguard, Nat.zero_mul]
  · exact u64_of_lt hmul

theorem poolSize_lt (bs maxBlocks : Nat) : poolSize bs maxBlocks < 2 ^ 64 := by
  unfold poolSize
  split
  · decide
  split
  · decide
  · exact u64_lt _

/-- The size in exact integers; where there is one, the block size is the exact one too. -/
theorem poolSize_exact {n : Nat} (hn : 0 < n) (hlt : n < 2 ^ 64) (hmax : maxBlocks < 2 ^ 32) :
    ∃ e, IsLeast {q | 16 ∣ q ∧ n ≤ q} e ∧
      poolSize (roundedBlockSize n) maxBlocks =
        (if 0 < maxBlocks ∧ e < 2 ^ 32 then e * maxBlocks else 0) ∧
      (poolSize (roundedBlockSize n) maxBlocks ≠ 0 → roundedBlockSize n = e) := by
  obtain ⟨e, he⟩ := exists_isLeast_multiple n
  refine ⟨e, he, ?_⟩
  rw [poolSize_eq (roundedBlockSize_lt n) hmax, roundedBlockSize_eq hn hlt he]
  by_cases hfits : e < 2 ^ 32
  · rw [if_pos hfits]
    refine ⟨?_, fun _ => rfl⟩
    by_cases hpos : 0 < maxBlocks
    · rw [if_pos ⟨hpos, hfits⟩]
    · have h0 : maxBlocks = 0 := by omega
      rw [if_neg fun h => hpos h.1, h0, Nat.mul_zero]
  · rw [if_neg hfits, Nat.zero_mul, if_neg fun h => hfits h.2]
    exact ⟨rfl, fun h => absurd rfl h⟩

/-- The checks pass what has a size, and fail the rest. -/
theorem poolCheck_cases (hbs : bs < 2 ^ 32) (hmax : maxBlocks < 2 ^ 32) :
    (poolSize bs maxBlocks ≠ 0 ∧ poolCheck bs maxBlocks = .ok bs) ∨
      (poolSize bs maxBlocks = 0 ∧ ∃ e, e ≠ .ok ∧ poolCheck bs maxBlocks = .error e) := by
  have hsize := poolSize_eq hbs hmax
  unfold poolSize at hsize ⊢
  unfold poolCheck
  split
  · exact .inr ⟨rfl, .errInvalid, by decide, rfl⟩
  next hpos =>
  rw [if_neg hpos] at hsize
  split
  · exact .inr ⟨rfl, .errOverflow, by decide, rfl⟩
  next hok =>
  rw [if_neg hok] at hsize
  refine .inl ⟨?_, rfl⟩
  rw [hsize]
  exact Nat.mul_ne_zero (fun h0 => hok (.inl h0)) hpos

/-! ## The buffer -/

/-- A request passes the checks and the arena supplies it, exactly when there is a size and the arena
has that much; otherwise the arena is as it was. -/
theorem poolCheck_arena_cases (page : Nat) (os : OsReply) (a : ArenaState) (hbs : bs < 2 ^ 32)
    (hmax : maxBlocks < 2 ^ 32) :
    let got := rgArenaAlloc page os a (poolSize bs maxBlocks)
    ((poolSize bs maxBlocks ≠ 0 ∧ got.1 ≠ 0) ∧ poolCheck bs maxBlocks = .ok bs ∧
      rgArenaAlloc page os a (bs * maxBlocks) = (got.1, got.2)) ∨
    (¬ (poolSize bs maxBlocks ≠ 0 ∧ got.1 ≠ 0) ∧
      ((∃ e, e ≠ .ok ∧ poolCheck bs maxBlocks = .error e) ∨
        (poolCheck bs maxBlocks = .ok bs ∧
          rgArenaAlloc page os a (bs * maxBlocks) = (0, a)))) := by
  intro got
  rw [← poolSize_eq hbs hmax]
  rcases poolCheck_cases hbs hmax with ⟨hsize, hcheck⟩ | ⟨hsize, hfail⟩
  · by_cases hnull : got.1 = 0
    · have hgot : rgArenaAlloc page os a (poolSize bs maxBlocks) = (0, got.2) :=
        Prod.ext hnull rfl
      have hsame := rgArenaAlloc_null hgot
      rw [hsame] at hgot
      exact .inr ⟨fun h => h.2 hnull, .inr ⟨hcheck, hgot⟩⟩
    · exact .inl ⟨⟨hsize, hnull⟩, hcheck, rfl⟩
  · exact .inr ⟨fun h => h.1 hsize, .inl hfail⟩

/-- A buffer of the caller's passes the checks and is large enough, exactly when there is a size and
the buffer has it. -/
theorem poolCheck_buffer_cases (bufferSize : Nat) (hbs : bs < 2 ^ 32) (hmax : maxBlocks < 2 ^ 32) :
    ((poolSize bs maxBlocks ≠ 0 ∧ poolSize bs maxBlocks ≤ bufferSize) ∧
      poolCheck bs maxBlocks = .ok bs ∧ ¬ bufferSize < bs * maxBlocks) ∨
    (¬ (poolSize bs maxBlocks ≠ 0 ∧ poolSize bs maxBlocks ≤ bufferSize) ∧
      ((∃ e, e ≠ .ok ∧ poolCheck bs maxBlocks = .error e) ∨
        (poolCheck bs maxBlocks = .ok bs ∧ bufferSize < bs * maxBlocks))) := by
  rw [← poolSize_eq hbs hmax]
  rcases poolCheck_cases hbs hmax with ⟨hsize, hcheck⟩ | ⟨hsize, hfail⟩
  · by_cases hroom : bufferSize < poolSize bs maxBlocks
    · exact .inr ⟨fun h => by omega, .inr ⟨hcheck, hroom⟩⟩
    · exact .inl ⟨⟨hsize, by omega⟩, hcheck, hroom⟩
  · exact .inr ⟨fun h => h.1 hsize, .inl hfail⟩

end

end RgMemory
