import RgMemory.FreeList.Run

/-!
# Sizes of a free list

What the creators of a free list accept, and the pool of blocks that they leave behind (`Pooled`). All
three succeed exactly where the size query has a size and the memory is there.
-/

namespace RgMemory

open Bytes

/-! ## The blocks -/

/-- `count` blocks of `e` bytes, one after the other from `buffer` on, at the addresses that `slot`
gives: they lie inside the buffer and share no byte, and they are aligned when it is. -/
structure Pooled (slot : Nat → Nat) (buffer e count : Nat) : Prop where
  start : ∀ i, slot i = buffer + i * e
  inside : ∀ i, i < count → buffer ≤ slot i ∧ slot i + e ≤ buffer + e * count
  apart : ∀ i j, i ≠ j → Apart (slot i) e (slot j) e
  aligned : 16 ∣ buffer → ∀ i, 16 ∣ slot i

theorem Pooled.of_start {slot : Nat → Nat} {buffer e : Nat} (count : Nat) (he : 16 ∣ e)
    (h : ∀ i, slot i = buffer + i * e) : Pooled slot buffer e count := by
  refine ⟨h, fun i hi => ?_, fun i j hij => ?_, fun hbuf i => ?_⟩
  · have hmul := Nat.mul_le_mul_right e hi
    rw [Nat.succ_mul, Nat.mul_comm count] at hmul
    rw [h i]
    omega
  · rw [h i, h j]
    exact stride_apart buffer e hij
  · rw [h i]
    exact Nat.dvd_add hbuf (Nat.dvd_mul_left_of_dvd he i)

theorem FreeList.pooled {fl : FreeList} {buffer e count : Nat} (h : fl.shape = (buffer, e, count))
    (he : 16 ∣ e) : Pooled fl.block buffer e count := by
  cases h
  exact .of_start fl.maxBlocks he fun _ => rfl

/-! ## The free list -/

section

variable {maxBlocks : Nat}

/-- A buffer is reserved exactly when there is a size and the arena can supply it; otherwise the
arena is as it was. -/
theorem rgmFreelistReserve_cases (page : Nat) (os : OsReply) (a : ArenaState) (blockSize : Nat)
    (hmax : maxBlocks < 2 ^ 32) :
    let size := rgFreeListBufferSize blockSize maxBlocks
    let got := rgArenaAlloc page os a size
    let reserved := rgmFreelistReserve page os a blockSize maxBlocks
    ((size ≠ 0 ∧ got.1 ≠ 0) ∧
      reserved = (.ok (got.1, rgmFreelistEffectiveBlockSize blockSize), got.2)) ∨
    (¬ (size ≠ 0 ∧ got.1 ≠ 0) ∧ ∃ e, e ≠ .ok ∧ reserved = (.error e, a)) := by
  have hbs := rgmFreelistEffectiveBlockSize_lt blockSize
  have hcheck : rgmFreelistCheck blockSize maxBlocks =
      poolCheck (rgmFreelistEffectiveBlockSize blockSize) maxBlocks := rfl
  intro size got reserved
  have hreserved : reserved = rgmFreelistReserve page os a blockSize maxBlocks := rfl
  rw [rgmFreelistReserve, hcheck] at hreserved
  rcases poolCheck_arena_cases page os a hbs hmax with
    ⟨hok, hpass, hgot⟩ | ⟨hno, ⟨e, hne, hfail⟩ | ⟨hpass, hnull⟩⟩
  · rw [hpass] at hreserved
    dsimp only at hreserved
    rw [hgot] at hreserved
    exact .inl ⟨hok, hreserved.trans (if_neg hok.2)⟩
  · rw [hfail] at hreserved
    exact .inr ⟨hno, e, hne, hreserved⟩
  · rw [hpass] at hreserved
    dsimp only at hreserved
    rw [hnull] at hreserved
    exact .inr ⟨hno, _, refusal_ne_ok a.toArena, hreserved.trans (if_pos rfl)⟩

/-- The arena creators: what the answer is, and what became of the list and the arena. -/
theorem rgFreeListCreate_spec (page : Nat) (os : OsReply) (a : ArenaState) (list : FreeList)
    (blockSize : Nat) (hmax : maxBlocks < 2 ^ 32) {made : Status × ArenaState × FreeList}
    (hmade : made = rgFreeListCreate page os a list blockSize maxBlocks ∨
      made = rgFreeListCreateLazy page os a list blockSize maxBlocks) :
    let size := rgFreeListBufferSize blockSize maxBlocks
    let got := rgArenaAlloc page os a size
    (made.1 = .ok ↔ size ≠ 0 ∧ got.1 ≠ 0) ∧
    (made.1 = .ok →
      made.2.2.shape = (got.1, rgmFreelistEffectiveBlockSize blockSize, maxBlocks)) ∧
    (made.1 ≠ .ok → made.2.2 = list ∧ made.2.1 = a) := by
  intro size got
  rcases rgmFreelistReserve_cases page os a blockSize hmax with ⟨hok, hmake⟩ | ⟨hno, e, hne, hmake⟩
  · rcases hmade with rfl | rfl
    · rw [rgFreeListCreate, hmake]
      exact ⟨iff_of_true rfl hok, fun _ => rfl, fun h => absurd rfl h⟩
    · rw [rgFreeListCreateLazy, hmake]
      exact ⟨iff_of_true rfl hok, fun _ => rfl, fun h => absurd rfl h⟩
  · have herror : made = (e, a, list) := by
      rcases hmade with rfl | rfl
      · rw [rgFreeListCreate, hmake]
      · rw [rgFreeListCreateLazy, hmake]
    rw [herror]
    exact ⟨iff_of_false hne hno, fun h => absurd h hne, fun _ => ⟨rfl, rfl⟩⟩

/-- The creator over a buffer of the caller's. -/
theorem rgFreeListCreateFromMemory_spec (m : Mem) {buffer : Nat} (bufferSize : Nat)
    (list : FreeList) (blockSize : Nat) (hbuffer : buffer ≠ 0) (hmax : maxBlocks < 2 ^ 32) :
    let size := rgFreeListBufferSize blockSize maxBlocks
    let made := rgFreeListCreateFromMemory m buffer bufferSize list blockSize maxBlocks
    (made.1 = .ok ↔ size ≠ 0 ∧ size ≤ bufferSize) ∧
    (made.1 = .ok →
      made.2.2.shape = (buffer, rgmFreelistEffectiveBlockSize blockSize, maxBlocks)) ∧
    (made.1 ≠ .ok → made.2.2 = list ∧ made.2.1 = m) := by
  have hbs := rgmFreelistEffectiveBlockSize_lt blockSize
  have hcheck : rgmFreelistCheck blockSize maxBlocks =
      poolCheck (rgmFreelistEffectiveBlockSize blockSize) maxBlocks := rfl
  intro size made
  have hmade : made = rgFreeListCreateFromMemory m buffer bufferSize list blockSize maxBlocks := rfl
  rw [rgFreeListCreateFromMemory, if_neg hbuffer, hcheck] at hmade
  rcases poolCheck_buffer_cases bufferSize hbs hmax with
    ⟨hok, hpass, hroom⟩ | ⟨hno, ⟨e, hne, hfail⟩ | ⟨hpass, hroom⟩⟩
  · rw [hpass] at hmade
    dsimp only at hmade
    rw [if_neg hroom] at hmade
    rw [hmade]
    exact ⟨iff_of_true rfl hok, fun _ => rfl, fun h => absurd rfl h⟩
  · rw [hfail] at hmade
    rw [hmade]
    exact ⟨iff_of_false hne hno, fun h => absurd h hne, fun _ => ⟨rfl, rfl⟩⟩
  · rw [hpass] at hmade
    dsimp only at hmade
    rw [if_pos hroom] at hmade
    have hne : Status.errTooSmall ≠ .ok := by decide
    rw [hmade]
    exact ⟨iff_of_false hne hno, fun h => absurd h hne, fun _ => ⟨rfl, rfl⟩⟩

end

end RgMemory
