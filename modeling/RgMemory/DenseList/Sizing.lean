import RgMemory.DenseList.Run
import RgMemory.FreeList.Sizing

/-!
# Sizes of the lists

The dense list sizes its buffer as the free list does, without room for a link. Its creators are
instances of the same checks, so that what holds of one list holds of the other: nothing overflows,
and every creator accepts what the size query has a size for (`list_sizing`).
-/

namespace RgMemory

open Bytes

section

variable {maxBlocks : Nat}

/-- The arena creator: what the answer is, and what became of the list and the arena. -/
theorem rgDenseListCreate_spec (page : Nat) (os : OsReply) (a : ArenaState) (list : DenseList)
    (blockSize : Nat) (hmax : maxBlocks < 2 ^ 32) :
    let size := rgDenseListBufferSize blockSize maxBlocks
    let got := rgArenaAlloc page os a size
    let made := rgDenseListCreate page os a list blockSize maxBlocks
    (made.1 = .ok ↔ size ≠ 0 ∧ got.1 ≠ 0) ∧
    (made.1 = .ok → made.2.2 =
      rgmDenselistInstall got.1 (rgmDenselistEffectiveBlockSize blockSize) maxBlocks) ∧
    (made.1 ≠ .ok → made.2.2 = list ∧ made.2.1 = a) := by
  have hbs := rgmDenselistEffectiveBlockSize_lt blockSize
  have hcheck : rgmDenselistCheck blockSize maxBlocks =
      poolCheck (rgmDenselistEffectiveBlockSize blockSize) maxBlocks := rfl
  intro size got made
  have hmade : made = rgDenseListCreate page os a list blockSize maxBlocks := rfl
  rw [rgDenseListCreate, hcheck] at hmade
  rcases poolCheck_arena_cases page os a hbs hmax with
    ⟨hok, hpass, hgot⟩ | ⟨hno, ⟨e, hne, hfail⟩ | ⟨hpass, hnull⟩⟩
  · rw [hpass] at hmade
    dsimp only at hmade
    rw [hgot] at hmade
    dsimp only at hmade
    rw [if_neg hok.2] at hmade
    rw [hmade]
    exact ⟨iff_of_true rfl hok, fun _ => rfl, fun h => absurd rfl h⟩
  · rw [hfail] at hmade
    rw [hmade]
    exact ⟨iff_of_false hne hno, fun h => absurd h hne, fun _ => ⟨rfl, rfl⟩⟩
  · rw [hpass] at hmade
    dsimp only at hmade
    rw [hnull] at hmade
    dsimp only at hmade
    rw [if_pos rfl] at hmade
    have hne := refusal_ne_ok a.toArena
    rw [hmade]
    exact ⟨iff_of_false hne hno, fun h => absurd h hne, fun _ => ⟨rfl, rfl⟩⟩

/-- The creator over a buffer of the caller's. -/
theorem rgDenseListCreateFromMemory_spec {buffer : Nat} (bufferSize : Nat) (list : DenseList)
    (blockSize : Nat) (hbuffer : buffer ≠ 0) (hmax : maxBlocks < 2 ^ 32) :
    let size := rgDenseListBufferSize blockSize maxBlocks
    let made := rgDenseListCreateFromMemory buffer bufferSize list blockSize maxBlocks
    (made.1 = .ok ↔ size ≠ 0 ∧ size ≤ bufferSize) ∧
    (made.1 = .ok → made.2 =
      rgmDenselistInstall buffer (rgmDenselistEffectiveBlockSize blockSize) maxBlocks) ∧
    (made.1 ≠ .ok → made.2 = list) := by
  have hbs := rgmDenselistEffectiveBlockSize_lt blockSize
  have hcheck : rgmDenselistCheck blockSize maxBlocks =
      poolCheck (rgmDenselistEffectiveBlockSize blockSize) maxBlocks := rfl
  intro size made
  have hmade : made = rgDenseListCreateFromMemory buffer bufferSize list blockSize maxBlocks := rfl
  rw [rgDenseListCreateFromMemory, if_neg hbuffer, hcheck] at hmade
  rcases poolCheck_buffer_cases bufferSize hbs hmax with
    ⟨hok, hpass, hroom⟩ | ⟨hno, ⟨e, hne, hfail⟩ | ⟨hpass, hroom⟩⟩
  · rw [hpass] at hmade
    dsimp only at hmade
    rw [if_neg hroom] at hmade
    rw [hmade]
    exact ⟨iff_of_true rfl hok, fun _ => rfl, fun h => absurd rfl h⟩
  · rw [hfail] at hmade
    rw [hmade]
    exact ⟨iff_of_false hne hno, fun h => absurd h hne, fun _ => rfl⟩
  · rw [hpass] at hmade
    dsimp only at hmade
    rw [if_pos hroom] at hmade
    have hne : Status.errTooSmall ≠ .ok := by decide
    rw [hmade]
    exact ⟨iff_of_false hne hno, fun h => absurd h hne, fun _ => rfl⟩

end

/-- **List sizing cannot overflow and all creators agree.** With `e` the block size in exact integers,
the size query answers `e` times the count, or 0 when there are no blocks or `e` does not fit 32 bits.
Every creator succeeds exactly when that is not 0 and the memory is there: in the arena, or in the
caller's buffer. The list is then a pool of blocks of `e` bytes that fills this memory; on every error
list, arena and buffer are as they were. -/
theorem list_sizing (blockSize : BitVec 64) (maxBlocks : BitVec 32) :
    (∃ e, IsLeast {q | 16 ∣ q ∧ max blockSize.toNat 8 ≤ q} e ∧
      rgFreeListBufferSize blockSize.toNat maxBlocks.toNat =
        (if 0 < maxBlocks.toNat ∧ e < 2 ^ 32 then e * maxBlocks.toNat else 0) ∧
      let b := blockSize.toNat
      let count := maxBlocks.toNat
      let size := rgFreeListBufferSize b count
      (∀ page os a list made, made = rgFreeListCreate page os a list b count ∨
          made = rgFreeListCreateLazy page os a list b count →
        let got := rgArenaAlloc page os a size
        (made.1 = .ok ↔ size ≠ 0 ∧ got.1 ≠ 0) ∧
        (made.1 = .ok → made.2.2.shape = (got.1, e, count) ∧
          Pooled made.2.2.block got.1 e count ∧ (IsPageSize page → a.Ok page → 16 ∣ got.1)) ∧
        (made.1 ≠ .ok → made.2.2 = list ∧ made.2.1 = a)) ∧
      ∀ m buffer (bufferSize : BitVec 64) list, buffer ≠ 0 →
        let made := rgFreeListCreateFromMemory m buffer bufferSize.toNat list b count
        (made.1 = .ok ↔ size ≠ 0 ∧ size ≤ bufferSize.toNat) ∧
        (made.1 = .ok → made.2.2.shape = (buffer, e, count) ∧
          Pooled made.2.2.block buffer e count) ∧
        (made.1 ≠ .ok → made.2.2 = list ∧ made.2.1 = m)) ∧
    ∃ e, IsLeast {q | 16 ∣ q ∧ max blockSize.toNat 1 ≤ q} e ∧
      rgDenseListBufferSize blockSize.toNat maxBlocks.toNat =
        (if 0 < maxBlocks.toNat ∧ e < 2 ^ 32 then e * maxBlocks.toNat else 0) ∧
      let b := blockSize.toNat
      let count := maxBlocks.toNat
      let size := rgDenseListBufferSize b count
      (∀ page os a list,
        let got := rgArenaAlloc page os a size
        let made := rgDenseListCreate page os a list b count
        (made.1 = .ok ↔ size ≠ 0 ∧ got.1 ≠ 0) ∧
        (made.1 = .ok → made.2.2 = rgmDenselistInstall got.1 e count ∧
          Pooled made.2.2.slot got.1 e count ∧ (IsPageSize page → a.Ok page → 16 ∣ got.1)) ∧
        (made.1 ≠ .ok → made.2.2 = list ∧ made.2.1 = a)) ∧
      ∀ buffer (bufferSize : BitVec 64) list, buffer ≠ 0 →
        let made := rgDenseListCreateFromMemory buffer bufferSize.toNat list b count
        (made.1 = .ok ↔ size ≠ 0 ∧ size ≤ bufferSize.toNat) ∧
        (made.1 = .ok → made.2 = rgmDenselistInstall buffer e count ∧
          Pooled made.2.slot buffer e count) ∧
        (made.1 ≠ .ok → made.2 = list) := by
  have hb := blockSize.isLt
  have hmax := maxBlocks.isLt
  generalize blockSize.toNat = b at hb
  generalize maxBlocks.toNat = count at hmax
  constructor
  · obtain ⟨e, he, hwhole, hbs⟩ :=
      poolSize_exact (by omega : 0 < max b 8) (by omega : max b 8 < 2 ^ 64) hmax
    rw [← rgmFreelistEffectiveBlockSize_eq] at hwhole hbs
    have hdvd : 16 ∣ e := he.1.1
    have hfits : rgFreeListBufferSize b count < 2 ^ 64 := poolSize_lt _ _
    refine ⟨e, he, hwhole, fun page os a list made hmade => ?_,
      fun m buffer bufferSize list hbuffer => ?_⟩
    · obtain ⟨hiff, hok, herror⟩ := rgFreeListCreate_spec page os a list b hmax hmade
      refine ⟨hiff, fun h => ?_, herror⟩
      have hshape := hok h
      rw [hbs (hiff.mp h).1] at hshape
      exact ⟨hshape, FreeList.pooled hshape hdvd, fun hpage ha => rgArenaAlloc_dvd hpage os ha hfits⟩
    · obtain ⟨hiff, hok, herror⟩ :=
        rgFreeListCreateFromMemory_spec m bufferSize.toNat list b hbuffer hmax
      refine ⟨hiff, fun h => ?_, herror⟩
      have hshape := hok h
      rw [hbs (hiff.mp h).1] at hshape
      exact ⟨hshape, FreeList.pooled hshape hdvd⟩
  · obtain ⟨e, he, hwhole, hbs⟩ :=
      poolSize_exact (by omega : 0 < max b 1) (by omega : max b 1 < 2 ^ 64) hmax
    rw [← rgmDenselistEffectiveBlockSize_eq] at hwhole hbs
    have hdvd : 16 ∣ e := he.1.1
    have hfits : rgDenseListBufferSize b count < 2 ^ 64 := poolSize_lt _ _
    refine ⟨e, he, hwhole, fun page os a list => ?_, fun buffer bufferSize list hbuffer => ?_⟩
    · obtain ⟨hiff, hok, herror⟩ := rgDenseListCreate_spec page os a list b hmax
      refine ⟨hiff, fun h => ?_, herror⟩
      have hmade := hok h
      rw [hbs (hiff.mp h).1] at hmade
      refine ⟨hmade, ?_, fun hpage ha => rgArenaAlloc_dvd hpage os ha hfits⟩
      rw [hmade]
      exact .of_start count hdvd fun _ => rfl
    · obtain ⟨hiff, hok, herror⟩ :=
        rgDenseListCreateFromMemory_spec bufferSize.toNat list b hbuffer hmax
      refine ⟨hiff, fun h => ?_, herror⟩
      have hmade := hok h
      rw [hbs (hiff.mp h).1] at hmade
      refine ⟨hmade, ?_⟩
      rw [hmade]
      exact .of_start count hdvd fun _ => rfl

end RgMemory
