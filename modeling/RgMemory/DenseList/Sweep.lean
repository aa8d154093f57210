import RgMemory.DenseList.Run

/-!
# Freeing during iteration

The header documents one way to free blocks while walking a dense list: backwards, from the last slot
to the first. A free moves the last live block into the gap, and on this walk that block has been
visited before. So each block is looked at once, with the contents it had at the start, and those that
the client's predicate does not hold of are left (`Sound.sweepBackward`).
-/

namespace RgMemory

open Bytes SwapList

namespace DenseListRun

/-- The documented loop over the first `i` slots, the last of them first: the block at the slot is
freed when `remove` holds of its contents. The answer has the pointers that the loop received and the
contents that it evaluated; it is `none` when a call does not end. -/
def sweepBackward (remove : List Byte → Bool) :
    Nat → DenseListRun → Option (DenseListRun × List (Nat × List Byte))
  | 0, r => some (r, [])
  | i + 1, r =>
    let x := rgDenseListAt r.list i
    let block := slice r.mem x r.list.blockSize
    let next :=
      if remove block then (rgDenseListFree r.mem r.list x).map fun a => ⟨a.2, a.1⟩ else some r
    next.bind fun r => (sweepBackward remove i r).map fun a => (a.1, (x, block) :: a.2)

variable {r : DenseListRun} {remove : List Byte → Bool} {l₀ : List (List Byte)} {i : Nat}

/-- One round: the slot is live and holds what it held at the start. -/
theorem Sound.sweep_round (h : r.Sound) (hswept : Swept remove l₀ (i + 1) r.contents)
    (hi : i < l₀.length) :
    rgDenseListAt r.list i = r.list.slot i ∧
      slice r.mem (r.list.slot i) r.list.blockSize = l₀[i] ∧
      ∃ r', (if remove l₀[i] then
          (rgDenseListFree r.mem r.list (r.list.slot i)).map fun a => (⟨a.2, a.1⟩ : DenseListRun)
        else some r) = some r' ∧ Sound.Next r r' ∧ Swept remove l₀ i r'.contents := by
  have hget := hswept.getElem?_eq hi
  have hcount : i < r.list.count := by
    obtain ⟨hlt, -⟩ := List.getElem?_eq_some_iff.mp hget
    rwa [contents_length] at hlt
  have hle := h.count_le
  rw [r.contents_getElem? hcount] at hget
  refine ⟨?_, Option.some.inj hget, ?_⟩
  · rw [h.at_eq, if_pos hcount]
  cases hp : remove l₀[i] with
  | false => exact ⟨r, rfl, ⟨h, rfl, rfl, rfl⟩, hswept.keep hi hp⟩
  | true =>
    refine ⟨⟨{ r.list with count := r.list.count - 1 }, r.moved i⟩, ?_,
      ⟨h.recount (by omega) _, rfl, rfl, rfl⟩, ?_⟩
    · rw [if_pos rfl, h.free_eq hcount]
      rfl
    · rw [Sound.contents_free hcount]
      exact hswept.remove hi hp

/-- The loop from any point of the walk on. -/
theorem Sound.sweepBackward_spec (h : r.Sound) (hswept : Swept remove l₀ i r.contents)
    (hi : i ≤ l₀.length) :
    ∃ r' log, r.sweepBackward remove i = some (r', log) ∧ Sound.Next r r' ∧
      Swept remove l₀ 0 r'.contents ∧
      log.map Prod.fst = ((List.range i).map r.list.slot).reverse ∧
      log.map Prod.snd = (l₀.take i).reverse := by
  induction i generalizing r with
  | zero => exact ⟨r, [], rfl, ⟨h, rfl, rfl, rfl⟩, hswept, rfl, rfl⟩
  | succ i ih =>
    obtain ⟨hat, hblock, r1, hround, ⟨h1, hbuf, hsize, hmax⟩, hswept1⟩ :=
      h.sweep_round hswept (by omega)
    obtain ⟨r2, log, hrest, ⟨h2, hbuf2, hsize2, hmax2⟩, hswept2, hptrs, hblocks⟩ :=
      ih h1 hswept1 (by omega)
    have hslot : r1.list.slot = r.list.slot := by
      funext k
      rw [DenseList.slot, DenseList.slot, hbuf, hsize]
    refine ⟨r2, (r.list.slot i, l₀[i]) :: log, ?_,
      ⟨h2, hbuf2.trans hbuf, hsize2.trans hsize, hmax2.trans hmax⟩, hswept2, ?_, ?_⟩
    · rw [sweepBackward, hat, hblock, hround]
      dsimp only [Option.bind_some]
      rw [hrest]
      rfl
    · rw [List.map_cons, hptrs, hslot, List.range_succ, List.map_append, List.reverse_append]
      rfl
    · rw [List.map_cons, hblocks, List.take_succ_eq_append_getElem (by omega), List.reverse_append]
      rfl

end DenseListRun

/-- **The documented backward sweep filters a dense list.** From every state that a run reaches, and
for every predicate, the loop ends. It has received the live slots, none of them null, and evaluated
the predicate on each block's contents at the start, once each; the blocks left are those that do not
satisfy it. -/
theorem dense_list_backward_sweep {page : Nat} (hpage : IsPageSize page) {fresh : DenseListRun}
    (hfresh : DenseListRun.Fresh page fresh) (events : List DenseListEvent)
    (remove : List Byte → Bool) :
    ∃ r r' log, fresh.run events = some r ∧
      r.sweepBackward remove (rgDenseListCount r.list) = some (r', log) ∧
      log.map Prod.fst = ((List.range r.contents.length).map r.list.slot).reverse ∧
      (∀ entry ∈ log, entry.1 ≠ 0) ∧
      log.map Prod.snd = r.contents.reverse ∧
      r'.contents.Perm (r.contents.filter fun block => !remove block) ∧
      rgDenseListCount r'.list = r'.contents.length := by
  obtain ⟨hsound, -⟩ := DenseListRun.fresh_sound hpage hfresh
  obtain ⟨r, hrun, ⟨h, -, -, -⟩, -⟩ := hsound.run_refines events
  have hcount (r : DenseListRun) (h : r.Sound) : rgDenseListCount r.list = r.contents.length := by
    rw [rgDenseListCount, if_pos h.isLive, DenseListRun.contents_length]
  obtain ⟨r', log, hsweep, ⟨h', -, -, -⟩, hswept, hptrs, hblocks⟩ :=
    h.sweepBackward_spec (Swept.start remove r.contents) (Nat.le_refl _)
  rw [List.take_length] at hblocks
  refine ⟨r, r', log, hrun, ?_, hptrs, fun entry hentry => ?_, hblocks, hswept.finish,
    hcount r' h'⟩
  · rw [hcount r h]
    exact hsweep
  · have hmem := List.mem_map_of_mem (f := Prod.fst) hentry
    rw [hptrs, List.mem_reverse, List.mem_map] at hmem
    obtain ⟨i, -, hslot⟩ := hmem
    have hlive := h.live
    rw [← hslot]
    unfold DenseList.slot
    omega

/-- Two blocks, the second one written; the sweep for a first byte of 0 leaves one block. -/
theorem sampleDenseList_sweep :
    ∃ r r' log, sampleDenseList.run [.alloc, .alloc, .write 1 0 7] = some r ∧
      r.sweepBackward (fun block => block.head? = some 0) (rgDenseListCount r.list) =
        some (r', log) ∧
      log.map Prod.snd = r.contents.reverse := by
  obtain ⟨r, r', log, hrun, hsweep, -, -, hblocks, -⟩ := dense_list_backward_sweep
    ⟨12, by decide, rfl⟩ sampleDenseList_fresh [.alloc, .alloc, .write 1 0 7]
    fun block => block.head? = some 0
  exact ⟨r, r', log, hrun, hsweep, hblocks⟩

end RgMemory
