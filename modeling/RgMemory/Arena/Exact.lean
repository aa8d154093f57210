import RgMemory.Arena.Run

/-!
# The exact outcome of an allocation

`Granted` bounds a successful allocation; this module says which allocations succeed and where
their blocks lie, in exact integers. The block of an allocation starts at the least multiple of the
alignment from the bump address on, and the allocation succeeds when that block ends inside the
reservation and the commit that it may need is granted (`rgArenaAllocAligned_eq`).

Nothing is assumed about the pages, so the hypotheses are those of `Arena.Regular`. No sum of the
source wraps into a success, since a wrapped position lies below the padded one, and none wraps into
a failure, since a block inside the reservation ends at or before `2 ^ 64`.
-/

namespace RgMemory

open Align

/-- The alignments that an allocation accepts. -/
def AcceptedAlignment (alignment : Nat) : Prop := alignment = 0 ∨ ∃ k, alignment = 2 ^ k

/-- Where the block of an allocation starts: at the least multiple of `align` from the bump address
on. -/
def NextBlock (a : Arena) (align p : Nat) : Prop := IsLeast {q | align ∣ q ∧ a.base + a.pos ≤ q} p

/-- A block that ends at the address `stop` fits: the reservation holds it, and the commit that it
needs, if any, succeeds. -/
def BlockFits (os : OsReply) (a : Arena) (stop : Nat) : Prop :=
  stop ≤ a.base + a.reserved ∧ (stop ≤ a.base + a.committed ∨ os.commitOk = true)

/-- The test of the source, for every word. -/
theorem acceptedAlignment_iff {al : Nat} (hal : al < 2 ^ 64) :
    AcceptedAlignment al ↔ al &&& u64Sub al 1 = 0 := by
  rcases Nat.eq_zero_or_pos al with rfl | hpos
  · exact ⟨fun _ => Nat.zero_and _, fun _ => .inl rfl⟩
  · rw [u64Sub_of_le hpos hal, Nat.and_sub_one_eq_zero_iff_isPowerOfTwo (Nat.ne_of_gt hpos)]
    constructor
    · rintro (hzero | hpow)
      · omega
      · exact hpow
    · exact fun hpow => .inr hpow

section

variable {page : Nat} (os : OsReply) {s : ArenaState}
  (hs : s.toArena.Regular page)

include hs in
/-- The padded position is the offset of the next block. -/
theorem padded_next {k : Nat} (hk : k < 64) :
    ∃ off, u64 (s.pos + rgmAlignPadding (u64 (s.base + s.pos)) (2 ^ k)) = off ∧ s.pos ≤ off ∧
      NextBlock s.toArena (2 ^ k) (s.base + off) ∧ s.base + off ≤ 2 ^ 64 := by
  obtain ⟨off, hoff, hge, hlt, hdvd, hend⟩ := padded_off hs hk
  refine ⟨off, hoff, hge, ⟨⟨hdvd, by omega⟩, ?_⟩, hend⟩
  intro q hq
  obtain ⟨hqdvd, hqle⟩ := hq
  obtain ⟨pad, rfl⟩ := Nat.exists_eq_add_of_le hge
  rw [← Nat.add_assoc] at hdvd ⊢
  exact padded_le (by omega) hdvd hqdvd hqle

/-- A commit up to a target fails and changes nothing, or succeeds, as the operating system says. -/
theorem rgmCommitTo_eq (s : ArenaState) (target : Nat) :
    (os.commitOk = false ∧ rgmCommitTo os s target = (false, s)) ∨
      (os.commitOk = true ∧ ∃ s', rgmCommitTo os s target = (true, s') ∧ s'.base = s.base ∧
        s'.committed = target) := by
  unfold rgmCommitTo rgmVmCommit
  cases os.commitOk with
  | false => exact .inl ⟨rfl, rfl⟩
  | true => exact .inr ⟨rfl, _, rfl, rfl, rfl⟩

variable (page) in
/-- `rgm_arena_ensure_committed` for a position inside the reservation. -/
theorem rgmArenaEnsureCommitted_eq (s : ArenaState) {required : Nat}
    (hres : required ≤ s.reserved) :
    (¬ (required ≤ s.committed ∨ os.commitOk = true) ∧
        rgmArenaEnsureCommitted page os s required = (false, s)) ∨
      ((required ≤ s.committed ∨ os.commitOk = true) ∧
        ∃ s', rgmArenaEnsureCommitted page os s required = (true, s') ∧ s'.base = s.base) := by
  unfold rgmArenaEnsureCommitted
  by_cases hcov : required ≤ s.committed
  · rw [if_pos hcov]
    exact .inr ⟨.inl hcov, s, rfl, rfl⟩
  rw [if_neg hcov, if_neg (Nat.not_lt.mpr hres)]
  rcases rgmCommitTo_eq os s (rgmCommitTarget page s.toArena required) with
    ⟨hno, hfail⟩ | ⟨hyes, s', hok, hbase, -⟩
  · refine .inl ⟨?_, hfail⟩
    rintro (h | h)
    · exact hcov h
    · rw [hno] at h
      cases h
  · exact .inr ⟨.inr hyes, s', hok, hbase⟩

include hs in
/-- Both paths of an allocation together: the fast one decides nothing that the slow one would
decide otherwise. -/
theorem rgmArenaAllocBump_eq {size k : Nat} (hk : k < 64) (hsize0 : 0 < size)
    (hsize : size < 2 ^ 64) :
    ∃ p, NextBlock s.toArena (2 ^ k) p ∧
      (BlockFits os s.toArena (p + size) →
        ∃ s', rgmArenaAllocBump s size (2 ^ k) (rgmArenaAllocInternal page os s size (2 ^ k)) =
          (p, s') ∧ s'.base = s.base ∧ s'.pos = p + size - s.base) ∧
      (¬ BlockFits os s.toArena (p + size) →
        rgmArenaAllocBump s size (2 ^ k) (rgmArenaAllocInternal page os s size (2 ^ k)) = (0, s)) := by
  have hlive := hs.live
  have hfits := hs.fits
  have hcom := hs.committed_le
  obtain ⟨off, hoff, hge, hnext, hend⟩ := padded_next hs hk
  refine ⟨s.base + off, hnext, ?_⟩
  unfold rgmArenaAllocBump rgmArenaAllocInternal BlockFits
  simp only [hoff, if_neg (Nat.ne_of_gt hsize0)]
  rcases Nat.lt_or_ge (off + size) (2 ^ 64) with hexact | hwrap
  · rw [u64_of_lt hexact]
    by_cases hfast : off + size ≤ s.committed
    · rw [if_pos ⟨by omega, hfast⟩]
      refine ⟨fun _ => ⟨_, rfl, rfl, ?_⟩, fun hno => absurd ⟨by omega, .inl (by omega)⟩ hno⟩
      show off + size = _
      omega
    rw [if_neg (by omega)]
    by_cases hres : off + size > s.reserved
    · rw [if_pos (.inr hres)]
      exact ⟨fun h => absurd h.1 (by omega), fun _ => rfl⟩
    rw [if_neg (by omega)]
    rcases rgmArenaEnsureCommitted_eq page os s (Nat.le_of_not_lt hres) with
      ⟨hno, hfail⟩ | ⟨hyes, s', hok, hbase⟩
    · rw [hfail]
      refine ⟨fun h => absurd (h.2.imp_left fun hle => ?_) hno, fun _ => rfl⟩
      omega
    · rw [hok]
      refine ⟨fun _ => ⟨_, congrArg (fun b => (b + off, _)) hbase, hbase, ?_⟩, fun hno => ?_⟩
      · show off + size = _
        omega
      · exact absurd ⟨by omega, hyes.imp_left fun hle => by omega⟩ hno
  · -- the new position wraps below the padded one, and the block ends above the reservation
    have hnew : u64 (off + size) = off + size - 2 ^ 64 := by
      unfold u64
      omega
    rw [hnew, if_neg (by omega), if_pos (.inl (by omega))]
    exact ⟨fun h => absurd h.1 (by omega), fun _ => rfl⟩

end

/-- **Arena allocation is exact.** A zero size or an alignment that is no power of two is refused.
Otherwise the block starts at the least multiple of the alignment, raised to 8, from the bump
address on; the allocation succeeds exactly when that block fits, and changes nothing when it does
not. The two default-aligned entry points are the aligned one at 16. -/
theorem arena_alloc_exact {page : Nat} (os : OsReply) {s : ArenaState}
    (hs : s.toArena.Regular page) (size alignment : BitVec 64) :
    (size = 0 ∨ ¬ AcceptedAlignment alignment.toNat →
      rgArenaAllocAligned page os s size.toNat alignment.toNat = (0, s)) ∧
    (size ≠ 0 → AcceptedAlignment alignment.toNat →
      ∃ p, NextBlock s.toArena (max 8 alignment.toNat) p ∧
        (BlockFits os s.toArena (p + size.toNat) →
          ∃ s', rgArenaAllocAligned page os s size.toNat alignment.toNat = (p, s') ∧ p ≠ 0 ∧
            s'.base = s.base ∧ s'.pos = p + size.toNat - s.base) ∧
        (¬ BlockFits os s.toArena (p + size.toNat) →
          rgArenaAllocAligned page os s size.toNat alignment.toNat = (0, s))) ∧
    rgArenaAlloc page os s size.toNat = rgArenaAllocAligned page os s size.toNat 16 ∧
    rgArenaAllocFast page os s size.toNat = rgArenaAllocAligned page os s size.toNat 16 := by
  have hlive := hs.live
  have hal := alignment.isLt
  refine ⟨fun hbad => ?_, fun hsize hacc => ?_, rgArenaAlloc_eq .., ?_⟩
  · unfold rgArenaAllocAligned
    rcases hbad with rfl | hbad
    · exact if_pos (.inr rfl)
    · split
      · rfl
      · exact if_pos fun h => hbad ((acceptedAlignment_iff hal).mpr h)
  · have hsize0 : 0 < size.toNat := Nat.pos_of_ne_zero fun h => hsize (BitVec.eq_of_toNat_eq h)
    have hdead : ¬ (!rgmArenaIsLive s.toArena ∨ size.toNat = 0) := by
      simp [rgmArenaIsLive]
      omega
    have hpow := (acceptedAlignment_iff hal).mp hacc
    obtain ⟨k, hk, -, heq⟩ := alignment_cases hal hpow
    have hmax : max 8 alignment.toNat = 2 ^ k := by
      rw [← heq]
      split <;> omega
    obtain ⟨p, hnext, hyes, hno⟩ := rgmArenaAllocBump_eq os hs hk hsize0 size.isLt
    rw [rgArenaAllocAligned, if_neg hdead, if_neg (not_not_intro hpow)]
    simp only [heq, hmax]
    refine ⟨p, hnext, fun hfit => ?_, hno⟩
    obtain ⟨s', hok, hbase, hpos⟩ := hyes hfit
    refine ⟨s', hok, ?_, hbase, hpos⟩
    have hlow : s.base + s.pos ≤ p := hnext.1.2
    omega
  · rw [rgArenaAllocFast_eq, rgArenaAlloc_eq]

theorem sampleArena_alloc_exact :
    ∃ p, NextBlock sampleArena.toArena 4096 p ∧
      (BlockFits sampleOs sampleArena.toArena (p + 100) →
        ∃ s', rgArenaAllocAligned 4096 sampleOs sampleArena 100 4096 = (p, s') ∧ p ≠ 0 ∧
          s'.base = 65536 ∧ s'.pos = p + 100 - 65536) ∧
      (¬ BlockFits sampleOs sampleArena.toArena (p + 100) →
        rgArenaAllocAligned 4096 sampleOs sampleArena 100 4096 = (0, sampleArena)) :=
  (arena_alloc_exact sampleOs (sampleArena_ok.regular (by decide)) 100 4096).2.1 (by decide)
    (.inr ⟨12, rfl⟩)

end RgMemory
