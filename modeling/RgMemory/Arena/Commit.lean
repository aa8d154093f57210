import RgMemory.Arena.Exact

/-!
# How much a commit takes

`rgm_arena_ensure_committed` doubles the committed size, caps the step, raises it to the request and
to a minimum chunk, rounds up to pages and clamps to the reservation, all modulo `2 ^ 64`. When a
page is no larger than the minimum chunk, both the cap and the chunk are whole pages, so rounding
moves only the request, and by less than a page. Hence `rgmCommitTarget_bounds`: the new size covers
the request, lies less than one step above it, and is at least the capped doubling where that does
not wrap.

Over a run the waste stays below one step (`run_committed_lt`): only an allocation commits, and it
ends at the position that the commit was for. `ArenaRun.peak` is the largest position of a run.
-/

namespace RgMemory

open Align

/-- Capping and raising, bounded by one candidate: the result is the request, the chunk, or at most
the cap. -/
theorem raised_cases (double cap required chunk : Nat) :
    raised double cap required chunk = required ∨ raised double cap required chunk = chunk ∨
      raised double cap required chunk = min double cap := by
  unfold raised
  dsimp only
  split <;> split <;> split <;> omega

theorem min_le_raised (double cap required chunk : Nat) :
    min double cap ≤ raised double cap required chunk := by
  unfold raised
  dsimp only
  split <;> split <;> split <;> omega

theorem required_le_raised (double cap required chunk : Nat) :
    required ≤ raised double cap required chunk := by
  unfold raised
  dsimp only
  split <;> split <;> split <;> omega

theorem dvd_min {d m n : Nat} (hm : d ∣ m) (hn : d ∣ n) : d ∣ min m n := by
  rcases Nat.le_total m n with h | h
  · rwa [Nat.min_eq_left h]
  · rwa [Nat.min_eq_right h]

/-- Rounding up does not pass a multiple of the page size. -/
theorem rgmAlignUp_le_of_dvd {v m k : Nat} (hk : k < 64) (hv : v + (2 ^ k - 1) < 2 ^ 64)
    (hm : 2 ^ k ∣ m) (hle : v ≤ m) : rgmAlignUp v (2 ^ k) ≤ m := by
  obtain ⟨hdvd, hge, hlt⟩ := rgmAlignUp_spec hk hv
  obtain ⟨pad, hpad⟩ := Nat.exists_eq_add_of_le hge
  rw [hpad] at hdvd hlt ⊢
  exact padded_le (by omega) hdvd hm hle

section

variable {page : Nat} (hpage : IsPageSize page) (hsmall : page ≤ rgmCommitMinChunk)

include hpage hsmall

/-- What the committed size becomes, for every arena of whole pages and every request that needs a
commit. -/
theorem rgmCommitTarget_bounds {a : Arena} (hcom : page ∣ a.committed) (hres : page ∣ a.reserved)
    (hword : a.reserved < 2 ^ 64) {required : Nat} (hlow : a.committed < required)
    (hhigh : required ≤ a.reserved) :
    page ∣ rgmCommitTarget page a required ∧ required ≤ rgmCommitTarget page a required ∧
      rgmCommitTarget page a required ≤ a.reserved ∧
      rgmCommitTarget page a required < required + rgmCommitMaxStep ∧
      (2 * a.committed < 2 ^ 64 → a.committed + rgmCommitMaxStep < 2 ^ 64 →
        min (min (2 * a.committed) (a.committed + rgmCommitMaxStep)) a.reserved ≤
          rgmCommitTarget page a required) := by
  obtain ⟨k, hk, rfl⟩ := hpage
  have hpos := Nat.two_pow_pos k
  have hk16 : k ≤ 16 := (Nat.pow_le_pow_iff_right (a := 2) (by decide)).mp hsmall
  have hchunk : 2 ^ k ∣ rgmCommitMinChunk := Nat.pow_dvd_pow 2 hk16
  have hstep : 2 ^ k ∣ rgmCommitMaxStep :=
    Nat.dvd_trans (Nat.pow_dvd_pow 2 hk16) (by decide : 2 ^ 16 ∣ rgmCommitMaxStep)
  have hroom : a.reserved + 2 ^ k ≤ 2 ^ 64 := add_le_of_dvd hres (dvd_word hk) hword
  have hstep_lt : rgmCommitMinChunk < rgmCommitMaxStep := by decide
  have hchunk_lt : rgmCommitMinChunk + rgmCommitMinChunk < 2 ^ 64 := by decide
  -- the two steps are whole pages, also when they wrap
  have hdouble : 2 ^ k ∣ u64 (a.committed * 2) :=
    (Nat.dvd_mod_iff (dvd_word hk)).mpr (Nat.dvd_mul_right_of_dvd hcom 2)
  have hcap : 2 ^ k ∣ u64 (a.committed + rgmCommitMaxStep) :=
    (Nat.dvd_mod_iff (dvd_word hk)).mpr (Nat.dvd_add hcom hstep)
  have hmin : 2 ^ k ∣ min (u64 (a.committed * 2)) (u64 (a.committed + rgmCommitMaxStep)) :=
    dvd_min hdouble hcap
  have hmin_room : min (u64 (a.committed * 2)) (u64 (a.committed + rgmCommitMaxStep)) + 2 ^ k ≤
      2 ^ 64 :=
    add_le_of_dvd hmin (dvd_word hk) (Nat.lt_of_le_of_lt (Nat.min_le_left ..) (u64_lt _))
  have hcap_le : u64 (a.committed + rgmCommitMaxStep) ≤ a.committed + rgmCommitMaxStep :=
    Nat.mod_le ..
  have hreach := required_le_raised (u64 (a.committed * 2)) (u64 (a.committed + rgmCommitMaxStep))
    required rgmCommitMinChunk
  have hgrow := min_le_raised (u64 (a.committed * 2)) (u64 (a.committed + rgmCommitMaxStep))
    required rgmCommitMinChunk
  have hcases := raised_cases (u64 (a.committed * 2)) (u64 (a.committed + rgmCommitMaxStep))
    required rgmCommitMinChunk
  rw [rgmCommitTarget]
  generalize raised (u64 (a.committed * 2)) (u64 (a.committed + rgmCommitMaxStep)) required
    rgmCommitMinChunk = target at *
  have hfit : target + (2 ^ k - 1) < 2 ^ 64 := by
    rcases hcases with h | h | h <;> omega
  obtain ⟨hdvd, hge, hlt⟩ := rgmAlignUp_spec hk hfit
  -- rounding moves the request by less than a page, and the other candidates not at all
  have hwaste : rgmAlignUp target (2 ^ k) < required + rgmCommitMaxStep := by
    rcases hcases with h | h | h
    · omega
    · have hround := rgmAlignUp_le_of_dvd hk hfit hchunk (Nat.le_of_eq h)
      omega
    · have hround := rgmAlignUp_le_of_dvd hk hfit hmin (Nat.le_of_eq h)
      omega
  have hfull : 2 * a.committed < 2 ^ 64 → a.committed + rgmCommitMaxStep < 2 ^ 64 →
      min (2 * a.committed) (a.committed + rgmCommitMaxStep) ≤ target := by
    intro hd hc
    rwa [u64_of_lt hc, u64_of_lt (by omega), Nat.mul_comm] at hgrow
  split
  · exact ⟨hres, hhigh, Nat.le_refl _, by omega, fun _ _ => Nat.min_le_right ..⟩
  · refine ⟨hdvd, Nat.le_trans hreach hge, by omega, hwaste, fun hd hc => ?_⟩
    exact Nat.le_trans (Nat.min_le_left ..) (Nat.le_trans (hfull hd hc) hge)

/-- The same of a successful `rgm_arena_ensure_committed`. -/
theorem rgmArenaEnsureCommitted_bounds (os : OsReply) {s s' : ArenaState}
    (hcom : page ∣ s.committed) (hres : page ∣ s.reserved) (hword : s.reserved < 2 ^ 64)
    {required : Nat} (hlow : s.committed < required) (hhigh : required ≤ s.reserved)
    (h : rgmArenaEnsureCommitted page os s required = (true, s')) :
    page ∣ s'.committed ∧ required ≤ s'.committed ∧ s'.committed ≤ s.reserved ∧
      s'.committed < required + rgmCommitMaxStep ∧
      (2 * s.committed < 2 ^ 64 → s.committed + rgmCommitMaxStep < 2 ^ 64 →
        min (min (2 * s.committed) (s.committed + rgmCommitMaxStep)) s.reserved ≤
          s'.committed) := by
  have hbounds := rgmCommitTarget_bounds hpage hsmall hcom hres hword hlow hhigh
  rw [rgmArenaEnsureCommitted, if_neg (Nat.not_le.mpr hlow), if_neg (Nat.not_lt.mpr hhigh)] at h
  rcases rgmCommitTo_eq os s (rgmCommitTarget page s.toArena required) with
    ⟨-, hfail⟩ | ⟨-, s'', hok, -, htarget⟩
  · rw [hfail] at h
    cases h
  · rw [hok] at h
    cases h
    rwa [htarget]

/-! ## Over a run -/

/-- A state whose waste is below one step, given the largest position so far. -/
def Thrifty (peak : Nat) (s : ArenaState) : Prop := s.committed < peak + rgmCommitMaxStep

/-- An allocation commits nothing, or ends at the position that the commit was for. -/
theorem rgmArenaAllocBump_thrifty (os : OsReply) {s : ArenaState} (hcom : page ∣ s.committed)
    (hres : page ∣ s.reserved) (hword : s.reserved < 2 ^ 64) (size align : Nat) :
    (rgmArenaAllocBump s size align (rgmArenaAllocInternal page os s size align)).2.committed =
        s.committed ∨
      Thrifty
        (rgmArenaAllocBump s size align (rgmArenaAllocInternal page os s size align)).2.pos
        (rgmArenaAllocBump s size align (rgmArenaAllocInternal page os s size align)).2 := by
  unfold rgmArenaAllocBump rgmArenaAllocInternal
  dsimp only
  generalize u64 (s.pos + rgmAlignPadding (u64 (s.base + s.pos)) align) = off
  generalize u64 (off + size) = newPos
  split
  · exact .inl rfl
  split
  · exact .inl rfl
  split
  · exact .inl rfl
  next hfast _ hslow =>
  have hlow : s.committed < newPos := by omega
  have hhigh : newPos ≤ s.reserved := by omega
  rcases rgmArenaEnsureCommitted_eq page os s hhigh with ⟨-, hfail⟩ | ⟨-, s', hok, -⟩
  · rw [hfail]
    exact .inl rfl
  · rw [hok]
    exact .inr
      (rgmArenaEnsureCommitted_bounds hpage hsmall os hcom hres hword hlow hhigh hok).2.2.2.1

theorem rgArenaAllocAligned_thrifty (os : OsReply) {s : ArenaState} (hcom : page ∣ s.committed)
    (hres : page ∣ s.reserved) (hword : s.reserved < 2 ^ 64) (size al : Nat) :
    (rgArenaAllocAligned page os s size al).2.committed = s.committed ∨
      Thrifty (rgArenaAllocAligned page os s size al).2.pos
        (rgArenaAllocAligned page os s size al).2 := by
  unfold rgArenaAllocAligned
  split
  · exact .inl rfl
  split
  · exact .inl rfl
  exact rgmArenaAllocBump_thrifty hpage hsmall os hcom hres hword size _

end

/-- The largest position that a run reaches. -/
def ArenaRun.peak (page : Nat) : ArenaRun → List ArenaEvent → Nat
  | r, [] => r.state.pos
  | r, e :: rest => max r.state.pos (peak page (r.step page e) rest)

theorem rgmShrinkTo_committed_le (os : OsReply) {s : ArenaState} {target : Nat}
    (hle : target ≤ s.committed) : (rgmShrinkTo os s target).committed ≤ s.committed := by
  unfold rgmShrinkTo rgmVmDiscard rgmVmProtectNone
  cases os.protectOk with
  | false => exact Nat.le_refl _
  | true => exact hle

theorem rgmArenaShrinkKeep_committed_le (page : Nat) (os : OsReply) (s : ArenaState) (slack : Nat) :
    (rgmArenaShrinkKeep page os s slack).committed ≤ s.committed := by
  unfold rgmArenaShrinkKeep
  split
  · exact Nat.le_refl _
  split
  · exact Nat.le_refl _
  dsimp only
  split
  · exact Nat.le_refl _
  split
  · exact Nat.le_refl _
  split
  · exact Nat.le_refl _
  · next hlt => exact rgmShrinkTo_committed_le os (by omega)

/-- A rewind leaves the committed size. -/
theorem rgArenaPop_committed (s : ArenaState) (size : Nat) :
    (rgArenaPop s size).committed = s.committed := by
  unfold rgArenaPop
  split
  · rfl
  split
  · rfl
  · rfl

theorem rgArenaRestore_committed (s : ArenaState) (save : Nat) :
    (rgArenaRestore s save).committed = s.committed := by
  unfold rgArenaRestore
  split
  · rfl
  split
  · rfl
  split
  · rfl
  · rfl

theorem rgArenaClear_committed (s : ArenaState) : (rgArenaClear s).committed = s.committed := by
  unfold rgArenaClear
  split
  · rfl
  · rfl

section

variable {page : Nat} (hpage : IsPageSize page) (hsmall : page ≤ rgmCommitMinChunk)

include hpage hsmall

/-- One call commits no more than before, or ends less than a step below what it committed. -/
theorem call_thrifty (os : OsReply) {r : ArenaRun} (hcom : page ∣ r.state.committed)
    (hres : page ∣ r.state.reserved) (hword : r.state.reserved < 2 ^ 64) (c : ArenaCall) :
    (r.call page os c).state.committed ≤ r.state.committed ∨
      Thrifty (r.call page os c).state.pos (r.call page os c).state := by
  have halloc := fun size al =>
    (rgArenaAllocAligned_thrifty hpage hsmall os hcom hres hword size al).imp_left Nat.le_of_eq
  cases c with
  | create n =>
    show (rgArenaCreate page os r.state n.toNat).2.committed ≤ _ ∨ _
    unfold rgArenaCreate
    split
    · exact .inl (Nat.le_refl _)
    split
    · exact .inl (Nat.le_refl _)
    · exact .inl (Nat.zero_le _)
  | alloc n =>
    show (rgArenaAlloc page os r.state n.toNat).2.committed ≤ _ ∨
      Thrifty (rgArenaAlloc page os r.state n.toNat).2.pos
        (rgArenaAlloc page os r.state n.toNat).2
    rw [rgArenaAlloc_eq]
    exact halloc _ _
  | allocAligned n al => exact halloc _ _
  | allocFast n =>
    show (rgArenaAllocFast page os r.state n.toNat).2.committed ≤ _ ∨
      Thrifty (rgArenaAllocFast page os r.state n.toNat).2.pos
        (rgArenaAllocFast page os r.state n.toNat).2
    rw [rgArenaAllocFast_eq, rgArenaAlloc_eq]
    exact halloc _ _
  | pop n => exact .inl (Nat.le_of_eq (rgArenaPop_committed ..))
  | popAligned n al => exact .inl (Nat.le_of_eq (rgArenaPop_committed ..))
  | save => exact .inl (Nat.le_refl _)
  | restore p => exact .inl (Nat.le_of_eq (rgArenaRestore_committed ..))
  | clear => exact .inl (Nat.le_of_eq (rgArenaClear_committed _))
  | shrink => exact .inl (rgmArenaShrinkKeep_committed_le ..)
  | shrinkKeep n => exact .inl (rgmArenaShrinkKeep_committed_le ..)

theorem step_thrifty {r : ArenaRun} (hr : r.Sound page) {peak : Nat} (h : Thrifty peak r.state)
    (e : ArenaEvent) : Thrifty (max peak (r.step page e).state.pos) (r.step page e).state := by
  have hgrow : ∀ s : ArenaState, s.committed ≤ r.state.committed ∨ Thrifty s.pos s →
      Thrifty (max peak s.pos) s := by
    unfold Thrifty at h ⊢
    intro s hs
    omega
  apply hgrow
  cases e with
  | write b i v =>
    refine .inl (Nat.le_of_eq ?_)
    show (r.write b i v).state.committed = _
    unfold ArenaRun.write
    split
    · rfl
    · rfl
  | call os c =>
    have hfits := hr.ok.fits
    have hcom : page ∣ r.state.committed :=
      hr.ok.committed_page.elim id fun heq => heq ▸ hr.pages
    rcases Nat.lt_or_ge r.state.reserved (2 ^ 64) with hword | hfull
    · exact call_thrifty hpage hsmall os hcom hr.pages hword c
    · -- a reservation of the whole address space would lie at 0
      have hinert := hr.ok.inert (by omega)
      omega

/-- The waste stays below one step along a run: by induction on the events, for the largest
position so far. -/
theorem run_thrifty {r : ArenaRun} (hr : r.Sound page) {peak : Nat} (h : Thrifty peak r.state)
    (events : List ArenaEvent) (hos : ∀ e ∈ events, e.Honest page) :
    Thrifty (max peak (r.peak page events)) (r.run page events).state := by
  induction events generalizing r peak with
  | nil =>
    unfold Thrifty at h ⊢
    show r.state.committed < _
    omega
  | cons e rest ih =>
    have hsound := ArenaRun.step_sound hpage hr e (hos e (List.mem_cons_self ..))
    have hstep := step_thrifty hpage hsmall hr h e
    have hrest := ih hsound hstep fun e' he' => hos e' (List.mem_cons_of_mem _ he')
    have hpeak : (r.step page e).state.pos ≤ (r.step page e).peak page rest := by
      cases rest with
      | nil => exact Nat.le_refl _
      | cons e' rest => exact Nat.le_max_left ..
    unfold Thrifty at hrest ⊢
    rw [ArenaRun.peak]
    show ((r.step page e).run page rest).state.committed < _
    omega

/-- **Commit growth covers the request and bounds the waste.** A successful commit makes the
committed size a whole number of pages between the request and the reservation, less than one step
above the request, and at least the capped doubling where that does not wrap; so along every run the
committed size stays less than one step above the largest position reached. -/
theorem commit_growth :
    (∀ (os : OsReply) (s s' : ArenaState) (required : Nat), page ∣ s.committed →
      page ∣ s.reserved → s.reserved < 2 ^ 64 → s.committed < required → required ≤ s.reserved →
      rgmArenaEnsureCommitted page os s required = (true, s') →
      page ∣ s'.committed ∧ required ≤ s'.committed ∧ s'.committed ≤ s.reserved ∧
        s'.committed < required + 64 * 1024 * 1024 ∧
        (2 * s.committed ≤ 2 ^ 64 - 1 → s.committed + 64 * 1024 * 1024 ≤ 2 ^ 64 - 1 →
          min (min (2 * s.committed) (s.committed + 64 * 1024 * 1024)) s.reserved ≤
            s'.committed)) ∧
    (∀ mem access (events : List ArenaEvent), (∀ e ∈ events, e.Honest page) →
      ((ArenaRun.start mem access).run page events).state.committed <
        (ArenaRun.start mem access).peak page events + 64 * 1024 * 1024) := by
  refine ⟨fun os s s' required hcom hres hword hlow hhigh h => ?_, fun mem access events hos => ?_⟩
  · obtain ⟨hdvd, hcover, hroom, hwaste, hgrow⟩ :=
      rgmArenaEnsureCommitted_bounds hpage hsmall os hcom hres hword hlow hhigh h
    refine ⟨hdvd, hcover, hroom, hwaste, fun hd hc => hgrow ?_ ?_⟩
    · omega
    · show s.committed + 64 * 1024 * 1024 < 2 ^ 64
      omega
  · have hzero : Thrifty 0 (ArenaRun.start mem access).state := by
      show 0 < 0 + rgmCommitMaxStep
      decide
    have hrun := run_thrifty hpage hsmall (ArenaRun.start_sound mem access) hzero events hos
    rwa [Nat.zero_max] at hrun

end

/-- The sample run commits 64 KiB for its first block and a second 64 KiB for the page-aligned one. -/
theorem sampleEvents_thrifty :
    let r := (ArenaRun.start (fun _ => 0) fun _ => false).run 4096 sampleEvents
    r.state.committed = 131072 ∧
      r.state.committed < (ArenaRun.start (fun _ => 0) fun _ => false).peak 4096 sampleEvents +
        64 * 1024 * 1024 :=
  ⟨by decide,
    (commit_growth ⟨12, by decide, rfl⟩ (by decide)).2 _ _ sampleEvents sampleEvents_honest⟩

end RgMemory
