import RgMemory.Arena.Model

/-!
# What an allocation does

`Granted` is the one description of a successful allocation that the rest of the development uses:
where the block lies, what the control block becomes, which bytes and pages may differ. An
allocation either leaves the arena as it was and returns 0, or is granted
(`rgArenaAllocAligned_cases`); the exported, the default-aligned and the inline entry points are
one function (`rgArenaAllocFast_eq`, `rgArenaAlloc_eq`).

The arithmetic behind it is that no sum wraps unnoticed. The padded position stays below `2 ^ 64`
because the alignment divides `2 ^ 64` and the reservation ends at or before it; the committed size
that a commit aims for is a multiple of the page size, so that rounding it up does not wrap.
-/

namespace RgMemory

open Bytes Align

/-- A page size: a power of two that fits a word. -/
def IsPageSize (page : Nat) : Prop := ∃ k, k < 64 ∧ page = 2 ^ k

/-- What every creator establishes and every call keeps: the counters are ordered, the reservation
fits the address space, committed pages are accessible. -/
structure ArenaState.Ok (page : Nat) (s : ArenaState) : Prop where
  base_page : page ∣ s.base
  inert : s.base = 0 → s.reserved = 0
  fits : s.base + s.reserved ≤ 2 ^ 64
  pos_le : s.pos ≤ s.committed
  committed_le : s.committed ≤ s.reserved
  committed_page : page ∣ s.committed ∨ s.committed = s.reserved
  opened : ∀ x, s.base ≤ x → x < s.base + s.committed → s.access x = true

/-- The part of it that the answer of an allocation depends on: the control block of a live
arena. -/
structure Arena.Regular (page : Nat) (a : Arena) : Prop where
  live : 0 < a.base
  base_page : page ∣ a.base
  fits : a.base + a.reserved ≤ 2 ^ 64
  pos_le : a.pos ≤ a.committed
  committed_le : a.committed ≤ a.reserved
  committed_page : page ∣ a.committed ∨ a.committed = a.reserved

theorem ArenaState.Ok.regular {page : Nat} {s : ArenaState} (hs : s.Ok page)
    (hlive : 0 < s.base) : s.toArena.Regular page :=
  ⟨hlive, hs.base_page, hs.fits, hs.pos_le, hs.committed_le, hs.committed_page⟩

/-! ## Rounding -/

theorem dvd_word {k : Nat} (hk : k < 64) : 2 ^ k ∣ 2 ^ 64 :=
  Nat.pow_dvd_pow 2 (Nat.le_of_lt hk)

theorem pow_lt_word {k : Nat} (hk : k < 64) : 2 ^ k < 2 ^ 64 :=
  Nat.pow_lt_pow_right (by decide) hk

/-- A multiple of the alignment below the word size leaves room for one more step. -/
theorem add_le_of_dvd {a x w : Nat} (hx : a ∣ x) (hw : a ∣ w) (hlt : x < w) : x + a ≤ w := by
  have hdiff : a ∣ w - x := Nat.dvd_sub hw hx
  have := Nat.le_of_dvd (Nat.sub_pos_of_lt hlt) hdiff
  omega

theorem rgmAlignUp_eq {v k : Nat} (hk : k < 64) :
    rgmAlignUp v (2 ^ k) = u64 (v + (2 ^ k - 1)) - u64 (v + (2 ^ k - 1)) % 2 ^ k := by
  have hpos := Nat.two_pow_pos k
  have hlt := pow_lt_word hk
  have hsub : u64Sub (2 ^ k) 1 = 2 ^ k - 1 := u64Sub_of_le hpos hlt
  rw [rgmAlignUp, hsub, u64Not]
  exact land_sub_mask (u64_lt _) (Nat.le_of_lt hk)

/-- Without a wrap, `rgm_align_up` is the least multiple of the alignment from `v` on. -/
theorem rgmAlignUp_spec {v k : Nat} (hk : k < 64) (hv : v + (2 ^ k - 1) < 2 ^ 64) :
    2 ^ k ∣ rgmAlignUp v (2 ^ k) ∧ v ≤ rgmAlignUp v (2 ^ k) ∧
      rgmAlignUp v (2 ^ k) < v + 2 ^ k := by
  rw [rgmAlignUp_eq hk, u64_of_lt hv]
  exact roundUp_spec (Nat.two_pow_pos k)

/-- With one, it is 0. -/
theorem rgmAlignUp_wrap {v k : Nat} (hk : k < 64) (hlt : v < 2 ^ 64)
    (hv : 2 ^ 64 ≤ v + (2 ^ k - 1)) : rgmAlignUp v (2 ^ k) = 0 := by
  have hpow := pow_lt_word hk
  have hu : u64 (v + (2 ^ k - 1)) = v + (2 ^ k - 1) - 2 ^ 64 := by
    unfold u64
    omega
  rw [rgmAlignUp_eq hk, hu, Nat.mod_eq_of_lt (by omega), Nat.sub_self]

theorem rgmAlignUp_dvd (v : Nat) {k : Nat} (hk : k < 64) : 2 ^ k ∣ rgmAlignUp v (2 ^ k) := by
  rw [rgmAlignUp_eq hk]
  exact Nat.dvd_sub_mod _

/-- The padding aligns the address and is the least that does. -/
theorem rgmAlignPadding_spec {addr k : Nat} (hk : k < 64) (haddr : addr ≤ 2 ^ 64) :
    rgmAlignPadding (u64 addr) (2 ^ k) < 2 ^ k ∧
      2 ^ k ∣ addr + rgmAlignPadding (u64 addr) (2 ^ k) := by
  have hpos := Nat.two_pow_pos k
  have hlt := pow_lt_word hk
  have hsub : u64Sub (2 ^ k) 1 = 2 ^ k - 1 := u64Sub_of_le hpos hlt
  have hpad : rgmAlignPadding (u64 addr) (2 ^ k) = (2 ^ 64 - addr) % 2 ^ k := by
    rw [rgmAlignPadding, hsub, Nat.and_two_pow_sub_one_eq_mod]
    rcases Nat.lt_or_eq_of_le haddr with hlt' | rfl
    · have hneg : u64Not (u64 addr) + 1 = 2 ^ 64 - addr := by
        unfold u64Not u64
        omega
      rw [hneg]
      exact Nat.mod_mod_of_dvd _ (dvd_word hk)
    · have : u64 (u64Not (u64 (2 ^ 64)) + 1) = 0 := by decide
      rw [this, Nat.sub_self]
  rw [hpad]
  exact negMod_spec hpos (dvd_word hk) haddr

/-! ## Committing -/

/-- Capping and raising keeps a common bound of the candidates and reaches the request. -/
theorem raised_spec {double cap required chunk room w : Nat} (hdouble : double + room ≤ w)
    (hcap : cap + room ≤ w) (hreq : required + room ≤ w) (hchunk : chunk + room ≤ w) :
    raised double cap required chunk + room ≤ w ∧ required ≤ raised double cap required chunk := by
  unfold raised
  dsimp only
  split <;> split <;> split <;> omega

/-- A commit aims between the request and the reservation, at a page boundary or at the end. -/
theorem rgmCommitTarget_spec {page : Nat} (hpage : IsPageSize page) {a : Arena}
    (ha : a.Regular page) {required : Nat} (hreq : a.committed < required)
    (hres : required ≤ a.reserved) :
    required ≤ rgmCommitTarget page a required ∧
      rgmCommitTarget page a required ≤ a.reserved ∧
      (page ∣ rgmCommitTarget page a required ∨
        rgmCommitTarget page a required = a.reserved) := by
  obtain ⟨k, hk, rfl⟩ := hpage
  have hpos := Nat.two_pow_pos k
  have hhalf : 2 ^ k ≤ 2 ^ 63 := Nat.pow_le_pow_right (by decide) (by omega)
  have hfits := ha.fits
  have hbase : 2 ^ k ≤ a.base := Nat.le_of_dvd ha.live ha.base_page
  have hcommitted : 2 ^ k ∣ a.committed := by
    rcases ha.committed_page with h | h
    · exact h
    · omega
  have hroom : a.committed + 2 ^ k ≤ 2 ^ 64 :=
    add_le_of_dvd hcommitted (dvd_word hk) (by omega)
  -- every candidate for the target can be rounded up without a wrap
  have hdouble : u64 (a.committed * 2) + 2 ^ k ≤ 2 ^ 64 := by
    refine add_le_of_dvd ?_ (dvd_word hk) (u64_lt _)
    exact (Nat.dvd_mod_iff (dvd_word hk)).mpr (Nat.dvd_mul_right_of_dvd hcommitted 2)
  have hcap : u64 (a.committed + rgmCommitMaxStep) + 2 ^ k ≤ 2 ^ 64 := by
    rcases Nat.lt_or_ge 26 k with hbig | hsmall
    · have hstep : rgmCommitMaxStep ≤ 2 ^ k :=
        Nat.le_trans (by decide : rgmCommitMaxStep ≤ 2 ^ 26)
          (Nat.pow_le_pow_right (by decide) (Nat.le_of_lt hbig))
      have hnext : a.committed + 2 ^ k + 2 ^ k ≤ 2 ^ 64 :=
        add_le_of_dvd (Nat.dvd_add hcommitted (Nat.dvd_refl _)) (dvd_word hk) (by omega)
      unfold u64
      omega
    · refine add_le_of_dvd ?_ (dvd_word hk) (u64_lt _)
      refine (Nat.dvd_mod_iff (dvd_word hk)).mpr (Nat.dvd_add hcommitted ?_)
      exact Nat.dvd_trans (Nat.pow_dvd_pow 2 hsmall) (by decide : 2 ^ 26 ∣ rgmCommitMaxStep)
  have hchunk : rgmCommitMinChunk + 2 ^ k ≤ 2 ^ 64 := by
    have : rgmCommitMinChunk ≤ 2 ^ 63 := by decide
    omega
  have hrequest : required + 2 ^ k ≤ 2 ^ 64 := by omega
  obtain ⟨hbound, hreach⟩ := raised_spec hdouble hcap hrequest hchunk
  rw [rgmCommitTarget]
  generalize raised (u64 (a.committed * 2)) (u64 (a.committed + rgmCommitMaxStep)) required
    rgmCommitMinChunk = target at *
  have hround := rgmAlignUp_spec (v := target) hk (by omega)
  split
  · exact ⟨hres, Nat.le_refl _, .inr rfl⟩
  · exact ⟨by omega, by omega, .inl hround.1⟩

/-- `rgm_vm_commit` either fails and changes nothing, or opens its range and touches nothing else. -/
theorem rgmVmCommit_cases (os : OsReply) (s : ArenaState) (addr bytes : Nat) :
    rgmVmCommit os s addr bytes = (false, s) ∨
      ∃ s', rgmVmCommit os s addr bytes = (true, s') ∧ s'.toArena = s.toArena ∧
        (∀ x, Out addr bytes x → s'.mem x = s.mem x) ∧
        (∀ x, Out addr bytes x → s'.access x = s.access x) ∧
        (∀ x, addr ≤ x → x < addr + bytes → s'.access x = true) := by
  unfold rgmVmCommit
  cases os.commitOk with
  | false => exact .inl rfl
  | true =>
    refine .inr ⟨_, rfl, rfl, fun x hx => ?_, fun x hx => ?_, fun x hx hx' => ?_⟩
    · exact copy_out s.mem (fun i => os.fill (addr + i)) hx
    · have hout : decide (addr ≤ x ∧ x < addr + bytes) = false :=
        decide_eq_false (by unfold Out at hx; omega)
      simp only [hout, Bool.false_or]
    · have hin : decide (addr ≤ x ∧ x < addr + bytes) = true := decide_eq_true ⟨hx, hx'⟩
      simp only [hin, Bool.true_or]

/-- What a commit leaves alone: the control block but for `committed`, and every address outside
the range between the old committed size and the end of the reservation. -/
structure Grown (s s' : ArenaState) : Prop where
  base : s'.base = s.base
  reserved : s'.reserved = s.reserved
  backing : s'.backing = s.backing
  committed : s.committed ≤ s'.committed
  mem : ∀ x, Out (s.base + s.committed) (s.reserved - s.committed) x → s'.mem x = s.mem x
  access : ∀ x, Out (s.base + s.committed) (s.reserved - s.committed) x → s'.access x = s.access x

theorem Grown.refl (s : ArenaState) : Grown s s :=
  ⟨rfl, rfl, rfl, Nat.le_refl _, fun _ _ => rfl, fun _ _ => rfl⟩

/-- A commit up to a target between the committed size and the reservation. -/
theorem rgmCommitTo_cases {page : Nat} (os : OsReply) {s : ArenaState} (hs : s.Ok page)
    {target : Nat} (hlow : s.committed ≤ target) (hhigh : target ≤ s.reserved)
    (hgrain : page ∣ target ∨ target = s.reserved) :
    rgmCommitTo os s target = (false, s) ∨
      ∃ s', rgmCommitTo os s target = (true, s') ∧ Grown s s' ∧
        s'.pos = s.pos ∧ s'.Ok page ∧ s'.committed = target := by
  have hfits := hs.fits
  have hposle := hs.pos_le
  have hextra : u64Sub target s.committed = target - s.committed := by
    by_cases h0 : s.base = 0
    · have := hs.inert h0
      unfold u64Sub
      omega
    · exact u64Sub_of_le hlow (by omega)
  unfold rgmCommitTo
  rw [hextra]
  rcases rgmVmCommit_cases os s (s.base + s.committed) (target - s.committed) with
    hfail | ⟨s', hok, harena, hmem, hacc, hin⟩
  · rw [hfail]
    exact .inl rfl
  · have hb : s'.base = s.base := congrArg Arena.base harena
    have hr : s'.reserved = s.reserved := congrArg Arena.reserved harena
    have hp : s'.pos = s.pos := congrArg Arena.pos harena
    have hk : s'.backing = s.backing := congrArg Arena.backing harena
    rw [hok]
    refine .inr ⟨{ s' with committed := target }, rfl,
      ⟨hb, hr, hk, hlow, ?_, ?_⟩, hp, ⟨?_, ?_, ?_, ?_, ?_, ?_, ?_⟩, rfl⟩
    · exact fun x hx => hmem x (by unfold Out at *; omega)
    · exact fun x hx => hacc x (by unfold Out at *; omega)
    · show page ∣ s'.base
      rw [hb]
      exact hs.base_page
    · intro h0
      exact hr.trans (hs.inert (hb.symm.trans h0))
    · show s'.base + s'.reserved ≤ _
      omega
    · show s'.pos ≤ target
      omega
    · show target ≤ s'.reserved
      omega
    · show page ∣ target ∨ target = s'.reserved
      rwa [hr]
    · intro x hx hx'
      change s'.base ≤ x at hx
      change x < s'.base + target at hx'
      by_cases hold : x < s.base + s.committed
      · exact (hacc x (by unfold Out; omega)).trans (hs.opened x (by omega) hold)
      · exact hin x (by omega) (by omega)

/-- `rgm_arena_ensure_committed` either fails and changes nothing, or leaves a well-formed arena
whose committed pages cover the request. -/
theorem rgmArenaEnsureCommitted_cases {page : Nat} (hpage : IsPageSize page) (os : OsReply)
    {s : ArenaState} (hs : s.Ok page) (required : Nat) :
    rgmArenaEnsureCommitted page os s required = (false, s) ∨
      ∃ s', rgmArenaEnsureCommitted page os s required = (true, s') ∧ Grown s s' ∧
        s'.pos = s.pos ∧ s'.Ok page ∧ required ≤ s'.committed := by
  unfold rgmArenaEnsureCommitted
  by_cases hcov : required ≤ s.committed
  · exact .inr ⟨s, by rw [if_pos hcov], .refl s, rfl, hs, hcov⟩
  rw [if_neg hcov]
  by_cases hres : required > s.reserved
  · exact .inl (if_pos hres)
  rw [if_neg hres]
  have hlive : 0 < s.base := by
    refine Nat.pos_of_ne_zero fun h0 => ?_
    have := hs.inert h0
    omega
  obtain ⟨hlow, hhigh, hgrain⟩ :=
    rgmCommitTarget_spec hpage (hs.regular hlive) (by omega : s.committed < required) (by omega)
  rcases rgmCommitTo_cases os hs (by omega) hhigh hgrain with hfail | ⟨s', hok, hg, hp, hs', hc⟩
  · exact .inl hfail
  · exact .inr ⟨s', hok, hg, hp, hs', hc ▸ hlow⟩

/-! ## Allocating -/

/-- A granted allocation: `size` bytes at `p`, aligned, above everything handed out before and
inside the committed part of the reservation. -/
structure Granted (page : Nat) (s s' : ArenaState) (p size align : Nat) : Prop where
  grown : Grown s s'
  ok : s'.Ok page
  aligned : align ∣ p
  above : s.base + s.pos ≤ p
  near : p < s.base + s.pos + align
  pos : s'.base + s'.pos = p + size
  size_pos : 0 < size
  live : 0 < s.base

/-- Giving a block back at once rewinds by its size; the padding before it stays. -/
theorem Granted.pop {page : Nat} {s s' : ArenaState} {p size align : Nat}
    (h : Granted page s s' p size align) :
    rgArenaPop s' size = { s' with pos := s'.pos - size } := by
  have hbase := h.grown.base
  have hlive := h.live
  have habove := h.above
  have hpos := h.pos
  have hl : rgmArenaIsLive s'.toArena = true := decide_eq_true (by omega)
  unfold rgArenaPop
  rw [hl, if_neg (by simp), if_neg (by omega)]

/-- The padded position does not wrap: the address that it stands for is the next multiple of the
alignment, which is at most `2 ^ 64`. -/
theorem padded_off {page : Nat} {a : Arena} (ha : a.Regular page) {k : Nat} (hk : k < 64) :
    ∃ off, u64 (a.pos + rgmAlignPadding (u64 (a.base + a.pos)) (2 ^ k)) = off ∧
      a.pos ≤ off ∧ off < a.pos + 2 ^ k ∧ 2 ^ k ∣ a.base + off ∧ a.base + off ≤ 2 ^ 64 := by
  have hlive := ha.live
  have hfits := ha.fits
  have hpos := ha.pos_le
  have hcom := ha.committed_le
  have haddr : a.base + a.pos ≤ 2 ^ 64 := by omega
  obtain ⟨hpad, hdvd⟩ := rgmAlignPadding_spec hk haddr
  have hle : a.base + a.pos + rgmAlignPadding (u64 (a.base + a.pos)) (2 ^ k) ≤ 2 ^ 64 :=
    padded_le hpad hdvd (dvd_word hk) (by omega)
  refine ⟨_, u64_of_lt (by omega), Nat.le_add_right _ _, Nat.add_lt_add_left hpad _, ?_, ?_⟩
  · rwa [← Nat.add_assoc]
  · rwa [← Nat.add_assoc]

section

variable {page : Nat} (hpage : IsPageSize page) (os : OsReply) {s : ArenaState} (hs : s.Ok page)

include hs in
/-- A new position that does not wrap is exact. -/
theorem padded_pos {size k : Nat} (hk : k < 64) (hlive : 0 < s.base) (hsize : size < 2 ^ 64)
    (hwrap : ¬ u64 (u64 (s.pos + rgmAlignPadding (u64 (s.base + s.pos)) (2 ^ k)) + size) <
      u64 (s.pos + rgmAlignPadding (u64 (s.base + s.pos)) (2 ^ k))) :
    ∃ off, u64 (s.pos + rgmAlignPadding (u64 (s.base + s.pos)) (2 ^ k)) = off ∧
      u64 (off + size) = off + size ∧ s.pos ≤ off ∧ off < s.pos + 2 ^ k ∧ 2 ^ k ∣ s.base + off := by
  obtain ⟨off, hoff, hge, hlt, hdvd, hend⟩ := padded_off (hs.regular hlive) hk
  rw [hoff] at hwrap ⊢
  refine ⟨off, rfl, ?_, hge, hlt, hdvd⟩
  unfold u64 at hwrap ⊢
  omega

include hpage hs in
/-- Both paths of an allocation, at an alignment that passed the checks. -/
theorem rgmArenaAllocBump_cases {size k : Nat} (hk : k < 64) (hlive : 0 < s.base)
    (hsize : size < 2 ^ 64) (hsize0 : 0 < size) :
    rgmArenaAllocBump s size (2 ^ k) (rgmArenaAllocInternal page os s size (2 ^ k)) = (0, s) ∨
      ∃ p s', rgmArenaAllocBump s size (2 ^ k) (rgmArenaAllocInternal page os s size (2 ^ k)) =
        (p, s') ∧ Granted page s s' p size (2 ^ k) := by
  have hfits := hs.fits
  unfold rgmArenaAllocBump rgmArenaAllocInternal
  simp only [if_neg (Nat.ne_of_gt hsize0)]
  by_cases hwrap : u64 (u64 (s.pos + rgmAlignPadding (u64 (s.base + s.pos)) (2 ^ k)) + size) <
      u64 (s.pos + rgmAlignPadding (u64 (s.base + s.pos)) (2 ^ k))
  · rw [if_neg (by omega), if_pos (.inl hwrap)]
    exact .inl rfl
  obtain ⟨off, hoff, hnew, hge, hlt, hdvd⟩ := padded_pos hs hk hlive hsize hwrap
  rw [hoff, hnew] at hwrap ⊢
  by_cases hfast : off + size ≤ s.committed
  · -- the fast path: the block fits below the committed boundary
    rw [if_pos ⟨by omega, hfast⟩]
    refine .inr ⟨_, _, rfl, ⟨⟨rfl, rfl, rfl, Nat.le_refl _, fun _ _ => rfl, fun _ _ => rfl⟩, ?_,
      hdvd, by omega, by omega, (Nat.add_assoc _ _ _).symm, hsize0, hlive⟩⟩
    exact ⟨hs.base_page, hs.inert, hs.fits, hfast, hs.committed_le, hs.committed_page, hs.opened⟩
  · rw [if_neg (by omega)]
    by_cases hres : off + size > s.reserved
    · rw [if_pos (.inr hres)]
      exact .inl rfl
    rw [if_neg (by omega)]
    rcases rgmArenaEnsureCommitted_cases hpage os hs (off + size) with
      hfail | ⟨s', hok, hg, hp, hs', hc⟩
    · rw [hfail]
      exact .inl rfl
    · rw [hok]
      refine .inr ⟨_, _, rfl, ⟨⟨hg.base, hg.reserved, hg.backing, hg.committed, hg.mem, hg.access⟩,
        ?_, ?_, ?_, ?_, ?_, hsize0, hlive⟩⟩
      · exact ⟨hs'.base_page, hs'.inert, hs'.fits, hc, hs'.committed_le, hs'.committed_page,
          hs'.opened⟩
      · rwa [hg.base]
      · show _ ≤ s'.base + off
        rw [hg.base]; omega
      · show s'.base + off < _
        rw [hg.base]; omega
      · show s'.base + (off + size) = s'.base + off + size
        omega

end

/-- The alignments that `rgArenaAllocAligned` accepts, in the form it uses them. -/
theorem alignment_cases {al : Nat} (hal : al < 2 ^ 64) (hpow : al &&& u64Sub al 1 = 0) :
    ∃ k, k < 64 ∧ 3 ≤ k ∧ (if al < 8 then 8 else al) = 2 ^ k := by
  by_cases h8 : al < 8
  · exact ⟨3, by decide, by decide, by rw [if_pos h8]; rfl⟩
  rw [if_neg h8]
  have hsub : u64Sub al 1 = al - 1 := u64Sub_of_le (by omega) hal
  rw [hsub, Nat.and_sub_one_eq_zero_iff_isPowerOfTwo (by omega)] at hpow
  obtain ⟨k, rfl⟩ := hpow
  refine ⟨k, (Nat.pow_lt_pow_iff_right (by decide)).mp hal, ?_, rfl⟩
  exact (Nat.pow_le_pow_iff_right (a := 2) (by decide)).mp (by omega)

theorem rgArenaAllocAligned_cases {page : Nat} (hpage : IsPageSize page) (os : OsReply)
    {s : ArenaState} (hs : s.Ok page) {size al : Nat} (hsize : size < 2 ^ 64)
    (hal : al < 2 ^ 64) :
    rgArenaAllocAligned page os s size al = (0, s) ∨
      ∃ p s', rgArenaAllocAligned page os s size al = (p, s') ∧
        Granted page s s' p size (if al < 8 then 8 else al) := by
  unfold rgArenaAllocAligned
  by_cases hdead : !rgmArenaIsLive s.toArena ∨ size = 0
  · exact .inl (if_pos hdead)
  rw [if_neg hdead]
  by_cases hpow : al &&& u64Sub al 1 ≠ 0
  · exact .inl (if_pos hpow)
  rw [if_neg hpow]
  have hlive : 0 < s.base := by
    simp [rgmArenaIsLive] at hdead
    omega
  obtain ⟨k, hk, _, heq⟩ := alignment_cases hal (by simpa using hpow)
  rw [heq]
  exact rgmArenaAllocBump_cases hpage os hs hk hlive hsize (by omega)

/-- An allocation that fits below the committed boundary, whatever its padding, is granted. -/
theorem rgArenaAllocAligned_fits {page : Nat} (os : OsReply) {s : ArenaState} (hs : s.Ok page)
    (hlive : 0 < s.base) {size k : Nat} (hk3 : 3 ≤ k) (hk : k < 64) (hsize : 0 < size)
    (hfit : s.pos + 2 ^ k + size ≤ s.committed) :
    (rgArenaAllocAligned page os s size (2 ^ k)).1 ≠ 0 := by
  have hfits := hs.fits
  have hcom := hs.committed_le
  have h8 : 2 ^ 3 ≤ 2 ^ k := Nat.pow_le_pow_right (by decide) hk3
  have hdead : ¬ (!rgmArenaIsLive s.toArena ∨ size = 0) := by
    simp [rgmArenaIsLive]
    omega
  have hpow : ¬ 2 ^ k &&& u64Sub (2 ^ k) 1 ≠ 0 := by
    rw [u64Sub_of_le (Nat.two_pow_pos k) (pow_lt_word hk), Nat.and_two_pow_sub_one_eq_mod]
    simp
  obtain ⟨hpad, -⟩ := rgmAlignPadding_spec hk (by omega : s.base + s.pos ≤ 2 ^ 64)
  have hoff : u64 (s.pos + rgmAlignPadding (u64 (s.base + s.pos)) (2 ^ k)) =
      s.pos + rgmAlignPadding (u64 (s.base + s.pos)) (2 ^ k) := u64_of_lt (by omega)
  have hnew : u64 (s.pos + rgmAlignPadding (u64 (s.base + s.pos)) (2 ^ k) + size) =
      s.pos + rgmAlignPadding (u64 (s.base + s.pos)) (2 ^ k) + size := u64_of_lt (by omega)
  rw [rgArenaAllocAligned, if_neg hdead, if_neg hpow, if_neg (by omega : ¬ 2 ^ k < 8)]
  dsimp only
  rw [rgmArenaAllocBump, hoff, hnew, if_pos ⟨by omega, by omega⟩]
  show s.base + _ ≠ 0
  omega

theorem rgArenaAlloc_eq (page : Nat) (os : OsReply) (s : ArenaState) (size : Nat) :
    rgArenaAlloc page os s size = rgArenaAllocAligned page os s size 16 := by
  have hpow : ¬ (16 &&& u64Sub 16 1 ≠ 0) := by decide
  rw [rgArenaAlloc, rgArenaAllocAligned, if_neg hpow]
  rfl

/-- A commit that fails changes nothing; one that succeeds keeps the base. -/
theorem rgmCommitTo_outcome (os : OsReply) (s : ArenaState) (target : Nat) :
    rgmCommitTo os s target = (false, s) ∨
      ∃ s', rgmCommitTo os s target = (true, s') ∧ s'.base = s.base := by
  unfold rgmCommitTo
  rcases rgmVmCommit_cases os s (s.base + s.committed) (u64Sub target s.committed) with
    hfail | ⟨s', hok, harena, -⟩
  · rw [hfail]
    exact .inl rfl
  · have hbase : s'.base = s.base := congrArg Arena.base harena
    rw [hok]
    exact .inr ⟨{ s' with committed := target }, rfl, hbase⟩

theorem rgmArenaEnsureCommitted_outcome (page : Nat) (os : OsReply) (s : ArenaState) (required : Nat) :
    rgmArenaEnsureCommitted page os s required = (false, s) ∨
      ∃ s', rgmArenaEnsureCommitted page os s required = (true, s') ∧ s'.base = s.base := by
  unfold rgmArenaEnsureCommitted
  split
  · exact .inr ⟨s, rfl, rfl⟩
  split
  · exact .inl rfl
  · exact rgmCommitTo_outcome os s _

theorem rgmArenaAllocInternal_null {page : Nat} {os : OsReply} {s : ArenaState} (hbase : s.base ≠ 0)
    {size align : Nat} (h : (rgmArenaAllocInternal page os s size align).1 = 0) :
    (rgmArenaAllocInternal page os s size align).2 = s := by
  unfold rgmArenaAllocInternal at h ⊢
  by_cases hsize : size = 0
  · rw [if_pos hsize]
  rw [if_neg hsize] at h ⊢
  dsimp only at h ⊢
  split
  · rfl
  next hroom =>
  rw [if_neg hroom] at h
  rcases rgmArenaEnsureCommitted_outcome page os s
      (u64 (u64 (s.pos + rgmAlignPadding (u64 (s.base + s.pos)) align) + size)) with
    hfail | ⟨s', hok, hbase'⟩
  · rw [hfail]
  · rw [hok] at h
    dsimp only at h
    omega

theorem rgmArenaAllocBump_null {s : ArenaState} (hbase : s.base ≠ 0) {size align : Nat}
    {slow : Nat × ArenaState} (hslow : slow.1 = 0 → slow.2 = s)
    (h : (rgmArenaAllocBump s size align slow).1 = 0) :
    (rgmArenaAllocBump s size align slow).2 = s := by
  unfold rgmArenaAllocBump at h ⊢
  dsimp only at h ⊢
  split at h
  · dsimp only at h
    omega
  next hpast =>
  rw [if_neg hpast]
  exact hslow h

/-- An allocation that answers null leaves every arena as it was. -/
theorem rgArenaAllocAligned_null {page : Nat} {os : OsReply} {s : ArenaState} {size al : Nat}
    (h : (rgArenaAllocAligned page os s size al).1 = 0) :
    (rgArenaAllocAligned page os s size al).2 = s := by
  unfold rgArenaAllocAligned at h ⊢
  by_cases hdead : !rgmArenaIsLive s.toArena ∨ size = 0
  · rw [if_pos hdead]
  rw [if_neg hdead] at h ⊢
  by_cases hpow : al &&& u64Sub al 1 ≠ 0
  · rw [if_pos hpow]
  rw [if_neg hpow] at h ⊢
  have hbase : s.base ≠ 0 := by
    intro h0
    exact hdead (.inl (by simp [rgmArenaIsLive, h0]))
  exact rgmArenaAllocBump_null hbase (rgmArenaAllocInternal_null hbase) h

theorem rgArenaAlloc_null {page : Nat} {os : OsReply} {s s' : ArenaState} {size : Nat}
    (h : rgArenaAlloc page os s size = (0, s')) : s' = s := by
  rw [rgArenaAlloc_eq] at h
  have hnull := rgArenaAllocAligned_null (congrArg Prod.fst h)
  rwa [h] at hnull

/-- What a creator answers for a null block is an error. -/
theorem refusal_ne_ok (a : Arena) :
    (if rgArenaIsValid a then Status.errNoMemory else .errInvalid) ≠ .ok := by
  split <;> decide

/-- A block that the arena hands out ends inside the address space. -/
theorem rgArenaAllocAligned_end_le {page : Nat} (hpage : IsPageSize page) {os : OsReply}
    {s s' : ArenaState} (hs : s.Ok page) {size al p : Nat} (hsize : size < 2 ^ 64)
    (hal : al < 2 ^ 64) (h : rgArenaAllocAligned page os s size al = (p, s')) (hp : p ≠ 0) :
    p + size ≤ 2 ^ 64 := by
  rcases rgArenaAllocAligned_cases hpage os hs hsize hal with hnull | ⟨q, s'', hok, hg⟩
  · rw [hnull] at h
    cases h
    exact absurd rfl hp
  · rw [hok] at h
    cases h
    have hend := hg.pos
    have hpos := hg.ok.pos_le
    have hcom := hg.ok.committed_le
    have hfit := hg.ok.fits
    omega

theorem rgArenaAlloc_end_le {page : Nat} (hpage : IsPageSize page) {os : OsReply}
    {s s' : ArenaState} (hs : s.Ok page) {size p : Nat} (hsize : size < 2 ^ 64)
    (h : rgArenaAlloc page os s size = (p, s')) (hp : p ≠ 0) : p + size ≤ 2 ^ 64 := by
  rw [rgArenaAlloc_eq] at h
  exact rgArenaAllocAligned_end_le hpage hs hsize (by decide) h hp

/-- A block of the default alignment, when there is one, has it. -/
theorem rgArenaAlloc_dvd {page : Nat} (hpage : IsPageSize page) (os : OsReply) {s : ArenaState}
    (hs : s.Ok page) {size : Nat} (hsize : size < 2 ^ 64) :
    16 ∣ (rgArenaAlloc page os s size).1 := by
  rw [rgArenaAlloc_eq]
  rcases rgArenaAllocAligned_cases hpage os hs hsize (by decide : 16 < 2 ^ 64) with
    hnull | ⟨p, s', hok, hg⟩
  · rw [hnull]
    exact Nat.dvd_zero 16
  · rw [hok]
    exact hg.aligned

theorem rgArenaAllocFast_eq (page : Nat) (os : OsReply) (s : ArenaState) (size : Nat) :
    rgArenaAllocFast page os s size = rgArenaAlloc page os s size := by
  have hpad : u64Sub 0 (u64 (s.base + s.pos)) &&& 15 =
      rgmAlignPadding (u64 (s.base + s.pos)) rgmArenaDefaultAlign := by
    have hlt := u64_lt (s.base + s.pos)
    have hneg : u64Sub 0 (u64 (s.base + s.pos)) = u64 (u64Not (u64 (s.base + s.pos)) + 1) := by
      unfold u64Sub u64Not
      unfold u64 at *
      omega
    rw [rgmAlignPadding, hneg]
    rfl
  unfold rgArenaAllocFast
  split
  · next h =>
    have hlive : ¬ (!rgmArenaIsLive s.toArena ∨ size = 0) := by simpa using h
    simp only [hpad]
    split
    · next hfast => rw [rgArenaAlloc, if_neg hlive, rgmArenaAllocBump, if_pos hfast]
    · rfl
  · rfl

end RgMemory
