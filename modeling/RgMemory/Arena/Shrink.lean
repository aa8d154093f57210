import RgMemory.Arena.Run

/-!
# What a shrink retains

`rgArenaShrinkKeep` adds the slack to the position and rounds up, both modulo `2 ^ 64`; two guards
are to turn a wrap into a no-op, so that a huge slack means "keep everything". `Retained` is what
that promises, in exact integers and for every answer of the operating system. It holds in all cases
but one (`shrinkKeep_retains_iff`): at position 0 a sum that wraps to 0 is not below the position, and
the whole arena is decommitted.
-/

namespace RgMemory

open Bytes Align

/-- `n` rounded up to whole pages, without a bound. -/
def pageCeil (page n : Nat) : Nat := (n + (page - 1)) / page * page

theorem le_pageCeil {page : Nat} (hpage : 0 < page) (n : Nat) : n ≤ pageCeil page n := by
  rw [pageCeil, Nat.div_mul_self_eq_mod_sub_self]
  exact (roundUp_spec hpage).2.1

/-- Without a wrap, `rgm_align_up` is exact. -/
theorem rgmAlignUp_eq_pageCeil {v k : Nat} (hk : k < 64) (hv : v + (2 ^ k - 1) < 2 ^ 64) :
    rgmAlignUp v (2 ^ k) = pageCeil (2 ^ k) v := by
  rw [rgmAlignUp_eq hk, u64_of_lt hv, pageCeil, Nat.div_mul_self_eq_mod_sub_self]

/-- What a shrink with some slack promises. The committed size stays or becomes the exact rounded
sum; nothing at or below the last page that holds a byte of the retained window is touched. -/
structure Retained (page slack : Nat) (s s' : ArenaState) : Prop where
  committed : s'.committed = s.committed ∨
    s'.committed = pageCeil page (s.pos + slack) ∧ s'.committed < s.committed
  floor : min s.committed (s.pos + slack) ≤ s'.committed
  pos : s'.pos = s.pos
  reserved : s'.reserved = s.reserved
  window : ∀ x, x < s.base + pageCeil page (s.pos + slack) →
    s'.mem x = s.mem x ∧ s'.access x = s.access x

theorem Retained.refl (page slack : Nat) (s : ArenaState) : Retained page slack s s :=
  ⟨.inl rfl, Nat.min_le_left _ _, rfl, rfl, fun _ _ => ⟨rfl, rfl⟩⟩

/-- A decommit touches no address below its target. -/
theorem rgmShrinkTo_below (os : OsReply) (s : ArenaState) {target x : Nat}
    (hx : x < s.base + target) :
    (rgmShrinkTo os s target).mem x = s.mem x ∧
      (rgmShrinkTo os s target).access x = s.access x := by
  have hmem : copy s.mem (s.base + target) (fun i => os.fill (s.base + target + i))
      (s.committed - target) x = s.mem x := copy_out _ _ (.inl hx)
  have hnot : decide (s.base + target ≤ x ∧ x < s.base + target + (s.committed - target)) = false :=
    decide_eq_false (by omega)
  unfold rgmShrinkTo rgmVmDiscard rgmVmProtectNone
  cases os.protectOk with
  | false => exact ⟨hmem, rfl⟩
  | true =>
    refine ⟨hmem, ?_⟩
    simp only [if_true, hnot, Bool.not_false, Bool.true_and]

/-- A decommit down to the exact rounded sum retains what it promises. -/
theorem rgmShrinkTo_retained {page : Nat} (hpage : 0 < page) (os : OsReply) {s : ArenaState}
    {slack : Nat} (hlt : pageCeil page (s.pos + slack) < s.committed) :
    Retained page slack s (rgmShrinkTo os s (pageCeil page (s.pos + slack))) := by
  have hle := le_pageCeil hpage (s.pos + slack)
  have hbelow : ∀ x, x < s.base + pageCeil page (s.pos + slack) →
      (rgmShrinkTo os s (pageCeil page (s.pos + slack))).mem x = s.mem x ∧
        (rgmShrinkTo os s (pageCeil page (s.pos + slack))).access x = s.access x :=
    fun _ hx => rgmShrinkTo_below os s hx
  unfold rgmShrinkTo rgmVmDiscard rgmVmProtectNone at hbelow ⊢
  cases hprot : os.protectOk with
  | false =>
    simp only [hprot] at hbelow ⊢
    exact ⟨.inl rfl, Nat.min_le_left _ _, rfl, rfl, hbelow⟩
  | true =>
    simp only [hprot] at hbelow ⊢
    refine ⟨.inr ⟨rfl, hlt⟩, ?_, rfl, rfl, hbelow⟩
    show _ ≤ pageCeil page (s.pos + slack)
    exact Nat.le_trans (Nat.min_le_right _ _) hle

/-- **When a shrink keeps its promise.** For every live anonymous arena and every slack: unless the
position is 0, some page is committed, and the slack lies less than a page below `2 ^ 64`. -/
theorem shrinkKeep_retains_iff {page : Nat} (hpage : IsPageSize page) {s : ArenaState}
    (hlive : s.base ≠ 0) (hanon : s.backing = .anon) (hpos : s.pos ≤ s.committed)
    (hword : s.committed < 2 ^ 64) (slack : BitVec 64) :
    (∀ os, Retained page slack.toNat s (rgArenaShrinkKeep page os s slack.toNat)) ↔
      ¬ (s.pos = 0 ∧ 0 < s.committed ∧ 2 ^ 64 - page < slack.toNat) := by
  obtain ⟨k, hk, rfl⟩ := hpage
  have hpow := Nat.two_pow_pos k
  have hlt := pow_lt_word hk
  have hslack := slack.isLt
  have hl : rgmArenaIsLive s.toArena = true := decide_eq_true hlive
  have hfile : ¬ s.backing = .file := by simp [hanon]
  have hroom : u64Sub (2 ^ 64 - 1) s.pos = 2 ^ 64 - 1 - s.pos := u64Sub_of_le (by omega) (by omega)
  unfold rgArenaShrinkKeep rgmArenaShrinkKeep
  simp only [hl, hroom, if_neg hfile, Bool.not_true, Bool.false_eq_true, if_false]
  constructor
  · -- a sum that wraps to 0 passes the second guard at position 0
    rintro hall ⟨hp0, hcom, hbig⟩
    have hret := hall ⟨0, true, true, fun _ => 0⟩
    have hsum : u64 (s.pos + slack.toNat) = slack.toNat := by
      rw [hp0, Nat.zero_add]
      exact u64_of_lt hslack
    have hzero : rgmAlignUp slack.toNat (2 ^ k) = 0 := rgmAlignUp_wrap hk hslack (by omega)
    rw [hsum, hzero, if_neg (by omega), if_neg (by omega), if_neg (by omega)] at hret
    have hfloor : min s.committed (s.pos + slack.toNat) ≤ 0 := hret.floor
    omega
  · intro hsafe os
    split
    · exact .refl _ _ s
    next hguard =>
    have hsum : u64 (s.pos + slack.toNat) = s.pos + slack.toNat := u64_of_lt (by omega)
    rw [hsum]
    rcases Nat.lt_or_ge (s.pos + slack.toNat + (2 ^ k - 1)) (2 ^ 64) with hfit | hwrap
    · rw [rgmAlignUp_eq_pageCeil hk hfit]
      have hle := le_pageCeil hpow (s.pos + slack.toNat)
      rw [if_neg (by omega)]
      split
      · exact .refl _ _ s
      · next hc => exact rgmShrinkTo_retained hpow os (by omega)
    · rw [rgmAlignUp_wrap hk (by omega) hwrap]
      split
      · exact .refl _ _ s
      · rw [if_pos (by omega)]
        exact .refl _ _ s

/-- A 64 KiB arena after `Clear`, asked to keep everything, loses every page. -/
theorem clearedArena_decommitted :
    let s' := rgArenaShrinkKeep 4096 ⟨0, true, true, fun _ => 0⟩ sampleArena (2 ^ 64 - 1)
    sampleArena.pos = 0 ∧ sampleArena.committed = 65536 ∧ s'.committed = 0 ∧
      ¬ Retained 4096 (2 ^ 64 - 1) sampleArena s' := by
  have hzero : (rgArenaShrinkKeep 4096 ⟨0, true, true, fun _ => 0⟩ sampleArena
      (2 ^ 64 - 1)).committed = 0 := by decide
  refine ⟨rfl, rfl, hzero, fun hret => ?_⟩
  have hfloor := hret.floor
  rw [hzero] at hfloor
  exact absurd hfloor (by decide)

/-- With ordinary slack the promise is kept. -/
theorem sampleArena_retains :
    Retained 4096 100 sampleArena (rgArenaShrinkKeep 4096 sampleOs sampleArena 100) := by
  have hpage : IsPageSize 4096 := ⟨12, by decide, rfl⟩
  have hall := (shrinkKeep_retains_iff hpage (s := sampleArena) (by decide) rfl (by decide)
    (by decide) 100).mpr fun h => absurd h.2.2 (by decide)
  exact hall sampleOs

end RgMemory
