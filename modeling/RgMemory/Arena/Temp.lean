import RgMemory.Arena.Contents

/-!
# Temporary files

The file of an arena from `rgArenaCreateSharedTemp` loses its name before it is sized and mapped, so
that the mapping is all that holds it. In every run that follows, it is held by the mapping of its arena
and by nothing else; the destruction of the arena, or the end of the process, releases it for good.
-/

namespace RgMemory

open Bytes Files

namespace Process

variable {ν α : Type} {page : Nat} {h0 : Host ν} {p p' : Process ν α} {a b : α} {c : ProcessCall ν}
  {i : Nat}

/-- Only the mapping of the arena holds the file, if anything does. -/
structure HeldBy (p : Process ν α) (a : α) (i : Nat) : Prop where
  exists_file : i < p.host.next
  unnamed : ¬ p.host.Named i
  closed : ∀ fd, p.host.fds fd ≠ some i
  mapping : ∀ r ∈ p.host.regions, r.file = some i → 0 < (p.arena a).base ∧ Over (p.arena a) r

/-- Nothing holds the file. -/
structure Released (p : Process ν α) (i : Nat) : Prop where
  exists_file : i < p.host.next
  free : ¬ p.host.Held i

/-- The end of the process releases it, too. -/
theorem HeldBy.exit (hh : p.HeldBy a i) : ¬ p.host.exit.Held i := by
  rintro (hnamed | ⟨fd, hfd⟩ | ⟨r, hr, -⟩)
  · exact hh.unnamed hnamed
  · cases hfd
  · exact absurd hr List.not_mem_nil

section

variable [DecidableEq ν] [DecidableEq α]

theorem call_next_le (h : p.Accounted page h0) (hc : p.Allowed page a c) :
    p.host.next ≤ (p.call page a c).2.host.next := (call_leaves h hc).next_le

/-- A file without a name stays without one, and gets no further mapping. -/
theorem call_unnamed (h : p.Accounted page h0) (hc : p.Allowed page a c) (hi : i < p.host.next)
    (hunnamed : ¬ p.host.Named i) :
    ¬ (p.call page a c).2.host.Named i ∧
      ∀ r ∈ (p.call page a c).2.host.regions, r.file = some i → r ∈ p.host.regions := by
  have hnew : ¬ (p.host.Named i ∨ p.host.next ≤ i) := by
    rintro (hnamed | hle)
    · exact hunnamed hnamed
    · exact absurd hi (Nat.not_lt.mpr hle)
  refine ⟨fun hnamed => hnew ((call_leaves h hc).named i hnamed), fun r hr hfile => ?_⟩
  rcases call_new_region h hc hr with hold | hfound
  · exact hold
  · exact absurd (hfound i hfile) hnew

theorem HeldBy.call (hh : p.HeldBy a i) (h : p.Accounted page h0) (hc : p.Allowed page b c) :
    (p.call page b c).2.HeldBy a i := by
  have h' := h.call hc
  obtain ⟨hunnamed, hregions⟩ := call_unnamed h hc hh.exists_file hh.unnamed
  refine ⟨Nat.lt_of_lt_of_le hh.exists_file (call_next_le h hc), hunnamed, ?_, fun r hr hfile => ?_⟩
  · rw [h'.fds, ← h.fds]
    exact hh.closed
  · have hr0 := hregions r hr hfile
    obtain ⟨hlive, hover⟩ := hh.mapping r hr0 hfile
    by_cases hab : a = b
    · subst hab
      -- the mapping has an owner after the call, which can only be the same arena
      have hpos := (h.mapping a hlive).1
      rcases h'.owner r hr with hold | ⟨b', hlive', hover'⟩
      · have := h.clear a hlive r hold
        rw [hover.base, hover.len] at this
        unfold Apart at this
        omega
      · by_cases hb' : b' = a
        · subst hb'
          exact ⟨hlive', hover'⟩
        · rw [call_arena page p hb'] at hlive' hover'
          have := h.apart a b' (Ne.symm hb') hlive hlive'
          rw [← hover.base, ← hover.len, ← hover'.base, ← hover'.len] at this
          rw [← hover.len] at hpos
          unfold Apart at this
          omega
    · rw [call_arena page p hab]
      exact ⟨hlive, hover⟩

theorem Released.call (hr : p.Released i) (h : p.Accounted page h0) (hc : p.Allowed page b c) :
    (p.call page b c).2.Released i := by
  obtain ⟨hunnamed, hregions⟩ := call_unnamed h hc hr.exists_file fun hn => hr.free (.inl hn)
  refine ⟨Nat.lt_of_lt_of_le hr.exists_file (call_next_le h hc), ?_⟩
  rintro (hnamed | ⟨fd, hfd⟩ | ⟨r, hr', hfile⟩)
  · exact hunnamed hnamed
  · rw [(h.call hc).fds, ← h.fds] at hfd
    exact hr.free (.inr (.inl ⟨fd, hfd⟩))
  · exact hr.free (.inr (.inr ⟨r, hregions r hr' hfile, hfile⟩))

theorem HeldBy.run (hh : p.HeldBy a i) (h : p.Accounted page h0)
    (hrun : Relation.ReflTransGen (Step page) p p') : p'.HeldBy a i := by
  induction hrun with
  | refl => exact hh
  | tail hrun hstep ih =>
    cases hstep with
    | call b allowed => exact ih.call (h.run hrun) allowed

theorem Released.run (hr : p.Released i) (h : p.Accounted page h0)
    (hrun : Relation.ReflTransGen (Step page) p p') : p'.Released i := by
  induction hrun with
  | refl => exact hr
  | tail hrun hstep ih =>
    cases hstep with
    | call b allowed => exact ih.call (h.run hrun) allowed

/-- The destruction of the arena releases the file. -/
theorem HeldBy.destroy (hh : p.HeldBy a i) (h : p.Accounted page h0) :
    (p.call page a .destroy).2.Released i := by
  have hh' := hh.call h (b := a) (c := .destroy) trivial
  refine ⟨hh'.exists_file, ?_⟩
  rintro (hnamed | ⟨fd, hfd⟩ | ⟨r, hr, hfile⟩)
  · exact hh'.unnamed hnamed
  · exact hh'.closed fd hfd
  · have hinert : ((p.call page a .destroy).2.arena a).base = 0 := by
      have harena : (p.call page a .destroy).2.arena a = (rgArenaDestroy p.host (p.arena a)).2 :=
        Function.update_self ..
      rw [harena]
      rcases destroy_cases p.host (p.arena a) with ⟨hbase, heq⟩ | ⟨-, heq⟩
      · rw [heq]
        exact hbase
      · rw [heq]
    exact absurd hinert (Nat.ne_of_gt (hh'.mapping r hr hfile).1)

end

end Process

end RgMemory
