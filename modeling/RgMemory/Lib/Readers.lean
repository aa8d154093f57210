import RgMemory.Lib.Progress

/-!
# Readers beside an object

A reader is an operation that looks at the shared state in several steps, changes nothing, and answers
from all that it has seen. `Machine.beside` puts the calls of a reader beside those of an object:
threads call either, and the steps interleave. What follows a specification goes on to follow it
(`Simulation.beside`), where a reader leaves the abstract state alone.

An answer that is read off at different times is not the answer of one moment. `Between` says that
something was true of the abstract state at a moment between two logs; what a reader has seen at one of
its steps was true between its call and that step, and stays so (`Between.mono`).
-/

namespace RgMemory.Concurrent

variable {τ ξ σ ω ω' φ φ' ρ ρ' κ : Type*}

/-- An operation that changes nothing. -/
structure Reader (σ ω φ ρ : Type*) where
  start : ω → φ
  step : ω → φ → σ → φ ⊕ ρ

/-- The calls of a reader beside those of an object. No operation of the one is in a phase of the
other. -/
def Machine.beside (M : Machine τ ξ σ ω φ ρ) (R : Reader σ ω' φ' ρ') :
    Machine τ ξ σ (ω ⊕ ω') (φ ⊕ φ') (ρ ⊕ ρ') where
  start := Sum.map M.start R.start
  step t x op p s :=
    match op, p with
    | .inl op, .inl p =>
      match M.step t x op p s with
      | (s, out) => (s, out.map .inl .inl)
    | .inr op, .inr p => (s, (R.step op p s).map .inr .inr)
    | _, p => (s, .inl p)

/-- A reader leaves the abstract state alone. -/
def besideSpec (spec : κ → ω → ρ → κ → Prop) (k : κ) : ω ⊕ ω' → ρ ⊕ ρ' → κ → Prop
  | .inl op, .inl r, k' => spec k op r k'
  | .inr _, .inr _, k' => k' = k
  | _, _, _ => False

/-- What a phase relies on. -/
def besideRelies (P : σ → τ → ω → φ → Prop) (s : σ) (t : τ) : ω ⊕ ω' → φ ⊕ φ' → Prop
  | .inl op, .inl p => P s t op p
  | .inr _, .inr _ => True
  | _, _ => False

section

variable {M : Machine τ ξ σ ω φ ρ} {R : Reader σ ω' φ' ρ'} {spec : κ → ω → ρ → κ → Prop}
  {I : σ → κ → Prop} {P : σ → τ → ω → φ → Prop}

/-- What a step beside readers is: a step of the object, or one of a reader, which leaves the shared
state as it is. -/
inductive BesideStep (M : Machine τ ξ σ ω φ ρ) (R : Reader σ ω' φ' ρ') (t : τ) (x : ξ) (s s' : σ) :
    ω ⊕ ω' → φ ⊕ φ' → (φ ⊕ φ') ⊕ (ρ ⊕ ρ') → Prop
  | object {op : ω} {p : φ} {out : φ ⊕ ρ} (step : M.step t x op p s = (s', out)) :
      BesideStep M R t x s s' (.inl op) (.inl p) (out.map .inl .inl)
  | reader {op : ω'} {p : φ'} (shared : s' = s) :
      BesideStep M R t x s s' (.inr op) (.inr p) ((R.step op p s).map .inr .inr)

theorem besideStep_of {t : τ} {x : ξ} {op : ω ⊕ ω'} {p : φ ⊕ φ'} {s s' : σ}
    {out : (φ ⊕ φ') ⊕ (ρ ⊕ ρ')} (hp : besideRelies P s t op p)
    (hstep : (M.beside R).step t x op p s = (s', out)) : BesideStep M R t x s s' op p out := by
  cases op with
  | inl op =>
    cases p with
    | inl p =>
      rcases hobject : M.step t x op p s with ⟨s₁, out₁⟩
      simp only [Machine.beside, hobject] at hstep
      cases hstep
      exact .object hobject
    | inr p => exact absurd hp id
  | inr op =>
    cases p with
    | inl p => exact absurd hp id
    | inr p =>
      cases hstep
      exact .reader rfl

/-- **An object beside readers follows its specification.** -/
theorem Simulation.beside (hsim : Simulation spec M I P) (R : Reader σ ω' φ' ρ') :
    Simulation (besideSpec spec) (M.beside R) I (besideRelies P) where
  start := by
    intro s k t op hI
    cases op with
    | inl op => exact hsim.start s k t op hI
    | inr op => trivial
  move := by
    intro s k t x op p s' p' hI hp hstep
    have hcases := besideStep_of hp hstep
    generalize hout : (Sum.inl p' : (φ ⊕ φ') ⊕ (ρ ⊕ ρ')) = out at hcases
    cases hcases with
    | @object op p out step =>
      cases out with
      | inl q =>
        cases hout
        exact hsim.move s k t x op p s' q hI hp step
      | inr r => cases hout
    | @reader op p shared =>
      subst shared
      cases hread : R.step op p s' with
      | inl q =>
        rw [hread] at hout
        cases hout
        exact ⟨hI, trivial⟩
      | inr r =>
        rw [hread] at hout
        cases hout
  commit := by
    intro s k t x op p s' r hI hp hstep
    have hcases := besideStep_of hp hstep
    generalize hout : (Sum.inr r : (φ ⊕ φ') ⊕ (ρ ⊕ ρ')) = out at hcases
    cases hcases with
    | @object op p out step =>
      cases out with
      | inl q => cases hout
      | inr r =>
        cases hout
        exact hsim.commit s k t x op p s' r hI hp step
    | @reader op p shared =>
      subst shared
      cases hread : R.step op p s' with
      | inl q =>
        rw [hread] at hout
        cases hout
      | inr r =>
        rw [hread] at hout
        cases hout
        exact ⟨k, rfl, hI⟩
  frame := by
    intro s k t x op p s' out hI hp hstep t' htt op' p' hp'
    cases besideStep_of hp hstep with
    | @object op p out step =>
      cases op' with
      | inl op' =>
        cases p' with
        | inl p' => exact hsim.frame s k t x op p s' out hI hp step t' htt op' p' hp'
        | inr p' => exact absurd hp' id
      | inr op' =>
        cases p' with
        | inl p' => exact absurd hp' id
        | inr p' => trivial
    | reader shared => exact shared ▸ hp'

/-! ## The operations of the object -/

/-- An operation of the object, with its result. -/
def ownEntry : Nat × (ω ⊕ ω') × (ρ ⊕ ρ') → Option (Nat × ω × ρ)
  | (id, .inl op, .inl r) => some (id, op, r)
  | _ => none

/-- The log of the object. -/
def ownLog (log : List (Nat × (ω ⊕ ω') × (ρ ⊕ ρ'))) : List (Nat × ω × ρ) := log.filterMap ownEntry

theorem mem_ownLog {log : List (Nat × (ω ⊕ ω') × (ρ ⊕ ρ'))} {x : Nat × ω × ρ} :
    x ∈ ownLog log ↔ (x.1, .inl x.2.1, .inl x.2.2) ∈ log := by
  constructor
  · intro h
    obtain ⟨⟨id, op, r⟩, hmem, hx⟩ := List.mem_filterMap.mp h
    cases op with
    | inl op =>
      cases r with
      | inl r =>
        cases hx
        exact hmem
      | inr r => cases hx
    | inr op => cases hx
  · intro h
    exact List.mem_filterMap.mpr ⟨_, h, rfl⟩

/-- Without the readers, a legal sequence is one of the object. -/
theorem Legal.own {k k' : κ} {log : List (Nat × (ω ⊕ ω') × (ρ ⊕ ρ'))}
    (h : Legal (besideSpec spec) k log k') : Legal spec k (ownLog log) k' := by
  induction h with
  | nil => exact .nil
  | snoc id op r before last ih =>
    unfold ownLog at ih ⊢
    rw [List.filterMap_append]
    cases op with
    | inl op =>
      cases r with
      | inl r => exact ih.snoc id op r last
      | inr r => cases last
    | inr op =>
      cases r with
      | inl r => cases last
      | inr r =>
        obtain rfl : _ = _ := last
        have hnone : List.filterMap ownEntry [(id, Sum.inr op, Sum.inr r)] =
            ([] : List (Nat × ω × ρ)) := rfl
        rw [hnone, List.append_nil]
        exact ih

end

/-! ## Moments -/

/-- At some moment after the log `l` and before the log `l'`, `Q` holds of the abstract state. -/
def Between (spec : κ → ω → ρ → κ → Prop) (k : κ) (l l' : List (Nat × ω × ρ)) (Q : κ → Prop) : Prop :=
  ∃ log m, l <+: log ∧ log <+: l' ∧ Legal spec k log m ∧ Q m

section

variable {spec : κ → ω → ρ → κ → Prop} {k : κ} {l l' l'' : List (Nat × ω × ρ)} {Q : κ → Prop}

/-- Now. -/
theorem Between.now (hl : l <+: l') {m : κ} (h : Legal spec k l' m) (hQ : Q m) :
    Between spec k l l' Q :=
  ⟨l', m, hl, List.prefix_rfl, h, hQ⟩

/-- What was true at a moment stays so. -/
theorem Between.mono (h : Between spec k l l' Q) (hl : l' <+: l'') : Between spec k l l'' Q := by
  obtain ⟨log, m, hpre, hsub, hlegal, hQ⟩ := h
  exact ⟨log, m, hpre, hsub.trans hl, hlegal, hQ⟩

end

/-- Nothing is taken from a log, and what is new comes last. -/
theorem Config.Next.log_prefix [DecidableEq τ] {M : Machine τ ξ σ ω φ ρ}
    {c c' : Config τ σ ω φ ρ} (h : Config.Next M c c') : c.log <+: c'.log := by
  cases h with
  | commit => exact List.prefix_append ..
  | _ => exact List.prefix_rfl

/-! ## One call of a reader -/

section

variable [DecidableEq τ] {M : Machine τ ξ σ ω φ ρ} {R : Reader σ ω' φ' ρ'}
  {c c' c₁ : Config τ σ (ω ⊕ ω') (φ ⊕ φ') (ρ ⊕ ρ')}
  {G : Config τ σ (ω ⊕ ω') (φ ⊕ φ') (ρ ⊕ ρ') → φ' ⊕ ρ' → Prop} {t : τ} {id : Nat} {op : ω'}

/-- A call of a reader goes on as `G` says. -/
abbrev Reads (G : Config τ σ (ω ⊕ ω') (φ ⊕ φ') (ρ ⊕ ρ') → φ' ⊕ ρ' → Prop) (t : τ) (id : Nat) (op : ω')
    (c : Config τ σ (ω ⊕ ω') (φ ⊕ φ') (ρ ⊕ ρ')) : Prop :=
  Config.Goes (fun c p => ∃ q, p = .inr q ∧ G c (.inl q)) (fun c r => ∃ q, r = .inr q ∧ G c (.inr q))
    t id (.inr op) c

/-- What every step of a reader keeps, and no action disturbs, a call of it keeps. -/
theorem Reads.next (h : Reads G t id op c) (hnext : Config.Next (M.beside R) c c')
    (hmono : ∀ y, G c y → G c' y)
    (hstep : ∀ p, G c (.inl p) → G c (R.step op p c.shared)) : Reads G t id op c' := by
  refine Config.Goes.next h hnext ?_ ?_ ?_ ?_
  · rintro p ⟨q, rfl, hq⟩
    exact ⟨q, rfl, hmono _ hq⟩
  · rintro r ⟨q, rfl, hq⟩
    exact ⟨q, rfl, hmono _ hq⟩
  · rintro x p p' s ⟨q, rfl, hq⟩ hmove
    have hG := hstep q hq
    cases hread : R.step op q c.shared with
    | inl q' =>
      simp only [Machine.beside, hread] at hmove
      cases hmove
      exact ⟨q', rfl, hread ▸ hG⟩
    | inr r =>
      simp only [Machine.beside, hread] at hmove
      cases hmove
  · rintro x p r s ⟨q, rfl, hq⟩ hcommit
    have hG := hstep q hq
    cases hread : R.step op q c.shared with
    | inl q' =>
      simp only [Machine.beside, hread] at hcommit
      cases hcommit
    | inr r' =>
      simp only [Machine.beside, hread] at hcommit
      cases hcommit
      exact ⟨r', rfl, hread ▸ hG⟩

/-- `H`, of the phases and results of a reader among all. -/
def Reader.Counts (H : Nat → σ → φ' ⊕ ρ' → Prop) (n : Nat) (s : σ)
    (y : (φ ⊕ φ') ⊕ (ρ ⊕ ρ')) : Prop :=
  ∃ z, y = Sum.map .inr .inr z ∧ H n s z

/-- **Counting the steps of a reader.** When each of its steps takes `H` from `n` to `n + 1`, and no
step of another thread breaks it, `H` holds with the number of the steps that a running call has
taken. -/
theorem Reader.counted {H : Nat → σ → φ' ⊕ ρ' → Prop}
    {Q : Config τ σ (ω ⊕ ω') (φ ⊕ φ') (ρ ⊕ ρ') → Prop}
    (hQ : ∀ c c', Q c → Config.Next (M.beside R) c c' → Q c')
    (hother : ∀ c s n y, Q c → Config.Foreign (M.beside R) c t s → H n c.shared y → H n s y)
    (hown : ∀ c n p, Q c → H n c.shared (.inl p) → H (n + 1) c.shared (R.step op p c.shared))
    (hidle : c₁.thread t = .idle) (hc : Q c₁) (hstart : H 0 c₁.shared (.inl (R.start op)))
    (after : List (Action τ ξ (ω ⊕ ω'))) :
    let c₂ := (c₁.act (M.beside R) (.call t (.inr op))).run (M.beside R) after
    ∀ q, c₂.thread t = .running c₁.next (.inr op) q →
      ∃ p, q = .inr p ∧ H (ownSteps t after) c₂.shared (.inl p) := by
  intro c₂ q hrun
  have hact : c₁.act (M.beside R) (.call t (.inr op)) = c₁.called (M.beside R) t (.inr op) := by
    simp only [Config.act, hidle]
  have hnow : Q (c₁.act (M.beside R) (.call t (.inr op))) := hQ c₁ _ hc (Config.act_next _ c₁ _)
  have hcounted : Config.Counted (Reader.Counts H) t c₁.next (.inr op) 0
      (c₁.act (M.beside R) (.call t (.inr op))) := by
    rw [hact]
    exact ⟨Nat.lt_succ_self _, .inl ⟨.inl (.inr (R.start op)), 0, Function.update_self ..,
      fun _ => rfl, .inl (R.start op), rfl, hstart⟩⟩
  have hforeign : ∀ c s n y, Q c → c.thread t = .of c₁.next (.inr op) y →
      Config.Foreign (M.beside R) c t s → Reader.Counts H n c.shared y → Reader.Counts H n s y := by
    rintro c s n y hq - hforeign ⟨z, rfl, hH⟩
    exact ⟨z, rfl, hother c s n z hq hforeign hH⟩
  have hstep : ∀ c n x p s out, Q c → c.thread t = .running c₁.next (.inr op) p →
      Reader.Counts H n c.shared (.inl p : (φ ⊕ φ') ⊕ (ρ ⊕ ρ')) →
      (M.beside R).step t x (.inr op) p c.shared = (s, out) → Reader.Counts H (n + 1) s out := by
    rintro c n x p s out hq - ⟨z, hz, hH⟩ hstep
    cases z with
    | inl p' =>
      obtain rfl : p = .inr p' := Sum.inl.inj hz
      cases hstep
      exact ⟨R.step op p' c.shared, rfl, hown c n p' hq hH⟩
    | inr r => cases hz
  obtain ⟨-, -, hstatus⟩ := Config.Counted.run hQ hforeign hstep hnow hcounted after
  rcases hstatus with ⟨y, n, hy, hn, z, hz, hH⟩ | hleft
  · obtain rfl : y = .inl q := Status.of_inj (hy.symm.trans hrun)
    cases z with
    | inl p =>
      obtain rfl : q = .inr p := Sum.inl.inj hz
      exact ⟨p, rfl, hn rfl ▸ hH⟩
    | inr r => cases hz
  · exact absurd hrun (hleft (.inr op) (.inl q))

end

end RgMemory.Concurrent
