import Mathlib.Data.List.Induction
import RgMemory.Lib.Concurrent

/-!
# The steps that an operation takes

An operation is bounded when the thread that is in it has taken few steps of its own, whatever the
other threads did meanwhile. `ownSteps` counts the steps of a thread in a list of actions, and
`Counted.run` is the rule: what is known of an operation depends on the number of its steps, each of
them adds one, and no step of another thread breaks it. Where the phases of an operation come closer
to its end whatever the shared state is, `ends` says that it ends.
-/

namespace RgMemory.Concurrent

variable {τ ξ σ ω φ ρ : Type*}

/-- The status of a thread in an operation: in a phase, or with a result. -/
def Status.of (id : Nat) (op : ω) : φ ⊕ ρ → Status ω φ ρ
  | .inl p => .running id op p
  | .inr r => .done id op r

theorem Status.of_inj {id : Nat} {op : ω} {y y' : φ ⊕ ρ}
    (h : Status.of id op y = Status.of id op y') : y = y' := by
  cases y <;> cases y' <;> cases h <;> rfl

variable [DecidableEq τ]

/-- The action is a step of the thread. -/
def Action.isStep (t : τ) : Action τ ξ ω → Bool
  | .step t' _ => decide (t' = t)
  | _ => false

/-- The steps of a thread in a list of actions. -/
def ownSteps (t : τ) (actions : List (Action τ ξ ω)) : Nat := actions.countP (Action.isStep t)

theorem ownSteps_concat (t : τ) (actions : List (Action τ ξ ω)) (a : Action τ ξ ω) :
    ownSteps t (actions ++ [a]) = ownSteps t actions + if a.isStep t then 1 else 0 := by
  unfold ownSteps
  rw [List.countP_append, List.countP_singleton]

namespace Config

variable {M : Machine τ ξ σ ω φ ρ} {R : Nat → σ → φ ⊕ ρ → Prop} {t : τ} {id : Nat} {op : ω} {n : Nat}
  {c c' : Config τ σ ω φ ρ}

theorem Next.next_le (hnext : Next M c c') : c.next ≤ c'.next := by
  cases hnext with
  | call => exact Nat.le_succ _
  | _ => exact Nat.le_refl _

omit [DecidableEq τ] in
/-- The thread is not in the operation `id`. -/
def Left (c : Config τ σ ω φ ρ) (t : τ) (id : Nat) : Prop :=
  ∀ (op : ω) (y : φ ⊕ ρ), c.thread t ≠ .of id op y

/-- A thread does not come back to an operation. -/
theorem Next.left (hnext : Next M c c') (hused : id < c.next) (hleft : c.Left t id) :
    c'.Left t id := by
  have hkeep : ∀ {t' : τ} {st : Status ω φ ρ}, (t = t' → ∀ op y, st ≠ .of id op y) →
      ∀ op y, Function.update c.thread t' st t ≠ .of id op y := by
    intro t' st hst op y
    by_cases htt : t = t'
    · rw [htt, Function.update_self]
      exact hst htt op y
    · rw [Function.update_of_ne htt]
      exact hleft op y
  cases hnext with
  | stay => exact hleft
  | call idle =>
    refine hkeep fun _ op y h => ?_
    cases y <;> cases h
    exact Nat.lt_irrefl _ hused
  | move running step =>
    refine hkeep fun htt op y h => ?_
    cases y <;> cases h
    exact hleft _ (.inl _) (htt ▸ running)
  | commit running step =>
    refine hkeep fun htt op y h => ?_
    cases y <;> cases h
    exact hleft _ (.inl _) (htt ▸ running)
  | ret => exact hkeep fun _ op y h => by cases y <;> cases h

/-- The shared state is as it was, or a step of another thread has changed it. -/
def Foreign (M : Machine τ ξ σ ω φ ρ) (c : Config τ σ ω φ ρ) (t : τ) (s : σ) : Prop :=
  s = c.shared ∨ ∃ t' x id op p out, t' ≠ t ∧ c.thread t' = .running id op p ∧
    M.step t' x op p c.shared = (s, out)

/-- What an action does to an operation: it is one of its steps, or it leaves it alone, or it is its
return. -/
inductive Acts (M : Machine τ ξ σ ω φ ρ) (c : Config τ σ ω φ ρ) (t : τ) (id : Nat) (op : ω)
    (a : Action τ ξ ω) (c' : Config τ σ ω φ ρ) : φ ⊕ ρ → Prop
  | other {y : φ ⊕ ρ} (foreign : y.isLeft = true → a.isStep t = false)
      (shared : Foreign M c t c'.shared) (thread : c'.thread t = .of id op y) : Acts M c t id op a c' y
  | step {p : φ} {x : ξ} {out : φ ⊕ ρ} (own : a.isStep t = true)
      (step : M.step t x op p c.shared = (c'.shared, out)) (thread : c'.thread t = .of id op out) :
      Acts M c t id op a c' (.inl p)
  | left {y : φ ⊕ ρ} (left : c'.Left t id) : Acts M c t id op a c' y

theorem act_acts {y : φ ⊕ ρ} (hst : c.thread t = .of id op y) (a : Action τ ξ ω) :
    Acts M c t id op a (c.act M a) y := by
  -- the thread does nothing in the action of another
  have hkeep : ∀ {t' : τ} {st : Status ω φ ρ}, t' ≠ t →
      Function.update c.thread t' st t = .of id op y := by
    intro t' st htt
    rw [Function.update_of_ne (Ne.symm htt), hst]
  have hquiet : ∀ {t' : τ}, (a.isStep t = true → t' = t) → t' ≠ t → y.isLeft = true →
      a.isStep t = false := fun h htt _ => Bool.eq_false_iff.mpr fun hown => htt (h hown)
  cases a with
  | call t' op' =>
    cases hst' : c.thread t' with
    | idle =>
      simp only [act, hst']
      have htt : t' ≠ t := by
        rintro rfl
        rw [hst] at hst'
        cases y <;> cases hst'
      exact .other (fun _ => rfl) (.inl rfl) (hkeep htt)
    | _ =>
      simp only [act, hst']
      exact .other (fun _ => rfl) (.inl rfl) hst
  | step t' x =>
    by_cases htt : t' = t
    · subst htt
      cases y with
      | inl p =>
        have hrun : c.thread t' = .running id op p := hst
        have hown : (Action.step t' x : Action τ ξ ω).isStep t' = true := decide_eq_true rfl
        rcases hstep : M.step t' x op p c.shared with ⟨s, p' | r⟩
        · simp only [act, hrun, hstep]
          have hthread : Function.update c.thread t' (.running id op p') t' = .of id op (.inl p') :=
            Function.update_self ..
          exact .step hown hstep hthread
        · simp only [act, hrun, hstep]
          have hthread : Function.update c.thread t' (.done id op r) t' = .of id op (.inr r) :=
            Function.update_self ..
          exact .step hown hstep hthread
      | inr r =>
        have hdone : c.thread t' = .done id op r := hst
        simp only [act, hdone]
        exact .other (fun hleft => by cases hleft) (.inl rfl) hst
    · have hforeign : (Action.step t' x : Action τ ξ ω).isStep t = false := decide_eq_false htt
      cases hst' : c.thread t' with
      | running id' op' p' =>
        rcases hstep : M.step t' x op' p' c.shared with ⟨s, q | r⟩
        · simp only [act, hst', hstep]
          exact .other (fun _ => hforeign) (.inr ⟨t', x, id', op', p', _, htt, hst', hstep⟩)
            (hkeep htt)
        · simp only [act, hst', hstep]
          exact .other (fun _ => hforeign) (.inr ⟨t', x, id', op', p', _, htt, hst', hstep⟩)
            (hkeep htt)
      | _ =>
        simp only [act, hst']
        exact .other (fun _ => hforeign) (.inl rfl) hst
  | ret t' =>
    cases hst' : c.thread t' with
    | done id' op' r =>
      simp only [act, hst']
      by_cases htt : t' = t
      · subst htt
        refine .left fun op'' y' h => ?_
        have hidle := (Function.update_self ..).symm.trans h
        cases y' <;> cases hidle
      · exact .other (fun _ => rfl) (.inl rfl) (hkeep htt)
    | _ =>
      simp only [act, hst']
      exact .other (fun _ => rfl) (.inl rfl) hst

/-- The operation `id` of the thread `t`, which has been given `n` steps: `R` holds of the number of
steps that it took, which are all of them while it runs, of the shared state, and of its phase or
result. Its number is not given away again. -/
structure Counted (R : Nat → σ → φ ⊕ ρ → Prop) (t : τ) (id : Nat) (op : ω) (n : Nat)
    (c : Config τ σ ω φ ρ) : Prop where
  used : id < c.next
  status : (∃ y m, c.thread t = .of id op y ∧ (y.isLeft = true → m = n) ∧ R m c.shared y) ∨
    c.Left t id

/-- **Counting the steps of an operation.** `Q` holds in every configuration of the run. When a step
of the operation takes `R` from `n` to `n + 1`, and no step of another thread breaks it, then `R`
holds with the number of steps that the operation has taken. -/
theorem Counted.run {Q : Config τ σ ω φ ρ → Prop} (hQ : ∀ c c', Q c → Next M c c' → Q c')
    (hother : ∀ c s n y, Q c → c.thread t = .of id op y → Foreign M c t s → R n c.shared y → R n s y)
    (hown : ∀ c n x p s out, Q c → c.thread t = .running id op p → R n c.shared (.inl p) →
      M.step t x op p c.shared = (s, out) → R (n + 1) s out)
    (hc : Q c) (hstart : Counted R t id op 0 c) (actions : List (Action τ ξ ω)) :
    Q (c.run M actions) ∧ Counted R t id op (ownSteps t actions) (c.run M actions) := by
  induction actions using List.reverseRecOn with
  | nil => exact ⟨hc, hstart⟩
  | append_singleton actions a ih =>
    obtain ⟨hq, hused, hstatus⟩ := ih
    have hrun : c.run M (actions ++ [a]) = (c.run M actions).act M a := List.foldl_concat ..
    rw [hrun, ownSteps_concat]
    have hnext := act_next M (c.run M actions) a
    refine ⟨hQ _ _ hq hnext, Nat.lt_of_lt_of_le hused hnext.next_le, ?_⟩
    rcases hstatus with ⟨y, m, hthread, hm, hR⟩ | hleft
    · cases act_acts (M := M) hthread a with
      | other foreign shared thread =>
        refine .inl ⟨y, m, thread, fun hy => ?_, hother _ _ m y hq hthread shared hR⟩
        rw [foreign hy, hm hy]
        rfl
      | @step p x out own step thread =>
        rw [own]
        refine .inl ⟨out, m + 1, thread, fun _ => ?_, hown _ m x p _ out hq hthread hR step⟩
        rw [hm rfl]
        rfl
      | left left => exact .inr left
    · exact .inr (hnext.left hused hleft)

/-- An operation whose phases decrease in a measure has its result, or has returned it, when its
thread has taken as many steps as its first phase allows. -/
theorem ends (μ : ω → φ → Nat) (hpos : ∀ op p, 0 < μ op p)
    (hdec : ∀ t x op p s s' p', M.step t x op p s = (s', .inl p') → μ op p' < μ op p)
    (hidle : c.thread t = .idle) (after : List (Action τ ξ ω))
    (henough : μ op (M.start op) ≤ ownSteps t after) :
    (∃ r, ((c.act M (.call t op)).run M after).thread t = .done c.next op r) ∨
      ∃ r, Event.ret c.next r ∈ ((c.act M (.call t op)).run M after).history := by
  have hact : c.act M (.call t op) = c.called M t op := by
    simp only [act, hidle]
  rw [hact]
  have hthread : (c.called M t op).thread t = .running c.next op (M.start op) :=
    Function.update_self ..
  -- while it runs, the steps taken and the measure of the phase are at most the first measure
  let R : Nat → σ → φ ⊕ ρ → Prop := fun n _ y =>
    ∀ p, y = .inl p → n + μ op p ≤ μ op (M.start op)
  have hstart : Counted R t c.next op 0 (c.called M t op) := by
    refine ⟨Nat.lt_succ_self _, .inl ⟨.inl (M.start op), 0, hthread, fun _ => rfl, fun p hp => ?_⟩⟩
    cases hp
    exact Nat.le_of_eq (Nat.zero_add _)
  obtain ⟨-, -, hcount⟩ := Counted.run (M := M) (Q := fun _ => True) (fun _ _ _ _ => trivial)
    (fun _ _ _ _ _ _ _ h => h)
    (fun _ n x p s out _ _ hR hstep p' hp' => by
      subst hp'
      have hless := hdec t x op p _ s p' hstep
      have hle := hR p rfl
      omega)
    trivial hstart after
  have hgoes : Goes (fun _ _ => True) (fun _ _ => True) t c.next op ((c.called M t op).run M after) :=
    run_induction M (fun _ _ h hnext => h.next hnext (fun _ h => h) (fun _ h => h)
      (fun _ _ _ _ _ _ => trivial) fun _ _ _ _ _ _ => trivial) (.running hthread trivial) after
  cases hgoes with
  | @running p thread relies =>
    rcases hcount with ⟨y, m, hy, hm, hR⟩ | hleft
    · have heq : y = .inl p := Status.of_inj (hy.symm.trans thread)
      subst heq
      have hle := hR p rfl
      have hlast := hpos op p
      rw [hm rfl] at hle
      omega
    · exact absurd thread (hleft op (.inl p))
  | @done r thread result => exact .inl ⟨r, thread⟩
  | @returned r ret result => exact .inr ⟨r, ret⟩

end Config

end RgMemory.Concurrent
