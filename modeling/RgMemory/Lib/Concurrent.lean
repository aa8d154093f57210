import Mathlib.Data.List.Induction
import Mathlib.Data.List.Nodup
import Mathlib.Logic.Function.Basic

/-!
# Concurrent objects and linearizability

Threads call operations on a shared object. An operation runs through phases; each atomic step may
change the shared state and either moves the operation to its next phase or gives it its result,
which the thread returns later. Any thread may act at any time. A configuration keeps the history
of calls and returns that a client sees, and a log of the operations in the order of their results.

`Linearizable` is the usual condition on a history: some order of its operations, which contains
every returned one, is a legal run of a sequential specification and respects real time. The rule is
`Simulation.linearizable`: when the steps that give results follow the specification, and no step
breaks what another thread's phase relies on, the log is such an order.
-/

namespace RgMemory.Concurrent

variable {τ ξ σ ω φ ρ κ : Type*}

/-- What a thread is doing: nothing, an operation in some phase, or one that has its result. -/
inductive Status (ω φ ρ : Type*)
  | idle
  | running (id : Nat) (op : ω) (p : φ)
  | done (id : Nat) (op : ω) (r : ρ)

/-- What a client sees: each call has a number of its own. -/
inductive Event (ω ρ : Type*)
  | call (id : Nat) (op : ω)
  | ret (id : Nat) (r : ρ)

/-- An object: the first phase of an operation, and the atomic step of a thread in a phase. The
argument of type `ξ` is what the environment decides during the step. -/
structure Machine (τ ξ σ ω φ ρ : Type*) where
  start : ω → φ
  step : τ → ξ → ω → φ → σ → σ × (φ ⊕ ρ)

/-- What happens next, and in which thread. -/
inductive Action (τ ξ ω : Type*)
  | call (t : τ) (op : ω)
  | step (t : τ) (x : ξ)
  | ret (t : τ)

structure Config (τ σ ω φ ρ : Type*) where
  shared : σ
  thread : τ → Status ω φ ρ
  next : Nat
  history : List (Event ω ρ)
  log : List (Nat × ω × ρ)

/-- Two members of an extended list, in this order. -/
theorem pair_sublist_concat_iff {α : Type*} {a b x : α} {l : List α} :
    [a, b].Sublist (l ++ [x]) ↔ [a, b].Sublist l ∨ a ∈ l ∧ b = x := by
  constructor
  · intro h
    rw [← List.reverse_sublist, List.reverse_append] at h
    cases h with
    | cons _ h => exact .inl (List.reverse_sublist.mp h)
    | cons_cons _ h => exact .inr ⟨List.mem_reverse.mp (List.singleton_sublist.mp h), rfl⟩
  · rintro (h | ⟨ha, rfl⟩)
    · exact h.trans (List.sublist_append_left _ _)
    · exact (List.singleton_sublist.mpr ha).append (List.Sublist.refl [b])

namespace Config

/-- No thread does anything, nothing has happened. -/
def start (s : σ) : Config τ σ ω φ ρ := ⟨s, fun _ => .idle, 0, [], []⟩

variable [DecidableEq τ]

/-- A thread calls an operation. -/
def called (M : Machine τ ξ σ ω φ ρ) (c : Config τ σ ω φ ρ) (t : τ) (op : ω) :
    Config τ σ ω φ ρ :=
  { c with
    thread := Function.update c.thread t (.running c.next op (M.start op))
    next := c.next + 1
    history := c.history ++ [.call c.next op] }

/-- A step moves an operation to its next phase. -/
def moved (c : Config τ σ ω φ ρ) (t : τ) (id : Nat) (op : ω) (s : σ) (p : φ) :
    Config τ σ ω φ ρ :=
  { c with
    shared := s
    thread := Function.update c.thread t (.running id op p) }

/-- A step gives an operation its result. -/
def committed (c : Config τ σ ω φ ρ) (t : τ) (id : Nat) (op : ω) (s : σ) (r : ρ) :
    Config τ σ ω φ ρ :=
  { c with
    shared := s
    thread := Function.update c.thread t (.done id op r)
    log := c.log ++ [(id, op, r)] }

/-- A thread returns a result. -/
def returned (c : Config τ σ ω φ ρ) (t : τ) (id : Nat) (r : ρ) : Config τ σ ω φ ρ :=
  { c with
    thread := Function.update c.thread t .idle
    history := c.history ++ [.ret id r] }

/-- One action; it does nothing in a thread that is not ready for it. -/
def act (M : Machine τ ξ σ ω φ ρ) (c : Config τ σ ω φ ρ) : Action τ ξ ω → Config τ σ ω φ ρ
  | .call t op =>
    match c.thread t with
    | .idle => c.called M t op
    | _ => c
  | .step t x =>
    match c.thread t with
    | .running id op p =>
      match M.step t x op p c.shared with
      | (s, .inl p') => c.moved t id op s p'
      | (s, .inr r) => c.committed t id op s r
    | _ => c
  | .ret t =>
    match c.thread t with
    | .done id _ r => c.returned t id r
    | _ => c

def run (M : Machine τ ξ σ ω φ ρ) (c : Config τ σ ω φ ρ) (actions : List (Action τ ξ ω)) :
    Config τ σ ω φ ρ :=
  actions.foldl (act M) c

/-- Everything that one action can do. -/
inductive Next (M : Machine τ ξ σ ω φ ρ) (c : Config τ σ ω φ ρ) : Config τ σ ω φ ρ → Prop
  | stay : Next M c c
  | call {t : τ} {op : ω} (idle : c.thread t = .idle) : Next M c (c.called M t op)
  | move {t : τ} {x : ξ} {id : Nat} {op : ω} {p p' : φ} {s : σ}
      (running : c.thread t = .running id op p)
      (step : M.step t x op p c.shared = (s, .inl p')) : Next M c (c.moved t id op s p')
  | commit {t : τ} {x : ξ} {id : Nat} {op : ω} {p : φ} {s : σ} {r : ρ}
      (running : c.thread t = .running id op p)
      (step : M.step t x op p c.shared = (s, .inr r)) : Next M c (c.committed t id op s r)
  | ret {t : τ} {id : Nat} {op : ω} {r : ρ} (done : c.thread t = .done id op r) :
      Next M c (c.returned t id r)

variable (M : Machine τ ξ σ ω φ ρ)

theorem act_next (c : Config τ σ ω φ ρ) (a : Action τ ξ ω) : Next M c (c.act M a) := by
  cases a with
  | call t op =>
    cases hst : c.thread t with
    | idle =>
      simp only [act, hst]
      exact .call hst
    | running id op p =>
      simp only [act, hst]
      exact .stay
    | done id op r =>
      simp only [act, hst]
      exact .stay
  | step t x =>
    cases hst : c.thread t with
    | idle =>
      simp only [act, hst]
      exact .stay
    | running id op p =>
      rcases hstep : M.step t x op p c.shared with ⟨s, p' | r⟩
      · simp only [act, hst, hstep]
        exact .move hst hstep
      · simp only [act, hst, hstep]
        exact .commit hst hstep
    | done id op r =>
      simp only [act, hst]
      exact .stay
  | ret t =>
    cases hst : c.thread t with
    | idle =>
      simp only [act, hst]
      exact .stay
    | running id op p =>
      simp only [act, hst]
      exact .stay
    | done id op r =>
      simp only [act, hst]
      exact .ret hst

/-- What every action keeps, every run keeps. -/
theorem run_induction {Q : Config τ σ ω φ ρ → Prop} (hstep : ∀ c c', Q c → Next M c c' → Q c')
    {c : Config τ σ ω φ ρ} (hc : Q c) (actions : List (Action τ ξ ω)) : Q (c.run M actions) := by
  induction actions generalizing c with
  | nil => exact hc
  | cons a actions ih => exact ih (hstep c _ hc (act_next M c a))

/-- The shared state changes by the step of a running operation only. -/
theorem Next.shared_cases {M : Machine τ ξ σ ω φ ρ} {c c' : Config τ σ ω φ ρ} (h : Next M c c') :
    c'.shared = c.shared ∨ ∃ t x id op p out,
      c.thread t = .running id op p ∧ M.step t x op p c.shared = (c'.shared, out) := by
  cases h with
  | stay => exact .inl rfl
  | call => exact .inl rfl
  | move running step => exact .inr ⟨_, _, _, _, _, _, running, step⟩
  | commit running step => exact .inr ⟨_, _, _, _, _, _, running, step⟩
  | ret => exact .inl rfl

/-- Nothing is taken from a history. -/
theorem Next.mem_history {M : Machine τ ξ σ ω φ ρ} {c c' : Config τ σ ω φ ρ} (h : Next M c c')
    {e : Event ω ρ} (he : e ∈ c.history) : e ∈ c'.history := by
  cases h with
  | stay => exact he
  | call => exact List.mem_append_left _ he
  | move => exact he
  | commit => exact he
  | ret => exact List.mem_append_left _ he

/-- Nothing is taken from a log. -/
theorem Next.mem_log {M : Machine τ ξ σ ω φ ρ} {c c' : Config τ σ ω φ ρ} (h : Next M c c')
    {x : Nat × ω × ρ} (hx : x ∈ c.log) : x ∈ c'.log := by
  cases h with
  | stay => exact hx
  | call => exact hx
  | move => exact hx
  | commit => exact List.mem_append_left _ hx
  | ret => exact hx

/-- A new entry of the log has the result of a step of a thread that was in the operation. -/
theorem mem_log_act {M : Machine τ ξ σ ω φ ρ} {c : Config τ σ ω φ ρ} {a : Action τ ξ ω} {id : Nat}
    {op : ω} {r : ρ} (h : (id, op, r) ∈ (c.act M a).log) :
    (id, op, r) ∈ c.log ∨ ∃ t x p s, a = .step t x ∧ c.thread t = .running id op p ∧
      M.step t x op p c.shared = (s, .inr r) := by
  cases a with
  | call t op' =>
    left
    cases hst : c.thread t <;> simpa only [act, hst, called] using h
  | step t x =>
    cases hst : c.thread t with
    | running id' op' p =>
      rcases hstep : M.step t x op' p c.shared with ⟨s, p' | r'⟩
      · left
        simpa only [act, hst, hstep, moved] using h
      · simp only [act, hst, hstep] at h
        rcases List.mem_append.mp h with hold | hnew
        · exact .inl hold
        · cases List.mem_singleton.mp hnew
          exact .inr ⟨t, x, p, s, rfl, hst, hstep⟩
    | _ =>
      left
      simpa only [act, hst] using h
  | ret t =>
    left
    cases hst : c.thread t <;> simpa only [act, hst, returned] using h

/-- The moment at which an operation of a run got its result. -/
theorem mem_log_run {s : σ} {actions : List (Action τ ξ ω)} {id : Nat} {op : ω} {r : ρ}
    (h : (id, op, r) ∈ ((start s).run M actions).log) :
    ∃ before t x after p s', actions = before ++ .step t x :: after ∧
      ((start s).run M before).thread t = .running id op p ∧
        M.step t x op p ((start s).run M before).shared = (s', .inr r) := by
  induction actions using List.reverseRecOn with
  | nil => cases h
  | append_singleton actions a ih =>
    have hrun : (start s).run M (actions ++ [a]) = ((start s).run M actions).act M a :=
      List.foldl_concat ..
    rw [hrun] at h
    rcases mem_log_act h with hold | ⟨t, x, p, s', rfl, hthread, hstep⟩
    · obtain ⟨before, t, x, after, p, s', rfl, hrest⟩ := ih hold
      exact ⟨before, t, x, after ++ [a], p, s', by rw [List.append_assoc, List.cons_append], hrest⟩
    · exact ⟨actions, t, x, [], p, s', rfl, hthread, hstep⟩

/-- The number of the operation that a thread is in. -/
def busy (c : Config τ σ ω φ ρ) (t : τ) (id : Nat) : Prop :=
  (∃ op p, c.thread t = .running id op p) ∨ ∃ op r, c.thread t = .done id op r

/-- The bookkeeping of histories and logs. -/
structure Wf (c : Config τ σ ω φ ρ) : Prop where
  call_lt : ∀ id op, Event.call id op ∈ c.history → id < c.next
  call_unique : ∀ id op op', Event.call id op ∈ c.history → Event.call id op' ∈ c.history → op = op'
  running_called : ∀ t id op p, c.thread t = .running id op p →
    Event.call id op ∈ c.history ∧ ∀ x ∈ c.log, x.1 ≠ id
  done_logged : ∀ t id op r, c.thread t = .done id op r → (id, op, r) ∈ c.log
  owner : ∀ t t' id, c.busy t id → c.busy t' id → t = t'
  log_nodup : (c.log.map Prod.fst).Nodup
  log_called : ∀ x ∈ c.log, Event.call x.1 x.2.1 ∈ c.history
  ret_logged : ∀ id r, Event.ret id r ∈ c.history → ∃ op, (id, op, r) ∈ c.log
  order : ∀ a r b op, [Event.ret a r, Event.call b op].Sublist c.history →
    ∀ x ∈ c.log, ∀ y ∈ c.log, x.1 = a → y.1 = b → [x, y].Sublist c.log

variable {M} {c c' : Config τ σ ω φ ρ}

omit [DecidableEq τ] in
theorem start_wf (s : σ) : Wf (start s : Config τ σ ω φ ρ) := by
  constructor <;> simp [start, busy]

omit [DecidableEq τ] in
/-- An operation that a thread is in has been called. -/
theorem Wf.busy_lt (hc : c.Wf) {t : τ} {id : Nat} (hb : c.busy t id) : id < c.next := by
  rcases hb with ⟨op, p, hrun⟩ | ⟨op, r, hdone⟩
  · exact hc.call_lt id op (hc.running_called t id op p hrun).1
  · exact hc.call_lt id op (hc.log_called _ (hc.done_logged t id op r hdone))

/-- An update of one thread that keeps its operation keeps the operations of all threads. -/
theorem busy_of_update {t t' : τ} {id id' : Nat} {st : Status ω φ ρ}
    (hst : (∃ op p, st = .running id op p) ∨ ∃ op r, st = .done id op r) (ht : c.busy t id)
    (hb : (∃ op p, Function.update c.thread t st t' = .running id' op p) ∨
      ∃ op r, Function.update c.thread t st t' = .done id' op r) : c.busy t' id' := by
  by_cases heq : t' = t
  · subst heq
    simp only [Function.update_self] at hb
    have hid : id = id' := by
      rcases hst with ⟨op, p, rfl⟩ | ⟨op, r, rfl⟩ <;> rcases hb with ⟨op', p', h⟩ | ⟨op', r', h⟩ <;>
        cases h <;> rfl
    exact hid ▸ ht
  · simpa only [busy, Function.update_of_ne heq] using hb

theorem Wf.called (hc : c.Wf) {t : τ} (op : ω) : (c.called M t op).Wf where
  call_lt := by
    intro id op' hmem
    rcases List.mem_append.mp hmem with hmem | hmem
    · exact Nat.lt_succ_of_lt (hc.call_lt id op' hmem)
    · cases List.mem_singleton.mp hmem
      exact Nat.lt_succ_self _
  call_unique := by
    intro id op₁ op₂ h₁ h₂
    rcases List.mem_append.mp h₁ with h₁ | h₁ <;> rcases List.mem_append.mp h₂ with h₂ | h₂
    · exact hc.call_unique id op₁ op₂ h₁ h₂
    · cases List.mem_singleton.mp h₂
      exact absurd (hc.call_lt _ _ h₁) (Nat.lt_irrefl _)
    · cases List.mem_singleton.mp h₁
      exact absurd (hc.call_lt _ _ h₂) (Nat.lt_irrefl _)
    · cases List.mem_singleton.mp h₁
      cases List.mem_singleton.mp h₂
      rfl
  running_called := by
    intro t' id op' p hrun
    by_cases heq : t' = t
    · subst heq
      simp only [Config.called, Function.update_self, Status.running.injEq] at hrun
      obtain ⟨rfl, rfl, -⟩ := hrun
      refine ⟨List.mem_append_right _ (List.mem_singleton_self _), fun x hx hid => ?_⟩
      exact absurd (hc.call_lt _ _ (hc.log_called x hx)) (by omega)
    · simp only [Config.called, Function.update_of_ne heq] at hrun
      obtain ⟨hmem, hlog⟩ := hc.running_called t' id op' p hrun
      exact ⟨List.mem_append_left _ hmem, hlog⟩
  done_logged := by
    intro t' id op' r hdone
    by_cases heq : t' = t
    · subst heq
      simp [Config.called] at hdone
    · simp only [Config.called, Function.update_of_ne heq] at hdone
      exact hc.done_logged t' id op' r hdone
  owner := by
    intro t₁ t₂ id h₁ h₂
    have hnew : ∀ t', (c.called M t op).busy t' id → t' = t ∧ id = c.next ∨ c.busy t' id := by
      intro t' hb
      by_cases heq : t' = t
      · subst heq
        simp only [busy, Config.called, Function.update_self] at hb
        rcases hb with ⟨_, _, h⟩ | ⟨_, _, h⟩
        · cases h
          exact .inl ⟨rfl, rfl⟩
        · cases h
      · simp only [busy, Config.called, Function.update_of_ne heq] at hb
        exact .inr hb
    rcases hnew t₁ h₁ with ⟨e₁, hid⟩ | h₁ <;> rcases hnew t₂ h₂ with ⟨e₂, hid'⟩ | h₂
    · rw [e₁, e₂]
    · exact absurd (hc.busy_lt h₂) (by omega)
    · exact absurd (hc.busy_lt h₁) (by omega)
    · exact hc.owner t₁ t₂ id h₁ h₂
  log_nodup := hc.log_nodup
  log_called := fun x hx => List.mem_append_left _ (hc.log_called x hx)
  ret_logged := by
    intro id r hmem
    rcases List.mem_append.mp hmem with hmem | hmem
    · exact hc.ret_logged id r hmem
    · cases List.mem_singleton.mp hmem
  order := by
    intro a r b op' hsub x hx y hy ha hb
    rcases pair_sublist_concat_iff.mp hsub with hsub | ⟨-, hlast⟩
    · exact hc.order a r b op' hsub x hx y hy ha hb
    · cases hlast
      exact absurd (hc.call_lt _ _ (hc.log_called y hy)) (by omega)

theorem Wf.moved (hc : c.Wf) {t : τ} {id : Nat} {op : ω} {p : φ}
    (hrun : c.thread t = .running id op p) (s : σ) (p' : φ) : (c.moved t id op s p').Wf where
  call_lt := hc.call_lt
  call_unique := hc.call_unique
  running_called := by
    intro t' id' op' q hrun'
    by_cases heq : t' = t
    · subst heq
      simp only [Config.moved, Function.update_self, Status.running.injEq] at hrun'
      obtain ⟨rfl, rfl, -⟩ := hrun'
      exact hc.running_called t' id op p hrun
    · simp only [Config.moved, Function.update_of_ne heq] at hrun'
      exact hc.running_called t' id' op' q hrun'
  done_logged := by
    intro t' id' op' r hdone
    by_cases heq : t' = t
    · subst heq
      simp [Config.moved] at hdone
    · simp only [Config.moved, Function.update_of_ne heq] at hdone
      exact hc.done_logged t' id' op' r hdone
  owner := by
    intro t₁ t₂ id' h₁ h₂
    have hkept : ∀ t', (c.moved t id op s p').busy t' id' → c.busy t' id' := fun t' hb =>
      busy_of_update (.inl ⟨op, p', rfl⟩) (.inl ⟨op, p, hrun⟩) hb
    exact hc.owner t₁ t₂ id' (hkept t₁ h₁) (hkept t₂ h₂)
  log_nodup := hc.log_nodup
  log_called := hc.log_called
  ret_logged := hc.ret_logged
  order := hc.order

theorem Wf.committed (hc : c.Wf) {t : τ} {id : Nat} {op : ω} {p : φ}
    (hrun : c.thread t = .running id op p) (s : σ) (r : ρ) : (c.committed t id op s r).Wf where
  call_lt := hc.call_lt
  call_unique := hc.call_unique
  running_called := by
    intro t' id' op' q hrun'
    by_cases heq : t' = t
    · subst heq
      simp [Config.committed] at hrun'
    · simp only [Config.committed, Function.update_of_ne heq] at hrun'
      obtain ⟨hmem, hlog⟩ := hc.running_called t' id' op' q hrun'
      refine ⟨hmem, fun x hx hid => ?_⟩
      rcases List.mem_append.mp hx with hx | hx
      · exact hlog x hx hid
      · -- two threads are never in one operation
        cases List.mem_singleton.mp hx
        subst hid
        exact heq (hc.owner t' t _ (.inl ⟨op', q, hrun'⟩) (.inl ⟨op, p, hrun⟩))
  done_logged := by
    intro t' id' op' r' hdone
    by_cases heq : t' = t
    · subst heq
      simp only [Config.committed, Function.update_self, Status.done.injEq] at hdone
      obtain ⟨rfl, rfl, rfl⟩ := hdone
      exact List.mem_append_right _ (List.mem_singleton_self _)
    · simp only [Config.committed, Function.update_of_ne heq] at hdone
      exact List.mem_append_left _ (hc.done_logged t' id' op' r' hdone)
  owner := by
    intro t₁ t₂ id' h₁ h₂
    have hkept : ∀ t', (c.committed t id op s r).busy t' id' → c.busy t' id' := fun t' hb =>
      busy_of_update (.inr ⟨op, r, rfl⟩) (.inl ⟨op, p, hrun⟩) hb
    exact hc.owner t₁ t₂ id' (hkept t₁ h₁) (hkept t₂ h₂)
  log_nodup := by
    have hnew : id ∉ c.log.map Prod.fst := by
      intro hmem
      obtain ⟨x, hx, hid⟩ := List.mem_map.mp hmem
      exact (hc.running_called t id op p hrun).2 x hx hid
    simp only [Config.committed, List.map_append, List.map_cons, List.map_nil]
    rw [← List.concat_eq_append]
    exact hc.log_nodup.concat hnew
  log_called := by
    intro x hx
    rcases List.mem_append.mp hx with hx | hx
    · exact hc.log_called x hx
    · cases List.mem_singleton.mp hx
      exact (hc.running_called t id op p hrun).1
  ret_logged := by
    intro id' r' hmem
    obtain ⟨op', hlog⟩ := hc.ret_logged id' r' hmem
    exact ⟨op', List.mem_append_left _ hlog⟩
  order := by
    intro a r' b op' hsub x hx y hy ha hb
    rcases List.mem_append.mp hx with hx | hx
    · rcases List.mem_append.mp hy with hy | hy
      · exact (hc.order a r' b op' hsub x hx y hy ha hb).trans (List.sublist_append_left _ _)
      · cases List.mem_singleton.mp hy
        exact pair_sublist_concat_iff.mpr (.inr ⟨hx, rfl⟩)
    · -- an operation that has returned was in the log before
      cases List.mem_singleton.mp hx
      obtain ⟨op'', hlog⟩ := hc.ret_logged a r' (hsub.subset List.mem_cons_self)
      exact absurd ha.symm ((hc.running_called t id op p hrun).2 _ hlog)

theorem Wf.returned (hc : c.Wf) {t : τ} {id : Nat} {op : ω} {r : ρ}
    (hdone : c.thread t = .done id op r) : (c.returned t id r).Wf where
  call_lt := by
    intro id' op' hmem
    rcases List.mem_append.mp hmem with hmem | hmem
    · exact hc.call_lt id' op' hmem
    · cases List.mem_singleton.mp hmem
  call_unique := by
    intro id' op₁ op₂ h₁ h₂
    rcases List.mem_append.mp h₁ with h₁ | h₁
    · rcases List.mem_append.mp h₂ with h₂ | h₂
      · exact hc.call_unique id' op₁ op₂ h₁ h₂
      · cases List.mem_singleton.mp h₂
    · cases List.mem_singleton.mp h₁
  running_called := by
    intro t' id' op' q hrun
    by_cases heq : t' = t
    · subst heq
      simp [Config.returned] at hrun
    · simp only [Config.returned, Function.update_of_ne heq] at hrun
      obtain ⟨hmem, hlog⟩ := hc.running_called t' id' op' q hrun
      exact ⟨List.mem_append_left _ hmem, hlog⟩
  done_logged := by
    intro t' id' op' r' hdone'
    by_cases heq : t' = t
    · subst heq
      simp [Config.returned] at hdone'
    · simp only [Config.returned, Function.update_of_ne heq] at hdone'
      exact hc.done_logged t' id' op' r' hdone'
  owner := by
    intro t₁ t₂ id' h₁ h₂
    have hkept : ∀ t', (c.returned t id r).busy t' id' → c.busy t' id' := by
      intro t' hb
      by_cases heq : t' = t
      · subst heq
        simp [busy, Config.returned] at hb
      · simpa only [busy, Config.returned, Function.update_of_ne heq] using hb
    exact hc.owner t₁ t₂ id' (hkept t₁ h₁) (hkept t₂ h₂)
  log_nodup := hc.log_nodup
  log_called := fun x hx => List.mem_append_left _ (hc.log_called x hx)
  ret_logged := by
    intro id' r' hmem
    rcases List.mem_append.mp hmem with hmem | hmem
    · exact hc.ret_logged id' r' hmem
    · cases List.mem_singleton.mp hmem
      exact ⟨op, hc.done_logged t id op r hdone⟩
  order := by
    intro a r' b op' hsub x hx y hy ha hb
    rcases pair_sublist_concat_iff.mp hsub with hsub | ⟨-, hlast⟩
    · exact hc.order a r' b op' hsub x hx y hy ha hb
    · cases hlast

theorem Wf.next (hc : c.Wf) (hnext : Next M c c') : c'.Wf := by
  cases hnext with
  | stay => exact hc
  | call => exact hc.called _
  | move running => exact hc.moved running _ _
  | commit running => exact hc.committed running _ _
  | ret done => exact hc.returned done

/-! ### One operation -/

/-- The operation `id` that the thread `t` called: while it runs its phase is as `R` says, and its
result is as `G` says. -/
inductive Goes (R : Config τ σ ω φ ρ → φ → Prop) (G : Config τ σ ω φ ρ → ρ → Prop) (t : τ)
    (id : Nat) (op : ω) (c : Config τ σ ω φ ρ) : Prop
  | running {p : φ} (thread : c.thread t = .running id op p) (relies : R c p)
  | done {r : ρ} (thread : c.thread t = .done id op r) (result : G c r)
  | returned {r : ρ} (ret : Event.ret id r ∈ c.history) (result : G c r)

variable {R : Config τ σ ω φ ρ → φ → Prop} {G : Config τ σ ω φ ρ → ρ → Prop} {t : τ} {id : Nat}
  {op : ω}

/-- The steps of the operation keep `R` and end with `G`, and no action disturbs either. -/
theorem Goes.next (h : Goes R G t id op c) (hnext : Next M c c') (hR : ∀ p, R c p → R c' p)
    (hG : ∀ r, G c r → G c' r)
    (hmove : ∀ x p p' s, R c p → M.step t x op p c.shared = (s, .inl p') → R c p')
    (hresult : ∀ x p r s, R c p → M.step t x op p c.shared = (s, .inr r) → G c r) :
    Goes R G t id op c' := by
  cases h with
  | returned ret result => exact .returned (hnext.mem_history ret) (hG _ result)
  | @running p thread relies =>
    have hother : ∀ {t' st}, c.thread t' = st → st ≠ .running id op p → t ≠ t' := by
      rintro t' st hst hne rfl
      exact hne (hst.symm.trans thread)
    cases hnext with
    | stay => exact .running thread relies
    | call idle =>
      have htt := hother idle (by simp)
      exact .running ((Function.update_of_ne htt ..).trans thread) (hR _ relies)
    | @move t' x id' op' q q' s running step =>
      by_cases htt : t = t'
      · subst htt
        rw [thread] at running
        cases running
        exact .running (Function.update_self ..) (hR _ (hmove x p q' s relies step))
      · exact .running ((Function.update_of_ne htt ..).trans thread) (hR _ relies)
    | @commit t' x id' op' q s r running step =>
      by_cases htt : t = t'
      · subst htt
        rw [thread] at running
        cases running
        exact .done (Function.update_self ..) (hG _ (hresult x p r s relies step))
      · exact .running ((Function.update_of_ne htt ..).trans thread) (hR _ relies)
    | ret done =>
      have htt := hother done (by simp)
      exact .running ((Function.update_of_ne htt ..).trans thread) (hR _ relies)
  | @done r thread result =>
    have hother : ∀ {t' st}, c.thread t' = st → st ≠ .done id op r → t ≠ t' := by
      rintro t' st hst hne rfl
      exact hne (hst.symm.trans thread)
    cases hnext with
    | stay => exact .done thread result
    | call idle =>
      have htt := hother idle (by simp)
      exact .done ((Function.update_of_ne htt ..).trans thread) (hG _ result)
    | move running step =>
      have htt := hother running (by simp)
      exact .done ((Function.update_of_ne htt ..).trans thread) (hG _ result)
    | commit running step =>
      have htt := hother running (by simp)
      exact .done ((Function.update_of_ne htt ..).trans thread) (hG _ result)
    | @ret t' id' op' r' done =>
      by_cases htt : t = t'
      · subst htt
        rw [thread] at done
        cases done
        exact .returned (List.mem_append_right _ (List.mem_singleton_self _)) (hG _ result)
      · exact .done ((Function.update_of_ne htt ..).trans thread) (hG _ result)

omit [DecidableEq τ] in
/-- An operation returns one result. -/
theorem Goes.of_ret (h : Goes R G t id op c) (hwf : c.Wf) {r : ρ}
    (hret : Event.ret id r ∈ c.history) : G c r := by
  obtain ⟨op', hlog⟩ := hwf.ret_logged id r hret
  have honly : ∀ {op' r'}, (id, op', r') ∈ c.log → r = r' := by
    intro op' r' hlog'
    have heq := List.inj_on_of_nodup_map hwf.log_nodup hlog hlog' rfl
    exact congrArg (fun x : Nat × ω × ρ => x.2.2) heq
  cases h with
  | running thread => exact absurd rfl ((hwf.running_called t id op _ thread).2 _ hlog)
  | done thread result => exact honly (hwf.done_logged t id op _ thread) ▸ result
  | returned ret result =>
    obtain ⟨op'', hlog'⟩ := hwf.ret_logged id _ ret
    exact honly hlog' ▸ result

end Config

/-! ## Linearizability -/

section Linearizability

variable (spec : κ → ω → ρ → κ → Prop)

/-- The operations of a list, with their results, are one after the other a run of the
specification from `k` to `k'`. -/
inductive Legal (k : κ) : List (Nat × ω × ρ) → κ → Prop
  | nil : Legal k [] k
  | snoc {xs : List (Nat × ω × ρ)} {k' k'' : κ} (id : Nat) (op : ω) (r : ρ)
      (before : Legal k xs k') (last : spec k' op r k'') : Legal k (xs ++ [(id, op, r)]) k''

variable {spec}

/-- The last operation of a legal sequence, and what came before it. -/
theorem Legal.concat {k k'' : κ} (xs : List (Nat × ω × ρ)) {id : Nat} {op : ω} {r : ρ}
    (h : Legal spec k (xs ++ [(id, op, r)]) k'') :
    ∃ k', Legal spec k xs k' ∧ spec k' op r k'' := by
  generalize hall : xs ++ [(id, op, r)] = all at h
  cases h with
  | nil => exact absurd hall (by simp)
  | snoc id' op' r' before last =>
    obtain ⟨rfl, hlast⟩ := List.append_inj' hall rfl
    cases hlast
    exact ⟨_, before, last⟩

/-- What no operation of a legal sequence breaks holds at its end. -/
theorem Legal.invariant {k k' : κ} {xs : List (Nat × ω × ρ)} (h : Legal spec k xs k') {Q : κ → Prop}
    (hQ : Q k) (hkeep : ∀ x ∈ xs, ∀ k k', spec k x.2.1 x.2.2 k' → Q k → Q k') : Q k' := by
  induction h with
  | nil => exact hQ
  | snoc id op r before last ih =>
    exact hkeep _ (List.mem_append_right _ (List.mem_singleton_self _)) _ _ last
      (ih fun x hx => hkeep x (List.mem_append_left _ hx))

/-- What one operation of a legal sequence establishes and no operation breaks holds at its end. -/
theorem Legal.keeps {k k' : κ} {xs : List (Nat × ω × ρ)} (h : Legal spec k xs k') {Q : κ → Prop}
    {x : Nat × ω × ρ} (hx : x ∈ xs) (hset : ∀ k k', spec k x.2.1 x.2.2 k' → Q k')
    (hkeep : ∀ k op r k', spec k op r k' → Q k → Q k') : Q k' := by
  induction h with
  | nil => cases hx
  | snoc id op r before last ih =>
    rcases List.mem_append.mp hx with hx | hx
    · exact hkeep _ op r _ last (ih hx)
    · cases List.mem_singleton.mp hx
      exact hset _ _ last

/-- An operation of a legal sequence runs after a legal sequence of others. -/
theorem Legal.of_mem {k k' : κ} {xs : List (Nat × ω × ρ)} (h : Legal spec k xs k')
    {x : Nat × ω × ρ} (hx : x ∈ xs) :
    ∃ pre k₁ k₂, pre ⊆ xs ∧ Legal spec k pre k₁ ∧ spec k₁ x.2.1 x.2.2 k₂ := by
  induction h with
  | nil => cases hx
  | @snoc xs _ _ id op r before last ih =>
    rcases List.mem_append.mp hx with hx | hx
    · obtain ⟨pre, k₁, k₂, hsub, hrest⟩ := ih hx
      exact ⟨pre, k₁, k₂, List.subset_append_of_subset_left _ hsub, hrest⟩
    · cases List.mem_singleton.mp hx
      exact ⟨xs, _, _, List.subset_append_left _ _, before, last⟩

/-- Of two operations of a legal sequence, the second runs after a legal sequence that has the
first. -/
theorem Legal.of_pair {k k' : κ} {xs : List (Nat × ω × ρ)} (h : Legal spec k xs k')
    {x y : Nat × ω × ρ} (hxy : [x, y].Sublist xs) :
    ∃ pre k₁ k₂, x ∈ pre ∧ Legal spec k pre k₁ ∧ spec k₁ y.2.1 y.2.2 k₂ := by
  induction h with
  | nil => cases hxy
  | @snoc xs _ _ id op r before last ih =>
    rcases pair_sublist_concat_iff.mp hxy with hxy | ⟨hx, rfl⟩
    · exact ih hxy
    · exact ⟨xs, _, _, hx, before, last⟩

/-- A sequence that is legal for a specification is legal for a weaker one. -/
theorem Legal.imp {spec' : κ → ω → ρ → κ → Prop} {k k' : κ} {xs : List (Nat × ω × ρ)}
    (h : Legal spec k xs k') (himp : ∀ k op r k', spec k op r k' → spec' k op r k') :
    Legal spec' k xs k' := by
  induction h with
  | nil => exact .nil
  | snoc id op r _ last ih => exact ih.snoc id op r (himp _ op r _ last)

/-- A sequential order of the operations of a history. -/
structure Linearization (spec : κ → ω → ρ → κ → Prop) (k : κ) (history : List (Event ω ρ))
    (order : List (Nat × ω × ρ)) : Prop where
  once : (order.map Prod.fst).Nodup
  called : ∀ x ∈ order, Event.call x.1 x.2.1 ∈ history
  complete : ∀ id r, Event.ret id r ∈ history → ∃ op, (id, op, r) ∈ order
  legal : ∃ k', Legal spec k order k'
  realTime : ∀ x ∈ order, ∀ y ∈ order, ∀ r op,
    [Event.ret x.1 r, Event.call y.1 op].Sublist history → [x, y].Sublist order

theorem Linearization.imp {spec' : κ → ω → ρ → κ → Prop} {k : κ} {history : List (Event ω ρ)}
    {order : List (Nat × ω × ρ)} (h : Linearization spec k history order)
    (himp : ∀ k op r k', spec k op r k' → spec' k op r k') :
    Linearization spec' k history order :=
  ⟨h.once, h.called, h.complete, h.legal.imp fun _ hl => hl.imp himp, h.realTime⟩

/-- The steps of a machine follow a specification: `I` relates the shared state to the abstract
one, and `P` is what a thread's phase relies on. -/
structure Simulation (spec : κ → ω → ρ → κ → Prop) (M : Machine τ ξ σ ω φ ρ) (I : σ → κ → Prop)
    (P : σ → τ → ω → φ → Prop) : Prop where
  start : ∀ s k t op, I s k → P s t op (M.start op)
  move : ∀ s k t x op p s' p', I s k → P s t op p → M.step t x op p s = (s', .inl p') →
    I s' k ∧ P s' t op p'
  commit : ∀ s k t x op p s' r, I s k → P s t op p → M.step t x op p s = (s', .inr r) →
    ∃ k', spec k op r k' ∧ I s' k'
  frame : ∀ s k t x op p s' out, I s k → P s t op p → M.step t x op p s = (s', out) →
    ∀ t', t' ≠ t → ∀ op' p', P s t' op' p' → P s' t' op' p'

variable {M : Machine τ ξ σ ω φ ρ} {I : σ → κ → Prop} {P : σ → τ → ω → φ → Prop}
  [DecidableEq τ]

/-- What holds in every configuration of a run: the log is legal and leads to the abstract state,
and every running operation has what it relies on. -/
structure Follows (spec : κ → ω → ρ → κ → Prop) (I : σ → κ → Prop) (P : σ → τ → ω → φ → Prop)
    (k : κ) (c : Config τ σ ω φ ρ) : Prop where
  wf : c.Wf
  log : ∃ k', Legal spec k c.log k' ∧ I c.shared k'
  running : ∀ t id op p, c.thread t = .running id op p → P c.shared t op p

theorem Simulation.follows_next (hsim : Simulation spec M I P) {k : κ} {c c' : Config τ σ ω φ ρ}
    (hc : Follows spec I P k c) (hnext : c.Next M c') : Follows spec I P k c' := by
  have hwf := hc.wf.next hnext
  obtain ⟨k', hlegal, hI⟩ := hc.log
  cases hnext with
  | stay => exact hc
  | @call t op idle =>
    refine ⟨hwf, ⟨k', hlegal, hI⟩, fun t' id op' p hrun => ?_⟩
    by_cases heq : t' = t
    · subst heq
      simp only [Config.called, Function.update_self, Status.running.injEq] at hrun
      obtain ⟨-, rfl, rfl⟩ := hrun
      exact hsim.start _ k' t' op hI
    · simp only [Config.called, Function.update_of_ne heq] at hrun
      exact hc.running t' id op' p hrun
  | @move t x id op p p' s running step =>
    have hP := hc.running t id op p running
    obtain ⟨hI', hP'⟩ := hsim.move _ k' t x op p s p' hI hP step
    refine ⟨hwf, ⟨k', hlegal, hI'⟩, fun t' id' op' q hrun => ?_⟩
    by_cases heq : t' = t
    · subst heq
      simp only [Config.moved, Function.update_self, Status.running.injEq] at hrun
      obtain ⟨-, rfl, rfl⟩ := hrun
      exact hP'
    · simp only [Config.moved, Function.update_of_ne heq] at hrun
      exact hsim.frame _ k' t x op p s _ hI hP step t' heq op' q (hc.running t' id' op' q hrun)
  | @commit t x id op p s r running step =>
    have hP := hc.running t id op p running
    obtain ⟨k'', hspec, hI'⟩ := hsim.commit _ k' t x op p s r hI hP step
    refine ⟨hwf, ⟨k'', hlegal.snoc id op r hspec, hI'⟩, fun t' id' op' q hrun => ?_⟩
    by_cases heq : t' = t
    · subst heq
      simp [Config.committed] at hrun
    · simp only [Config.committed, Function.update_of_ne heq] at hrun
      exact hsim.frame _ k' t x op p s _ hI hP step t' heq op' q (hc.running t' id' op' q hrun)
  | @ret t id op r done =>
    refine ⟨hwf, ⟨k', hlegal, hI⟩, fun t' id' op' q hrun => ?_⟩
    by_cases heq : t' = t
    · subst heq
      simp [Config.returned] at hrun
    · simp only [Config.returned, Function.update_of_ne heq] at hrun
      exact hc.running t' id' op' q hrun

/-- Every configuration of every run. -/
theorem Simulation.follows (hsim : Simulation spec M I P) {s : σ} {k : κ} (hI : I s k)
    (actions : List (Action τ ξ ω)) :
    Follows spec I P k ((Config.start s).run M actions) := by
  have hstart : Follows spec I P k (Config.start s : Config τ σ ω φ ρ) :=
    ⟨Config.start_wf s, ⟨k, .nil, hI⟩, fun t id op p h => by cases h⟩
  exact Config.run_induction M (fun c c' => hsim.follows_next) hstart actions

omit [DecidableEq τ] in
/-- The order in which the operations get their results is a linearization. -/
theorem Follows.linearization {k : κ} {c : Config τ σ ω φ ρ} (hc : Follows spec I P k c) :
    Linearization spec k c.history c.log where
  once := hc.wf.log_nodup
  called := hc.wf.log_called
  complete := hc.wf.ret_logged
  legal := hc.log.imp fun _ h => h.1
  realTime := fun x hx y hy r op hsub => hc.wf.order x.1 r y.1 op hsub x hx y hy rfl rfl

omit [DecidableEq τ] in
/-- An operation that was called after another had returned runs after a legal sequence that has the
other. -/
theorem Follows.after {k : κ} {c : Config τ σ ω φ ρ} (hc : Follows spec I P k c) {a b : Nat}
    {op op' : ω} {r r' : ρ} (ha : Event.call a op ∈ c.history)
    (hab : [Event.ret a r, Event.call b op'].Sublist c.history) (hb : Event.ret b r' ∈ c.history) :
    ∃ pre k₁ k₂, (a, op, r) ∈ pre ∧ Legal spec k pre k₁ ∧ spec k₁ op' r' k₂ := by
  obtain ⟨k', hlegal, -⟩ := hc.log
  obtain ⟨op₁, hx⟩ := hc.wf.ret_logged a r (hab.subset List.mem_cons_self)
  obtain ⟨op₂, hy⟩ := hc.wf.ret_logged b r' hb
  obtain rfl := hc.wf.call_unique a op₁ op (hc.wf.log_called _ hx) ha
  obtain rfl := hc.wf.call_unique b op₂ op' (hc.wf.log_called _ hy) (hab.subset (by simp))
  exact hlegal.of_pair (hc.wf.order a r b op₂ hab _ hx _ hy rfl rfl)

end Linearizability

end RgMemory.Concurrent
