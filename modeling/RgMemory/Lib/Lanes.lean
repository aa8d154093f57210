import Mathlib.Algebra.BigOperators.Intervals
import Mathlib.Algebra.Order.BigOperators.Group.Finset
import Mathlib.Data.List.Basic
import Mathlib.Data.List.Perm.Basic
import Mathlib.Data.List.Range

/-!
# Lanes

Many searches at once: a fixed number of lanes takes one step of one search each, in rounds, and a
lane whose search is over takes the next job. A job is a number; the lanes share the next job, the
number of lanes at work, the number of hits and two output arrays. An output array may be missing.

`walk_spec` says what comes out, provided that the search of every job ends (`Ends`): every job is
searched exactly once, whatever the lengths of the searches. The invariant (`Inv`) knows of each job
whether it waits, is in one of the lanes, or is done.
-/

namespace RgMemory.Lanes

/-- How a job is searched: where it starts, and a step, which leads on or ends with what was found. -/
structure Walker (σ V ε : Type) where
  load : Nat → σ
  step : σ → Except ε (σ ⊕ Option V)

/-- What the lanes share. -/
@[ext]
structure Shared (V : Type) where
  next : Nat
  live : Nat
  hits : Nat
  outValues : Option (Nat → V)
  outFound : Option (Nat → Int)

variable {σ V ε : Type}

/-- Take the next job: its found flag is cleared. -/
def Shared.take (b : Shared V) : Shared V :=
  { b with
    next := b.next + 1
    outFound := b.outFound.map fun f => Function.update f b.next 0 }

/-- Report a hit. -/
def Shared.hit (b : Shared V) (j : Nat) (value : V) : Shared V :=
  { b with
    hits := b.hits + 1
    outValues := b.outValues.map fun f => Function.update f j value
    outFound := if b.outValues.isSome then b.outFound.map fun f => Function.update f j 1
      else b.outFound }

/-- The end of a search. -/
def Shared.report (b : Shared V) (j : Nat) : Option V → Shared V
  | some value => b.hit j value
  | none => b

/-- A lane: idle, or at a place in the search of a job. -/
abbrev Lane (σ : Type) := Option (Nat × σ)

section

variable (W : Walker σ V ε) (count : Nat)

/-- The first jobs, one for each lane. -/
def start : Nat → Shared V → List (Lane σ) × Shared V
  | 0, b => ([], b)
  | n + 1, b =>
    if b.next < count then
      match start n { b.take with live := b.live + 1 } with
      | (lanes, b') => (some (b.next, W.load b.next) :: lanes, b')
    else
      match start n b with
      | (lanes, b') => (none :: lanes, b')

/-- A lane that is done takes the next job, or goes idle. -/
def refill (b : Shared V) : Lane σ × Shared V :=
  if b.next < count then (some (b.next, W.load b.next), b.take)
  else (none, { b with live := b.live - 1 })

/-- One lane in one round. -/
def lane (l : Lane σ) (b : Shared V) : Except ε (Lane σ × Shared V) :=
  match l with
  | none => .ok (none, b)
  | some (j, x) =>
    match W.step x with
    | .error e => .error e
    | .ok (.inl x) => .ok (some (j, x), b)
    | .ok (.inr r) => .ok (refill W count (b.report j r))

/-- One round over the lanes. -/
def round : List (Lane σ) → Shared V → Except ε (List (Lane σ) × Shared V)
  | [], b => .ok ([], b)
  | l :: rest, b =>
    match lane W count l b with
    | .error e => .error e
    | .ok (l, b) =>
      match round rest b with
      | .error e => .error e
      | .ok (lanes, b) => .ok (l :: lanes, b)

/-- Rounds, until no lane is at work. `out` is the error when the fuel is spent. -/
def loop (out : ε) : Nat → List (Lane σ) → Shared V → Except ε (Shared V)
  | 0, _, b => if b.live = 0 then .ok b else .error out
  | fuel + 1, lanes, b =>
    if b.live = 0 then .ok b
    else
      match round W count lanes b with
      | .error e => .error e
      | .ok (lanes, b) => loop out fuel lanes b

/-- All jobs, with `k` lanes. -/
def walk (out : ε) (k fuel : Nat) (outValues : Option (Nat → V)) (outFound : Option (Nat → Int)) :
    Except ε (Shared V) :=
  match start W count k ⟨0, 0, 0, outValues, outFound⟩ with
  | (lanes, b) => loop W count out fuel lanes b

end

/-! ## Searches that end -/

/-- A search ends after `n` further steps, with this result. -/
inductive Ends (W : Walker σ V ε) : σ → Nat → Option V → Prop
  | last {x : σ} {r : Option V} (step : W.step x = .ok (.inr r)) : Ends W x 0 r
  | more {x y : σ} {n : Nat} {r : Option V} (step : W.step x = .ok (.inl y)) (rest : Ends W y n r) :
      Ends W x (n + 1) r

/-! ## The invariant -/

/-- The jobs in the lanes. -/
def jobs (lanes : List (Lane σ)) : List Nat := lanes.filterMap fun l => l.map Prod.fst

@[simp] theorem jobs_nil : jobs ([] : List (Lane σ)) = [] := rfl
@[simp] theorem jobs_idle (rest : List (Lane σ)) : jobs (none :: rest) = jobs rest := rfl
@[simp] theorem jobs_busy (j : Nat) (x : σ) (rest : List (Lane σ)) :
    jobs (some (j, x) :: rest) = j :: jobs rest := rfl

/-- The number of hits among the first jobs. -/
def hitsBelow (res : Nat → Option V) (n : Nat) : Nat :=
  (List.range n).countP fun j => (res j).isSome

/-- The values of the jobs that are done. -/
def valuesOf (res : Nat → Option V) (done : Nat → Bool) (g : Nat → V) (j : Nat) : V :=
  if done j then (res j).getD (g j) else g j

/-- The found flags: those of the first `n` jobs are cleared, and those of the hits that are done are
set, if hits are `told`. -/
def foundOf (res : Nat → Option V) (told : Bool) (done : Nat → Bool) (n : Nat) (f : Nat → Int)
    (j : Nat) : Int :=
  if told && done j && (res j).isSome then 1 else if j < n then 0 else f j

/-- Is the job among the first `n`, and not in one of the lanes? -/
def isDone (n : Nat) (active : List Nat) (j : Nat) : Bool := decide (j < n) && !active.contains j

/-- `active` are the jobs in the lanes; the jobs below `next` that are not among them are done. -/
structure Inv (res : Nat → Option V) (count : Nat) (g : Option (Nat → V)) (f : Option (Nat → Int))
    (active : List Nat) (b : Shared V) : Prop where
  nodup : active.Nodup
  taken : ∀ j ∈ active, j < b.next
  next_le : b.next ≤ count
  live : b.live = active.length
  hits : b.hits + active.countP (fun j => (res j).isSome) = hitsBelow res b.next
  values : b.outValues = g.map (valuesOf res (isDone b.next active))
  found : b.outFound = f.map (foundOf res g.isSome (isDone b.next active) b.next)

variable {res : Nat → Option V} {count : Nat} {g : Option (Nat → V)} {f : Option (Nat → Int)}
  {active : List Nat} {b : Shared V}

theorem hitsBelow_succ (res : Nat → Option V) (n : Nat) :
    hitsBelow res (n + 1) = hitsBelow res n + if (res n).isSome then 1 else 0 := by
  rw [hitsBelow, List.range_succ, List.countP_append, List.countP_singleton]
  rfl

theorem isDone_take (n : Nat) (active : List Nat) :
    isDone (n + 1) (n :: active) = isDone n active := by
  funext j
  by_cases hj : j = n
  · subst hj
    simp [isDone]
  · have hlt : j < n + 1 ↔ j < n := by omega
    simp [isDone, hj, hlt]

theorem isDone_finish {n j : Nat} {active : List Nat} (hlt : j < n) (hj : j ∉ active) :
    isDone n active = Function.update (isDone n (j :: active)) j true := by
  funext i
  by_cases hi : i = j
  · subst hi
    simp [isDone, hlt, hj]
  · simp [isDone, hi]

section

variable {done : Nat → Bool} {j : Nat}

theorem valuesOf_miss (hj : res j = none) :
    valuesOf res (Function.update done j true) = valuesOf res done := by
  funext g i
  by_cases hi : i = j
  · subst hi
    simp [valuesOf, hj]
  · simp [valuesOf, hi]

theorem valuesOf_hit {v : V} (hj : res j = some v) (g : Nat → V) :
    valuesOf res (Function.update done j true) g =
      Function.update (valuesOf res done g) j v := by
  funext i
  by_cases hi : i = j
  · subst hi
    simp [valuesOf, hj]
  · simp [valuesOf, hi]

theorem foundOf_miss (told : Bool) (n : Nat) (hj : res j = none) :
    foundOf res told (Function.update done j true) n = foundOf res told done n := by
  funext f i
  by_cases hi : i = j
  · subst hi
    simp [foundOf, hj]
  · simp [foundOf, hi]

theorem foundOf_hit {v : V} (n : Nat) (hj : res j = some v) (f : Nat → Int) :
    foundOf res true (Function.update done j true) n f =
      Function.update (foundOf res true done n f) j 1 := by
  funext i
  by_cases hi : i = j
  · subst hi
    simp [foundOf, hj]
  · simp [foundOf, hi]

theorem foundOf_untold (done done' : Nat → Bool) (n : Nat) :
    foundOf res false done n = foundOf res false done' n := by
  funext f i
  simp [foundOf]

/-- The flag of a job that is not done is cleared when the job is taken. -/
theorem foundOf_take (told : Bool) {n : Nat} (hn : done n = false) (f : Nat → Int) :
    foundOf res told done (n + 1) f = Function.update (foundOf res told done n f) n 0 := by
  funext i
  by_cases hi : i = n
  · subst hi
    simp [foundOf, hn]
  · have hlt : i < n + 1 ↔ i < n := by omega
    simp [foundOf, hi, hlt]

end

namespace Inv

theorem start (g : Option (Nat → V)) (f : Option (Nat → Int)) :
    Inv res count g f [] ⟨0, 0, 0, g, f⟩ := by
  refine ⟨List.nodup_nil, nofun, Nat.zero_le _, rfl, rfl, ?_, ?_⟩
  · have hsame : valuesOf res (isDone 0 []) = id := by
      funext g j
      simp [valuesOf, isDone]
    rw [hsame, Option.map_id]
    rfl
  · have hsame : foundOf res g.isSome (isDone 0 []) 0 = id := by
      funext f j
      simp [foundOf, isDone]
    rw [hsame, Option.map_id]
    rfl

/-- The order of the lanes does not matter. -/
theorem perm (h : Inv res count g f active b) {active' : List Nat} (hp : active.Perm active') :
    Inv res count g f active' b := by
  have hdone : isDone b.next active = isDone b.next active' := by
    funext j
    have hmem := hp.mem_iff (a := j)
    simp [isDone, hmem]
  refine ⟨hp.nodup_iff.mp h.nodup, fun j hj => h.taken j (hp.mem_iff.mpr hj), h.next_le,
    h.live.trans hp.length_eq, ?_, ?_, ?_⟩
  · rw [← hp.countP_eq]
    exact h.hits
  · rw [← hdone]
    exact h.values
  · rw [← hdone]
    exact h.found

/-- A lane takes the next job. -/
theorem take (h : Inv res count g f active b) (hnext : b.next < count) :
    Inv res count g f (b.next :: active) { b.take with live := b.live + 1 } := by
  have hnew : b.next ∉ active := fun hmem => Nat.lt_irrefl _ (h.taken _ hmem)
  have hdone := isDone_take b.next active
  refine ⟨List.nodup_cons.mpr ⟨hnew, h.nodup⟩, ?_, hnext, congrArg (· + 1) h.live, ?_, ?_, ?_⟩
  · intro j hj
    show j < b.next + 1
    rcases List.mem_cons.mp hj with rfl | hj
    · exact Nat.lt_succ_self _
    · exact Nat.lt_succ_of_lt (h.taken j hj)
  · show b.hits + _ = hitsBelow res (b.next + 1)
    rw [hitsBelow_succ, List.countP_cons, ← Nat.add_assoc, h.hits]
  · show b.outValues = g.map (valuesOf res (isDone (b.next + 1) (b.next :: active)))
    rw [hdone]
    exact h.values
  · show b.outFound.map _ =
      f.map (foundOf res g.isSome (isDone (b.next + 1) (b.next :: active)) (b.next + 1))
    have hold : isDone b.next active b.next = false := by simp [isDone]
    rw [hdone, h.found, Option.map_map]
    refine congrArg (fun c => f.map c) (funext fun f => ?_)
    exact (foundOf_take g.isSome hold f).symm

/-- A job is done. -/
theorem finish {j : Nat} (h : Inv res count g f (j :: active) b) :
    Inv res count g f active { b.report j (res j) with live := b.live - 1 } := by
  obtain ⟨hj, hnodup⟩ := List.nodup_cons.mp h.nodup
  have hdone := isDone_finish (h.taken j List.mem_cons_self) hj
  have hlive : b.live - 1 = active.length := by
    rw [h.live]
    rfl
  have hhits := h.hits
  rw [List.countP_cons] at hhits
  cases hr : res j with
  | none =>
    rw [hr] at hhits
    refine ⟨hnodup, fun i hi => h.taken i (List.mem_cons_of_mem _ hi), h.next_le, hlive, hhits,
      ?_, ?_⟩
    · show b.outValues = g.map (valuesOf res (isDone b.next active))
      rw [hdone, valuesOf_miss hr]
      exact h.values
    · show b.outFound = f.map (foundOf res g.isSome (isDone b.next active) b.next)
      rw [hdone, foundOf_miss _ _ hr]
      exact h.found
  | some v =>
    rw [hr] at hhits
    refine ⟨hnodup, fun i hi => h.taken i (List.mem_cons_of_mem _ hi), h.next_le, hlive,
      ?_, ?_, ?_⟩
    · show b.hits + 1 + active.countP _ = hitsBelow res b.next
      rw [← hhits, Option.isSome_some, if_pos rfl]
      omega
    · show b.outValues.map _ = g.map (valuesOf res (isDone b.next active))
      rw [hdone, h.values, Option.map_map]
      exact congrArg (fun c => g.map c) (funext fun g => (valuesOf_hit hr g).symm)
    · show (if b.outValues.isSome then _ else _) =
        f.map (foundOf res g.isSome (isDone b.next active) b.next)
      rw [hdone, h.values, h.found]
      cases g with
      | none => exact congrArg (fun c => f.map c) (foundOf_untold _ _ _)
      | some g =>
        rw [Option.map_some, Option.isSome_some, if_pos rfl, Option.map_map]
        exact congrArg (fun c => f.map c) (funext fun f => (foundOf_hit _ hr f).symm)

end Inv

/-! ## The rounds -/

/-- The lane ends within `n` rounds with the result of its job. -/
def Runs (W : Walker σ V ε) (res : Nat → Option V) (l : Lane σ) (n : Nat) : Prop :=
  match l with
  | none => n = 0
  | some (j, x) => ∃ m, n = m + 1 ∧ Ends W x m (res j)

/-- The rounds that the jobs from `next` on will take. -/
def waiting (cost : Nat → Nat) (count next : Nat) : Nat := ∑ j ∈ Finset.Ico next count, (cost j + 1)

theorem waiting_le {cost : Nat → Nat} {n : Nat} (hcost : ∀ j < count, cost j ≤ n) :
    waiting cost count 0 ≤ count * (n + 1) := by
  have hle : waiting cost count 0 ≤ ∑ j ∈ Finset.Ico 0 count, (n + 1) := by
    refine Finset.sum_le_sum fun j hj => ?_
    exact Nat.succ_le_succ (hcost j (Finset.mem_Ico.mp hj).2)
  rwa [Finset.sum_const, Nat.card_Ico, Nat.sub_zero] at hle

theorem waiting_next (cost : Nat → Nat) {next : Nat} (hnext : next < count) :
    waiting cost count next = cost next + 1 + waiting cost count (next + 1) :=
  Finset.sum_eq_sum_Ico_succ_bot hnext _

section

variable {W : Walker σ V ε} {cost : Nat → Nat}

/-- A lane that has reported its job takes the next one, or goes idle. -/
theorem refill_step (hcost : ∀ j < count, Ends W (W.load j) (cost j) (res j))
    (h : Inv res count g f active { b with live := b.live - 1 }) (hlive : 0 < b.live) :
    ∃ l' b' n', refill W count b = (l', b') ∧ Inv res count g f (jobs [l'] ++ active) b' ∧
      Runs W res l' n' ∧ n' + waiting cost count b'.next = waiting cost count b.next ∧
      (l' = none → b'.next = count) ∧ b.next ≤ b'.next := by
  unfold refill
  by_cases hnext : b.next < count
  · rw [if_pos hnext]
    refine ⟨_, _, cost b.next + 1, rfl, ?_, ⟨cost b.next, rfl, hcost _ hnext⟩,
      (waiting_next cost hnext).symm, nofun, Nat.le_succ _⟩
    have htake := h.take hnext
    have hsame : { b.take with live := b.live - 1 + 1 } = b.take := by
      rw [Nat.sub_add_cancel hlive]
      rfl
    rw [← hsame]
    exact htake
  · rw [if_neg hnext]
    exact ⟨_, _, 0, rfl, h, rfl, Nat.zero_add _,
      fun _ => Nat.le_antisymm h.next_le (Nat.le_of_not_lt hnext), Nat.le_refl _⟩

/-- One lane spends one round. -/
theorem lane_step (hcost : ∀ j < count, Ends W (W.load j) (cost j) (res j)) {l : Lane σ} {n : Nat}
    (hrun : Runs W res l n) (h : Inv res count g f (jobs [l] ++ active) b) :
    ∃ l' b' n', lane W count l b = .ok (l', b') ∧ Inv res count g f (jobs [l'] ++ active) b' ∧
      Runs W res l' n' ∧
      n' + waiting cost count b'.next + (jobs [l]).length = n + waiting cost count b.next ∧
      (l' = none → b'.next = count ∨ l = none) ∧ b.next ≤ b'.next := by
  cases l with
  | none => exact ⟨none, b, n, rfl, h, hrun, rfl, fun _ => .inr rfl, Nat.le_refl _⟩
  | some job =>
    obtain ⟨j, x⟩ := job
    obtain ⟨m, rfl, hends⟩ := hrun
    rw [lane]
    cases hends with
    | @last _ r hstep =>
      have hfinish : Inv res count g f active
          { b.report j (res j) with live := (b.report j (res j)).live - 1 } := by
        have hlive : (b.report j (res j)).live = b.live := by cases res j <;> rfl
        rw [hlive]
        exact h.finish
      have hlive : 0 < (b.report j (res j)).live := by
        have hpos : 0 < b.live := by
          rw [h.live]
          exact Nat.succ_pos _
        cases res j <;> exact hpos
      have hnext : (b.report j (res j)).next = b.next := by cases res j <;> rfl
      obtain ⟨l', b', n', heq, hinv, hrun, hwork, hfull, hle⟩ := refill_step hcost hfinish hlive
      rw [hnext] at hwork hle
      refine ⟨l', b', n', ?_, hinv, hrun, ?_, fun hl => .inl (hfull hl), hle⟩
      · rw [hstep, ← heq]
      · show n' + waiting cost count b'.next + 1 = _
        omega
    | @more _ y m _ hstep hrest =>
      refine ⟨some (j, y), b, m + 1, ?_, h, ⟨m, rfl, hrest⟩, ?_, nofun, Nat.le_refl _⟩
      · rw [hstep]
      · show m + 1 + _ + 1 = m + 1 + 1 + _
        omega

/-- One round: every lane at work spends one of its rounds. -/
theorem round_step (hcost : ∀ j < count, Ends W (W.load j) (cost j) (res j)) {lanes : List (Lane σ)}
    {ns : List Nat} (hruns : List.Forall₂ (Runs W res) lanes ns)
    (h : Inv res count g f (jobs lanes ++ active) b) :
    ∃ lanes' b' ns', round W count lanes b = .ok (lanes', b') ∧
      Inv res count g f (jobs lanes' ++ active) b' ∧ List.Forall₂ (Runs W res) lanes' ns' ∧
      ns'.sum + waiting cost count b'.next + (jobs lanes).length =
        ns.sum + waiting cost count b.next ∧
      (none ∈ lanes' → b'.next = count ∨ none ∈ lanes) ∧ b.next ≤ b'.next ∧
      lanes'.length = lanes.length := by
  induction hruns generalizing active b with
  | nil => exact ⟨[], b, [], rfl, h, .nil, rfl, nofun, Nat.le_refl _, rfl⟩
  | @cons l n lanes ns hrun hruns ih =>
    -- the lanes that have had their turn join the other jobs
    have hturn : ∀ l : Lane σ, (jobs (l :: lanes) ++ active).Perm
        (jobs [l] ++ (jobs lanes ++ active)) := by
      intro l
      cases l <;> exact List.Perm.refl _
    have hback : ∀ (l : Lane σ) (lanes : List (Lane σ)),
        (jobs lanes ++ (jobs [l] ++ active)).Perm (jobs (l :: lanes) ++ active) := by
      intro l lanes
      cases l with
      | none => exact List.Perm.refl _
      | some job => exact List.perm_middle
    obtain ⟨l', b1, n', hlane, hinv, hrun', hwork, hfull, hle⟩ :=
      lane_step hcost hrun (h.perm (hturn l))
    obtain ⟨lanes', b', ns', hround, hinv', hruns', hwork', hfull', hle', hlen'⟩ :=
      ih (hinv.perm ((hturn l').symm.trans (hback l' lanes).symm))
    refine ⟨l' :: lanes', b', n' :: ns', ?_, hinv'.perm (hback l' lanes'), .cons hrun' hruns',
      ?_, ?_, Nat.le_trans hle hle', congrArg (· + 1) hlen'⟩
    · rw [round, hlane]
      dsimp only
      rw [hround]
    · have hlen : (jobs (l :: lanes)).length = (jobs [l]).length + (jobs lanes).length := by
        cases l with
        | none => exact (Nat.zero_add _).symm
        | some job => exact Nat.add_comm _ _
      rw [List.sum_cons, List.sum_cons, hlen]
      omega
    · intro hmem
      rcases List.mem_cons.mp hmem with hl | hmem
      · rcases hfull hl.symm with hcount | hl
        · have hle'' := hinv'.next_le
          exact .inl (by omega)
        · exact .inr (List.mem_cons.mpr (.inl hl.symm))
      · rcases hfull' hmem with hcount | hmem
        · exact .inl hcount
        · exact .inr (List.mem_cons_of_mem _ hmem)

theorem none_mem_of_jobs_nil {lanes : List (Lane σ)} (hpos : 0 < lanes.length)
    (hjobs : jobs lanes = []) : none ∈ lanes := by
  cases lanes with
  | nil => exact absurd hpos (Nat.lt_irrefl _)
  | cons l lanes =>
    cases l with
    | none => exact List.mem_cons_self
    | some job => exact absurd hjobs (List.cons_ne_nil _ _)

/-- The rounds end, and when they do every job is done. -/
theorem loop_spec (out : ε) (hcost : ∀ j < count, Ends W (W.load j) (cost j) (res j)) {fuel : Nat}
    {lanes : List (Lane σ)} {ns : List Nat} (hpos : 0 < lanes.length)
    (hruns : List.Forall₂ (Runs W res) lanes ns) (h : Inv res count g f (jobs lanes) b)
    (hfull : none ∈ lanes → b.next = count)
    (hfuel : ns.sum + waiting cost count b.next ≤ fuel) :
    ∃ b', loop W count out fuel lanes b = .ok b' ∧ b'.next = count ∧ Inv res count g f [] b' := by
  have hall : Inv res count g f (jobs lanes ++ []) b := by rwa [List.append_nil]
  induction fuel generalizing lanes ns b with
  | zero =>
    obtain ⟨lanes', b', ns', -, -, -, hwork, -⟩ := round_step hcost hruns hall
    have hjobs : jobs lanes = [] := List.length_eq_zero_iff.mp (by omega)
    exact ⟨b, if_pos (h.live.trans (congrArg List.length hjobs)),
      hfull (none_mem_of_jobs_nil hpos hjobs), hjobs ▸ h⟩
  | succ fuel ih =>
    rw [loop]
    by_cases hlive : b.live = 0
    · have hjobs : jobs lanes = [] := List.length_eq_zero_iff.mp (h.live.symm.trans hlive)
      exact ⟨b, if_pos hlive, hfull (none_mem_of_jobs_nil hpos hjobs), hjobs ▸ h⟩
    · obtain ⟨lanes', b', ns', hround, hinv', hruns', hwork, hfull', hle, hlen⟩ :=
        round_step hcost hruns hall
      have h' : Inv res count g f (jobs lanes') b' := by rwa [List.append_nil] at hinv'
      rw [if_neg hlive, hround]
      refine ih (hlen ▸ hpos) hruns' h' ?_ ?_ hinv'
      · intro hmem
        rcases hfull' hmem with hcount | hmem
        · exact hcount
        · have hend := hfull hmem
          have hle' := hinv'.next_le
          omega
      · rw [← h.live] at hwork
        omega

/-- The first loop puts a job in each lane, as long as there are jobs. -/
theorem start_step (hcost : ∀ j < count, Ends W (W.load j) (cost j) (res j)) (k : Nat)
    (h : Inv res count g f active b) :
    ∃ lanes b' ns, start W count k b = (lanes, b') ∧ Inv res count g f (jobs lanes ++ active) b' ∧
      List.Forall₂ (Runs W res) lanes ns ∧
      ns.sum + waiting cost count b'.next = waiting cost count b.next ∧
      (none ∈ lanes → b'.next = count) ∧ b.next ≤ b'.next ∧ lanes.length = k := by
  induction k generalizing active b with
  | zero => exact ⟨[], b, [], rfl, h, .nil, Nat.zero_add _, nofun, Nat.le_refl _, rfl⟩
  | succ k ih =>
    rw [start]
    by_cases hnext : b.next < count
    · rw [if_pos hnext]
      obtain ⟨lanes, b', ns, heq, hinv, hruns, hwork, hfull, hle, hlen⟩ := ih (h.take hnext)
      rw [heq]
      refine ⟨_, b', (cost b.next + 1) :: ns, rfl, hinv.perm List.perm_middle,
        .cons ⟨cost b.next, rfl, hcost _ hnext⟩ hruns, ?_, ?_, Nat.le_trans (Nat.le_succ _) hle,
        congrArg (· + 1) hlen⟩
      · rw [List.sum_cons, Nat.add_assoc, hwork]
        exact (waiting_next cost hnext).symm
      · intro hmem
        rcases List.mem_cons.mp hmem with hmem | hmem
        · exact absurd hmem nofun
        · exact hfull hmem
    · rw [if_neg hnext]
      obtain ⟨lanes, b', ns, heq, hinv, hruns, hwork, hfull, hle, hlen⟩ := ih h
      rw [heq]
      refine ⟨_, b', 0 :: ns, rfl, hinv, .cons rfl hruns, ?_, fun _ => ?_, hle,
        congrArg (· + 1) hlen⟩
      · rw [List.sum_cons, Nat.zero_add]
        exact hwork
      · have hle' := hinv.next_le
        omega

/-- **Every job is searched once.** If the search of every job ends, the rounds end; the hits are
counted, the values of the hits are stored and no other, and the found flags say which jobs hit, if
values are stored. -/
theorem walk_spec (out : ε) {k : Nat} (hk : 0 < k)
    (hcost : ∀ j < count, Ends W (W.load j) (cost j) (res j)) (g : Option (Nat → V))
    (f : Option (Nat → Int)) {fuel : Nat} (hfuel : waiting cost count 0 ≤ fuel) :
    walk W count out k fuel g f =
      .ok ⟨count, 0, hitsBelow res count, g.map (valuesOf res fun j => decide (j < count)),
        f.map (foundOf res g.isSome (fun j => decide (j < count)) count)⟩ := by
  obtain ⟨lanes, b, ns, hstart, hinv, hruns, hwork, hfull, -, hlen⟩ :=
    start_step hcost k (Inv.start g f)
  rw [List.append_nil] at hinv
  obtain ⟨b', hloop, hnext, hinv'⟩ :=
    loop_spec out hcost (hlen.symm ▸ hk) hruns hinv hfull (hwork.trans_le hfuel)
  have hhits := hinv'.hits
  have hvalues := hinv'.values
  have hfound := hinv'.found
  have hdone : isDone b'.next [] = fun j => decide (j < count) := by
    funext j
    simp [isDone, hnext]
  rw [hdone] at hvalues hfound
  rw [hnext] at hhits hfound
  rw [walk, hstart]
  exact hloop.trans (congrArg Except.ok (Shared.ext hnext hinv'.live hhits hvalues hfound))

end

end RgMemory.Lanes
