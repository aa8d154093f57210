import RgMemory.Lib.Lanes

/-!
# Lanes, one access at a time

`Lanes.walk` searches in something that does not change. Here what is searched may change between two
accesses: `Place` says where the loops stand, and `Place.next` makes the next access, with the walker of
the moment. When nothing changes, the accesses one after the other are the walk (`walk_comes`).

Otherwise a search ends with what it has seen on its way. `Serves` is what the walker of a moment must
do for that: `Rel` is what a search relies on at its place, and `Ans` what its end says about its
result. `Going.next` is the step rule. The results that the invariant of the lanes speaks of are not
known beforehand; a job gets its result when its search ends (`Inv.answer`).

The accesses are bounded too (`Going.steps_le`): a round in which no lane is at work is the last one.
-/

namespace RgMemory.Lanes

variable {σ V ε : Type}

/-- Where the loops stand between two accesses: `k` lanes wait for their first job, or the lanes of
`rest` still have their turn in this round, or the lane after those of `ready` has reported its job. -/
inductive Place (σ V : Type)
  | fill (lanes : List (Lane σ)) (k : Nat) (b : Shared V)
  | turn (ready rest : List (Lane σ)) (b : Shared V)
  | done (ready rest : List (Lane σ)) (b : Shared V)

section

variable (W : Walker σ V ε) (count : Nat)

/-- The next access, and on to the next place or the end. -/
def Place.next : Place σ V → Except ε (Place σ V ⊕ Shared V)
  | .fill lanes 0 b => .ok (.inl (.turn lanes [] b))
  | .fill lanes (k + 1) b =>
    if b.next < count then
      .ok (.inl (.fill (lanes ++ [some (b.next, W.load b.next)]) k
        { b.take with live := b.live + 1 }))
    else .ok (.inl (.fill (lanes ++ [none]) k b))
  | .turn lanes [] b => if b.live = 0 then .ok (.inr b) else .ok (.inl (.turn [] lanes b))
  | .turn ready (none :: rest) b => .ok (.inl (.turn (ready ++ [none]) rest b))
  | .turn ready (some (j, x) :: rest) b =>
    match W.step x with
    | .error e => .error e
    | .ok (.inl x) => .ok (.inl (.turn (ready ++ [some (j, x)]) rest b))
    | .ok (.inr r) => .ok (.inl (.done ready rest (b.report j r)))
  | .done ready rest b =>
    match refill W count b with
    | (l, b) => .ok (.inl (.turn (ready ++ [l]) rest b))

/-! ## Nothing changes -/

/-- The accesses come to an end. -/
inductive Comes : Place σ V → Shared V → Prop
  | last {pl : Place σ V} {b : Shared V} (next : pl.next W count = .ok (.inr b)) : Comes pl b
  | more {pl pl' : Place σ V} {b : Shared V} (next : pl.next W count = .ok (.inl pl'))
      (rest : Comes pl' b) : Comes pl b

variable {W count}

theorem start_comes {k : Nat} {b b' out : Shared V} {lanes : List (Lane σ)}
    (h : start W count k b = (lanes, b')) (ready : List (Lane σ))
    (hout : Comes W count (.turn (ready ++ lanes) [] b') out) :
    Comes W count (.fill ready k b) out := by
  induction k generalizing ready b lanes b' with
  | zero =>
    cases h
    rw [List.append_nil] at hout
    exact .more rfl hout
  | succ k ih =>
    by_cases hnext : b.next < count
    · rw [start, if_pos hnext] at h
      rcases hrest : start W count k { b.take with live := b.live + 1 } with ⟨lanes', b''⟩
      rw [hrest] at h
      cases h
      refine .more (if_pos hnext) (ih hrest _ ?_)
      rw [List.append_assoc]
      exact hout
    · rw [start, if_neg hnext] at h
      rcases hrest : start W count k b with ⟨lanes', b''⟩
      rw [hrest] at h
      cases h
      refine .more (if_neg hnext) (ih hrest _ ?_)
      rw [List.append_assoc]
      exact hout

theorem round_comes {lanes lanes' : List (Lane σ)} {b b' out : Shared V}
    (h : round W count lanes b = .ok (lanes', b')) (ready : List (Lane σ))
    (hout : Comes W count (.turn (ready ++ lanes') [] b') out) :
    Comes W count (.turn ready lanes b) out := by
  induction lanes generalizing ready b lanes' b' with
  | nil =>
    cases h
    rwa [List.append_nil] at hout
  | cons l lanes ih =>
    rw [round] at h
    cases hlane : lane W count l b with
    | error e =>
      rw [hlane] at h
      cases h
    | ok turned =>
      obtain ⟨l', b₁⟩ := turned
      rw [hlane] at h
      dsimp only at h
      cases hround : round W count lanes b₁ with
      | error e =>
        rw [hround] at h
        cases h
      | ok rest =>
        obtain ⟨lanes₁, b₂⟩ := rest
        rw [hround] at h
        cases h
        have hrest : Comes W count (.turn (ready ++ [l']) lanes b₁) out := by
          refine ih hround _ ?_
          rw [List.append_assoc]
          exact hout
        cases l with
        | none =>
          cases hlane
          exact .more rfl hrest
        | some job =>
          obtain ⟨j, x⟩ := job
          rw [lane] at hlane
          rcases hstep : W.step x with e | y | r
          · rw [hstep] at hlane
            cases hlane
          · rw [hstep] at hlane
            cases hlane
            refine .more ?_ hrest
            rw [Place.next, hstep]
          · rw [hstep] at hlane
            have hrefill : refill W count (b.report j r) = (l', b₁) := Except.ok.inj hlane
            have hreported : Comes W count (.done ready lanes (b.report j r)) out := by
              refine .more ?_ hrest
              rw [Place.next, hrefill]
            refine .more ?_ hreported
            rw [Place.next, hstep]

theorem loop_comes {e : ε} {fuel : Nat} {lanes : List (Lane σ)} {b out : Shared V}
    (h : loop W count e fuel lanes b = .ok out) : Comes W count (.turn lanes [] b) out := by
  induction fuel generalizing lanes b with
  | zero =>
    rw [loop] at h
    by_cases hlive : b.live = 0
    · rw [if_pos hlive] at h
      cases h
      exact .last (if_pos hlive)
    · rw [if_neg hlive] at h
      cases h
  | succ fuel ih =>
    rw [loop] at h
    by_cases hlive : b.live = 0
    · rw [if_pos hlive] at h
      cases h
      exact .last (if_pos hlive)
    · rw [if_neg hlive] at h
      cases hround : round W count lanes b with
      | error e =>
        rw [hround] at h
        cases h
      | ok rest =>
        obtain ⟨lanes', b'⟩ := rest
        rw [hround] at h
        exact .more (if_neg hlive) (round_comes hround [] (ih h))

/-- **When nothing changes, the accesses are the walk.** -/
theorem walk_comes {e : ε} {k fuel : Nat} {g : Option (Nat → V)} {f : Option (Nat → Int)}
    {out : Shared V} (h : walk W count e k fuel g f = .ok out) :
    Comes W count (.fill [] k ⟨0, 0, 0, g, f⟩) out := by
  rcases hstart : start W count k (⟨0, 0, 0, g, f⟩ : Shared V) with ⟨lanes, b⟩
  rw [walk, hstart] at h
  exact start_comes hstart [] (loop_comes h)

end

/-! ## Results that are not known beforehand -/

section

variable {res : Nat → Option V} {count : Nat} {g : Option (Nat → V)} {f : Option (Nat → Int)}
  {active : List Nat} {b : Shared V}

theorem hitsBelow_answer {j n : Nat} (hj : j < n) (r : Option V) :
    hitsBelow (Function.update res j r) n + (if (res j).isSome then 1 else 0) =
      hitsBelow res n + if r.isSome then 1 else 0 := by
  induction n with
  | zero => exact absurd hj (Nat.not_lt_zero j)
  | succ n ih =>
    rw [hitsBelow_succ, hitsBelow_succ]
    by_cases hjn : j = n
    · subst hjn
      have hsame : hitsBelow (Function.update res j r) j = hitsBelow res j := by
        refine List.countP_congr fun i hi => ?_
        rw [Function.update_of_ne (Nat.ne_of_lt (List.mem_range.mp hi))]
      rw [hsame, Function.update_self]
      omega
    · rw [Function.update_of_ne (Ne.symm hjn)]
      have hrest := ih (by omega)
      omega

/-- A job whose search goes on may get any result. -/
theorem Inv.answer {j : Nat} (h : Inv res count g f (j :: active) b) (r : Option V) :
    Inv (Function.update res j r) count g f (j :: active) b := by
  have hj := (List.nodup_cons.mp h.nodup).1
  have hlt := h.taken j List.mem_cons_self
  have hdone : isDone b.next (j :: active) j = false := by simp [isDone]
  have hother : ∀ i, isDone b.next (j :: active) i = true → Function.update res j r i = res i := by
    intro i hi
    refine Function.update_of_ne (fun heq => ?_) ..
    rw [heq, hdone] at hi
    cases hi
  refine ⟨h.nodup, h.taken, h.next_le, h.live, ?_, ?_, ?_⟩
  · have hhits := h.hits
    have hsame : active.countP (fun i => (Function.update res j r i).isSome) =
        active.countP fun i => (res i).isSome := by
      refine List.countP_congr fun i hi => ?_
      rw [Function.update_of_ne]
      exact fun heq => hj (heq ▸ hi)
    have hbelow : hitsBelow (Function.update res j r) b.next + (if (res j).isSome then 1 else 0) =
        hitsBelow res b.next + if r.isSome then 1 else 0 := hitsBelow_answer hlt r
    rw [List.countP_cons] at hhits ⊢
    rw [hsame, Function.update_self]
    omega
  · rw [h.values]
    refine congrArg (fun c => g.map c) (funext fun g => funext fun i => ?_)
    unfold valuesOf
    by_cases hi : isDone b.next (j :: active) i = true
    · rw [hother i hi]
    · rw [if_neg hi, if_neg hi]
  · rw [h.found]
    refine congrArg (fun c => f.map c) (funext fun f => funext fun i => ?_)
    unfold foundOf
    by_cases hi : isDone b.next (j :: active) i = true
    · rw [hother i hi]
    · rw [Bool.not_eq_true] at hi
      simp only [hi, Bool.and_false, Bool.false_and]

end

/-! ## Searches in what changes -/

section

variable {W : Walker σ V ε} {Rel Rel' : Nat → Nat → σ → Prop} {Ans Ans' : Nat → Nat → Option V → Prop}
  {count : Nat}

/-- What a step of a search leads to, after `d` steps. -/
inductive Leads (Rel : Nat → Nat → σ → Prop) (Ans : Nat → Nat → Option V → Prop) (j d : Nat) :
    Except ε (σ ⊕ Option V) → Prop
  | more {x : σ} (relies : Rel j (d + 1) x) : Leads Rel Ans j d (.ok (.inl x))
  | last {r : Option V} (answer : Ans j (d + 1) r) : Leads Rel Ans j d (.ok (.inr r))

/-- The walker of a moment serves the searches: what a search relies on is kept, and no step fails. -/
structure Serves (W : Walker σ V ε) (Rel : Nat → Nat → σ → Prop) (Ans : Nat → Nat → Option V → Prop) :
    Prop where
  load : ∀ j, Rel j 0 (W.load j)
  step : ∀ j d x, Rel j d x → Leads Rel Ans j d (W.step x)

/-- One step more of the search of a job. -/
def bump (turns : Nat → Nat) (j : Nat) : Nat → Nat := Function.update turns j (turns j + 1)

theorem sum_bump (turns : Nat → Nat) {j n : Nat} (hj : j < n) :
    ∑ i ∈ Finset.range n, bump turns j i = ∑ i ∈ Finset.range n, turns i + 1 := by
  have hmem : j ∈ Finset.range n := Finset.mem_range.mpr hj
  have hsum := Finset.sum_update_of_mem hmem turns (turns j + 1)
  have hsplit := Finset.add_sum_erase (Finset.range n) turns hmem
  rw [Finset.sdiff_singleton_eq_erase] at hsum
  unfold bump
  omega

/-- What is known of the lanes: the results and the numbers of steps of the jobs, and what their
searches rely on. -/
structure Holding (Rel : Nat → Nat → σ → Prop) (Ans : Nat → Nat → Option V → Prop) (count : Nat)
    (g : Option (Nat → V)) (f : Option (Nat → Int)) (res : Nat → Option V) (turns : Nat → Nat)
    (lanes : List (Lane σ)) (b : Shared V) : Prop where
  inv : Inv res count g f (jobs lanes) b
  relies : ∀ j x, some (j, x) ∈ lanes → Rel j (turns j) x
  answered : ∀ j, isDone b.next (jobs lanes) j = true → Ans j (turns j) (res j)
  fresh : ∀ j, b.next ≤ j → turns j = 0
  full : none ∈ lanes → b.next = count

theorem mem_jobs {j : Nat} {x : σ} {lanes : List (Lane σ)} (h : some (j, x) ∈ lanes) :
    j ∈ jobs lanes :=
  List.mem_filterMap.mpr ⟨_, h, rfl⟩

namespace Holding

variable {g : Option (Nat → V)} {f : Option (Nat → Int)} {res : Nat → Option V} {turns : Nat → Nat}
  {lanes lanes' : List (Lane σ)} {b : Shared V}

theorem mono (h : Holding Rel Ans count g f res turns lanes b)
    (hrel : ∀ j d x, Rel j d x → Rel' j d x) (hans : ∀ j d r, Ans j d r → Ans' j d r) :
    Holding Rel' Ans' count g f res turns lanes b :=
  ⟨h.inv, fun j x hx => hrel _ _ _ (h.relies j x hx), fun j hj => hans _ _ _ (h.answered j hj),
    h.fresh, h.full⟩

/-- The order of the lanes does not matter. -/
theorem perm (h : Holding Rel Ans count g f res turns lanes b) (hp : lanes.Perm lanes') :
    Holding Rel Ans count g f res turns lanes' b := by
  have hjobs : (jobs lanes).Perm (jobs lanes') := hp.filterMap _
  refine ⟨h.inv.perm hjobs, fun j x hx => h.relies j x (hp.mem_iff.mpr hx), fun j hj => ?_, h.fresh,
    fun hn => h.full (hp.mem_iff.mpr hn)⟩
  refine h.answered j ?_
  unfold isDone at hj ⊢
  have hmem := hjobs.mem_iff (a := j)
  simpa [hmem] using hj

/-- A lane takes the next job. -/
theorem take (h : Holding Rel Ans count g f res turns lanes b) (hnext : b.next < count) {x : σ}
    (hx : Rel b.next 0 x) :
    Holding Rel Ans count g f res turns (some (b.next, x) :: lanes)
      { b.take with live := b.live + 1 } := by
  refine ⟨h.inv.take hnext, fun j y hy => ?_, fun j hj => ?_, fun j hj => ?_, fun hn => ?_⟩
  · rcases List.mem_cons.mp hy with heq | hy
    · cases heq
      rw [h.fresh b.next (Nat.le_refl _)]
      exact hx
    · exact h.relies j y hy
  · refine h.answered j ?_
    have hsame := isDone_take b.next (jobs lanes)
    rw [← hsame]
    exact hj
  · exact h.fresh j (Nat.le_of_succ_le hj)
  · rcases List.mem_cons.mp hn with heq | hn
    · cases heq
    · exact absurd (h.full hn) (Nat.ne_of_lt hnext)

/-- A lane stays idle: there is no next job. -/
theorem idle (h : Holding Rel Ans count g f res turns lanes b) (hnext : ¬ b.next < count) :
    Holding Rel Ans count g f res turns (none :: lanes) b := by
  refine ⟨h.inv, fun j y hy => ?_, h.answered, h.fresh, fun _ => ?_⟩
  · rcases List.mem_cons.mp hy with heq | hy
    · cases heq
    · exact h.relies j y hy
  · have hle := h.inv.next_le
    omega

theorem other {j i : Nat} {x y : σ} (h : Holding Rel Ans count g f res turns (some (j, x) :: lanes) b)
    (hy : some (i, y) ∈ lanes) : i ≠ j := by
  have hj := (List.nodup_cons.mp h.inv.nodup).1
  rintro rfl
  exact hj (mem_jobs hy)

/-- A search goes on. -/
theorem more {j : Nat} {x y : σ} (h : Holding Rel Ans count g f res turns (some (j, x) :: lanes) b)
    (hy : Rel j (turns j + 1) y) :
    Holding Rel Ans count g f res (bump turns j) (some (j, y) :: lanes) b := by
  have hlt := h.inv.taken j List.mem_cons_self
  refine ⟨h.inv, fun i z hz => ?_, fun i hi => ?_, fun i hi => ?_, fun hn => ?_⟩
  · rcases List.mem_cons.mp hz with heq | hz
    · cases heq
      rw [bump, Function.update_self]
      exact hy
    · rw [bump, Function.update_of_ne (h.other hz)]
      exact h.relies i z (List.mem_cons_of_mem _ hz)
  · have hne : i ≠ j := by
      rintro rfl
      simp [isDone] at hi
    rw [bump, Function.update_of_ne hne]
    exact h.answered i hi
  · rw [bump, Function.update_of_ne (by omega)]
    exact h.fresh i hi
  · rcases List.mem_cons.mp hn with heq | hn
    · cases heq
    · exact h.full (List.mem_cons_of_mem _ hn)

/-- A search ends, and its job gets its result. -/
theorem last {j : Nat} {x : σ} {r : Option V}
    (h : Holding Rel Ans count g f res turns (some (j, x) :: lanes) b)
    (hr : Ans j (turns j + 1) r) :
    Holding Rel Ans count g f (Function.update res j r) (bump turns j) lanes
      { b.report j r with live := b.live - 1 } := by
  have hj : j ∉ jobs lanes := (List.nodup_cons.mp h.inv.nodup).1
  have hlt := h.inv.taken j List.mem_cons_self
  have hnext : (b.report j r).next = b.next := by cases r <;> rfl
  have hinv := (h.inv.answer r).finish
  rw [Function.update_self] at hinv
  refine ⟨hinv, fun i z hz => ?_, fun i hi => ?_, fun i hi => ?_, fun hn => ?_⟩
  · rw [bump, Function.update_of_ne (h.other hz)]
    exact h.relies i z (List.mem_cons_of_mem _ hz)
  · by_cases hij : i = j
    · subst hij
      rw [bump, Function.update_self, Function.update_self]
      exact hr
    · rw [bump, Function.update_of_ne hij, Function.update_of_ne hij]
      refine h.answered i ?_
      have hi' : isDone b.next (jobs lanes) i = true := hnext ▸ hi
      rw [isDone_finish hlt hj, Function.update_of_ne hij] at hi'
      exact hi'
  · have hi' : b.next ≤ i := hnext ▸ hi
    rw [bump, Function.update_of_ne (by omega)]
    exact h.fresh i hi'
  · exact hnext.trans (h.full (List.mem_cons_of_mem _ hn))

end Holding

/-! ## The steps -/

/-- The lanes. -/
def Place.lanes : Place σ V → List (Lane σ)
  | .fill lanes _ _ => lanes
  | .turn ready rest _ => ready ++ rest
  | .done ready rest _ => ready ++ rest

/-- What the lanes share. A lane that has reported its job is not at work. -/
def Place.shared : Place σ V → Shared V
  | .fill _ _ b => b
  | .turn _ _ b => b
  | .done _ _ b => { b with live := b.live - 1 }

/-- What may still come before the next step of a search: nothing in a round that has none, or what
was left of the round before. -/
def pause (k : Nat) (rest : List (Lane σ)) : Nat := if jobs rest = [] then 0 else k + 1

theorem pause_le (k : Nat) (rest : List (Lane σ)) : pause k rest ≤ k + 1 := by
  unfold pause
  split <;> omega

/-- The number `n` of accesses of `k` lanes, whose searches have taken `total` steps. -/
def Place.Paced (k n total : Nat) : Place σ V → Prop
  | .fill lanes m _ => lanes.length + m = k ∧ n + m = k
  | .turn ready rest _ => ready.length + rest.length = k ∧
      n + rest.length ≤ k + 1 + (k + 2) * total + pause k rest
  | .done ready rest b => ready.length + rest.length + 1 = k ∧ 0 < b.live ∧
      n + rest.length + 1 ≤ k + 1 + (k + 2) * total + pause k rest

/-- The lanes after `n` accesses. -/
def Going (Rel : Nat → Nat → σ → Prop) (Ans : Nat → Nat → Option V → Prop) (count k : Nat)
    (g : Option (Nat → V)) (f : Option (Nat → Int)) (n : Nat) (pl : Place σ V) : Prop :=
  ∃ res turns, Holding Rel Ans count g f res turns pl.lanes pl.shared ∧
    pl.Paced k n (∑ j ∈ Finset.range pl.shared.next, turns j)

/-- The end of all searches. -/
def Ended (Ans : Nat → Nat → Option V → Prop) (count : Nat) (g : Option (Nat → V))
    (f : Option (Nat → Int)) (b : Shared V) : Prop :=
  ∃ res, (∀ j < count, ∃ d, Ans j d (res j)) ∧
    b = ⟨count, 0, hitsBelow res count, g.map (valuesOf res fun j => decide (j < count)),
      f.map (foundOf res g.isSome (fun j => decide (j < count)) count)⟩

/-- What an access leads to. -/
inductive GoesOn (Rel : Nat → Nat → σ → Prop) (Ans : Nat → Nat → Option V → Prop) (count k : Nat)
    (g : Option (Nat → V)) (f : Option (Nat → Int)) (n : Nat) :
    Except ε (Place σ V ⊕ Shared V) → Prop
  | more {pl : Place σ V} (going : Going Rel Ans count k g f n pl) :
      GoesOn Rel Ans count k g f n (.ok (.inl pl))
  | last {b : Shared V} (ended : Ended Ans count g f b) : GoesOn Rel Ans count k g f n (.ok (.inr b))

variable {k n : Nat} {g : Option (Nat → V)} {f : Option (Nat → Int)} {pl : Place σ V}

theorem Going.start (k : Nat) (g : Option (Nat → V)) (f : Option (Nat → Int)) :
    Going Rel Ans count k g f 0 (.fill [] k ⟨0, 0, 0, g, f⟩) := by
  refine ⟨fun _ => none, fun _ => 0, ⟨Inv.start g f, fun j x hx => ?_, fun j hj => ?_, fun _ _ => rfl,
    fun hn => ?_⟩, ?_⟩
  · cases hx
  · simp [Place.shared, isDone] at hj
  · cases hn
  · exact ⟨Nat.zero_add k, Nat.zero_add k⟩

theorem Going.mono (h : Going Rel Ans count k g f n pl) (hrel : ∀ j d x, Rel j d x → Rel' j d x)
    (hans : ∀ j d r, Ans j d r → Ans' j d r) : Going Rel' Ans' count k g f n pl := by
  obtain ⟨res, turns, hold, hpaced⟩ := h
  exact ⟨res, turns, hold.mono hrel hans, hpaced⟩

theorem jobs_ne_nil {lanes : List (Lane σ)} {res : Nat → Option V} {b : Shared V}
    (h : Inv res count g f (jobs lanes) b) (hlive : b.live ≠ 0) : jobs lanes ≠ [] := by
  intro hnil
  exact hlive (h.live.trans (congrArg List.length hnil))

/-- The first loop gives a lane its first job. -/
theorem Going.fill_next (hW : Serves W Rel Ans) {lanes : List (Lane σ)} {m : Nat} {b : Shared V}
    (h : Going Rel Ans count k g f n (.fill lanes m b)) :
    GoesOn Rel Ans count k g f (n + 1) ((Place.fill lanes m b).next W count) := by
  obtain ⟨res, turns, hold, hlen, hn⟩ := h
  cases m with
  | zero =>
    refine .more ⟨res, turns, ?_, ?_, ?_⟩
    · rw [Place.lanes, List.append_nil]
      exact hold
    · exact hlen
    · have hle := Nat.le_add_right (k + 1) ((k + 2) * ∑ j ∈ Finset.range b.next, turns j)
      show n + 1 + 0 ≤ k + 1 + (k + 2) * ∑ j ∈ Finset.range b.next, turns j + pause k ([] : List (Lane σ))
      omega
  | succ m =>
    have hback : ∀ l : Lane σ, (l :: lanes).Perm (lanes ++ [l]) := fun l =>
      (List.perm_append_singleton l lanes).symm
    rw [Place.next]
    by_cases hnext : b.next < count
    · rw [if_pos hnext]
      refine .more ⟨res, turns, (hold.take hnext (hW.load b.next)).perm (hback _), ?_, ?_⟩
      · rw [List.length_append, List.length_singleton]
        omega
      · omega
    · rw [if_neg hnext]
      refine .more ⟨res, turns, (hold.idle hnext).perm (hback _), ?_, ?_⟩
      · rw [List.length_append, List.length_singleton]
        omega
      · omega

/-- A lane that has reported its job takes the next one, or goes idle. -/
theorem Going.done_next (hW : Serves W Rel Ans) {ready rest : List (Lane σ)} {b : Shared V}
    (h : Going Rel Ans count k g f n (.done ready rest b)) :
    GoesOn Rel Ans count k g f (n + 1) ((Place.done ready rest b).next W count) := by
  obtain ⟨res, turns, hold, hlen, hlive, hn⟩ := h
  have hback : ∀ l : Lane σ, (l :: (ready ++ rest)).Perm (ready ++ [l] ++ rest) := by
    intro l
    rw [List.append_assoc]
    exact List.perm_middle.symm
  have hpaced : ∀ l : Lane σ, (ready ++ [l]).length + rest.length = k := by
    intro l
    rw [List.length_append, List.length_singleton]
    omega
  rw [Place.next, refill]
  by_cases hnext : b.next < count
  · rw [if_pos hnext]
    have htaken := (hold.take (b := { b with live := b.live - 1 }) hnext (hW.load b.next)).perm
      (hback _)
    have hshared : ({ ({ b with live := b.live - 1 } : Shared V).take with
        live := ({ b with live := b.live - 1 } : Shared V).live + 1 } : Shared V) = b.take :=
      Shared.ext rfl (Nat.sub_add_cancel hlive) rfl rfl rfl
    rw [hshared] at htaken
    refine .more ⟨res, turns, htaken, hpaced _, ?_⟩
    have hfresh := hold.fresh b.next (Nat.le_refl _)
    show n + 1 + rest.length ≤
      k + 1 + (k + 2) * ∑ j ∈ Finset.range (b.next + 1), turns j + pause k rest
    rw [Finset.sum_range_succ, hfresh, Nat.add_zero]
    exact (Nat.add_right_comm n 1 rest.length).trans_le hn
  · rw [if_neg hnext]
    refine .more ⟨res, turns, (hold.idle hnext).perm (hback _), hpaced _, ?_⟩
    exact (Nat.add_right_comm n 1 rest.length).trans_le hn

/-- The turn of a lane. -/
theorem Going.turn_next (hW : Serves W Rel Ans) {ready rest : List (Lane σ)} {l : Lane σ} {b : Shared V}
    (h : Going Rel Ans count k g f n (.turn ready (l :: rest) b)) :
    GoesOn Rel Ans count k g f (n + 1) ((Place.turn ready (l :: rest) b).next W count) := by
  obtain ⟨res, turns, hold, hlen, hn⟩ := h
  rw [List.length_cons] at hlen hn
  have hturned : ∀ l : Lane σ, (ready ++ [l]).length + rest.length = k := by
    intro l
    rw [List.length_append, List.length_singleton]
    omega
  cases l with
  | none =>
    rw [Place.next]
    refine .more ⟨res, turns, ?_, hturned none, ?_⟩
    · rw [Place.lanes, List.append_assoc]
      exact hold
    · have hsame : pause k (none :: rest) = pause k rest := rfl
      rw [hsame] at hn
      show n + 1 + rest.length ≤ _
      exact (Nat.add_right_comm n 1 rest.length).trans_le hn
  | some job =>
    obtain ⟨j, x⟩ := job
    -- the lane comes first
    have hfirst : Holding Rel Ans count g f res turns (some (j, x) :: (ready ++ rest)) b :=
      hold.perm List.perm_middle
    have hlt := hfirst.inv.taken j List.mem_cons_self
    have hsum := sum_bump turns hlt
    have hpause : pause k (some (j, x) :: rest) = k + 1 := if_neg (List.cons_ne_nil _ _)
    have hwork : (k + 2) * (∑ i ∈ Finset.range b.next, turns i + 1) =
        (k + 2) * ∑ i ∈ Finset.range b.next, turns i + (k + 2) := Nat.mul_succ ..
    have hpaused := Nat.zero_le (pause k rest)
    rw [Place.shared, hpause] at hn
    rw [Place.next]
    have hlead := hW.step j (turns j) x (hfirst.relies j x List.mem_cons_self)
    generalize W.step x = out at hlead
    cases hlead with
    | @more y relies =>
      refine .more ⟨res, bump turns j, ?_, hturned _, ?_⟩
      · rw [Place.lanes, List.append_assoc]
        exact (hfirst.more relies).perm List.perm_middle.symm
      · show n + 1 + rest.length ≤
          k + 1 + (k + 2) * ∑ i ∈ Finset.range b.next, bump turns j i + pause k rest
        rw [hsum, hwork]
        omega
    | @last r answer =>
      have hnext : (b.report j r).next = b.next := by cases r <;> rfl
      have hlive : (b.report j r).live = b.live := by cases r <;> rfl
      refine .more ⟨Function.update res j r, bump turns j, ?_, ?_, ?_, ?_⟩
      · rw [Place.shared, hlive]
        exact hfirst.last answer
      · omega
      · rw [hlive, hfirst.inv.live]
        exact Nat.succ_pos _
      · show n + 1 + rest.length + 1 ≤ k + 1 + (k + 2) *
          ∑ i ∈ Finset.range (b.report j r).next, bump turns j i + pause k rest
        rw [hnext, hsum, hwork]
        omega

/-- After a round comes the next one, or the end. -/
theorem Going.round_next (hk : 0 < k) {lanes : List (Lane σ)} {b : Shared V}
    (h : Going Rel Ans count k g f n (.turn lanes [] b)) :
    GoesOn Rel Ans count k g f (n + 1) ((Place.turn lanes [] b).next W count) := by
  obtain ⟨res, turns, hold, hlen, hn⟩ := h
  rw [Place.lanes, Place.shared, List.append_nil] at hold
  rw [List.length_nil, Nat.add_zero] at hlen
  rw [Place.next]
  by_cases hlive : b.live = 0
  · rw [if_pos hlive]
    have hjobs : jobs lanes = [] := List.length_eq_zero_iff.mp (hold.inv.live.symm.trans hlive)
    have hnext : b.next = count :=
      hold.full (none_mem_of_jobs_nil (hlen.symm ▸ hk) hjobs)
    have hdone : isDone b.next (jobs lanes) = fun j => decide (j < count) := by
      funext j
      simp [isDone, hjobs, hnext]
    have hhits := hold.inv.hits
    have hvalues := hold.inv.values
    have hfound := hold.inv.found
    rw [hdone] at hvalues hfound
    rw [hnext] at hfound
    rw [hjobs, hnext] at hhits
    refine .last ⟨res, fun j hj => ⟨turns j, hold.answered j ?_⟩,
      Shared.ext hnext hlive hhits hvalues hfound⟩
    rw [congrFun hdone j]
    exact decide_eq_true hj
  · rw [if_neg hlive]
    have hbusy : pause k lanes = k + 1 := if_neg (jobs_ne_nil hold.inv hlive)
    refine .more ⟨res, turns, hold, ?_, ?_⟩
    · rw [List.length_nil, Nat.zero_add, hlen]
    · rw [hbusy, hlen]
      have hnone : pause k ([] : List (Lane σ)) = 0 := if_pos rfl
      rw [hnone, List.length_nil] at hn
      show n + 1 + k ≤ k + 1 + (k + 2) * ∑ j ∈ Finset.range b.next, turns j + (k + 1)
      have hn' : n ≤ k + 1 + (k + 2) * ∑ j ∈ Finset.range b.next, turns j := hn
      omega

/-- **Every access keeps the lanes going**, or ends the searches. -/
theorem Going.next (hk : 0 < k) (hW : Serves W Rel Ans) (h : Going Rel Ans count k g f n pl) :
    GoesOn Rel Ans count k g f (n + 1) (pl.next W count) := by
  cases pl with
  | fill lanes m b => exact h.fill_next hW
  | turn ready rest b =>
    cases rest with
    | nil => exact h.round_next hk
    | cons l rest => exact h.turn_next hW
  | done ready rest b => exact h.done_next hW

/-- **The accesses are bounded**: `k + 2` for each step that a search may take. -/
theorem Going.steps_le {most : Nat} (h : Going Rel Ans count k g f n pl)
    (hrel : ∀ j d x, Rel j d x → d ≤ most) (hans : ∀ j d r, Ans j d r → d ≤ most) :
    n ≤ 2 * (k + 1) + (k + 2) * (count * most) := by
  obtain ⟨res, turns, hold, hpaced⟩ := h
  have hturns : ∀ j ∈ Finset.range pl.shared.next, turns j ≤ most := by
    intro j hj
    by_cases hmem : j ∈ jobs pl.lanes
    · obtain ⟨l, hl, hjob⟩ := List.mem_filterMap.mp hmem
      obtain ⟨⟨j', x⟩, rfl, rfl⟩ := Option.map_eq_some_iff.mp hjob
      exact hrel _ _ _ (hold.relies j' x hl)
    · refine hans _ _ _ (hold.answered j ?_)
      simp [isDone, hmem, Finset.mem_range.mp hj]
  have htotal : ∑ j ∈ Finset.range pl.shared.next, turns j ≤ count * most := by
    refine (Finset.sum_le_sum hturns).trans ?_
    rw [Finset.sum_const, Finset.card_range]
    exact Nat.mul_le_mul_right most hold.inv.next_le
  have hwork := Nat.mul_le_mul_left (k + 2) htotal
  cases pl with
  | fill lanes m b =>
    obtain ⟨-, hn⟩ := hpaced
    omega
  | turn ready rest b =>
    obtain ⟨-, hn⟩ := hpaced
    have hpause := pause_le k rest
    omega
  | done ready rest b =>
    obtain ⟨-, -, hn⟩ := hpaced
    have hpause := pause_le k rest
    omega

end

end RgMemory.Lanes
