import RgMemory.Slots.Sweep

/-!
# Calls of one thread

`slotCall` runs the steps of one call to its end, when no other thread does anything. Every call ends
(`slotCall_ends`): a descent passes each published node at most once, and a ForEach sweeps finitely
many. What it does is what the finite map does (`slotCall_spec`).
-/

namespace RgMemory

open Bytes Links Concurrent

section

variable {ω β ι κ τ : Type} {K : SlotKeys β κ} {page : Nat} {s s' : Slots β τ} [DecidableEq τ]
  {code : SlotCode ω β ι} {t : τ} {op : ω} {p p' : SlotPhase ι} {r : SlotResult ι}

/-- A call that nothing interrupts, for at most `n` steps. The operating system has an answer for
each step. -/
def slotCall (page : Nat) (code : SlotCode ω β ι) (t : τ) (op : ω) :
    Nat → (Nat → OsReply) → SlotPhase ι → Slots β τ → Option (Slots β τ × SlotResult ι)
  | 0, _, _, _ => none
  | n + 1, os, p, s =>
    match slotStep page code t (os 0) op p s with
    | (s, .inl p) => slotCall page code t op n (fun i => os (i + 1)) p s
    | (s, .inr r) => some (s, r)

/-- More steps than it needs make no difference to a call. -/
theorem slotCall_le {n m : Nat} (hle : n ≤ m) {os : Nat → OsReply} {x : Slots β τ × SlotResult ι}
    (h : slotCall page code t op n os p s = some x) : slotCall page code t op m os p s = some x := by
  induction n generalizing m os p s with
  | zero => cases h
  | succ n ih =>
    obtain ⟨m, rfl⟩ : ∃ m', m = m' + 1 := ⟨m - 1, by omega⟩
    rcases hstep : slotStep page code t (os 0) op p s with ⟨s', p' | r⟩
    · simp only [slotCall, hstep] at h ⊢
      exact ih (Nat.le_of_succ_le_succ hle) h
    · simp only [slotCall, hstep] at h ⊢
      exact h

/-- A call does what the finite map does. -/
theorem slotCall_spec [DecidableEq κ] (hpage : IsPageSize page) (hcode : code.Lawful K)
    {m : κ → Option (BitVec 64)} (h : s.Sound K page) (hm : s.Holds K m)
    (hp : SlotRelies K code s t op p) {n : Nat} {os : Nat → OsReply}
    (hcall : slotCall page code t op n os p s = some (s', r)) :
    s'.Sound K page ∧ ∃ m', SlotSpec K code m op r m' ∧ s'.Holds K m' := by
  induction n generalizing os p s with
  | zero => cases hcall
  | succ n ih =>
    simp only [slotCall] at hcall
    split at hcall
    · next s₁ p₁ hstep =>
      obtain ⟨⟨hs₁, hm₁⟩, hp₁⟩ :=
        (slot_simulation hpage hcode).move s m t (os 0) op p s₁ p₁ ⟨h, hm⟩ hp hstep
      exact ih hs₁ hm₁ hp₁ hcall
    · next s₁ r₁ hstep =>
      cases hcall
      obtain ⟨m', hspec, hs', hm'⟩ :=
        (slot_simulation hpage hcode).commit s m t (os 0) op p s' r ⟨h, hm⟩ hp hstep
      exact ⟨hs', m', hspec, hm'⟩

/-- The bodies of nodes are those that were there and those that the call puts. -/
theorem slotStep_bodies [DecidableEq κ] (hpage : IsPageSize page) (hcode : code.Lawful K)
    (h : s.Sound K page) {os : OsReply} {out : SlotPhase ι ⊕ SlotResult ι}
    (hstep : slotStep page code t os op p s = (s', out)) {a : Nat} {n' : SlotNode β}
    (hn' : s'.heap a = some n') :
    (∃ n, s.heap a = some n ∧ n.body = n'.body) ∨
      ∃ pr v, code.op op = .put pr v ∧ n'.body = pr.body := by
  have hsame : (s'.heap a).map SlotNode.body = (s.heap a).map SlotNode.body →
      ∃ n, s.heap a = some n ∧ n.body = n'.body := by
    intro heq
    rw [hn', Option.map_some, eq_comm, Option.map_eq_some_iff] at heq
    exact heq
  unfold slotStep at hstep
  cases hop : code.op op with
  | refused r' =>
    rw [hop] at hstep
    cases hstep
    exact .inl ⟨n', hn', rfl⟩
  | get pr out' =>
    rw [hop] at hstep
    cases hstep
    exact .inl ⟨n', hn', rfl⟩
  | forEach fn =>
    rw [hop] at hstep
    dsimp only at hstep
    split at hstep <;> cases hstep <;> exact .inl ⟨n', hn', rfl⟩
  | put pr value =>
    rw [hop] at hstep
    cases p with
    | enter =>
      simp only [slotPutStep] at hstep
      split at hstep <;> cases hstep <;> exact .inl ⟨n', hn', rfl⟩
    | load x d =>
      simp only [slotPutStep] at hstep
      split at hstep <;> cases hstep <;> exact .inl ⟨n', hn', rfl⟩
    | create x d =>
      have hcreated := Slots.create_cases hpage h os t (hcode.probe op pr (by rw [hop]; rfl)) value
      simp only [slotPutStep] at hstep
      generalize s.create page os t pr value = made at hcreated hstep
      cases hcreated with
      | refused =>
        cases hstep
        exact .inl ⟨n', hn', rfl⟩
      | @granted c s₁ sound grows read fresh heap owns =>
        cases hstep
        rw [heap] at hn'
        by_cases hac : a = c
        · subst hac
          rw [Function.update_self, Option.some.injEq] at hn'
          exact .inr ⟨pr, value, rfl, hn' ▸ rfl⟩
        · rw [Function.update_of_ne hac] at hn'
          exact .inl ⟨n', hn', rfl⟩
    | cas x d c =>
      simp only [slotPutStep] at hstep
      split at hstep
      · cases hstep
        exact .inl (hsame (Slots.write_body s c x a))
      · cases hstep
        exact .inl ⟨n', hn', rfl⟩
    | inspect cur d =>
      simp only [slotPutStep] at hstep
      split at hstep <;> cases hstep <;> exact .inl ⟨n', hn', rfl⟩
    | access cur =>
      cases hstep
      exact .inl (hsame (Slots.store_body s cur value a))
    | iter it =>
      cases hstep
      exact .inl ⟨n', hn', rfl⟩

theorem slotCall_bodies [DecidableEq κ] (hpage : IsPageSize page) (hcode : code.Lawful K)
    (h : s.Sound K page) (hp : SlotRelies K code s t op p) {m : κ → Option (BitVec 64)}
    (hm : s.Holds K m) {n : Nat} {os : Nat → OsReply}
    (hcall : slotCall page code t op n os p s = some (s', r)) {a : Nat} {n' : SlotNode β}
    (hn' : s'.heap a = some n') :
    (∃ n, s.heap a = some n ∧ n.body = n'.body) ∨
      ∃ pr v, code.op op = .put pr v ∧ n'.body = pr.body := by
  induction n generalizing os p s with
  | zero => cases hcall
  | succ n ih =>
    rcases hstep : slotStep page code t (os 0) op p s with ⟨s₁, p₁ | r₁⟩
    · simp only [slotCall, hstep] at hcall
      obtain ⟨⟨hs₁, hm₁⟩, hp₁⟩ :=
        (slot_simulation hpage hcode).move s m t (os 0) op p s₁ p₁ ⟨h, hm⟩ hp hstep
      rcases ih hs₁ hp₁ hm₁ hcall with ⟨n₁, hn₁, hb⟩ | hput
      · rw [← hb]
        exact slotStep_bodies hpage hcode h hstep hn₁
      · exact .inr hput
    · simp only [slotCall, hstep] at hcall
      cases hcall
      exact slotStep_bodies hpage hcode h hstep hn'

/-! ## Every call ends -/

/-- From a phase, a call comes to its end. -/
def CallEnds (page : Nat) (code : SlotCode ω β ι) (t : τ) (op : ω) (p : SlotPhase ι)
    (s : Slots β τ) : Prop :=
  ∀ os, ∃ n x, slotCall page code t op n os p s = some x

theorem CallEnds.of_step
    (h : ∀ os s' p', slotStep page code t os op p s = (s', .inl p') →
      CallEnds page code t op p' s') : CallEnds page code t op p s := by
  intro os
  rcases hstep : slotStep page code t (os 0) op p s with ⟨s', p' | r⟩
  · obtain ⟨n, x, hx⟩ := h (os 0) s' p' hstep fun i => os (i + 1)
    exact ⟨n + 1, x, by simp only [slotCall, hstep, hx]⟩
  · exact ⟨1, (s', r), by simp only [slotCall, hstep]⟩

/-- The step of a ForEach, from the one that it takes when its callback never stops it: the callback
is asked when it has been told something, and then the ForEach may end. -/
inductive Obeys (fn : List ι → Bool) (it : SlotIter ι) :
    SlotIter ι ⊕ SlotResult ι → SlotIter ι ⊕ SlotResult ι → Prop
  | untold {out : SlotIter ι ⊕ SlotResult ι}
      (same : ∀ it', out = .inl it' → it'.reports = it.reports) : Obeys fn it out out
  | told {it' : SlotIter ι} {r : ι} (reports : it'.reports = it.reports ++ [r]) :
      Obeys fn it (.inl it')
        (if fn it'.reports then .inr (.visited it'.total it'.reports) else .inl it')

omit [DecidableEq τ] in
theorem slotIterStep_obeys (code : SlotCode ω β ι) (fn : List ι → Bool) (s : Slots β τ)
    (it : SlotIter ι) :
    Obeys fn it (slotIterStep code (fun _ => false) s it) (slotIterStep code fn s it) := by
  unfold slotIterStep
  split
  · split
    · split
      · exact .untold nofun
      · exact .told rfl
    · refine .untold fun it' h => ?_
      split at h
      · split at h <;> cases h <;> rfl
      · split at h <;> cases h <;> rfl
  · split
    · split
      · exact .untold nofun
      · exact .told rfl
    · refine .untold fun it' h => ?_
      split at h
      · split at h
        · cases h
          rfl
        · split at h <;> cases h <;> rfl
      · cases h
        rfl
  · refine .untold fun it' h => ?_
    split at h
    · split at h <;> cases h <;> rfl
    · cases h

omit [DecidableEq τ] in
/-- A callback that stops a ForEach ends it sooner. -/
theorem slotIterStep_stop (code : SlotCode ω β ι) (fn : List ι → Bool) (s : Slots β τ)
    (it : SlotIter ι) :
    slotIterStep code fn s it = slotIterStep code (fun _ => false) s it ∨
      ∃ r, slotIterStep code fn s it = .inr r := by
  have hobeys := slotIterStep_obeys code fn s it
  generalize slotIterStep code (fun _ => false) s it = out at hobeys
  generalize slotIterStep code fn s it = out' at hobeys
  cases hobeys with
  | untold same => exact .inl rfl
  | told reports =>
    split
    · exact .inr ⟨_, rfl⟩
    · exact .inl rfl

omit [DecidableEq τ] in
theorem IterEnds.stops {it : SlotIter ι} (h : IterEnds code (fun _ => false) s it)
    (fn : List ι → Bool) : IterEnds code fn s it := by
  induction h with
  | result step =>
    rcases slotIterStep_stop code fn s _ with heq | ⟨r, hr⟩
    · exact .result (heq.trans step)
    · exact .result hr
  | next step _ ih =>
    rcases slotIterStep_stop code fn s _ with heq | ⟨r, hr⟩
    · exact .next (heq.trans step) ih
    · exact .result hr

theorem IterEnds.callEnds {fn : List ι → Bool} (hop : code.op op = .forEach fn) {it : SlotIter ι}
    (h : IterEnds code fn s it) : CallEnds page code t op (.iter it) s := by
  induction h with
  | result step =>
    refine .of_step fun os s' p' hstep => ?_
    simp only [slotStep, hop, step] at hstep
    cases hstep
  | next step _ ih =>
    refine .of_step fun os s' p' hstep => ?_
    simp only [slotStep, hop, step] at hstep
    cases hstep
    exact ih

section Descent

variable [DecidableEq κ] {pr : SlotProbe β}

/-- The loads of a descent are those of a Get and a Put alike. -/
theorem slotStep_load (hop : (code.op op).probe = some pr) {x : NodeSlot} {d : Descent} {cur : Nat}
    (hread : s.read x = some cur) (os : OsReply) :
    slotStep page code t os op (.load x d) s = (s, .inl (.inspect cur d)) := by
  unfold slotStep
  cases hcode : code.op op with
  | refused | forEach => rw [hcode] at hop; cases hop
  | put pr' value => simp only [slotPutStep, hread]
  | get pr' out => simp only [slotGetStep, hread]

/-- A comparison that fails leads to the next load. -/
theorem slotStep_inspect (hop : (code.op op).probe = some pr) {d : Descent} {cur : Nat}
    (htest : ((s.heap cur).bind fun n => pr.test cur n.body) = some false) (os : OsReply) :
    slotStep page code t os op (.inspect cur d) s =
      (s, .inl (.load (.child cur d.digit) (d.next pr.reseed))) := by
  unfold slotStep
  cases hcode : code.op op with
  | refused | forEach => rw [hcode] at hop; cases hop
  | put pr' value =>
    rw [hcode] at hop
    cases hop
    simp only [slotPutStep, htest]
  | get pr' out =>
    rw [hcode] at hop
    cases hop
    simp only [slotGetStep, htest]

/-- A comparison that succeeds leads to the value, or ends the call. -/
theorem slotStep_match (hop : (code.op op).probe = some pr) {d : Descent} {cur : Nat}
    (htest : ((s.heap cur).bind fun n => pr.test cur n.body) = some true) {os : OsReply}
    (hstep : slotStep page code t os op (.inspect cur d) s = (s', .inl p')) :
    s' = s ∧ p' = .access cur := by
  unfold slotStep at hstep
  cases hcode : code.op op with
  | refused | forEach => rw [hcode] at hop; cases hop
  | put pr' value =>
    rw [hcode] at hop hstep
    cases hop
    simp only [slotPutStep, htest] at hstep
    cases hstep
    exact ⟨rfl, rfl⟩
  | get pr' out =>
    rw [hcode] at hop hstep
    cases hop
    simp only [slotGetStep, htest] at hstep
    cases out <;> cases hstep
    exact ⟨rfl, rfl⟩

/-- A descent ends when its accesses to a value and its loads of empty slots do. -/
theorem descent_ends (hpr : pr.Lawful K) (hop : (code.op op).probe = some pr)
    (h : s.Sound K page) {nodes : List Nat} (hnodes : ∀ x a, s.read x = some a → a ∈ nodes)
    (haccess : ∀ cur, CallEnds page code t op (.access cur) s)
    (hempty : ∀ x d, s.read x = none → CallEnds page code t op (.load x d) s)
    {n : Nat} {x : NodeSlot}
    (hwalk : Walk s.read (s.Other K (K.keyOf pr.body)) (K.root (K.keyOf pr.body))
      (K.digits (K.keyOf pr.body)) n x) :
    CallEnds page code t op (.load x (K.descent (K.keyOf pr.body) n)) s := by
  -- by the number of nodes that it has not passed
  induction hleft : nodes.length - n using Nat.strong_induction_on generalizing n x with
  | _ left ih =>
    cases hread : s.read x with
    | none => exact hempty x _ hread
    | some cur =>
      have hlt : n < nodes.length := hwalk.length_lt h.placed.once hread hnodes
      have hnear : (SlotPhase.inspect cur (K.descent (K.keyOf pr.body) n) : SlotPhase ι).Near K s
          (K.keyOf pr.body) := ⟨x, ⟨n, hwalk, rfl⟩, hread⟩
      refine .of_step fun os s' p' hstep => ?_
      rw [slotStep_load hop hread os] at hstep
      cases hstep
      refine .of_step fun os s' p' hstep => ?_
      rcases inspect_cases h hpr hnear with ⟨htest, -, -⟩ | ⟨htest, hnext⟩
      · obtain ⟨rfl, rfl⟩ := slotStep_match hop htest hstep
        exact haccess cur
      · rw [slotStep_inspect hop htest os] at hstep
        cases hstep
        obtain ⟨node, hnode, hgenuine⟩ := h.linked_node ⟨x, hread⟩
        rw [hnode, Option.bind_some, hpr.test cur node.body hgenuine] at htest
        have hother : s.Other K (K.keyOf pr.body) cur :=
          ⟨K.keyOf node.body, by simp [Slots.key, hnode], of_decide_eq_false (Option.some.inj htest)⟩
        rw [hpr.reseed, ← K.descent_succ]
        exact ih (nodes.length - (n + 1)) (by omega) (.child hwalk hread hother) rfl

/-- **Every call ends** when the published nodes are finitely many. -/
theorem slotCall_ends (hpage : IsPageSize page) (hcode : code.Lawful K) (h : s.Sound K page)
    {nodes : List Nat} (hnodes : ∀ x a, s.read x = some a → a ∈ nodes) (t : τ) (op : ω) :
    CallEnds page code t op .enter s := by
  refine .of_step fun os s' p' hstep => ?_
  unfold slotStep at hstep
  cases hop : code.op op with
  | refused r' =>
    rw [hop] at hstep
    cases hstep
  | put pr value =>
    have hprobe : (code.op op).probe = some pr := by rw [hop]; rfl
    have hpr := hcode.probe op pr hprobe
    have hlive : (s.arenas t).base ≠ 0 := Nat.ne_of_gt (h.arenas.live t)
    simp only [hop, slotPutStep, if_neg hlive] at hstep
    cases hstep
    obtain ⟨n, hwalk, hd⟩ := reaches_root (s := s) hpr
    rw [hd]
    refine descent_ends hpr hprobe h hnodes (fun cur => .of_step fun os s' p' hstep => ?_)
      (fun x d hread => .of_step fun os s' p' hstep => ?_) hwalk
    · simp only [slotStep, hop, slotPutStep] at hstep
      cases hstep
    · simp only [slotStep, hop, slotPutStep, hread] at hstep
      cases hstep
      refine .of_step fun os s' p' hstep => ?_
      have hcreated := Slots.create_cases hpage h os t hpr value
      simp only [slotStep, hop, slotPutStep] at hstep
      generalize s.create page os t pr value = made at hcreated hstep
      cases hcreated with
      | refused => cases hstep
      | @granted a s₁ sound grows read fresh heap owns =>
        cases hstep
        -- nobody has filled the slot in between
        refine .of_step fun os s' p' hstep => ?_
        rw [← read] at hread
        simp only [slotStep, hop, slotPutStep, hread] at hstep
        cases hstep
  | get pr out =>
    have hprobe : (code.op op).probe = some pr := by rw [hop]; rfl
    have hpr := hcode.probe op pr hprobe
    simp only [hop, slotGetStep] at hstep
    cases hstep
    obtain ⟨n, hwalk, hd⟩ := reaches_root (s := s) hpr
    rw [hd]
    refine descent_ends hpr hprobe h hnodes (fun cur => .of_step fun os s' p' hstep => ?_)
      (fun x d hread => .of_step fun os s' p' hstep => ?_) hwalk
    · cases hheap : s.heap cur with
      | none =>
        simp only [slotStep, hop, slotGetStep, hheap] at hstep
        cases hstep
      | some n =>
        simp only [slotStep, hop, slotGetStep, hheap] at hstep
        cases hstep
    · simp only [slotStep, hop, slotGetStep, hread] at hstep
      cases hstep
  | forEach fn =>
    simp only [hop] at hstep
    cases hstep
    have hends : IterEnds code (fun _ => false) s .start :=
      .of_sound h (Grows.refl s.read) hnodes trivial (Sweep.Sound.start s.read s.read)
    exact (hends.stops fn).callEnds hop

end Descent

end

end RgMemory
