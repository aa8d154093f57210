import Mathlib.Data.List.Forall2
import RgMemory.Slots.Call

/-!
# Two containers in lockstep

Two containers with different bodies in their nodes are twins when a relation between the addresses
of their nodes matches their links, values and bodies (`Slots.Twins`). The same calls, each run to
its end by the only thread, take the same steps in both: they keep the containers twins
(`Slots.Twins.call`), unless an arena is exhausted, and give results that match.
-/

namespace RgMemory

open Bytes Links Concurrent

section

variable {β β' ι ι' τ τ' : Type} {B C : β → β' → Prop} {J : ι → ι' → Prop} {R S : Nat → Nat → Prop}

/-! ## Matching states -/

/-- Slots of matching nodes. -/
inductive SeatTwin (R : Nat → Nat → Prop) : NodeSlot → NodeSlot → Prop
  | root (i : Fin 4096) : SeatTwin R (.root i) (.root i)
  | child {a a' : Nat} (i : Fin 4) (node : R a a') : SeatTwin R (.child a i) (.child a' i)

theorem SeatTwin.mono {x x' : NodeSlot} (h : SeatTwin R x x') (hRS : ∀ a a', R a a' → S a a') :
    SeatTwin S x x' := by
  cases h with
  | root i => exact .root i
  | child i node => exact .child i (hRS _ _ node)

theorem linkTwin_mono {x x' : Option Nat} (h : Option.Rel R x x')
    (hRS : ∀ a a', R a a' → S a a') : Option.Rel S x x' := by
  cases h with
  | some hr => exact .some (hRS _ _ hr)
  | none => exact .none

structure NodeTwin (B : β → β' → Prop) (R : Nat → Nat → Prop) (n : SlotNode β) (n' : SlotNode β') :
    Prop where
  child : ∀ i, Option.Rel R (n.child i) (n'.child i)
  value : n.value = n'.value
  body : B n.body n'.body

namespace Slots

/-- The relation matches the nodes of two containers one to one. -/
structure Twins (B : β → β' → Prop) (R : Nat → Nat → Prop) (s : Slots β τ) (s' : Slots β' τ') :
    Prop where
  top : ∀ i, Option.Rel R (s.top i) (s'.top i)
  node : ∀ a a', R a a' →
    ∃ n n', s.heap a = some n ∧ s'.heap a' = some n' ∧ NodeTwin B R n n'
  left : ∀ a b b', R a b → R a b' → b = b'
  right : ∀ a a' b, R a b → R a' b → a = a'

namespace Twins

variable {s t : Slots β τ} {s' t' : Slots β' τ'} {x x' : NodeSlot} {a a' : Nat}

theorem mono (h : Twins B R s s') (hBC : ∀ b b', B b b' → C b b') : Twins C R s s' := by
  refine ⟨h.top, fun a a' ha => ?_, h.left, h.right⟩
  obtain ⟨n, n', hn, hn', htwin⟩ := h.node a a' ha
  exact ⟨n, n', hn, hn', htwin.child, htwin.value, hBC _ _ htwin.body⟩

theorem read (h : Twins B R s s') (hx : SeatTwin R x x') : Option.Rel R (s.read x) (s'.read x') := by
  cases hx with
  | root i => exact h.top i
  | child i node =>
    obtain ⟨n, n', hn, hn', htwin⟩ := h.node _ _ node
    simp only [Slots.read, hn, hn', Option.bind_some]
    exact htwin.child i

/-- Matching nodes are written to in both containers, or in neither. -/
theorem same_iff (h : Twins B R s s') {c c' : Nat} (ha : R a a') (hc : R c c') : c = a ↔ c' = a' := by
  constructor
  · rintro rfl
    exact h.left c c' a' hc ha
  · rintro rfl
    exact h.right c a c' hc ha

theorem store (h : Twins B R s s') (ha : R a a') (v : BitVec 64) :
    Twins B R (s.store a v) (s'.store a' v) := by
  refine ⟨h.top, fun c c' hc => ?_, h.left, h.right⟩
  obtain ⟨n, n', hn, hn', htwin⟩ := h.node c c' hc
  by_cases hca : c = a
  · obtain rfl := (h.same_iff ha hc).mp hca
    subst hca
    exact ⟨{ n with value := v }, { n' with value := v }, by simp [Slots.store, hn],
      by simp [Slots.store, hn'], htwin.child, rfl, htwin.body⟩
  · have hca' : c' ≠ a' := fun heq => hca ((h.same_iff ha hc).mpr heq)
    exact ⟨n, n', by simp [Slots.store, Function.update_of_ne hca, hn],
      by simp [Slots.store, Function.update_of_ne hca', hn'], htwin⟩

theorem write (h : Twins B R s s') (ha : R a a') (hx : SeatTwin R x x') :
    Twins B R (s.write a x) (s'.write a' x') := by
  cases hx with
  | root i =>
    refine ⟨fun j => ?_, h.node, h.left, h.right⟩
    by_cases hji : j = i
    · simp only [Slots.write, if_pos hji]
      exact .some ha
    · simp only [Slots.write, if_neg hji]
      exact h.top j
  | @child e e' i node =>
    refine ⟨h.top, fun c c' hc => ?_, h.left, h.right⟩
    obtain ⟨n, n', hn, hn', htwin⟩ := h.node c c' hc
    by_cases hce : c = e
    · obtain rfl := (h.same_iff node hc).mp hce
      subst hce
      refine ⟨{ n with child := Function.update n.child i (some a) },
        { n' with child := Function.update n'.child i (some a') }, by simp [Slots.write, hn],
        by simp [Slots.write, hn'], fun j => ?_, htwin.value, htwin.body⟩
      by_cases hji : j = i
      · subst hji
        simp only [Function.update_self]
        exact .some ha
      · simp only [Function.update_of_ne hji]
        exact htwin.child j
    · have hce' : c' ≠ e' := fun heq => hce ((h.same_iff node hc).mpr heq)
      exact ⟨n, n', by simp [Slots.write, Function.update_of_ne hce, hn],
        by simp [Slots.write, Function.update_of_ne hce', hn'], htwin⟩

/-- New nodes at fresh addresses match each other. -/
theorem grow (h : Twins B R s s') (hfresh : s.heap a = none) (hfresh' : s'.heap a' = none)
    {b : β} {b' : β'} (hb : B b b') (v : BitVec 64) (htop : t.top = s.top) (htop' : t'.top = s'.top)
    (hheap : t.heap = Function.update s.heap a (some ⟨fun _ => none, v, b⟩))
    (hheap' : t'.heap = Function.update s'.heap a' (some ⟨fun _ => none, v, b'⟩)) :
    Twins B (fun c c' => R c c' ∨ c = a ∧ c' = a') t t' := by
  have hnew : ∀ c c', R c c' → c ≠ a ∧ c' ≠ a' := by
    intro c c' hc
    obtain ⟨n, n', hn, hn', -⟩ := h.node c c' hc
    constructor
    · rintro rfl
      exact absurd (hfresh.symm.trans hn) (by simp)
    · rintro rfl
      exact absurd (hfresh'.symm.trans hn') (by simp)
  have hmono : ∀ {x x' : Option Nat}, Option.Rel R x x' →
      Option.Rel (fun c c' => R c c' ∨ c = a ∧ c' = a') x x' := fun hr =>
    linkTwin_mono hr fun _ _ => .inl
  refine ⟨fun i => ?_, ?_, ?_, ?_⟩
  · rw [htop, htop']
    exact hmono (h.top i)
  · rintro c c' (hc | ⟨rfl, rfl⟩)
    · obtain ⟨hca, hca'⟩ := hnew c c' hc
      obtain ⟨n, n', hn, hn', htwin⟩ := h.node c c' hc
      refine ⟨n, n', ?_, ?_, fun i => hmono (htwin.child i), htwin.value, htwin.body⟩
      · rw [hheap, Function.update_of_ne hca, hn]
      · rw [hheap', Function.update_of_ne hca', hn']
    · refine ⟨⟨fun _ => none, v, b⟩, ⟨fun _ => none, v, b'⟩, ?_, ?_, fun i => .none, rfl, hb⟩
      · rw [hheap, Function.update_self]
      · rw [hheap', Function.update_self]
  · rintro c e e' (hc | ⟨rfl, rfl⟩) (hc' | ⟨hca, rfl⟩)
    · exact h.left c e e' hc hc'
    · exact absurd hca (hnew c e hc).1
    · exact absurd rfl (hnew c e' hc').1
    · rfl
  · rintro c e e' (hc | ⟨rfl, rfl⟩) (hc' | ⟨rfl, he⟩)
    · exact h.right c e e' hc hc'
    · exact absurd he (hnew c e' hc).2
    · exact absurd rfl (hnew e e' hc').2
    · rfl

end Twins

end Slots

/-! ## Matching phases -/

/-- Probes that agree about matching bodies. -/
structure ProbeTwin (B : β → β' → Prop) (pr : SlotProbe β) (pr' : SlotProbe β') : Prop where
  hfull : pr.hfull = pr'.hfull
  reseed : pr.reseed = pr'.reseed
  test : ∀ a a' b b', B b b' → pr.test a b = pr'.test a' b'

structure FrameTwin (R : Nat → Nat → Prop) (f f' : TrieIterFrame) : Prop where
  node : R f.node f'.node
  visited : f.visited = f'.visited
  nextChild : f.nextChild = f'.nextChild

structure RecTwin (R : Nat → Nat → Prop) (f f' : TrieRecFrame) : Prop where
  frame : FrameTwin R f.toTrieIterFrame f'.toTrieIterFrame
  count : f.count = f'.count

/-- Two ForEachs that are at matching nodes; `J` matches what the callbacks were told. -/
structure IterTwin (J : ι → ι' → Prop) (R : Nat → Nat → Prop) (it : SlotIter ι)
    (it' : SlotIter ι') : Prop where
  top : it.top = it'.top
  stack : List.Forall₂ (FrameTwin R) it.stack it'.stack
  recs : List.Forall₂ (RecTwin R) it.recs it'.recs
  count : it.count = it'.count
  reports : List.Forall₂ J it.reports it'.reports

/-- Phases of one operation in two containers that nobody else changes. -/
inductive PhaseTwin (J : ι → ι' → Prop) (R : Nat → Nat → Prop) (s : Slots β τ) :
    SlotPhase ι → SlotPhase ι' → Prop
  | enter : PhaseTwin J R s .enter .enter
  | load {x x' : NodeSlot} (d : Descent) (seat : SeatTwin R x x') :
      PhaseTwin J R s (.load x d) (.load x' d)
  | create {x x' : NodeSlot} (d : Descent) (seat : SeatTwin R x x') (empty : s.read x = none) :
      PhaseTwin J R s (.create x d) (.create x' d)
  | cas {x x' : NodeSlot} {a a' : Nat} (d : Descent) (seat : SeatTwin R x x') (node : R a a') :
      PhaseTwin J R s (.cas x d a) (.cas x' d a')
  | inspect {a a' : Nat} (d : Descent) (node : R a a') :
      PhaseTwin J R s (.inspect a d) (.inspect a' d)
  | access {a a' : Nat} (node : R a a') : PhaseTwin J R s (.access a) (.access a')
  | iter {it : SlotIter ι} {it' : SlotIter ι'} (twin : IterTwin J R it it') :
      PhaseTwin J R s (.iter it) (.iter it')

inductive ResultTwin (J : ι → ι' → Prop) : SlotResult ι → SlotResult ι' → Prop
  | answer (st : Status) (out : Option (BitVec 64)) : ResultTwin J (.answer st out) (.answer st out)
  | visited {reports : List ι} {reports' : List ι'} (count : Nat)
      (twin : List.Forall₂ J reports reports') :
      ResultTwin J (.visited count reports) (.visited count reports')

/-- Both operations go on, or both end. -/
inductive OutTwin (J : ι → ι' → Prop) (R : Nat → Nat → Prop) (s : Slots β τ) :
    SlotPhase ι ⊕ SlotResult ι → SlotPhase ι' ⊕ SlotResult ι' → Prop
  | goes {p : SlotPhase ι} {p' : SlotPhase ι'} (twin : PhaseTwin J R s p p') :
      OutTwin J R s (.inl p) (.inl p')
  | ends {r : SlotResult ι} {r' : SlotResult ι'} (twin : ResultTwin J r r') :
      OutTwin J R s (.inr r) (.inr r')

/-- A step that found its arena exhausted. -/
abbrev Exhausted (out : SlotPhase ι ⊕ SlotResult ι) : Prop := out = .inr (.answer .errNoMemory none)

theorem ProbeTwin.root {pr : SlotProbe β} {pr' : SlotProbe β'} (h : ProbeTwin B pr pr') :
    pr.root = pr'.root := by
  rw [SlotProbe.root, h.hfull]
  rfl

theorem ProbeTwin.descend {pr : SlotProbe β} {pr' : SlotProbe β'} (h : ProbeTwin B pr pr') :
    pr.descend = pr'.descend := by
  rw [SlotProbe.descend, h.hfull]
  rfl

/-! ## Matching steps -/

namespace Slots.Twins

variable {κ κ' : Type} {K : SlotKeys β κ} {K' : SlotKeys β' κ'} {page page' : Nat}
  {s : Slots β τ} {s' : Slots β' τ'} {pr : SlotProbe β} {pr' : SlotProbe β'}
  {p : SlotPhase ι} {p' : SlotPhase ι'}

/-- The comparisons with matching nodes agree. -/
theorem test (h : Twins B R s s') (hpr : ProbeTwin B pr pr') {a a' : Nat} (ha : R a a') :
    ((s.heap a).bind fun n => pr.test a n.body) =
      (s'.heap a').bind fun n => pr'.test a' n.body := by
  obtain ⟨n, n', hn, hn', htwin⟩ := h.node a a' ha
  rw [hn, hn', Option.bind_some, Option.bind_some]
  exact hpr.test a a' _ _ htwin.body

theorem get_step (h : Twins B R s s') (hpr : ProbeTwin B pr pr') (hp : PhaseTwin J R s p p')
    {missing : Status} {out : Bool} [DecidableEq κ] (hs : s.Sound K page) (hlaw : pr.Lawful K)
    (hrelies : GetRelies K s pr out p) :
    OutTwin J R s (slotGetStep missing pr out s p) (slotGetStep missing pr' out s' p') := by
  cases hp with
  | enter =>
    simp only [slotGetStep, hpr.root, hpr.descend]
    exact .goes (.load _ (.root _))
  | @load x x' d seat =>
    have hread := h.read seat
    simp only [slotGetStep]
    generalize s.read x = cur, s'.read x' = cur' at hread
    cases hread with
    | none => exact .ends (.answer _ _)
    | some hr => exact .goes (.inspect d hr)
  | create d seat empty => exact absurd rfl (hrelies.create _ _)
  | cas d seat node => exact absurd rfl (hrelies.cas _ _ _)
  | @inspect a a' d node =>
    have htest' := h.test hpr node
    rcases inspect_cases hs hlaw hrelies.near with ⟨htest, -, -⟩ | ⟨htest, -⟩
    · simp only [slotGetStep, ← htest', htest]
      cases out with
      | true => exact .goes (.access node)
      | false => exact .ends (.answer _ _)
    · simp only [slotGetStep, ← htest', htest, hpr.reseed]
      exact .goes (.load _ (.child _ node))
  | @access a a' node =>
    obtain ⟨n, n', hn, hn', htwin⟩ := h.node a a' node
    simp only [slotGetStep, hn, hn', htwin.value]
    exact .ends (.answer _ _)
  | iter twin => exact absurd hrelies.near id

theorem put_step [DecidableEq τ] [DecidableEq τ'] [DecidableEq κ] [DecidableEq κ']
    (hpage : IsPageSize page) (hpage' : IsPageSize page') (h : Twins B R s s')
    (hpr : ProbeTwin B pr pr') (hp : PhaseTwin J R s p p') (hs : s.Sound K page)
    (hs' : s'.Sound K' page') (hlaw : pr.Lawful K) (hlaw' : pr'.Lawful K') {t : τ} {t' : τ'}
    {value : BitVec 64} (hrelies : PutRelies K s t pr value p)
    (hbody : ∀ x d, p = .create x d → B pr.body pr'.body) {os os' : OsReply} {s₁ : Slots β τ}
    {s₁' : Slots β' τ'} {out : SlotPhase ι ⊕ SlotResult ι} {out' : SlotPhase ι' ⊕ SlotResult ι'}
    (hstep : slotPutStep page os t pr value s p = (s₁, out))
    (hstep' : slotPutStep page' os' t' pr' value s' p' = (s₁', out')) :
    Exhausted out ∨ Exhausted out' ∨ ∃ S, Twins B S s₁ s₁' ∧ OutTwin J S s₁ out out' := by
  cases hp with
  | enter =>
    have hlive : (s.arenas t).base ≠ 0 := Nat.ne_of_gt (hs.arenas.live t)
    have hlive' : (s'.arenas t').base ≠ 0 := Nat.ne_of_gt (hs'.arenas.live t')
    simp only [slotPutStep, if_neg hlive] at hstep
    simp only [slotPutStep, if_neg hlive', ← hpr.root, ← hpr.descend] at hstep'
    cases hstep
    cases hstep'
    exact .inr (.inr ⟨R, h, .goes (.load _ (.root _))⟩)
  | @load x x' d seat =>
    have hread := h.read seat
    simp only [slotPutStep] at hstep hstep'
    generalize hx : s.read x = cur at hread hstep
    generalize s'.read x' = cur' at hread hstep'
    cases hread with
    | none =>
      cases hstep
      cases hstep'
      exact .inr (.inr ⟨R, h, .goes (.create d seat hx)⟩)
    | some hr =>
      cases hstep
      cases hstep'
      exact .inr (.inr ⟨R, h, .goes (.inspect d hr)⟩)
  | @create x x' d seat empty =>
    have hcreated := Slots.create_cases hpage hs os t hlaw value
    have hcreated' := Slots.create_cases hpage' hs' os' t' hlaw' value
    simp only [slotPutStep] at hstep hstep'
    generalize s.create page os t pr value = made at hcreated hstep
    generalize s'.create page' os' t' pr' value = made' at hcreated' hstep'
    cases hcreated with
    | refused =>
      cases hstep
      exact .inl rfl
    | @granted a t₁ sound grows read fresh heap owns =>
      cases hcreated' with
      | refused =>
        cases hstep'
        exact .inr (.inl rfl)
      | @granted a' t₁' sound' grows' read' fresh' heap' owns' =>
        cases hstep
        cases hstep'
        have htop : s₁.top = s.top := funext fun i => congrFun read (.root i)
        have htop' : s₁'.top = s'.top := funext fun i => congrFun read' (.root i)
        have hgrown := h.grow fresh fresh' (hbody x d rfl) value htop htop' heap heap'
        exact .inr (.inr ⟨_, hgrown, .goes (.cas d (seat.mono fun _ _ => .inl) (.inr ⟨rfl, rfl⟩))⟩)
  | @cas x x' a a' d seat node =>
    have hread := h.read seat
    simp only [slotPutStep] at hstep hstep'
    generalize s.read x = cur at hread hstep
    generalize s'.read x' = cur' at hread hstep'
    cases hread with
    | none =>
      cases hstep
      cases hstep'
      exact .inr (.inr ⟨R, h.write node seat, .ends (.answer _ _)⟩)
    | some hr =>
      cases hstep
      cases hstep'
      exact .inr (.inr ⟨R, h, .goes (.inspect d hr)⟩)
  | @inspect a a' d node =>
    have htest' := h.test hpr node
    rcases inspect_cases hs hlaw hrelies.near with ⟨htest, -, -⟩ | ⟨htest, -⟩
    · simp only [slotPutStep, htest] at hstep
      simp only [slotPutStep, ← htest', htest] at hstep'
      cases hstep
      cases hstep'
      exact .inr (.inr ⟨R, h, .goes (.access node)⟩)
    · simp only [slotPutStep, htest] at hstep
      simp only [slotPutStep, ← htest', htest, ← hpr.reseed] at hstep'
      cases hstep
      cases hstep'
      exact .inr (.inr ⟨R, h, .goes (.load _ (.child _ node))⟩)
  | access node =>
    cases hstep
    cases hstep'
    exact .inr (.inr ⟨R, h.store node value, .ends (.answer _ _)⟩)
  | iter twin => exact absurd hrelies.near id

/-- Matching ForEachs count alike. -/
theorem total_eq {it : SlotIter ι} {it' : SlotIter ι'} (h : IterTwin J R it it') :
    it.total = it'.total := by
  have hcounts : it.recs.map TrieRecFrame.count = it'.recs.map TrieRecFrame.count := by
    rw [← List.forall₂_eq_eq_eq, List.forall₂_map_left_iff, List.forall₂_map_right_iff]
    exact h.recs.imp fun _ _ hf => hf.count
  rw [SlotIter.total, SlotIter.total, h.count, hcounts]

/-- After a visit both go on or both are stopped. -/
theorem visit_twin {fn : List ι → Bool} {fn' : List ι' → Bool}
    (hfn : ∀ l l', List.Forall₂ J l l' → fn l = fn' l') {it : SlotIter ι} {it' : SlotIter ι'}
    (h : IterTwin J R it it') :
    OutTwin J R s
      ((if fn it.reports then .inr (.visited it.total it.reports) else .inl it :
        SlotIter ι ⊕ SlotResult ι).map SlotPhase.iter id)
      ((if fn' it'.reports then .inr (.visited it'.total it'.reports) else .inl it' :
        SlotIter ι' ⊕ SlotResult ι').map SlotPhase.iter id) := by
  rw [hfn _ _ h.reports, total_eq h]
  split
  · exact .ends (.visited _ h.reports)
  · exact .goes (.iter h)

/-- A ForEach visits matching nodes, and its callbacks are told what matches. -/
theorem iter_step {ω ω' : Type} {code : SlotCode ω β ι} {code' : SlotCode ω' β' ι'}
    (h : Twins B R s s') {fn : List ι → Bool} {fn' : List ι' → Bool}
    (hfn : ∀ l l', List.Forall₂ J l l' → fn l = fn' l')
    (hreport : ∀ a a' b b' v, B b b' →
      ∃ r r', code.report a b v = some r ∧ code'.report a' b' v = some r' ∧ J r r')
    {it : SlotIter ι} {it' : SlotIter ι'} (hit : IterTwin J R it it') :
    OutTwin J R s ((slotIterStep code fn s it).map SlotPhase.iter id)
      ((slotIterStep code' fn' s' it').map SlotPhase.iter id) := by
  obtain ⟨top, stack, recs, count, reports⟩ := it
  obtain ⟨top', stack', recs', count', reports'⟩ := it'
  obtain ⟨htop, hstack, hrecs, hcount, hreports⟩ := hit
  have hvisit : ∀ a a', R a a' → ∃ r r', slotVisit code s a = some r ∧
      slotVisit code' s' a' = some r' ∧ J r r' := by
    intro a a' ha
    obtain ⟨n, n', hn, hn', htwin⟩ := h.node a a' ha
    obtain ⟨r, r', hr, hr', hJ⟩ := hreport a a' n.body n'.body n.value htwin.body
    exact ⟨r, r', by simp [slotVisit, hn, hr], by simp [slotVisit, hn', ← htwin.value, hr'], hJ⟩
  dsimp only at htop hcount hstack hrecs hreports
  subst htop hcount
  cases hrecs with
  | @cons f f' recs recs' hf hrest =>
    obtain ⟨⟨a, v, k⟩, n⟩ := f
    obtain ⟨⟨a', v', k'⟩, n'⟩ := f'
    obtain ⟨⟨ha, rfl, rfl⟩, rfl⟩ := hf
    cases v with
    | false =>
      obtain ⟨r, r', hr, hr', hJ⟩ := hvisit a a' ha
      have hvisited : IterTwin J R ⟨top, stack, ⟨⟨a, true, k⟩, 1⟩ :: recs, count, reports ++ [r]⟩
          ⟨top, stack', ⟨⟨a', true, k⟩, 1⟩ :: recs', count, reports' ++ [r']⟩ :=
        ⟨rfl, hstack, .cons ⟨⟨ha, rfl, rfl⟩, rfl⟩ hrest, rfl,
          List.rel_append hreports (.cons hJ .nil)⟩
      simp only [slotIterStep, hr, hr', Bool.not_false, if_true]
      exact visit_twin hfn hvisited
    | true =>
      by_cases hk : k < 4
      · have hread := h.read (.child ⟨k, hk⟩ ha)
        have hcaller : RecTwin R ⟨⟨a, true, k + 1⟩, n⟩ ⟨⟨a', true, k + 1⟩, n⟩ := ⟨⟨ha, rfl, rfl⟩, rfl⟩
        simp only [slotIterStep, hk, Bool.not_true, Bool.false_eq_true, if_false, dif_pos]
        generalize s.read (.child a ⟨k, hk⟩) = cur, s'.read (.child a' ⟨k, hk⟩) = cur' at hread
        cases hread with
        | none => exact .goes (.iter ⟨rfl, hstack, .cons hcaller hrest, rfl, hreports⟩)
        | some hc =>
          exact .goes (.iter ⟨rfl, hstack, .cons ⟨⟨hc, rfl, rfl⟩, rfl⟩ (.cons hcaller hrest), rfl,
            hreports⟩)
      · simp only [slotIterStep, hk, Bool.not_true, Bool.false_eq_true, if_false, dite_false]
        cases hrest with
        | nil => exact .goes (.iter ⟨rfl, hstack, .nil, rfl, hreports⟩)
        | cons hg hrest =>
          refine .goes (.iter ⟨rfl, hstack, .cons ⟨hg.frame, ?_⟩ hrest, rfl, hreports⟩)
          exact congrArg (· + n) hg.count
  | nil =>
    cases hstack with
    | @cons f f' stack stack' hf hrest =>
      obtain ⟨a, v, k⟩ := f
      obtain ⟨a', v', k'⟩ := f'
      obtain ⟨ha, rfl, rfl⟩ := hf
      cases v with
      | false =>
        obtain ⟨r, r', hr, hr', hJ⟩ := hvisit a a' ha
        have hvisited : IterTwin J R ⟨top, ⟨a, true, k⟩ :: stack, [], count + 1, reports ++ [r]⟩
            ⟨top, ⟨a', true, k⟩ :: stack', [], count + 1, reports' ++ [r']⟩ :=
          ⟨rfl, .cons ⟨ha, rfl, rfl⟩ hrest, .nil, rfl, List.rel_append hreports (.cons hJ .nil)⟩
        simp only [slotIterStep, hr, hr', Bool.not_false, if_true]
        exact visit_twin hfn hvisited
      | true =>
        by_cases hk : k < 4
        · have hread := h.read (.child ⟨k, hk⟩ ha)
          have hcaller : FrameTwin R ⟨a, true, k + 1⟩ ⟨a', true, k + 1⟩ := ⟨ha, rfl, rfl⟩
          have hdepth : stack.length = stack'.length := hrest.length_eq
          simp only [slotIterStep, hk, Bool.not_true, Bool.false_eq_true, if_false, dif_pos,
            List.length_cons, hdepth]
          generalize s.read (.child a ⟨k, hk⟩) = cur, s'.read (.child a' ⟨k, hk⟩) = cur' at hread
          cases hread with
          | none => exact .goes (.iter ⟨rfl, .cons hcaller hrest, .nil, rfl, hreports⟩)
          | some hc =>
            dsimp only
            split
            · exact .goes (.iter ⟨rfl, .cons ⟨hc, rfl, rfl⟩ (.cons hcaller hrest), .nil, rfl,
                hreports⟩)
            · exact .goes (.iter ⟨rfl, .cons hcaller hrest, .cons ⟨⟨hc, rfl, rfl⟩, rfl⟩ .nil, rfl,
                hreports⟩)
        · simp only [slotIterStep, hk, Bool.not_true, Bool.false_eq_true, if_false, dite_false]
          exact .goes (.iter ⟨rfl, hrest, .nil, rfl, hreports⟩)
    | nil =>
      by_cases ht : top < 4096
      · have hread := h.read (.root ⟨top, ht⟩)
        simp only [slotIterStep, ht, dif_pos]
        generalize s.read (.root ⟨top, ht⟩) = cur, s'.read (.root ⟨top, ht⟩) = cur' at hread
        cases hread with
        | none => exact .goes (.iter ⟨rfl, .nil, .nil, rfl, hreports⟩)
        | some hc => exact .goes (.iter ⟨rfl, .cons ⟨hc, rfl, rfl⟩ .nil, .nil, rfl, hreports⟩)
      · simp only [slotIterStep, ht, dite_false]
        exact .ends (.visited _ hreports)

end Slots.Twins

/-! ## Matching calls -/

/-- One operation in two containers. -/
inductive OpTwin (B : β → β' → Prop) (J : ι → ι' → Prop) : SlotOp β ι → SlotOp β' ι' → Prop
  | refused {r : SlotResult ι} {r' : SlotResult ι'} (twin : ResultTwin J r r') :
      OpTwin B J (.refused r) (.refused r')
  | put {pr : SlotProbe β} {pr' : SlotProbe β'} (value : BitVec 64) (probe : ProbeTwin B pr pr') :
      OpTwin B J (.put pr value) (.put pr' value)
  | get {pr : SlotProbe β} {pr' : SlotProbe β'} (out : Bool) (probe : ProbeTwin B pr pr') :
      OpTwin B J (.get pr out) (.get pr' out)
  | forEach {fn : List ι → Bool} {fn' : List ι' → Bool}
      (agree : ∀ l l', List.Forall₂ J l l' → fn l = fn' l') : OpTwin B J (.forEach fn) (.forEach fn')

/-- The phases of a ForEach. -/
def SlotOp.Allows (op : SlotOp β ι) (p : SlotPhase ι) : Prop :=
  match op with
  | .forEach _ => p = .enter ∨ ∃ it, p = .iter it
  | _ => True

section

variable {ω ω' κ κ' : Type} {K : SlotKeys β κ} {K' : SlotKeys β' κ'} {page page' : Nat}
  {s : Slots β τ} {s' : Slots β' τ'} {p : SlotPhase ι} {p' : SlotPhase ι'} [DecidableEq τ]
  [DecidableEq τ'] [DecidableEq κ] [DecidableEq κ'] {code : SlotCode ω β ι}
  {code' : SlotCode ω' β' ι'} {t : τ} {t' : τ'} {op : ω} {op' : ω'}
  {m : κ → Option (BitVec 64)} {m' : κ' → Option (BitVec 64)}

/-- What the calls of one operation in two containers have in common. -/
structure CallTwin (B : β → β' → Prop) (J : ι → ι' → Prop) (K : SlotKeys β κ)
    (code : SlotCode ω β ι) (code' : SlotCode ω' β' ι') (op : ω) (op' : ω')
    (m : κ → Option (BitVec 64)) : Prop where
  same : OpTwin B J (code.op op) (code'.op op')
  missing : code.missing = code'.missing
  report : ∀ a a' b b' v, B b b' →
    ∃ r r', code.report a b v = some r ∧ code'.report a' b' v = some r' ∧ J r r'
  body : ∀ pr pr' v, code.op op = .put pr v → code'.op op' = .put pr' v →
    m (K.keyOf pr.body) = none → B pr.body pr'.body

theorem Slots.Twins.step (hpage : IsPageSize page) (hpage' : IsPageSize page')
    (hcode : code.Lawful K) (hcode' : code'.Lawful K') (h : s.Twins B R s')
    (htwin : CallTwin B J K code code' op op' m) (hp : PhaseTwin J R s p p')
    (hs : s.Sound K page) (hm : s.Holds K m) (hs' : s'.Sound K' page')
    (hrelies : SlotRelies K code s t op p) (hallows : (code.op op).Allows p) {os os' : OsReply}
    {s₁ : Slots β τ} {s₁' : Slots β' τ'} {out : SlotPhase ι ⊕ SlotResult ι}
    {out' : SlotPhase ι' ⊕ SlotResult ι'} (hstep : slotStep page code t os op p s = (s₁, out))
    (hstep' : slotStep page' code' t' os' op' p' s' = (s₁', out')) :
    Exhausted out ∨ Exhausted out' ∨ ∃ S, s₁.Twins B S s₁' ∧ OutTwin J S s₁ out out' ∧
      ∀ q, out = .inl q → (code.op op).Allows q := by
  unfold slotStep at hstep hstep'
  unfold SlotRelies at hrelies
  have hop := htwin.same
  have hbody := htwin.body
  have hprobe := hcode.probe op
  have hprobe' := hcode'.probe op'
  generalize code.op op = o at hop hbody hstep hrelies hallows hprobe
  generalize code'.op op' = o' at hop hbody hstep' hprobe'
  cases hop with
  | refused twin =>
    cases hstep
    cases hstep'
    exact .inr (.inr ⟨R, h, .ends twin, fun _ _ => trivial⟩)
  | @put pr pr' value probe =>
    -- a node is made for a key that is not in the map
    have hnew : ∀ x d, p = .create x d → B pr.body pr'.body := by
      rintro x d rfl
      refine hbody pr pr' value rfl rfl ?_
      cases hp with
      | create d seat empty =>
        cases hk : m (K.keyOf pr.body) with
        | none => rfl
        | some v =>
          obtain ⟨a, n, hlinked, hn, hkey, -⟩ := (hm _ _).mp hk
          have hreaches : s.Reaches K (K.keyOf pr.body) x d := hrelies.near
          exact absurd (by simp [Slots.key, hn, hkey]) (hreaches.absent hs empty hlinked)
    rcases h.put_step hpage hpage' probe hp hs hs' (hprobe pr rfl) (hprobe' pr' rfl) hrelies hnew
      hstep hstep' with hout | hout | ⟨S, hS, hout⟩
    · exact .inl hout
    · exact .inr (.inl hout)
    · exact .inr (.inr ⟨S, hS, hout, fun _ _ => trivial⟩)
  | @get pr pr' out₀ probe =>
    have hout : OutTwin J R s (slotGetStep code.missing pr out₀ s p)
        (slotGetStep code.missing pr' out₀ s' p') :=
      h.get_step probe hp hs (hprobe pr rfl) hrelies
    rw [← htwin.missing] at hstep'
    cases hstep
    cases hstep'
    exact .inr (.inr ⟨R, h, hout, fun _ _ => trivial⟩)
  | @forEach fn fn' agree =>
    cases hp with
    | enter =>
      cases hstep
      cases hstep'
      refine .inr (.inr ⟨R, h, .goes (.iter ⟨rfl, .nil, .nil, rfl, .nil⟩), fun q hq => ?_⟩)
      cases hq
      exact .inr ⟨_, rfl⟩
    | @iter it it' twin =>
      have hout := h.iter_step agree htwin.report twin
      cases hstep
      cases hstep'
      refine .inr (.inr ⟨R, h, hout, fun q hq => ?_⟩)
      cases hmove : slotIterStep code fn s it with
      | inl it₁ =>
        rw [hmove] at hq
        cases hq
        exact .inr ⟨_, rfl⟩
      | inr r =>
        rw [hmove] at hq
        cases hq
    | load | create | cas | inspect | access =>
      rcases hallows with hno | ⟨it, hno⟩ <;> cases hno

/-- **The same call in twins** gives matching results, and leaves them twins. -/
theorem Slots.Twins.call (hpage : IsPageSize page) (hpage' : IsPageSize page')
    (hcode : code.Lawful K) (hcode' : code'.Lawful K') (h : s.Twins B R s')
    (htwin : CallTwin B J K code code' op op' m) (hp : PhaseTwin J R s p p')
    (hs : s.Sound K page) (hm : s.Holds K m) (hs' : s'.Sound K' page') (hm' : s'.Holds K' m')
    (hrelies : SlotRelies K code s t op p) (hrelies' : SlotRelies K' code' s' t' op' p')
    (hallows : (code.op op).Allows p) {n : Nat} {os os' : Nat → OsReply}
    {s₁ : Slots β τ} {s₁' : Slots β' τ'} {r : SlotResult ι} {r' : SlotResult ι'}
    (hcall : slotCall page code t op n os p s = some (s₁, r))
    (hcall' : slotCall page' code' t' op' n os' p' s' = some (s₁', r'))
    (hr : r ≠ .answer .errNoMemory none) (hr' : r' ≠ .answer .errNoMemory none) :
    ∃ S, s₁.Twins B S s₁' ∧ ResultTwin J r r' := by
  induction n generalizing R os os' p p' s s' with
  | zero => cases hcall
  | succ n ih =>
    rcases hstep : slotStep page code t (os 0) op p s with ⟨s₂, out⟩
    rcases hstep' : slotStep page' code' t' (os' 0) op' p' s' with ⟨s₂', out'⟩
    rcases h.step hpage hpage' hcode hcode' htwin hp hs hm hs' hrelies hallows hstep hstep' with
      rfl | rfl | ⟨S, hS, hout, hnext⟩
    · simp only [slotCall, hstep] at hcall
      cases hcall
      exact absurd rfl hr
    · simp only [slotCall, hstep'] at hcall'
      cases hcall'
      exact absurd rfl hr'
    · cases hout with
      | @goes q q' twin =>
        simp only [slotCall, hstep] at hcall
        simp only [slotCall, hstep'] at hcall'
        obtain ⟨⟨hs₂, hm₂⟩, hq⟩ :=
          (slot_simulation hpage hcode).move s m t (os 0) op p s₂ q ⟨hs, hm⟩ hrelies hstep
        obtain ⟨⟨hs₂', hm₂'⟩, hq'⟩ := (slot_simulation hpage' hcode').move s' m' t' (os' 0) op' p'
          s₂' q' ⟨hs', hm'⟩ hrelies' hstep'
        exact ih hS twin hs₂ hm₂ hs₂' hm₂' hq hq' (hnext q rfl) hcall hcall'
      | ends twin =>
        simp only [slotCall, hstep] at hcall
        simp only [slotCall, hstep'] at hcall'
        cases hcall
        cases hcall'
        exact ⟨S, hS, twin⟩

end

end

end RgMemory
