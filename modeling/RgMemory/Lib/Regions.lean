import Mathlib.Data.List.Basic
import Mathlib.Data.Set.Lattice
import Mathlib.Order.CompletePartialOrder

/-!
# Components in regions of one memory

A component has a state of its own and a region of a memory. It is `Local` when a call writes
inside the region only, and what it answers and leaves there depends on the bytes there only.

Local components whose regions are disjoint do not notice each other. `Commons` is a number of them
on one memory, and `Move` what may happen there: a call on one of them, a write that touches no
region, and the arrival of another component in a region that no one has. After any moves, in any
order, each component has answered what it would have answered to its own calls alone, is in the
state that these alone would have brought it to, and has left the same bytes in its region
(`Moves.alone`).
-/

namespace RgMemory.Regions

variable {A V σ τ ε ζ α : Type*}

/-- A component on a memory: where it lives, and what a call answers and leaves; `none` when the
call does not return. -/
structure Component (A V σ ε α : Type*) where
  region : σ → Set A
  call : σ → (A → V) → ε → Option (α × σ × (A → V))

namespace Component

/-- Calls one after the other, with nothing else in between. -/
def run (K : Component A V σ ε α) : σ → (A → V) → List ε → Option (List α × σ × (A → V))
  | c, m, [] => some ([], c, m)
  | c, m, e :: rest =>
    match K.call c m e with
    | none => none
    | some (r, c, m) => (K.run c m rest).map fun out => (r :: out.1, out.2)

/-- One of two components. A call that is meant for the other kind is refused. -/
def sum (K : Component A V σ ε α) (L : Component A V τ ζ α) (refused : α) :
    Component A V (σ ⊕ τ) (ε ⊕ ζ) α where
  region := Sum.elim K.region L.region
  call
    | .inl c, m, .inl e => (K.call c m e).map fun out => (out.1, .inl out.2.1, out.2.2)
    | .inr c, m, .inr e => (L.call c m e).map fun out => (out.1, .inr out.2.1, out.2.2)
    | c, m, _ => some (refused, c, m)

end Component

/-- On the states and memories that are `Good` a component reads and writes its region only. -/
structure Local (K : Component A V σ ε α) (Good : σ → (A → V) → Prop) : Prop where
  reads : ∀ {c m m'}, Good c m → Set.EqOn m' m (K.region c) → Good c m'
  call : ∀ {c m}, Good c m → ∀ e, ∃ r c' m1, K.call c m e = some (r, c', m1) ∧ Good c' m1 ∧
    K.region c' = K.region c ∧ Set.EqOn m1 m (K.region c)ᶜ ∧
    ∀ {m'}, Set.EqOn m' m (K.region c) →
      ∃ m1', K.call c m' e = some (r, c', m1') ∧ Set.EqOn m1' m1 (K.region c)

/-- A call that is refused is as local as can be. -/
theorem local_refused {K : Component A V σ ε α} {c : σ} {m : A → V} {e : ε} {r : α}
    (hcall : ∀ m, K.call c m e = some (r, c, m)) {Good : σ → (A → V) → Prop} (hgood : Good c m) :
    ∃ r c' m1, K.call c m e = some (r, c', m1) ∧ Good c' m1 ∧
      K.region c' = K.region c ∧ Set.EqOn m1 m (K.region c)ᶜ ∧
      ∀ {m'}, Set.EqOn m' m (K.region c) →
        ∃ m1', K.call c m' e = some (r, c', m1') ∧ Set.EqOn m1' m1 (K.region c) :=
  ⟨r, c, m, hcall m, hgood, rfl, Set.eqOn_refl _ _, fun {m'} hm => ⟨m', hcall m', hm⟩⟩

/-- Either of two local components is local. -/
theorem Local.sum {K : Component A V σ ε α} {L : Component A V τ ζ α} {Good : σ → (A → V) → Prop}
    {Good' : τ → (A → V) → Prop} (hK : Local K Good) (hL : Local L Good') (refused : α) :
    Local (K.sum L refused) (Sum.elim Good Good') where
  reads := by
    intro c m m' hgood hm
    cases c with
    | inl c => exact hK.reads hgood hm
    | inr c => exact hL.reads hgood hm
  call := by
    intro c m hgood e
    cases c with
    | inl c =>
      cases e with
      | inl e =>
        obtain ⟨r, c', m1, hcall, hgood', hregion, hout, hsame⟩ := hK.call hgood e
        refine ⟨r, .inl c', m1, ?_, hgood', hregion, hout, fun {m'} hm => ?_⟩
        · show (K.call c m e).map _ = _
          rw [hcall]
          rfl
        · obtain ⟨m1', hcall', hm1⟩ := hsame hm
          refine ⟨m1', ?_, hm1⟩
          show (K.call c m' e).map _ = _
          rw [hcall']
          rfl
      | inr e => exact local_refused (fun _ => rfl) hgood
    | inr c =>
      cases e with
      | inl e => exact local_refused (fun _ => rfl) hgood
      | inr e =>
        obtain ⟨r, c', m1, hcall, hgood', hregion, hout, hsame⟩ := hL.call hgood e
        refine ⟨r, .inr c', m1, ?_, hgood', hregion, hout, fun {m'} hm => ?_⟩
        · show (L.call c m e).map _ = _
          rw [hcall]
          rfl
        · obtain ⟨m1', hcall', hm1⟩ := hsame hm
          refine ⟨m1', ?_, hm1⟩
          show (L.call c m' e).map _ = _
          rw [hcall']
          rfl

variable {K : Component A V σ ε α} {Good : σ → (A → V) → Prop}

/-! ## Many components -/

/-- Components on one memory. -/
structure Commons (A V σ : Type*) where
  parts : List σ
  mem : A → V

/-- What a move was: a call on one of the components with its answer, or something else. -/
inductive Label (ε α : Type*)
  | call (i : Nat) (e : ε) (r : α)
  | other

namespace Label

/-- The calls on component `i`. -/
def called (i : Nat) : List (Label ε α) → List ε
  | [] => []
  | .call j e _ :: rest => if j = i then e :: called i rest else called i rest
  | .other :: rest => called i rest

/-- What they answered. -/
def answered (i : Nat) : List (Label ε α) → List α
  | [] => []
  | .call j _ r :: rest => if j = i then r :: answered i rest else answered i rest
  | .other :: rest => answered i rest

end Label

/-- What may happen on a common memory. -/
inductive Move (K : Component A V σ ε α) (Good : σ → (A → V) → Prop) :
    Commons A V σ → Label ε α → Commons A V σ → Prop
  | call {s : Commons A V σ} {i : Nat} {c c' : σ} {e : ε} {r : α} {m : A → V}
      (found : s.parts[i]? = some c) (answer : K.call c s.mem e = some (r, c', m)) :
      Move K Good s (.call i e r) ⟨s.parts.set i c', m⟩
  | absent {s : Commons A V σ} {i : Nat} {e : ε} {r : α} (none : s.parts[i]? = none) :
      Move K Good s (.call i e r) s
  | write {s : Commons A V σ} {m : A → V}
      (keeps : ∀ c ∈ s.parts, Set.EqOn m s.mem (K.region c)) : Move K Good s .other ⟨s.parts, m⟩
  | add {s : Commons A V σ} {m : A → V} {c : σ}
      (keeps : ∀ d ∈ s.parts, Set.EqOn m s.mem (K.region d)) (good : Good c m)
      (free : ∀ d ∈ s.parts, Disjoint (K.region d) (K.region c)) :
      Move K Good s .other ⟨s.parts ++ [c], m⟩

/-- One move after the other. -/
inductive Moves (K : Component A V σ ε α) (Good : σ → (A → V) → Prop) :
    Commons A V σ → List (Label ε α) → Commons A V σ → Prop
  | nil {s : Commons A V σ} : Moves K Good s [] s
  | cons {s s' s'' : Commons A V σ} {l : Label ε α} {rest : List (Label ε α)}
      (move : Move K Good s l s') (moves : Moves K Good s' rest s'') :
      Moves K Good s (l :: rest) s''

/-- The components are good and their regions share nothing. -/
structure Housed (K : Component A V σ ε α) (Good : σ → (A → V) → Prop) (s : Commons A V σ) :
    Prop where
  good : ∀ c ∈ s.parts, Good c s.mem
  apart : ∀ {i j : Nat} {c d}, s.parts[i]? = some c → s.parts[j]? = some d → i ≠ j →
    Disjoint (K.region c) (K.region d)

namespace Housed

variable {s s' : Commons A V σ}

theorem nil (K : Component A V σ ε α) (Good : σ → (A → V) → Prop) (m : A → V) :
    Housed K Good ⟨[], m⟩ where
  good := fun _ hc => by cases hc
  apart := fun hi => by cases hi

/-- A component of a longer list is one of those before, or the new one at the end. -/
theorem getElem?_add {parts : List σ} {c d : σ} {i : Nat} (hi : (parts ++ [c])[i]? = some d) :
    parts[i]? = some d ∨ (i = parts.length ∧ d = c) := by
  rcases Nat.lt_trichotomy i parts.length with hlt | rfl | hgt
  · rw [List.getElem?_append_left hlt] at hi
    exact .inl hi
  · rw [List.getElem?_append_right (Nat.le_refl _), Nat.sub_self] at hi
    exact .inr ⟨rfl, (Option.some.inj hi).symm⟩
  · rw [List.getElem?_eq_none (by rw [List.length_append, List.length_singleton]; omega)] at hi
    cases hi

/-- A component of a list with another one at `i` is that one, or an old one at another place. -/
theorem getElem?_set_cases {parts : List σ} {c d : σ} {i j : Nat}
    (hj : (parts.set i c)[j]? = some d) : (j = i ∧ d = c) ∨ (j ≠ i ∧ parts[j]? = some d) := by
  by_cases hji : j = i
  · subst hji
    rw [List.getElem?_set_self'] at hj
    obtain ⟨_, -, rfl⟩ := Option.map_eq_some_iff.mp hj
    exact .inl ⟨rfl, rfl⟩
  · rw [List.getElem?_set_ne (Ne.symm hji)] at hj
    exact .inr ⟨hji, hj⟩

/-- Every move keeps the components good and apart. -/
theorem move (h : Housed K Good s) (hK : Local K Good) {l : Label ε α}
    (hmove : Move K Good s l s') : Housed K Good s' := by
  cases hmove with
  | @call i c c' e r m found answer =>
    have hc := List.mem_of_getElem? found
    obtain ⟨r', d, m1, hcall, hgood, hregion, hout, -⟩ := hK.call (h.good c hc) e
    rw [answer] at hcall
    cases hcall
    refine ⟨fun d hd => ?_, fun {j k d f} hj hk hjk => ?_⟩
    · obtain ⟨j, hj⟩ := List.getElem?_of_mem hd
      rcases getElem?_set_cases hj with ⟨-, rfl⟩ | ⟨hji, hold⟩
      · exact hgood
      · refine hK.reads (h.good d (List.mem_of_getElem? hold)) fun x hx => hout fun hx' => ?_
        exact Set.disjoint_left.mp (h.apart hold found hji) hx hx'
    · rcases getElem?_set_cases hj with ⟨rfl, rfl⟩ | ⟨hji, hold⟩
      · rcases getElem?_set_cases hk with ⟨rfl, rfl⟩ | ⟨-, hold'⟩
        · exact absurd rfl hjk
        · rw [hregion]
          exact h.apart found hold' hjk
      · rcases getElem?_set_cases hk with ⟨rfl, rfl⟩ | ⟨-, hold'⟩
        · rw [hregion]
          exact h.apart hold found hji
        · exact h.apart hold hold' hjk
  | absent none => exact h
  | write keeps => exact ⟨fun c hc => hK.reads (h.good c hc) (keeps c hc), h.apart⟩
  | @add m c keeps good free =>
    refine ⟨fun d hd => ?_, fun {i j d f} hi hj hij => ?_⟩
    · rcases List.mem_append.mp hd with hold | hnew
      · exact hK.reads (h.good d hold) (keeps d hold)
      · rw [List.mem_singleton.mp hnew]
        exact good
    · rcases getElem?_add hi with hold | ⟨rfl, rfl⟩
      · rcases getElem?_add hj with hold' | ⟨rfl, rfl⟩
        · exact h.apart hold hold' hij
        · exact free d (List.mem_of_getElem? hold)
      · rcases getElem?_add hj with hold' | ⟨rfl, rfl⟩
        · exact (free f (List.mem_of_getElem? hold')).symm
        · exact absurd rfl hij

end Housed

/-! ## Alone and together -/

/-- Component `i` is in state `c`, and its region is as in a memory of its own. -/
def Mirrors (K : Component A V σ ε α) (s : Commons A V σ) (i : Nat) (c : σ) (m : A → V) : Prop :=
  s.parts[i]? = some c ∧ Set.EqOn m s.mem (K.region c)

namespace Mirrors

variable {s s' : Commons A V σ} {i : Nat} {c : σ} {m : A → V}

/-- A call of its own does in its own memory what it does in the common one. -/
theorem own (h : Mirrors K s i c m) (hs : Housed K Good s) (hK : Local K Good) {e : ε} {r : α}
    (hmove : Move K Good s (.call i e r) s') :
    ∃ c' m', K.call c m e = some (r, c', m') ∧ Mirrors K s' i c' m' ∧
      K.region c' = K.region c := by
  obtain ⟨hc, heq⟩ := h
  cases hmove with
  | call found answer =>
    rw [hc] at found
    cases found
    obtain ⟨r', d, m2, hcall, -, hregion, -, hsame⟩ :=
      hK.call (hs.good c (List.mem_of_getElem? hc)) e
    rw [answer] at hcall
    cases hcall
    obtain ⟨m', hcall', hm'⟩ := hsame heq
    obtain ⟨hlt, -⟩ := List.getElem?_eq_some_iff.mp hc
    refine ⟨_, m', hcall', ⟨List.getElem?_set_self hlt, ?_⟩, hregion⟩
    rw [hregion]
    exact hm'
  | absent none =>
    rw [hc] at none
    cases none

/-- Whatever else happens, it does not notice. -/
theorem other (h : Mirrors K s i c m) (hs : Housed K Good s) (hK : Local K Good) {l : Label ε α}
    (hmove : Move K Good s l s') (hl : ∀ e r, l ≠ .call i e r) : Mirrors K s' i c m := by
  obtain ⟨hc, heq⟩ := h
  have hmem := List.mem_of_getElem? hc
  cases hmove with
  | @call j d c' e r m1 found answer =>
    have hji : j ≠ i := by
      rintro rfl
      exact hl e r rfl
    obtain ⟨r', d', m2, hcall, -, -, hout, -⟩ := hK.call (hs.good d (List.mem_of_getElem? found)) e
    rw [answer] at hcall
    cases hcall
    refine ⟨by rw [List.getElem?_set_ne hji]; exact hc, fun x hx => ?_⟩
    rw [heq hx]
    exact (hout fun hx' => Set.disjoint_left.mp (hs.apart hc found hji.symm) hx hx').symm
  | absent none => exact ⟨hc, heq⟩
  | write keeps => exact ⟨hc, heq.trans (keeps c hmem).symm⟩
  | add keeps good free =>
    obtain ⟨hlt, -⟩ := List.getElem?_eq_some_iff.mp hc
    exact ⟨by rw [List.getElem?_append_left hlt]; exact hc, heq.trans (keeps c hmem).symm⟩

/-- **Alone and together.** After any moves a component has answered what it would have answered
alone to its own calls, and its state and region are those that these calls alone leave. -/
theorem alone (h : Mirrors K s i c m) (hs : Housed K Good s) (hK : Local K Good)
    {log : List (Label ε α)} (hmoves : Moves K Good s log s') :
    ∃ c' m', K.run c m (Label.called i log) = some (Label.answered i log, c', m') ∧
      Mirrors K s' i c' m' ∧ K.region c' = K.region c := by
  induction hmoves generalizing c m with
  | nil => exact ⟨c, m, rfl, h, rfl⟩
  | @cons s s1 s' l rest move moves ih =>
    have hs1 := hs.move hK move
    by_cases hown : ∃ e r, l = .call i e r
    · obtain ⟨e, r, rfl⟩ := hown
      obtain ⟨c1, m1, hcall, h1, hregion⟩ := h.own hs hK move
      obtain ⟨c', m', hrun, h', hregion'⟩ := ih h1 hs1
      refine ⟨c', m', ?_, h', hregion'.trans hregion⟩
      rw [Label.called, if_pos rfl, Label.answered, if_pos rfl, Component.run, hcall]
      dsimp only
      rw [hrun]
      rfl
    · have hl : ∀ e r, l ≠ .call i e r := fun e r heq => hown ⟨e, r, heq⟩
      obtain ⟨c', m', hrun, h', hregion⟩ := ih (h.other hs hK move hl) hs1
      refine ⟨c', m', ?_, h', hregion⟩
      cases l with
      | other => exact hrun
      | call j e r =>
        have hji : j ≠ i := by
          rintro rfl
          exact hl e r rfl
        rw [Label.called, if_neg hji, Label.answered, if_neg hji]
        exact hrun

end Mirrors

end RgMemory.Regions
