import Mathlib.Data.List.Forall2

/-!
# Machines that answer

A machine takes a state and an input to the next state and an answer. A simulation relates the states
of two machines so that one step keeps them related and relates the answers; `Simulates.trace` and
`Simulates.final` say so of whole runs. Two machines that both simulate a third answer alike
(`forall₂_of_common`).
-/

namespace RgMemory.Mealy

variable {σ τ ι κ ο π : Type*}

/-- The state after a run. -/
def final (step : σ → ι → σ × ο) (s : σ) (inputs : List ι) : σ :=
  inputs.foldl (fun s i => (step s i).1) s

/-- The answers of a run. -/
def trace (step : σ → ι → σ × ο) : σ → List ι → List ο
  | _, [] => []
  | s, i :: inputs => (step s i).2 :: trace step (step s i).1 inputs

@[simp] theorem final_nil (step : σ → ι → σ × ο) (s : σ) : final step s [] = s := rfl

@[simp] theorem final_cons (step : σ → ι → σ × ο) (s : σ) (i : ι) (inputs : List ι) :
    final step s (i :: inputs) = final step (step s i).1 inputs := rfl

/-- Related states stay related and answer alike, when the second machine gets the image of the
first one's input. -/
def Simulates (step : σ → ι → σ × ο) (step' : τ → κ → τ × π) (f : ι → κ) (R : σ → τ → Prop)
    (S : ο → π → Prop) : Prop :=
  ∀ s t i, R s t → R (step s i).1 (step' t (f i)).1 ∧ S (step s i).2 (step' t (f i)).2

namespace Simulates

variable {step : σ → ι → σ × ο} {step' : τ → κ → τ × π} {f : ι → κ} {R : σ → τ → Prop}
  {S : ο → π → Prop}

theorem final (h : Simulates step step' f R S) {s : σ} {t : τ} (hst : R s t) (inputs : List ι) :
    R (Mealy.final step s inputs) (Mealy.final step' t (inputs.map f)) := by
  induction inputs generalizing s t with
  | nil => exact hst
  | cons i inputs ih => exact ih (h s t i hst).1

theorem trace (h : Simulates step step' f R S) {s : σ} {t : τ} (hst : R s t) (inputs : List ι) :
    List.Forall₂ S (Mealy.trace step s inputs) (Mealy.trace step' t (inputs.map f)) := by
  induction inputs generalizing s t with
  | nil => exact .nil
  | cons i inputs ih =>
    obtain ⟨hnext, hanswer⟩ := h s t i hst
    exact .cons hanswer (ih hnext)

end Simulates

/-- What each of two lists has in common with a third, they have in common with each other. -/
theorem forall₂_of_common {S : ο → π → Prop} {S' : κ → π → Prop} {P : ο → κ → Prop}
    (hP : ∀ a b c, S a c → S' b c → P a b) {as : List ο} {bs : List κ} {cs : List π}
    (has : List.Forall₂ S as cs) (hbs : List.Forall₂ S' bs cs) : List.Forall₂ P as bs := by
  induction has generalizing bs with
  | nil =>
    cases hbs
    exact .nil
  | cons ha _ ih =>
    cases hbs with
    | cons hb hrest => exact .cons (hP _ _ _ ha hb) (ih hrest)

end RgMemory.Mealy
