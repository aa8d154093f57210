import Mathlib.Data.List.Basic

/-!
# Values with a log

A computation that says what it did: its value, and the log of its steps. `Logged.drain` is the loop
that takes blocks off what is left until little enough is; two laws carry a fact about a block
through the loop, what the log of a run has (`drain_spec`) and that two loops that go in step have
one log (`drain_log_eq`).
-/

namespace RgMemory

/-- A value, with the log of what was done to get it. -/
structure Logged (ε α : Type) where
  value : α
  log : List ε

namespace Logged

variable {ε α β : Type}

/-- A value that took one step. -/
def step (e : ε) (a : α) : Logged ε α := ⟨a, [e]⟩

instance : Monad (Logged ε) where
  pure a := ⟨a, []⟩
  bind x f := ⟨(f x.value).value, x.log ++ (f x.value).log⟩

@[simp] theorem value_pure (a : α) : (pure a : Logged ε α).value = a := rfl
@[simp] theorem log_pure (a : α) : (pure a : Logged ε α).log = [] := rfl

@[simp] theorem value_bind (x : Logged ε α) (f : α → Logged ε β) :
    (x >>= f).value = (f x.value).value := rfl

@[simp] theorem log_bind (x : Logged ε α) (f : α → Logged ε β) :
    (x >>= f).log = x.log ++ (f x.value).log := rfl

@[simp] theorem value_step (e : ε) (a : α) : (step e a).value = a := rfl
@[simp] theorem log_step (e : ε) (a : α) : (step e a).log = [e] := rfl

/-! ## Loops over blocks -/

/-- Take blocks until at most `k` are left, in at most so many rounds. -/
def drain (left : α → Nat) (k : Nat) (block : α → Logged ε α) : Nat → α → Logged ε α
  | 0, a => pure a
  | fuel + 1, a =>
    if left a > k then do
      let a ← block a
      drain left k block fuel a
    else pure a

section

variable {left off : α → Nat} {k : Nat} {block : α → Logged ε α} {covers : List ε → Nat → Nat → Prop}

variable (left off covers) in
/-- A loop whose blocks cover `k` places each ends with at most `k` left and has covered all places
before them. -/
theorem drain_spec (hk : 0 < k) (hnil : ∀ n, covers [] n n)
    (happend : ∀ {l m lo mid hi}, lo ≤ mid → mid ≤ hi → covers l lo mid → covers m mid hi →
      covers (l ++ m) lo hi)
    (hblock : ∀ a, left a > k → off (block a).value = off a + k ∧
      left (block a).value = left a - k ∧ covers (block a).log (off a) (off a + k))
    {fuel : Nat} {a : α} (hfuel : left a ≤ fuel) (hpos : 0 < left a) :
    covers (drain left k block fuel a).log (off a) (off (drain left k block fuel a).value) ∧
      off a ≤ off (drain left k block fuel a).value ∧
      off (drain left k block fuel a).value + left (drain left k block fuel a).value =
        off a + left a ∧
      0 < left (drain left k block fuel a).value ∧ left (drain left k block fuel a).value ≤ k := by
  induction fuel generalizing a with
  | zero => omega
  | succ fuel ih =>
    rw [drain]
    split
    · next hleft =>
      obtain ⟨hoff, hrest, hcov⟩ := hblock a hleft
      obtain ⟨hcov', hle, hsum, hpos', hend⟩ :=
        @ih (block a).value (by omega) (by omega)
      rw [hoff] at hcov' hle hsum
      refine ⟨?_, ?_, ?_, hpos', hend⟩
      · exact happend (Nat.le_add_right ..) hle hcov hcov'
      · exact Nat.le_trans (Nat.le_add_right ..) hle
      · show off (drain left k block fuel (block a).value).value +
          left (drain left k block fuel (block a).value).value = off a + left a
        omega
    · next hleft => exact ⟨hnil _, Nat.le_refl _, rfl, hpos, Nat.le_of_not_lt hleft⟩

variable (left k block) in
/-- The value is that of the loop without the log. -/
theorem drain_value {g : Nat → α → α} (hzero : ∀ a, g 0 a = a)
    (hsucc : ∀ fuel a, g (fuel + 1) a = if left a > k then g fuel (block a).value else a)
    (fuel : Nat) (a : α) : (drain left k block fuel a).value = g fuel a := by
  induction fuel generalizing a with
  | zero => exact (hzero a).symm
  | succ fuel ih =>
    rw [drain, hsucc]
    split
    · exact ih _
    · rfl

/-- Two loops that go in step have one log. -/
theorem drain_log_eq {β : Type} {left' : β → Nat} {block' : β → Logged ε β} {R : α → β → Prop}
    (hleft : ∀ a b, R a b → left a = left' b)
    (hblock : ∀ a b, R a b → (block a).log = (block' b).log ∧ R (block a).value (block' b).value)
    (fuel : Nat) {a : α} {b : β} (hab : R a b) :
    (drain left k block fuel a).log = (drain left' k block' fuel b).log ∧
      R (drain left k block fuel a).value (drain left' k block' fuel b).value := by
  induction fuel generalizing a b with
  | zero => exact ⟨rfl, hab⟩
  | succ fuel ih =>
    rw [drain, drain, hleft a b hab]
    split
    · obtain ⟨hlog, hnext⟩ := hblock a b hab
      obtain ⟨hlogs, hvalue⟩ := ih hnext
      exact ⟨by rw [log_bind, log_bind, hlog, hlogs], hvalue⟩
    · exact ⟨rfl, hab⟩

end

end Logged

end RgMemory
