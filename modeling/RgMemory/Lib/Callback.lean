import Mathlib.Data.List.Basic

/-!
# Callbacks that may ask to stop

An iteration hands entries to a callback, which has a state of its own and may ask to stop at any
entry. `callUntil` is what an iteration over a list does: the entries that the callback is called on,
and the state that it is left in.

An iteration that keeps the list of its calls instead of the callback's state decides by that list
whether to go on. `cut` is the list at which it ends, and `cut_stopsIn` says that both come to the
same calls.
-/

namespace RgMemory.Callback

variable {σ ι : Type}

/-- Call a callback on the entries of a list, up to the one at which it asks to stop. -/
def callUntil (fn : σ → ι → Bool × σ) : σ → List ι → List ι × σ
  | user, [] => ([], user)
  | user, e :: rest =>
    match fn user e with
    | (true, user) => ([e], user)
    | (false, user) => (e :: (callUntil fn user rest).1, (callUntil fn user rest).2)

variable {fn : σ → ι → Bool × σ}

theorem callUntil_stop {user : σ} {e : ι} (h : (fn user e).1 = true) (rest : List ι) :
    callUntil fn user (e :: rest) = ([e], (fn user e).2) := by
  rw [callUntil]
  split
  · next heq => rw [heq]
  · next heq =>
    rw [heq] at h
    cases h

theorem callUntil_go {user : σ} {e : ι} (h : (fn user e).1 = false) (rest : List ι) :
    callUntil fn user (e :: rest) =
      (e :: (callUntil fn (fn user e).2 rest).1, (callUntil fn (fn user e).2 rest).2) := by
  rw [callUntil]
  split
  · next heq =>
    rw [heq] at h
    cases h
  · next heq => rw [heq]

/-- A callback that never asks to stop is called on all entries. -/
theorem callUntil_all (h : ∀ user e, (fn user e).1 = false) (user : σ) (l : List ι) :
    (callUntil fn user l).1 = l := by
  induction l generalizing user with
  | nil => rfl
  | cons e rest ih => rw [callUntil_go (h user e), ih]

/-! ## Deciding by the calls -/

/-- Does the callback, called on the entries in turn, ask to stop at one of them? -/
def stopsIn (fn : σ → ι → Bool × σ) : σ → List ι → Bool
  | _, [] => false
  | user, e :: rest => (fn user e).1 || stopsIn fn (fn user e).2 rest

/-- Go through a list until the calls made so far say to stop. -/
def cut (stop : List ι → Bool) : List ι → List ι → List ι
  | calls, [] => calls
  | calls, e :: rest =>
    if stop (calls ++ [e]) then calls ++ [e] else cut stop (calls ++ [e]) rest

theorem stopsIn_concat (user : σ) (calls : List ι) (e : ι) :
    stopsIn fn user (calls ++ [e]) =
      (stopsIn fn user calls || (fn (calls.foldl (fun u e => (fn u e).2) user) e).1) := by
  induction calls generalizing user with
  | nil => simp [stopsIn]
  | cons c rest ih =>
    rw [List.cons_append, stopsIn, stopsIn, ih, List.foldl_cons, Bool.or_assoc]

/-- Both ways to decide come to the same calls. -/
theorem cut_stopsIn {user : σ} {calls : List ι} (h : stopsIn fn user calls = false) (l : List ι) :
    cut (stopsIn fn user) calls l =
      calls ++ (callUntil fn (calls.foldl (fun u e => (fn u e).2) user) l).1 := by
  induction l generalizing calls with
  | nil => exact (List.append_nil calls).symm
  | cons e rest ih =>
    have hstop : stopsIn fn user (calls ++ [e]) = _ := stopsIn_concat user calls e
    rw [h, Bool.false_or] at hstop
    rw [cut, hstop]
    cases hask : (fn (calls.foldl (fun u e => (fn u e).2) user) e).1 with
    | true => rw [if_pos rfl, callUntil_stop hask]
    | false =>
      rw [hask] at hstop
      rw [if_neg (by decide), callUntil_go hask, ih hstop, List.foldl_append, List.foldl_cons,
        List.foldl_nil, List.append_assoc]
      rfl

end RgMemory.Callback
