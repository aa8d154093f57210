import Mathlib.Data.List.Basic

/-!
# A sequence with swap-remove

A list whose elements are removed by moving the last one into the gap. `SwapList.Step` is what a
bounded container of this kind may do: append an element of its choosing (refused when full), remove
one, be emptied, have one edited. `SwapList.Run` is its closure over a list of operations.

A walk from the last position to the first may remove what it has just come to: the element that
moves into the gap has been seen already. `Swept` is the invariant of such a walk.
-/

namespace RgMemory.SwapList

variable {α : Type*}

/-- The last element replaces the one at `i`. -/
def swapRemove (l : List α) (i : Nat) : List α :=
  match l.getLast? with
  | none => l
  | some x => (l.set i x).dropLast

/-- An operation, whose effect on an element is given by a function. -/
inductive Op (α : Type*)
  | append
  | remove (i : Nat)
  | clear
  | edit (i : Nat) (f : α → α)

/-- What an operation may do to a list of at most `max` elements that all satisfy `ok`. An appended
element is any that does; a removal past the end does nothing. -/
inductive Step (ok : α → Prop) (max : Nat) : List α → Op α → List α → Prop
  | append {l : List α} {x : α} (room : l.length < max) (hx : ok x) :
      Step ok max l .append (l ++ [x])
  | full {l : List α} (hfull : l.length = max) : Step ok max l .append l
  | remove {l : List α} {i : Nat} (hi : i < l.length) : Step ok max l (.remove i) (swapRemove l i)
  | removeNone {l : List α} {i : Nat} (hi : l.length ≤ i) : Step ok max l (.remove i) l
  | clear {l : List α} : Step ok max l .clear []
  | edit {l : List α} {i : Nat} {f : α → α} : Step ok max l (.edit i f) (l.modify i f)

/-- The operations one after the other. -/
inductive Run (ok : α → Prop) (max : Nat) : List α → List (Op α) → List α → Prop
  | nil {l : List α} : Run ok max l [] l
  | cons {l l' l'' : List α} {op : Op α} {ops : List (Op α)} (first : Step ok max l op l')
      (rest : Run ok max l' ops l'') : Run ok max l (op :: ops) l''

theorem swapRemove_length {l : List α} {i : Nat} (hi : i < l.length) :
    (swapRemove l i).length = l.length - 1 := by
  have hne : l ≠ [] := List.ne_nil_of_length_pos (by omega)
  rw [swapRemove, List.getLast?_eq_getLast_of_ne_nil hne]
  simp

/-- Below the new end, position `i` holds what was last and the others hold what they held. -/
theorem swapRemove_getElem? {l : List α} {i j : Nat} (hi : i < l.length) (hj : j < l.length - 1) :
    (swapRemove l i)[j]? = if j = i then l[l.length - 1]? else l[j]? := by
  have hne : l ≠ [] := List.ne_nil_of_length_pos (by omega)
  rw [swapRemove, List.getLast?_eq_getLast_of_ne_nil hne]
  dsimp only
  rw [List.getElem?_dropLast, List.length_set, if_pos hj, List.getElem?_set]
  by_cases hij : j = i
  · subst hij
    rw [if_pos rfl, if_pos rfl, if_pos hi, ← List.getLast?_eq_getElem?,
      List.getLast?_eq_getLast_of_ne_nil hne]
  · rw [if_neg (Ne.symm hij), if_neg hij]

/-! ## Removing on a backward walk -/

theorem swapRemove_append_last (a : List α) (y : α) : swapRemove (a ++ [y]) a.length = a := by
  rw [swapRemove, List.getLast?_concat]
  simp

theorem swapRemove_append_cons (a t : List α) (y x : α) :
    swapRemove (a ++ y :: (t ++ [x])) a.length = a ++ x :: t := by
  have hlast : a ++ y :: (t ++ [x]) = (a ++ y :: t) ++ [x] := by simp
  have hset : ((a ++ y :: t) ++ [x]).set a.length x = (a ++ x :: t) ++ [x] := by simp
  rw [swapRemove, hlast, List.getLast?_concat]
  dsimp only
  rw [hset, List.dropLast_concat]

/-- Removing leaves what lies before the gap, and permutes what lies behind. -/
theorem swapRemove_split (a t : List α) (y : α) :
    ∃ t', swapRemove (a ++ y :: t) a.length = a ++ t' ∧ t'.Perm t := by
  rcases List.eq_nil_or_concat t with rfl | ⟨init, x, rfl⟩
  · exact ⟨[], (swapRemove_append_last a y).trans (List.append_nil a).symm, List.Perm.refl _⟩
  · rw [List.concat_eq_append]
    exact ⟨x :: init, swapRemove_append_cons a init y x, (List.perm_append_singleton x init).symm⟩

/-- A walk over `l₀` that has the first `n` positions ahead of it: they are as they were, and behind
them lie the elements that the walk has kept. -/
def Swept (p : α → Bool) (l₀ : List α) (n : Nat) (l : List α) : Prop :=
  ∃ kept, l = l₀.take n ++ kept ∧ kept.Perm ((l₀.drop n).filter fun x => !p x)

namespace Swept

variable {p : α → Bool} {l₀ l : List α} {n : Nat}

theorem start (p : α → Bool) (l : List α) : Swept p l l.length l := by
  refine ⟨[], ?_, ?_⟩
  · rw [List.take_length, List.append_nil]
  · rw [List.drop_length]
    exact List.Perm.refl _

/-- The next element is the one that was there at the start; the kept ones follow it. -/
theorem next (h : Swept p l₀ (n + 1) l) (hn : n < l₀.length) :
    ∃ kept, l = l₀.take n ++ l₀[n] :: kept ∧
      kept.Perm ((l₀.drop (n + 1)).filter fun x => !p x) := by
  obtain ⟨kept, hl, hkept⟩ := h
  refine ⟨kept, ?_, hkept⟩
  rw [hl, List.take_succ_eq_append_getElem hn, List.append_assoc]
  rfl

theorem getElem?_eq (h : Swept p l₀ (n + 1) l) (hn : n < l₀.length) : l[n]? = some l₀[n] := by
  obtain ⟨kept, hl, -⟩ := h.next hn
  have hlen : (l₀.take n).length = n := by rw [List.length_take]; omega
  rw [hl, List.getElem?_append_right (by omega), hlen, Nat.sub_self]
  rfl

theorem keep (h : Swept p l₀ (n + 1) l) (hn : n < l₀.length) (hp : p l₀[n] = false) :
    Swept p l₀ n l := by
  obtain ⟨kept, hl, hkept⟩ := h.next hn
  refine ⟨l₀[n] :: kept, hl, ?_⟩
  rw [List.drop_eq_getElem_cons hn, List.filter_cons, hp]
  exact hkept.cons _

theorem remove (h : Swept p l₀ (n + 1) l) (hn : n < l₀.length) (hp : p l₀[n] = true) :
    Swept p l₀ n (swapRemove l n) := by
  obtain ⟨kept, hl, hkept⟩ := h.next hn
  have hlen : (l₀.take n).length = n := by rw [List.length_take]; omega
  obtain ⟨kept', hremoved, hperm⟩ := swapRemove_split (l₀.take n) kept l₀[n]
  rw [hlen, ← hl] at hremoved
  refine ⟨kept', hremoved, ?_⟩
  rw [List.drop_eq_getElem_cons hn, List.filter_cons, hp]
  exact hperm.trans hkept

/-- At the end of the walk the elements that do not satisfy `p` are left, in some order. -/
theorem finish (h : Swept p l₀ 0 l) : l.Perm (l₀.filter fun x => !p x) := by
  obtain ⟨kept, rfl, hkept⟩ := h
  exact hkept

end Swept

end RgMemory.SwapList
