import Mathlib.Data.List.Range
import Mathlib.Logic.Function.Basic
import Mathlib.Order.Basic

/-!
# Loops in windows

A loop over the entries `0`, …, `count - 1` of an array, with 32-bit counters, goes through them in
windows of `size` entries: before each window it does something that leaves the state alone, and
then puts the entries of the window one after the other, up to the first error, which ends the loop.

`windows_spec` says that this is the loop over all entries (`inOrder`). What the windows are preceded
by, and the putting, may need fuel; `P i` holds of the state before entry `i`, and `Q i e` of the state
that the error `e` at entry `i` leaves.
-/

namespace RgMemory.Windows

variable {σ ε E : Type}

/-- Put one entry after the other, up to the first error. -/
def inOrder (put : Nat → σ → Except ε (σ × Option E)) : List Nat → σ → Except ε (σ × Option E)
  | [], s => .ok (s, none)
  | i :: rest, s =>
    match put i s with
    | .error e => .error e
    | .ok (s, some e) => .ok (s, some e)
    | .ok (s, none) => inOrder put rest s

section

variable (put : Nat → σ → Except ε (σ × Option E)) (out : ε)

/-- `for (; i < stop; ++i)`. `out` is the error when the fuel is spent. -/
def entries (stop : BitVec 32) : Nat → BitVec 32 → σ → Except ε (σ × Option E)
  | 0, i, s => if i < stop then .error out else .ok (s, none)
  | fuel + 1, i, s =>
    if i < stop then
      match put i.toNat s with
      | .error e => .error e
      | .ok (s, some e) => .ok (s, some e)
      | .ok (s, none) => entries stop fuel (i + 1) s
    else .ok (s, none)

variable (warm : BitVec 32 → BitVec 32 → σ → Except ε Unit) (size count : BitVec 32)

/-- `while (done < count)`. The loop over a window has the fuel `inner`. -/
def windows (inner : Nat) : Nat → BitVec 32 → σ → Except ε (σ × Option E)
  | 0, done, s => if done < count then .error out else .ok (s, none)
  | fuel + 1, done, s =>
    if done < count then
      let n := if count - done < size then count - done else size
      match warm done n s with
      | .error e => .error e
      | .ok () =>
        match entries put out (done + n) inner done s with
        | .error e => .error e
        | .ok (s, some e) => .ok (s, some e)
        | .ok (s, none) => windows inner fuel (done + n) s
    else .ok (s, none)

end

/-! ## Entries in order -/

theorem inOrder_append (put : Nat → σ → Except ε (σ × Option E)) (l r : List Nat) (s : σ) :
    inOrder put (l ++ r) s =
      match inOrder put l s with
      | .error e => .error e
      | .ok (s, some e) => .ok (s, some e)
      | .ok (s, none) => inOrder put r s := by
  induction l generalizing s with
  | nil => rfl
  | cons i l ih =>
    rw [List.cons_append, inOrder, inOrder]
    cases put i s with
    | error e => rfl
    | ok x =>
      obtain ⟨s', e | e⟩ := x
      · exact ih s'
      · rfl

/-- The loop over a window puts its entries in order. -/
theorem entries_eq (put : Nat → σ → Except ε (σ × Option E)) (out : ε) {stop : BitVec 32}
    {fuel : Nat} {i : BitVec 32} (hle : i.toNat ≤ stop.toNat)
    (hfuel : stop.toNat ≤ i.toNat + fuel) (s : σ) :
    entries put out stop fuel i s =
      inOrder put (List.range' i.toNat (stop.toNat - i.toNat)) s := by
  induction fuel generalizing i s with
  | zero =>
    have hsame : stop.toNat = i.toNat := by omega
    have hnot : ¬ i < stop := by
      rw [BitVec.lt_def]
      omega
    rw [entries, if_neg hnot, hsame, Nat.sub_self]
    rfl
  | succ fuel ih =>
    rw [entries]
    by_cases hlt : i < stop
    · have hlt' : i.toNat < stop.toNat := BitVec.lt_def.mp hlt
      have hstop := stop.isLt
      have hnext : (i + 1).toNat = i.toNat + 1 := by
        rw [BitVec.toNat_add]
        exact Nat.mod_eq_of_lt (show i.toNat + 1 < 2 ^ 32 by omega)
      have hlen : stop.toNat - i.toNat = (stop.toNat - (i.toNat + 1)) + 1 := by omega
      rw [if_pos hlt, hlen, List.range'_succ, inOrder]
      cases put i.toNat s with
      | error e => rfl
      | ok x =>
        obtain ⟨s', e | e⟩ := x
        · have hrest := ih (i := i + 1) (by omega) (by omega) s'
          rw [hnext] at hrest
          exact hrest
        · rfl
    · have hsame : stop.toNat = i.toNat := by
        rw [BitVec.lt_def] at hlt
        omega
      rw [if_neg hlt, hsame, Nat.sub_self]
      rfl

/-! ## Enough fuel -/

/-- With enough fuel, this is the result. -/
def Settles {α : Type} (f : Nat → Except ε α) (x : α) : Prop := ∃ N, ∀ fuel ≥ N, f fuel = .ok x

variable {put : Nat → Nat → σ → Except ε (σ × Option E)}
  {warm : Nat → BitVec 32 → BitVec 32 → σ → Except ε Unit} {size count : BitVec 32}
  {P : Nat → σ → Prop} {Q : Nat → E → σ → Prop}

/-- What holds after entry `i`. -/
def Entered (P : Nat → σ → Prop) (Q : Nat → E → σ → Prop) (i : Nat) : σ × Option E → Prop
  | (s, none) => P (i + 1) s
  | (s, some e) => Q i e s

/-- What holds when the loop has come to `stop`, or has ended before with an error. -/
def After (P : Nat → σ → Prop) (Q : Nat → E → σ → Prop) (stop : Nat) : σ × Option E → Prop
  | (s, none) => P stop s
  | (s, some e) => ∃ i < stop, Q i e s

/-- Entries in order settle, if each one does. -/
theorem inOrder_settles {last : Nat}
    (hput : ∀ i < last, ∀ s, P i s →
      ∃ x, Settles (fun fuel => put fuel i s) x ∧ Entered P Q i x)
    {n i : Nat} (hlast : i + n ≤ last) {s : σ} (h : P i s) :
    ∃ x, Settles (fun fuel => inOrder (put fuel) (List.range' i n) s) x ∧ After P Q (i + n) x := by
  induction n generalizing i s with
  | zero => exact ⟨(s, none), ⟨0, fun _ _ => rfl⟩, h⟩
  | succ n ih =>
    obtain ⟨⟨s', r⟩, ⟨N, hN⟩, hnext⟩ := hput i (by omega) s h
    have hentry : ∀ fuel ≥ N, put fuel i s = .ok (s', r) := hN
    cases r with
    | some e =>
      refine ⟨(s', some e), ⟨N, fun fuel hfuel => ?_⟩, i, by omega, hnext⟩
      show inOrder (put fuel) (List.range' i (n + 1)) s = _
      rw [List.range'_succ, inOrder, hentry fuel hfuel]
    | none =>
      obtain ⟨x, ⟨N', hN'⟩, hafter⟩ := ih (i := i + 1) (by omega) hnext
      refine ⟨x, ⟨max N N', fun fuel hfuel => ?_⟩, ?_⟩
      · show inOrder (put fuel) (List.range' i (n + 1)) s = _
        rw [List.range'_succ, inOrder, hentry fuel (le_trans (le_max_left _ _) hfuel)]
        exact hN' fuel (le_trans (le_max_right _ _) hfuel)
      · rwa [Nat.add_right_comm] at hafter

/-- From any window on, the loop is the loop over the entries that are left. -/
theorem windows_from (out : ε) (hsize : 0 < size)
    (hwarm : ∀ done n s, P done.toNat s → Settles (fun fuel => warm fuel done n s) ())
    (hput : ∀ i < count.toNat, ∀ s, P i s →
      ∃ x, Settles (fun fuel => put fuel i s) x ∧ Entered P Q i x)
    {done : BitVec 32} (hdone : done.toNat ≤ count.toNat) {s : σ} (h : P done.toNat s) :
    ∃ x, Settles (fun fuel =>
        inOrder (put fuel) (List.range' done.toNat (count.toNat - done.toNat)) s) x ∧
      After P Q count.toNat x ∧
      ∃ N, ∀ inner ≥ N, ∀ fuel, count.toNat - done.toNat ≤ fuel →
        windows (put inner) out (warm inner) size count inner fuel done s = .ok x := by
  -- by the number of entries that are left
  induction hleft : count.toNat - done.toNat using Nat.strong_induction_on generalizing done s with
  | _ left ih =>
    by_cases hlt : done < count
    · have hlt' : done.toNat < count.toNat := BitVec.lt_def.mp hlt
      have hcount := count.isLt
      have hsize' : 0 < size.toNat := BitVec.lt_def.mp hsize
      -- the window, and where it ends
      obtain ⟨n, hn, hpos, hle⟩ : ∃ n, n = (if count - done < size then count - done else size) ∧
          0 < n.toNat ∧ n.toNat ≤ count.toNat - done.toNat := by
        have hsub : (count - done).toNat = count.toNat - done.toNat :=
          BitVec.toNat_sub_of_le (BitVec.le_def.mpr hdone)
        refine ⟨_, rfl, ?_⟩
        split
        · omega
        · next hsmall =>
          rw [BitVec.lt_def] at hsmall
          omega
      have hnext : (done + n).toNat = done.toNat + n.toNat := by
        rw [BitVec.toNat_add]
        exact Nat.mod_eq_of_lt (show done.toNat + n.toNat < 2 ^ 32 by omega)
      obtain ⟨⟨s', r⟩, ⟨N, hN⟩, hy⟩ :=
        inOrder_settles hput (n := n.toNat) (i := done.toNat) (by omega) h
      obtain ⟨W, hW⟩ := hwarm done n s h
      have hwindow : ∀ fuel ≥ N, inOrder (put fuel) (List.range' done.toNat n.toNat) s =
        .ok (s', r) := hN
      have hwarmed : ∀ inner ≥ max W (max N n.toNat), warm inner done n s = .ok () :=
        fun inner hinner => hW inner (le_trans (le_max_left _ _) hinner)
      have hentries : ∀ inner ≥ max W (max N n.toNat),
          entries (put inner) out (done + n) inner done s = .ok (s', r) := by
        intro inner hinner
        obtain ⟨hN', hn'⟩ := Nat.max_le.mp (le_trans (le_max_right _ _) hinner)
        rw [entries_eq (put inner) out (by omega) (by omega), hnext, Nat.add_sub_cancel_left]
        exact hwindow inner hN'
      have hlist : List.range' done.toNat left =
          List.range' done.toNat n.toNat ++
            List.range' (done + n).toNat (left - n.toNat) := by
        have hsum : left = n.toNat + (left - n.toNat) := by omega
        rw [hnext, List.range'_append_1, ← hsum]
      cases r with
      | some e =>
        obtain ⟨i, hi, hq⟩ := hy
        refine ⟨(s', some e), ⟨N, fun fuel hfuel => ?_⟩, ⟨i, by omega, hq⟩,
          max W (max N n.toNat), fun inner hinner fuel hfuel => ?_⟩
        · show inOrder (put fuel) (List.range' done.toNat left) s = _
          rw [hlist, inOrder_append, hwindow fuel hfuel]
        · obtain ⟨fuel, rfl⟩ : ∃ m, fuel = m + 1 := ⟨fuel - 1, by omega⟩
          rw [windows, if_pos hlt, ← hn]
          dsimp only
          rw [hwarmed inner hinner, hentries inner hinner]
      | none =>
        have hrest : count.toNat - (done + n).toNat = left - n.toNat := by omega
        have hP : P (done + n).toNat s' := by
          rw [hnext]
          exact hy
        obtain ⟨x, ⟨N', hN'⟩, hafter, M, hM⟩ :=
          ih (left - n.toNat) (by omega) (by omega) hP hrest
        refine ⟨x, ⟨max N N', fun fuel hfuel => ?_⟩, hafter, max M (max W (max N n.toNat)),
          fun inner hinner fuel hfuel => ?_⟩
        · show inOrder (put fuel) (List.range' done.toNat left) s = _
          rw [hlist, inOrder_append, hwindow fuel (le_trans (le_max_left _ _) hfuel)]
          exact hN' fuel (le_trans (le_max_right _ _) hfuel)
        · obtain ⟨fuel, rfl⟩ : ∃ m, fuel = m + 1 := ⟨fuel - 1, by omega⟩
          have hinner' := le_trans (le_max_right _ _) hinner
          rw [windows, if_pos hlt, ← hn]
          dsimp only
          rw [hwarmed inner hinner', hentries inner hinner']
          exact hM inner (le_trans (le_max_left _ _) hinner) fuel (by omega)
    · have hend : done.toNat = count.toNat := by
        rw [BitVec.lt_def] at hlt
        omega
      have hzero : left = 0 := by omega
      subst hzero
      refine ⟨(s, none), ⟨0, fun _ _ => rfl⟩, hend ▸ h, 0, fun inner _ fuel _ => ?_⟩
      cases fuel with
      | zero => exact if_neg hlt
      | succ fuel => exact if_neg hlt

variable (P Q put warm) in
/-- **The windows put all entries in order**, up to the first error. -/
theorem windows_spec (out : ε) (hsize : 0 < size)
    (hwarm : ∀ done n s, P done.toNat s → Settles (fun fuel => warm fuel done n s) ())
    (hput : ∀ i < count.toNat, ∀ s, P i s →
      ∃ x, Settles (fun fuel => put fuel i s) x ∧ Entered P Q i x)
    {s : σ} (h : P 0 s) :
    ∃ x, After P Q count.toNat x ∧
      Settles (fun fuel => inOrder (put fuel) (List.range count.toNat) s) x ∧
      Settles (fun fuel => windows (put fuel) out (warm fuel) size count fuel fuel 0 s) x := by
  have hzero : (0 : BitVec 32).toNat = 0 := rfl
  have hfirst : (0 : BitVec 32).toNat ≤ count.toNat := Nat.zero_le _
  have hstart : P (0 : BitVec 32).toNat s := h
  obtain ⟨x, hserial, hafter, N, hN⟩ := windows_from out hsize hwarm hput hfirst hstart
  rw [hzero, Nat.sub_zero] at hserial hN
  refine ⟨x, hafter, ?_, max N count.toNat, fun fuel hfuel => ?_⟩
  · rw [List.range_eq_range']
    exact hserial
  · exact hN fuel (le_trans (le_max_left _ _) hfuel) fuel (le_trans (le_max_right _ _) hfuel)

/-! ## What is stored -/

/-- A finite map after the first entries were put: a later entry of a key replaces an earlier one. -/
def stored {κ V : Type} [DecidableEq κ] (key : Nat → κ) (values : Nat → V) (m : κ → Option V) :
    Nat → κ → Option V
  | 0 => m
  | n + 1 => Function.update (stored key values m n) (key n) (some (values n))

end RgMemory.Windows
