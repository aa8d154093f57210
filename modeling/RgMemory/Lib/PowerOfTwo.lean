import Mathlib.Algebra.Group.Nat.Defs
import Mathlib.Data.Nat.Size
import Mathlib.Order.Bounds.Basic

/-!
# The next power of two

Shifting a number right and OR-ing it to itself lets every bit see twice as many bits above it
(`window_double`). When the window has grown to the width of the number, all bits below the topmost
one are set (`window_full`), and one more than that is the least power of two above
(`isLeast_pow_size`).
-/

namespace PowerOfTwo

/-- Bit `i` of `y` is set when one of the `n` bits of `x` from `i` on is. -/
def Window (n x y : Nat) : Prop :=
  ∀ i, y.testBit i = true ↔ ∃ j, j < n ∧ x.testBit (i + j) = true

theorem window_one (x : Nat) : Window 1 x x := by
  intro i
  constructor
  · intro h
    exact ⟨0, Nat.one_pos, h⟩
  · rintro ⟨j, hj, h⟩
    have hj0 : j = 0 := by omega
    rwa [hj0, Nat.add_zero] at h

theorem window_double {n x y : Nat} (h : Window n x y) : Window (2 * n) x (y ||| y >>> n) := by
  intro i
  rw [Nat.testBit_or, Nat.testBit_shiftRight, Bool.or_eq_true, h i, h (n + i)]
  constructor
  · rintro (⟨j, hj, hbit⟩ | ⟨j, hj, hbit⟩)
    · exact ⟨j, by omega, hbit⟩
    · refine ⟨n + j, by omega, ?_⟩
      have hsum : i + (n + j) = n + i + j := by omega
      rwa [hsum]
  · rintro ⟨j, hj, hbit⟩
    rcases Nat.lt_or_ge j n with hlt | hge
    · exact Or.inl ⟨j, hlt, hbit⟩
    · refine Or.inr ⟨j - n, by omega, ?_⟩
      have hsum : n + i + (j - n) = i + j := by omega
      rwa [hsum]

/-- A window as wide as the number sets every bit up to the topmost one. -/
theorem window_full {n x y : Nat} (h : Window n x y) (hx : x < 2 ^ n) : y + 1 = 2 ^ x.size := by
  have hy : y = 2 ^ x.size - 1 := by
    apply Nat.eq_of_testBit_eq
    intro i
    rw [Nat.testBit_two_pow_sub_one, Bool.eq_iff_iff, decide_eq_true_eq, h i, Nat.lt_size]
    constructor
    · rintro ⟨j, -, hbit⟩
      have hpow := Nat.ge_two_pow_of_testBit hbit
      exact (Nat.pow_le_pow_right (by decide) (Nat.le_add_right i j)).trans hpow
    · intro hle
      obtain ⟨k, hk, hbit⟩ := Nat.exists_ge_and_testBit_of_ge_two_pow hle
      have hpow := Nat.ge_two_pow_of_testBit hbit
      have hlt : k < n := (Nat.pow_lt_pow_iff_right (by decide)).mp (hpow.trans_lt hx)
      refine ⟨k - i, by omega, ?_⟩
      have hsum : i + (k - i) = k := by omega
      rwa [hsum]
  have hpos := Nat.two_pow_pos x.size
  omega

/-- The least power of two that is not below `c`. -/
theorem isLeast_pow_size {c : Nat} (hc : 0 < c) :
    IsLeast {q | (∃ j, q = 2 ^ j) ∧ c ≤ q} (2 ^ (c - 1).size) := by
  constructor
  · have hlt := Nat.lt_size_self (c - 1)
    exact ⟨⟨_, rfl⟩, by omega⟩
  · rintro q ⟨⟨j, rfl⟩, hle⟩
    have hsize : (c - 1).size ≤ j := Nat.size_le.mpr (by omega)
    exact Nat.pow_le_pow_right (by decide) hsize

end PowerOfTwo
