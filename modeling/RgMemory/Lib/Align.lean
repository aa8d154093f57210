import Mathlib.Tactic.Ring

/-!
# Machine words and power-of-two alignment

Unsigned 64-bit arithmetic on natural numbers: each operation reduces modulo `2 ^ 64` where the
machine does. Masking with the complement of a power of two rounds down, masking the negation of an
address gives its padding; both facts are stated here once, without the word size where it plays no
part.
-/

namespace RgMemory

/-- A natural number as a 64-bit word. -/
def u64 (n : Nat) : Nat := n % 2 ^ 64

/-- The bitwise complement of a 64-bit word. -/
def u64Not (n : Nat) : Nat := 2 ^ 64 - 1 - n

/-- Subtraction of 64-bit words. -/
def u64Sub (a b : Nat) : Nat := (a + 2 ^ 64 - b) % 2 ^ 64

theorem u64_lt (n : Nat) : u64 n < 2 ^ 64 := Nat.mod_lt _ (by decide)

theorem u64_of_lt {n : Nat} (h : n < 2 ^ 64) : u64 n = n := Nat.mod_eq_of_lt h

theorem u64Sub_of_le {a b : Nat} (h : b ≤ a) (ha : a < 2 ^ 64) : u64Sub a b = a - b := by
  unfold u64Sub
  omega

namespace Align

/-- Clearing the low `k` bits of a `w`-bit word rounds it down to a multiple of `2 ^ k`. -/
theorem land_sub_mask {x k w : Nat} (hx : x < 2 ^ w) (hk : k ≤ w) :
    x &&& (2 ^ w - 1 - (2 ^ k - 1)) = x - x % 2 ^ k := by
  have hpos : 0 < 2 ^ k := Nat.two_pow_pos k
  have hsplit : 2 ^ w = 2 ^ k * 2 ^ (w - k) := by rw [← Nat.pow_add, Nat.add_sub_cancel' hk]
  have hmask : 2 ^ w - 1 - (2 ^ k - 1) = 2 ^ k * (2 ^ (w - k) - 1) := by
    rw [Nat.mul_sub, ← hsplit]
    omega
  have hdown : x - x % 2 ^ k = 2 ^ k * (x / 2 ^ k) := by
    have := Nat.div_add_mod x (2 ^ k)
    omega
  rw [hmask, hdown]
  apply Nat.eq_of_testBit_eq
  intro i
  rw [Nat.testBit_and, Nat.testBit_two_pow_mul, Nat.testBit_two_pow_sub_one,
    Nat.testBit_two_pow_mul, Nat.testBit_div_two_pow]
  by_cases hik : k ≤ i
  · by_cases hiw : i < w
    · have hlt : i - k < w - k := by omega
      simp [hik, hlt]
    · have hxi : x.testBit i = false :=
        Nat.testBit_lt_two_pow (Nat.lt_of_lt_of_le hx (Nat.pow_le_pow_right (by decide) (by omega)))
      simp [hxi, hik]
  · simp [hik]

/-- The mask that rounds a 64-bit word down to a multiple of 16. -/
theorem land_not_15 (n : Nat) : u64 n &&& u64Not 15 = u64 n - u64 n % 16 :=
  land_sub_mask (w := 64) (k := 4) (u64_lt n) (by decide)

/-- Rounding down the sum of `v` and `2 ^ k - 1` is the least multiple of `2 ^ k` from `v` on. -/
theorem roundUp_spec {v a : Nat} (ha : 0 < a) :
    a ∣ (v + (a - 1)) - (v + (a - 1)) % a ∧ v ≤ (v + (a - 1)) - (v + (a - 1)) % a ∧
      (v + (a - 1)) - (v + (a - 1)) % a < v + a := by
  have hmod := Nat.mod_lt (v + (a - 1)) ha
  exact ⟨Nat.dvd_sub_mod _, by omega, by omega⟩

/-- The padding that the negated address gives: it is below the alignment and aligns the address. -/
theorem negMod_spec {addr a w : Nat} (ha : 0 < a) (hdvd : a ∣ w) (haddr : addr ≤ w) :
    (w - addr) % a < a ∧ a ∣ addr + (w - addr) % a := by
  refine ⟨Nat.mod_lt _ ha, ?_⟩
  have hsum : addr + (w - addr) % a = w - (w - addr - (w - addr) % a) := by
    have := Nat.mod_le (w - addr) a
    omega
  rw [hsum]
  exact Nat.dvd_sub hdvd (Nat.dvd_sub_mod _)

/-- No multiple of the alignment lies between the address and the padded address. -/
theorem padded_le {addr a pad q : Nat} (hpad : pad < a) (hal : a ∣ addr + pad) (hq : a ∣ q)
    (hle : addr ≤ q) : addr + pad ≤ q := by
  obtain ⟨c, hc⟩ := hal
  obtain ⟨d, rfl⟩ := hq
  rw [hc]
  apply Nat.mul_le_mul_left
  -- a smaller quotient would put `a * d` a whole step below the padded address
  rcases Nat.lt_or_ge d c with hlt | hge
  · have hstep : a * (d + 1) ≤ a * c := Nat.mul_le_mul_left a hlt
    rw [Nat.mul_succ] at hstep
    omega
  · exact hge

end Align

end RgMemory
