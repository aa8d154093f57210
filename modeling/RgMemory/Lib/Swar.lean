import Mathlib.Data.Nat.Count
import Mathlib.Data.Nat.ModEq
import Mathlib.Tactic.Ring

/-!
# Fields of a word, all at once

A number is a row of fields of equal width, and one operation on the number is that operation on
every field, as long as no field spills into the next. Neighbouring fields are added by two masks
and a shift (`pairSum`), which leaves half as many fields of twice the width and the same total
(`fieldSum_pairSum`). A product with a row of ones leaves the running totals of the fields, the last
of which is the sum of all (`mul_ones`).

Two shorter forms of the pairwise sum are equal to it: the one for single bits subtracts the upper
bits (`sub_upper`), the one for small fields masks once, after the sum (`and_mask_add`).
-/

namespace Swar

/-! ## Fields -/

/-- The sum of the first `n` fields in base `B`. -/
def fieldSum (B : Nat) : Nat → Nat → Nat
  | 0, _ => 0
  | n + 1, v => v % B + fieldSum B n (v / B)

/-- No field in base `B` is larger than `k`. -/
def FieldsLe (B k v : Nat) : Prop := ∀ i, v / B ^ i % B ≤ k

theorem FieldsLe.field {B k v : Nat} (h : FieldsLe B k v) : v % B ≤ k := by
  have h0 := h 0
  rwa [Nat.pow_zero, Nat.div_one] at h0

theorem FieldsLe.rest {B k v : Nat} (h : FieldsLe B k v) : FieldsLe B k (v / B) := by
  intro i
  have hi := h (i + 1)
  rwa [Nat.pow_succ', ← Nat.div_div_eq_div_mul] at hi

theorem FieldsLe.cons {B k x v : Nat} (hx : x < B) (hle : x ≤ k) (h : FieldsLe B k v) :
    FieldsLe B k (x + B * v) := by
  intro i
  cases i with
  | zero =>
    rw [Nat.pow_zero, Nat.div_one, Nat.add_mul_mod_self_left, Nat.mod_eq_of_lt hx]
    exact hle
  | succ i =>
    rw [Nat.pow_succ', ← Nat.div_div_eq_div_mul, Nat.add_mul_div_left _ _ (by omega),
      Nat.div_eq_of_lt hx, Nat.zero_add]
    exact h i

/-- Bits are at most 1. -/
theorem fieldsLe_bits (v : Nat) : FieldsLe 2 1 v := fun _ => Nat.le_of_lt_succ (Nat.mod_lt _ (by decide))

/-- The fields of one bit sum up to the number of set bits. -/
theorem fieldSum_bits (n v : Nat) : fieldSum 2 n v = Nat.count (fun i => v.testBit i = true) n := by
  induction n generalizing v with
  | zero => rfl
  | succ n ih =>
    rw [fieldSum, ih, Nat.count_succ', Nat.add_comm]
    congr 1
    · simp only [Nat.testBit_succ]
    · rw [Nat.testBit_zero]
      rcases Nat.mod_two_eq_zero_or_one v with h | h <;> simp [h]

/-! ## Pairwise sums -/

section

variable {w : Nat}

/-- The lower one of each of `n` pairs of fields of `w` bits. -/
def mask (w : Nat) : Nat → Nat
  | 0 => 0
  | n + 1 => (2 ^ w - 1) + 2 ^ (2 * w) * mask w n

/-- In each of `n` pairs of fields, the sum of both. -/
def pairSum (w n v : Nat) : Nat := (v &&& mask w n) + (v / 2 ^ w &&& mask w n)

theorem two_pow_double (w : Nat) : 2 ^ (2 * w) = 2 ^ w * 2 ^ w := by
  rw [Nat.two_mul, Nat.pow_add]

/-- The first pair and the others, under a mask. -/
theorem and_mask_succ (w n v : Nat) :
    v &&& mask w (n + 1) = v % 2 ^ w + 2 ^ (2 * w) * (v / 2 ^ (2 * w) &&& mask w n) := by
  have hpos := Nat.two_pow_pos w
  have hlt : 2 ^ w - 1 < 2 ^ (2 * w) := by
    have hle : 2 ^ w * 1 ≤ 2 ^ w * 2 ^ w := Nat.mul_le_mul_left _ hpos
    rw [two_pow_double]
    omega
  have hmod : mask w (n + 1) % 2 ^ (2 * w) = 2 ^ w - 1 := by
    rw [mask, Nat.add_mul_mod_self_left, Nat.mod_eq_of_lt hlt]
  have hdiv : mask w (n + 1) / 2 ^ (2 * w) = mask w n := by
    rw [mask, Nat.add_mul_div_left _ _ (Nat.two_pow_pos _), Nat.div_eq_of_lt hlt, Nat.zero_add]
  have hdvd : 2 ^ w ∣ 2 ^ (2 * w) := two_pow_double w ▸ Nat.dvd_mul_right ..
  rw [← Nat.mod_add_div (v &&& mask w (n + 1)) (2 ^ (2 * w)), Nat.and_mod_two_pow,
    Nat.and_div_two_pow, hmod, hdiv, Nat.and_two_pow_sub_one_eq_mod, Nat.mod_mod_of_dvd _ hdvd]

/-- A shift by one field commutes with one by a pair. -/
theorem div_div_comm (w v : Nat) : v / 2 ^ w / 2 ^ (2 * w) = v / 2 ^ (2 * w) / 2 ^ w := by
  rw [Nat.div_div_eq_div_mul, Nat.div_div_eq_div_mul, Nat.mul_comm]

theorem pairSum_succ (w n v : Nat) :
    pairSum w (n + 1) v =
      (v % 2 ^ w + v / 2 ^ w % 2 ^ w) + 2 ^ (2 * w) * pairSum w n (v / 2 ^ (2 * w)) := by
  unfold pairSum
  rw [and_mask_succ, and_mask_succ, div_div_comm]
  ring

/-- The sum of a pair fits the two fields. -/
theorem pair_lt (hw : 0 < w) (v : Nat) : v % 2 ^ w + v / 2 ^ w % 2 ^ w < 2 ^ (2 * w) := by
  have hpos := Nat.two_pow_pos w
  have hlow := Nat.mod_lt v hpos
  have hhigh := Nat.mod_lt (v / 2 ^ w) hpos
  have htwo : 2 ^ 1 ≤ 2 ^ w := Nat.pow_le_pow_right (by decide) hw
  have hmul : 2 * 2 ^ w ≤ 2 ^ w * 2 ^ w := Nat.mul_le_mul_right _ htwo
  rw [two_pow_double]
  omega

/-- Adding neighbours keeps the total. -/
theorem fieldSum_pairSum (hw : 0 < w) (n v : Nat) :
    fieldSum (2 ^ (2 * w)) n (pairSum w n v) = fieldSum (2 ^ w) (2 * n) v := by
  induction n generalizing v with
  | zero => rfl
  | succ n ih =>
    have hlt := pair_lt hw v
    have hrest : v / 2 ^ w / 2 ^ w = v / 2 ^ (2 * w) := by
      rw [Nat.div_div_eq_div_mul, two_pow_double]
    rw [pairSum_succ, fieldSum, Nat.add_mul_mod_self_left, Nat.mod_eq_of_lt hlt,
      Nat.add_mul_div_left _ _ (Nat.two_pow_pos _), Nat.div_eq_of_lt hlt, Nat.zero_add, ih,
      Nat.mul_succ, fieldSum, fieldSum, hrest, Nat.add_assoc]

/-- And makes the fields twice as large at most. -/
theorem FieldsLe.pairSum (hw : 0 < w) {k v : Nat} (h : FieldsLe (2 ^ w) k v) (n : Nat) :
    FieldsLe (2 ^ (2 * w)) (2 * k) (pairSum w n v) := by
  induction n generalizing v with
  | zero =>
    intro i
    simp [Swar.pairSum, mask]
  | succ n ih =>
    have hlow := h.field
    have hhigh := h.rest.field
    have hrest : FieldsLe (2 ^ w) k (v / 2 ^ (2 * w)) := by
      rw [two_pow_double, ← Nat.div_div_eq_div_mul]
      exact h.rest.rest
    rw [pairSum_succ]
    exact (ih hrest).cons (pair_lt hw v) (by omega)

/-- A sum of pairs fits the pairs. -/
theorem pairSum_lt (hw : 0 < w) (n v : Nat) : pairSum w n v < 2 ^ (2 * w * n) := by
  induction n generalizing v with
  | zero => simp [pairSum, mask]
  | succ n ih =>
    have hlt := pair_lt hw v
    have hmul := Nat.mul_le_mul_left (2 ^ (2 * w)) (ih (v / 2 ^ (2 * w)))
    rw [Nat.succ_eq_add_one, Nat.mul_add] at hmul
    rw [pairSum_succ, Nat.mul_succ, Nat.pow_add, Nat.mul_comm (2 ^ (2 * w * n))]
    omega

/-- The pairs that the masks take apart. -/
theorem and_mask_split (w n : Nat) {v : Nat} (hv : v < 2 ^ (2 * w * n)) :
    (v &&& mask w n) + 2 ^ w * (v / 2 ^ w &&& mask w n) = v := by
  induction n generalizing v with
  | zero =>
    have hzero : v = 0 := by simpa using hv
    simp [hzero]
  | succ n ih =>
    have hrest : v / 2 ^ (2 * w) < 2 ^ (2 * w * n) := by
      rw [Nat.div_lt_iff_lt_mul (Nat.two_pow_pos _), ← Nat.pow_add]
      exact hv
    have hpair : v % 2 ^ w + 2 ^ w * (v / 2 ^ w % 2 ^ w) = v % 2 ^ (2 * w) := by
      rw [two_pow_double, Nat.mod_mul]
    rw [and_mask_succ, and_mask_succ, div_div_comm]
    calc _ = (v % 2 ^ w + 2 ^ w * (v / 2 ^ w % 2 ^ w)) + 2 ^ (2 * w) *
          ((v / 2 ^ (2 * w) &&& mask w n) + 2 ^ w * (v / 2 ^ (2 * w) / 2 ^ w &&& mask w n)) := by
          ring
      _ = v := by rw [ih hrest, hpair, Nat.mod_add_div]

/-- For single bits: taking the upper bit of each pair away once leaves the sum. -/
theorem sub_upper (n : Nat) {v : Nat} (hv : v < 2 ^ (2 * n)) :
    v - (v / 2 &&& mask 1 n) = pairSum 1 n v := by
  have hsplit := and_mask_split 1 n hv
  rw [Nat.pow_one] at hsplit
  rw [pairSum, Nat.pow_one]
  omega

/-- For fields whose sums fit the single field: one mask after the sum leaves it too. -/
theorem and_mask_add {k : Nat} (hk : 2 * k < 2 ^ w) (n : Nat) {v : Nat}
    (h : FieldsLe (2 ^ w) k v) : (v + v / 2 ^ w) &&& mask w n = pairSum w n v := by
  induction n generalizing v with
  | zero => simp [pairSum, mask]
  | succ n ih =>
    have hpos := Nat.two_pow_pos w
    have hpair : v / 2 ^ w / 2 ^ w = v / 2 ^ (2 * w) := by
      rw [two_pow_double, Nat.div_div_eq_div_mul]
    have hrest : FieldsLe (2 ^ w) k (v / 2 ^ (2 * w)) := hpair ▸ h.rest.rest
    -- the fields of `v` are `a`, `b`, and those of `u`, whose lowest is `c`
    obtain ⟨a, ha⟩ : ∃ a, a = v % 2 ^ w := ⟨_, rfl⟩
    obtain ⟨b, hb⟩ : ∃ b, b = v / 2 ^ w % 2 ^ w := ⟨_, rfl⟩
    obtain ⟨u, hu⟩ : ∃ u, u = v / 2 ^ (2 * w) := ⟨_, rfl⟩
    have hale : a ≤ k := ha ▸ h.field
    have hble : b ≤ k := hb ▸ h.rest.field
    have hcle : u % 2 ^ w ≤ k := hu ▸ hrest.field
    have hv1 : v / 2 ^ w = b + 2 ^ w * u := by rw [hb, hu, ← hpair, Nat.mod_add_div]
    have hv : v = a + 2 ^ w * (b + 2 ^ w * u) := by rw [ha, ← hv1, Nat.mod_add_div]
    have hsum : v + v / 2 ^ w =
        ((a + b) + 2 ^ w * (b + u % 2 ^ w)) + 2 ^ (2 * w) * (u + u / 2 ^ w) := by
      have hdiv := Nat.mod_add_div u (2 ^ w)
      calc v + v / 2 ^ w = a + 2 ^ w * (b + 2 ^ w * u) + (b + 2 ^ w * u) := by rw [hv1, ← hv]
        _ = (a + b) + 2 ^ w * b + 2 ^ w * 2 ^ w * u + 2 ^ w * (u % 2 ^ w + 2 ^ w * (u / 2 ^ w)) := by
          rw [hdiv]
          ring
        _ = _ := by
          rw [two_pow_double]
          ring
    have hlow : (a + b) + 2 ^ w * (b + u % 2 ^ w) < 2 ^ (2 * w) := by
      have hmul : 2 ^ w * (b + u % 2 ^ w + 1) ≤ 2 ^ w * 2 ^ w := Nat.mul_le_mul_left _ (by omega)
      rw [Nat.mul_succ] at hmul
      rw [two_pow_double]
      omega
    have hmod : (v + v / 2 ^ w) % 2 ^ w = a + b := by
      rw [hsum, two_pow_double, Nat.mul_assoc, Nat.add_mul_mod_self_left, Nat.add_mul_mod_self_left,
        Nat.mod_eq_of_lt (by omega)]
    have hdiv : (v + v / 2 ^ w) / 2 ^ (2 * w) = u + u / 2 ^ w := by
      rw [hsum, Nat.add_mul_div_left _ _ (Nat.two_pow_pos _), Nat.div_eq_of_lt hlow, Nat.zero_add]
    rw [and_mask_succ, hmod, hdiv, pairSum_succ, ← ha, ← hb, ← hu, ih (hu ▸ hrest)]

end

/-! ## Running totals -/

section

variable {B : Nat}

/-- A row of `n` ones. -/
def ones (B : Nat) : Nat → Nat
  | 0 => 0
  | n + 1 => 1 + B * ones B n

/-- The running totals of the first `n` fields, on top of `acc`. -/
def totals (B : Nat) : Nat → Nat → Nat → Nat
  | 0, _, _ => 0
  | n + 1, acc, v => (acc + v % B) + B * totals B n (acc + v % B) (v / B)

theorem ones_succ (B n : Nat) : ones B (n + 1) = ones B n + B ^ n := by
  induction n with
  | zero => simp [ones]
  | succ n ih =>
    have hone (k : Nat) : ones B (k + 1) = 1 + B * ones B k := rfl
    calc ones B (n + 2) = 1 + B * (ones B n + B ^ n) := by rw [hone, ih]
      _ = ones B (n + 1) + B ^ (n + 1) := by
        rw [hone]
        ring

/-- A product with a row of ones is the row of running totals, up to what lies above it. -/
theorem totals_modEq (n acc v : Nat) : totals B n acc v ≡ (acc + v) * ones B n [MOD B ^ n] := by
  induction n generalizing acc v with
  | zero => exact Nat.modEq_one
  | succ n ih =>
    obtain ⟨r, hr⟩ : ∃ r, r = v % B := ⟨_, rfl⟩
    obtain ⟨q, hq⟩ : ∃ q, q = v / B := ⟨_, rfl⟩
    have hv : v = r + B * q := by rw [hr, hq, Nat.mod_add_div]
    have hstep := (ih (acc + r) q).mul_left' B
    rw [← Nat.pow_succ'] at hstep
    -- the row of ones is one longer than the row that is left, and its last one falls out
    have hexact : (acc + v) * ones B (n + 1) =
        (acc + r) + B * ((acc + r + q) * ones B n) + q * B ^ (n + 1) := by
      have hone : ones B (n + 1) = 1 + B * ones B n := rfl
      have hlong : B * ones B (n + 1) = B * ones B n + B ^ (n + 1) := by
        rw [ones_succ, Nat.pow_succ']
        ring
      calc (acc + v) * ones B (n + 1)
          = (acc + r) * ones B (n + 1) + q * (B * ones B (n + 1)) := by
            rw [hv]
            ring
        _ = (acc + r) * (1 + B * ones B n) + q * (B * ones B n + B ^ (n + 1)) := by
            rw [hlong, hone]
        _ = _ := by ring
    have hdrop : (acc + v) * ones B (n + 1) ≡
        (acc + r) + B * ((acc + r + q) * ones B n) [MOD B ^ (n + 1)] := by
      rw [hexact]
      exact Nat.add_mul_modulus_modEq_iff.mpr rfl
    rw [totals, ← hr, ← hq]
    exact (hstep.add_left _).trans hdrop.symm

theorem totals_lt {n acc v : Nat} (h : acc + fieldSum B n v < B) : totals B n acc v < B ^ n := by
  induction n generalizing acc v with
  | zero => exact Nat.zero_lt_one
  | succ n ih =>
    rw [fieldSum, ← Nat.add_assoc] at h
    have hmul := Nat.mul_le_mul_left B (ih h)
    rw [Nat.mul_succ] at hmul
    rw [totals, Nat.pow_succ']
    omega

/-- The topmost total is that of all fields. -/
theorem totals_top {n acc v : Nat} (h : acc + fieldSum B (n + 1) v < B) :
    totals B (n + 1) acc v / B ^ n = acc + fieldSum B (n + 1) v := by
  induction n generalizing acc v with
  | zero =>
    rw [Nat.pow_zero, Nat.div_one]
    rfl
  | succ n ih =>
    have hfields : fieldSum B (n + 2) v = v % B + fieldSum B (n + 1) (v / B) := rfl
    rw [hfields, ← Nat.add_assoc] at h ⊢
    have hlt : acc + v % B < B := by omega
    rw [totals, Nat.pow_succ', ← Nat.div_div_eq_div_mul, Nat.add_mul_div_left _ _ (by omega),
      Nat.div_eq_of_lt hlt, Nat.zero_add, ih h]

/-- **One product sums all fields**, into the topmost one, when the sum fits it. -/
theorem mul_ones {n v : Nat} (h : fieldSum B (n + 1) v < B) :
    v * ones B (n + 1) % B ^ (n + 1) / B ^ n = fieldSum B (n + 1) v := by
  have hsum : 0 + fieldSum B (n + 1) v < B := by rwa [Nat.zero_add]
  have hmod := totals_modEq (B := B) (n + 1) 0 v
  rw [Nat.zero_add] at hmod
  rw [← hmod, Nat.mod_eq_of_lt (totals_lt hsum), totals_top hsum, Nat.zero_add]

end

end Swar
