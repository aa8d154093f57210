import Mathlib.Data.Nat.Bitwise
import Mathlib.Data.Nat.Prime.Basic
import Mathlib.Data.Nat.ModEq
import Mathlib.Tactic.Linarith
import Mathlib.Tactic.Ring

/-!
# A multiply folded to one word

The product of two words of width `w` has two halves; their exclusive or is the folded product. It
is the core of a family of hash functions, which mix two operands with a seed added to both.

The main law (`foldMix_eq_iff`) says what such a mix can forget. Over all seeds it determines its
two operands up to their order, and it forgets their order: the product is symmetric, and so is the
way the seed enters. The width is even, as every machine word's is.

The proof reads three seeds. Where one factor is zero the halves are equal, so `2 ^ w + 1` divides
the product. Where one factor is all ones the halves are complements, so `2 ^ w - 1` divides it. A
product of two words that both divide is zero.
-/

namespace FoldMul

variable {w : Nat}

/-- The halves of a product of two words, added without carry. -/
def foldMul (x y : BitVec w) : BitVec w :=
  BitVec.ofNat w (x.toNat * y.toNat) ^^^ BitVec.ofNat w (x.toNat * y.toNat / 2 ^ w)

theorem foldMul_comm (x y : BitVec w) : foldMul x y = foldMul y x := by
  rw [foldMul, foldMul, Nat.mul_comm]

/-- The high half is a word. -/
theorem mul_div_lt (x y : BitVec w) : x.toNat * y.toNat / 2 ^ w < 2 ^ w := by
  rw [Nat.div_lt_iff_lt_mul (Nat.two_pow_pos w)]
  exact Nat.mul_lt_mul'' x.isLt y.isLt

/-- The product in terms of its halves. -/
theorem mul_halves (x y : BitVec w) : ∃ lo hi : BitVec w,
    foldMul x y = lo ^^^ hi ∧ x.toNat * y.toNat = hi.toNat * 2 ^ w + lo.toNat := by
  refine ⟨_, _, rfl, ?_⟩
  rw [BitVec.toNat_ofNat, BitVec.toNat_ofNat, Nat.mod_eq_of_lt (mul_div_lt x y)]
  exact (Nat.div_add_mod' _ _).symm

/-! ## Values that say what divides the product -/

theorem dvd_of_foldMul_eq_zero {x y : BitVec w} (h : foldMul x y = 0) :
    2 ^ w + 1 ∣ x.toNat * y.toNat := by
  obtain ⟨lo, hi, hfold, hmul⟩ := mul_halves x y
  have heq : lo = hi := BitVec.xor_eq_zero_iff.mp (hfold.symm.trans h)
  refine ⟨hi.toNat, ?_⟩
  rw [hmul, heq]
  ring

/-- A word and its complement add to all ones. -/
theorem toNat_add_not (x : BitVec w) : x.toNat + (~~~x).toNat = 2 ^ w - 1 := by
  have := x.isLt
  rw [BitVec.toNat_not]
  omega

theorem eq_not_of_xor {x y : BitVec w} (h : x ^^^ y = BitVec.allOnes w) : x = ~~~y := by
  have hx : x = (x ^^^ y) ^^^ y := by rw [BitVec.xor_assoc, BitVec.xor_self, BitVec.xor_zero]
  rw [hx, h, BitVec.allOnes_xor]

theorem dvd_of_foldMul_eq_allOnes {x y : BitVec w} (h : foldMul x y = BitVec.allOnes w) :
    2 ^ w - 1 ∣ x.toNat * y.toNat := by
  obtain ⟨lo, hi, hfold, hmul⟩ := mul_halves x y
  have hlo : lo = ~~~hi := eq_not_of_xor (hfold.symm.trans h)
  have hsum := toNat_add_not hi
  rw [← hlo] at hsum
  have hw := Nat.two_pow_pos w
  obtain ⟨m, hm⟩ : ∃ m, 2 ^ w = m + 1 := ⟨2 ^ w - 1, by omega⟩
  refine ⟨hi.toNat + 1, ?_⟩
  rw [hmul, hm, Nat.add_sub_cancel]
  rw [hm, Nat.add_sub_cancel] at hsum
  calc hi.toNat * (m + 1) + lo.toNat = hi.toNat * m + (hi.toNat + lo.toNat) := by ring
    _ = m * (hi.toNat + 1) := by rw [hsum]; ring

/-- Flipping the lowest bit adds or takes one. -/
theorem toNat_xor_one (x : BitVec w) (hw : 0 < w) :
    (x ^^^ 1#w).toNat = if x.toNat % 2 = 0 then x.toNat + 1 else x.toNat - 1 := by
  have hone : (1#w).toNat = 1 := by
    rw [BitVec.toNat_ofNat, Nat.mod_eq_of_lt (Nat.one_lt_two_pow hw.ne')]
  rw [BitVec.toNat_xor, hone]
  split
  · next heven => exact Nat.xor_one_of_even (Nat.even_iff.mpr heven)
  · next hodd => exact Nat.xor_one_of_odd (Nat.odd_iff.mpr (by omega))

/-- Where the halves are complements but for the lowest bit, the product is next to a multiple. -/
theorem mod_of_foldMul_eq_allOnes_xor_one {x y : BitVec w} (hw : 0 < w)
    (h : foldMul x y = BitVec.allOnes w ^^^ 1#w) :
    2 ^ w - 1 ∣ x.toNat * y.toNat + 1 ∨ ∃ n, x.toNat * y.toNat = (2 ^ w - 1) * n + 1 := by
  obtain ⟨lo, hi, hfold, hmul⟩ := mul_halves x y
  have hlo : lo ^^^ 1#w = ~~~hi := by
    apply eq_not_of_xor
    have hcancel : lo ^^^ 1#w ^^^ hi = lo ^^^ hi ^^^ 1#w := by
      rw [BitVec.xor_assoc, BitVec.xor_comm (1#w), ← BitVec.xor_assoc]
    rw [hcancel, ← hfold, h, BitVec.xor_assoc, BitVec.xor_self, BitVec.xor_zero]
  have hsum := toNat_add_not hi
  rw [← hlo, toNat_xor_one lo hw] at hsum
  have hpos := Nat.two_pow_pos w
  obtain ⟨m, hm⟩ : ∃ m, 2 ^ w = m + 1 := ⟨2 ^ w - 1, by omega⟩
  rw [hm, Nat.add_sub_cancel] at hsum
  rw [hmul, hm, Nat.add_sub_cancel]
  have hexpand : hi.toNat * (m + 1) + lo.toNat = m * hi.toNat + (hi.toNat + lo.toNat) := by ring
  rw [hexpand]
  split at hsum
  · left
    refine ⟨hi.toNat + 1, ?_⟩
    rw [Nat.mul_add_one]
    omega
  · right
    refine ⟨hi.toNat + 1, ?_⟩
    rw [Nat.mul_add_one]
    omega

/-! ## Factors whose product folds to a known value -/

@[simp] theorem foldMul_zero_left (y : BitVec w) : foldMul 0 y = 0 := by
  simp [foldMul]

theorem foldMul_one_left (y : BitVec w) (hw : 0 < w) : foldMul (1#w) y = y := by
  have hone : (1#w).toNat = 1 := by
    rw [BitVec.toNat_ofNat, Nat.mod_eq_of_lt (Nat.one_lt_two_pow hw.ne')]
  rw [foldMul, hone, Nat.one_mul, Nat.div_eq_of_lt y.isLt]
  simp

/-- All ones times a word is the word in the high half, less the word in the low half. -/
theorem foldMul_allOnes_left {y : BitVec w} (hy : y ≠ 0) :
    foldMul (BitVec.allOnes w) y = BitVec.allOnes w := by
  have hpos : 0 < y.toNat := Nat.pos_of_ne_zero fun h => hy (BitVec.eq_of_toNat_eq (by simpa using h))
  have hlt := y.isLt
  have hmul : (BitVec.allOnes w).toNat * y.toNat = (y.toNat - 1) * 2 ^ w + (2 ^ w - y.toNat) := by
    obtain ⟨n, hn⟩ : ∃ n, y.toNat = n + 1 := ⟨y.toNat - 1, by omega⟩
    obtain ⟨m, hm⟩ : ∃ m, 2 ^ w = n + 1 + m := ⟨2 ^ w - (n + 1), by omega⟩
    rw [BitVec.toNat_allOnes, hn, hm, Nat.add_sub_cancel, Nat.add_sub_cancel_left]
    have hpred : n + 1 + m - 1 = n + m := by omega
    rw [hpred]
    ring
  have hlo : 2 ^ w - y.toNat < 2 ^ w := by omega
  have hhi : ((y.toNat - 1) * 2 ^ w + (2 ^ w - y.toNat)) / 2 ^ w = y.toNat - 1 := by
    rw [Nat.mul_comm, Nat.mul_add_div (Nat.two_pow_pos w), Nat.div_eq_of_lt hlo, Nat.add_zero]
  rw [foldMul, hmul, hhi]
  have hnot : BitVec.ofNat w ((y.toNat - 1) * 2 ^ w + (2 ^ w - y.toNat)) =
      ~~~(BitVec.ofNat w (y.toNat - 1)) := by
    apply BitVec.eq_of_toNat_eq
    rw [BitVec.toNat_ofNat, BitVec.toNat_not, BitVec.toNat_ofNat, Nat.mul_comm, Nat.mul_add_mod,
      Nat.mod_eq_of_lt hlo, Nat.mod_eq_of_lt (by omega)]
    omega
  rw [hnot]
  ext i hi
  simp

/-! ## Numbers that both neighbours of the word size divide -/

/-- An even power of two is one above a multiple of three. -/
theorem three_dvd_pred (heven : Even w) : 3 ∣ 2 ^ w - 1 := by
  obtain ⟨k, rfl⟩ := heven
  have hmod : 2 ^ (k + k) ≡ 1 [MOD 3] := by
    rw [← Nat.two_mul, Nat.pow_mul]
    calc (2 ^ 2) ^ k ≡ 1 ^ k [MOD 3] := Nat.ModEq.pow k (by decide)
      _ = 1 := Nat.one_pow k
  exact (Nat.modEq_iff_dvd' (Nat.two_pow_pos _)).mp hmod.symm

/-- The neighbours of the word size share no factor, so a number below their product that both
divide is zero. -/
theorem eq_zero_of_dvd (hw : 0 < w) {n : Nat} (hsucc : 2 ^ w + 1 ∣ n) (hpred : 2 ^ w - 1 ∣ n)
    (hn : n < (2 ^ w + 1) * (2 ^ w - 1)) : n = 0 := by
  obtain ⟨v, rfl⟩ : ∃ v, w = v + 1 := ⟨w - 1, by omega⟩
  have hpow : 2 ^ (v + 1) = 2 * 2 ^ v := by ring
  have hpos := Nat.two_pow_pos v
  have hcop : Nat.Coprime (2 ^ (v + 1) + 1) (2 ^ (v + 1) - 1) := by
    have hgap : 2 ^ (v + 1) + 1 = 2 ^ (v + 1) - 1 + 2 := by omega
    rw [hgap, Nat.coprime_self_add_left, Nat.coprime_two_left]
    exact ⟨2 ^ v - 1, by omega⟩
  exact Nat.eq_zero_of_dvd_of_lt (hcop.mul_dvd_of_dvd_of_dvd hsucc hpred) hn

/-- A square is not one below a multiple of three. -/
theorem not_three_dvd_sq_add_one (n : Nat) : ¬ 3 ∣ n * n + 1 := by
  intro h
  have hmod : (n % 3 * (n % 3) + 1) % 3 = 0 := by
    rw [← Nat.mod_eq_zero_of_dvd h, Nat.add_mod, Nat.mul_mod]
    simp
  obtain hr | hr | hr : n % 3 = 0 ∨ n % 3 = 1 ∨ n % 3 = 2 := by omega
  all_goals rw [hr] at hmod; exact absurd hmod (by decide)

/-! ## What keeps a folded product -/

section

variable {d e : BitVec w}

theorem xor_cancel (x y : BitVec w) : x ^^^ y ^^^ y = x := by
  rw [BitVec.xor_assoc, BitVec.xor_self, BitVec.xor_zero]

/-- Two factors at distance `d`, the first of them zero. -/
theorem dvd_of_shift (h : ∀ u, foldMul u (u ^^^ d) = foldMul (u ^^^ e) (u ^^^ e ^^^ d)) :
    2 ^ w + 1 ∣ e.toNat * (e ^^^ d).toNat := by
  apply dvd_of_foldMul_eq_zero
  have hat := h 0
  rw [foldMul_zero_left, show (0 : BitVec w) ^^^ e = e from BitVec.zero_xor] at hat
  exact hat.symm

/-- A distance other than all ones: the first factor all ones. -/
theorem eq_of_shift (hw : 0 < w) (hd : d ≠ BitVec.allOnes w)
    (h : ∀ u, foldMul u (u ^^^ d) = foldMul (u ^^^ e) (u ^^^ e ^^^ d)) : e = 0 ∨ e = d := by
  have hne : BitVec.allOnes w ^^^ d ≠ 0 := fun h0 => hd (BitVec.xor_eq_zero_iff.mp h0).symm
  have hones : foldMul (~~~e) (~~~(e ^^^ d)) = BitVec.allOnes w := by
    have hat := h (BitVec.allOnes w)
    rw [foldMul_allOnes_left hne, BitVec.xor_assoc, BitVec.allOnes_xor, BitVec.allOnes_xor] at hat
    exact hat.symm
  have hdvd := dvd_of_foldMul_eq_allOnes hones
  have hsum1 := toNat_add_not e
  have hsum2 := toNat_add_not (e ^^^ d)
  have hpred : 2 ^ w - 1 ∣ e.toNat * (e ^^^ d).toNat := by
    -- the product of the complements differs by multiples
    have hsplit : (~~~e).toNat * (~~~(e ^^^ d)).toNat + (e.toNat + (~~~e).toNat) * (e ^^^ d).toNat =
        e.toNat * (e ^^^ d).toNat + (~~~e).toNat * ((e ^^^ d).toNat + (~~~(e ^^^ d)).toNat) := by
      ring
    rw [hsum1, hsum2] at hsplit
    have hleft := Nat.dvd_add hdvd (Nat.dvd_mul_right (2 ^ w - 1) (e ^^^ d).toNat)
    rw [hsplit] at hleft
    exact (Nat.dvd_add_left (Nat.dvd_mul_left _ _)).mp hleft
  have hlt1 := e.isLt
  have hlt2 := (e ^^^ d).isLt
  have hsmall : e.toNat * (e ^^^ d).toNat < (2 ^ w + 1) * (2 ^ w - 1) := by
    have hpos : 1 < 2 ^ w := Nat.one_lt_two_pow hw.ne'
    calc e.toNat * (e ^^^ d).toNat ≤ (2 ^ w - 1) * (2 ^ w - 1) :=
          Nat.mul_le_mul (by omega) (by omega)
      _ < (2 ^ w + 1) * (2 ^ w - 1) := Nat.mul_lt_mul_of_pos_right (by omega) (by omega)
  rcases Nat.mul_eq_zero.mp (eq_zero_of_dvd hw (dvd_of_shift h) hpred hsmall) with h0 | h0
  · exact .inl (BitVec.eq_of_toNat_eq (by simpa using h0))
  · right
    have hzero : e ^^^ d = 0 := BitVec.eq_of_toNat_eq (by simpa using h0)
    exact BitVec.xor_eq_zero_iff.mp hzero

/-- Distance all ones and an even shift: the first factor zero, then one. -/
theorem eq_zero_of_shift_even (heven : Even w) (hw : 0 < w) (he : e.toNat % 2 = 0)
    (h : ∀ u, foldMul u (u ^^^ BitVec.allOnes w) =
      foldMul (u ^^^ e) (u ^^^ e ^^^ BitVec.allOnes w)) : e = 0 := by
  obtain ⟨v, hv⟩ : ∃ v, w = v + 1 := ⟨w - 1, by omega⟩
  obtain ⟨m, hm⟩ : ∃ m, 2 ^ w = m + 1 := ⟨2 ^ w - 1, by have := Nat.two_pow_pos w; omega⟩
  have hodd : m % 2 = 1 := by
    have hpow : 2 ^ w = 2 * 2 ^ v := by rw [hv]; ring
    omega
  have hpred : 2 ^ w - 1 = m := by omega
  -- with the first factor zero, the upper neighbour divides `e * (e + 2)`
  have hsucc : 2 ^ w + 1 ∣ e.toNat * (e.toNat + 2) := by
    have hdvd := dvd_of_shift h
    rw [BitVec.xor_allOnes] at hdvd
    have hsum := toNat_add_not e
    have hsplit : e.toNat * (~~~e).toNat + e.toNat * (e.toNat + 2) = (2 ^ w + 1) * e.toNat := by
      calc e.toNat * (~~~e).toNat + e.toNat * (e.toNat + 2)
          = e.toNat * (e.toNat + (~~~e).toNat + 2) := by ring
        _ = (2 ^ w + 1) * e.toNat := by rw [hsum, hpred, hm]; ring
    refine (Nat.dvd_add_right hdvd).mp ?_
    rw [hsplit]
    exact Nat.dvd_mul_right _ _
  -- with the first factor one, so does the lower neighbour
  have hdvd : 2 ^ w - 1 ∣ e.toNat * (e.toNat + 2) := by
    have hat := h (1#w)
    rw [foldMul_one_left _ hw, BitVec.xor_comm (1#w) e, BitVec.xor_comm (1#w),
      BitVec.xor_allOnes] at hat
    have ht : (e ^^^ 1#w).toNat = e.toNat + 1 := by rw [toNat_xor_one e hw, if_pos he]
    have hsum := toNat_add_not (e ^^^ 1#w)
    rw [ht, hpred] at hsum
    have hmod := mod_of_foldMul_eq_allOnes_xor_one hw hat.symm
    rw [ht, hpred] at hmod
    rw [hpred]
    have hexpand : (e.toNat + 1) * (~~~(e ^^^ 1#w)).toNat + (e.toNat + 1) * (e.toNat + 1) =
        m * (e.toNat + 1) := by
      rw [← Nat.mul_add, Nat.add_comm _ (e.toNat + 1), hsum, Nat.mul_comm]
    rcases hmod with hnext | ⟨n, hn⟩
    · have hsplit : (e.toNat + 1) * (~~~(e ^^^ 1#w)).toNat + 1 + e.toNat * (e.toNat + 2) =
          m * (e.toNat + 1) := by
        rw [← hexpand]
        ring
      refine (Nat.dvd_add_right hnext).mp ?_
      rw [hsplit]
      exact Nat.dvd_mul_right _ _
    · -- otherwise three divides a square and one
      exfalso
      rw [hn] at hexpand
      have hmul : m ∣ (e.toNat + 1) * (e.toNat + 1) + 1 := by
        refine (Nat.dvd_add_right (Nat.dvd_mul_right m n)).mp ?_
        have hassoc : m * n + ((e.toNat + 1) * (e.toNat + 1) + 1) = m * (e.toNat + 1) := by
          rw [← hexpand]
          ring
        rw [hassoc]
        exact Nat.dvd_mul_right _ _
      have hthree := three_dvd_pred heven
      rw [hpred] at hthree
      exact not_three_dvd_sq_add_one _ (hthree.trans hmul)
  have hlt : e.toNat + 1 ≤ m := by
    have := e.isLt
    omega
  have hsmall : e.toNat * (e.toNat + 2) < (2 ^ w + 1) * (2 ^ w - 1) := by
    rw [hpred, hm]
    calc e.toNat * (e.toNat + 2) ≤ e.toNat * (m + 1 + 1) := Nat.mul_le_mul_left _ (by omega)
      _ < m * (m + 1 + 1) := Nat.mul_lt_mul_of_pos_right (by omega) (by omega)
      _ = (m + 1 + 1) * m := Nat.mul_comm _ _
  rcases Nat.mul_eq_zero.mp (eq_zero_of_dvd hw hsucc hdvd hsmall) with h0 | h0
  · exact BitVec.eq_of_toNat_eq (by simpa using h0)
  · exact absurd h0 (Nat.succ_ne_zero _)

/-- Only the shifts zero and `d` keep every folded product at distance `d`. -/
theorem shift_eq (heven : Even w) (hw : 0 < w)
    (h : ∀ u, foldMul u (u ^^^ d) = foldMul (u ^^^ e) (u ^^^ e ^^^ d)) : e = 0 ∨ e = d := by
  by_cases hd : d = BitVec.allOnes w
  · subst hd
    by_cases he : e.toNat % 2 = 0
    · exact .inl (eq_zero_of_shift_even heven hw he h)
    · -- the complement of an odd shift is an even one that keeps them too
      right
      have hnot : (e ^^^ BitVec.allOnes w).toNat % 2 = 0 := by
        have hsum := toNat_add_not e
        obtain ⟨v, rfl⟩ : ∃ v, w = v + 1 := ⟨w - 1, by omega⟩
        have hpow : 2 ^ (v + 1) = 2 * 2 ^ v := by ring
        have hpos := Nat.two_pow_pos v
        rw [BitVec.xor_allOnes]
        omega
      refine BitVec.xor_eq_zero_iff.mp (eq_zero_of_shift_even heven hw hnot fun u => ?_)
      rw [h u, ← BitVec.xor_assoc, xor_cancel, foldMul_comm]
  · exact eq_of_shift hw hd h

end

/-! ## The seeded mix -/

/-- Two operands with a seed added to both, folded and added to the result. -/
def foldMix (p q s : BitVec w) : BitVec w := (p ^^^ s) ^^^ (q ^^^ s) ^^^ foldMul (p ^^^ s) (q ^^^ s)

theorem foldMix_comm (p q s : BitVec w) : foldMix p q s = foldMix q p s := by
  rw [foldMix, foldMix, BitVec.xor_comm (p ^^^ s), foldMul_comm]

/-- Over the seeds the first factor takes every value, and the other stays at its distance. -/
theorem foldMix_shift (p q u : BitVec w) :
    foldMix p q (u ^^^ p) = (p ^^^ q) ^^^ foldMul u (u ^^^ (p ^^^ q)) := by
  have hfirst : p ^^^ (u ^^^ p) = u := by rw [BitVec.xor_comm, xor_cancel]
  have hsecond : q ^^^ (u ^^^ p) = u ^^^ (p ^^^ q) := by
    rw [BitVec.xor_comm, BitVec.xor_assoc]
  have hdist : u ^^^ (u ^^^ (p ^^^ q)) = p ^^^ q := by
    rw [← BitVec.xor_assoc, BitVec.xor_self, BitVec.zero_xor]
  rw [foldMix, hfirst, hsecond, hdist]

/-- Mixes that agree are at one distance, or the second is at distance zero: what keeps the second
keeps the first. -/
theorem dist_cases (heven : Even w) (hw : 0 < w) {d d' e : BitVec w}
    (h : ∀ u, d ^^^ foldMul u (u ^^^ d) = d' ^^^ foldMul (u ^^^ e) (u ^^^ e ^^^ d')) :
    d' = 0 ∨ d' = d := by
  refine shift_eq heven hw fun u => (BitVec.xor_right_inj d).mp ?_
  have hswap : u ^^^ d' ^^^ e = u ^^^ e ^^^ d' := by
    rw [BitVec.xor_assoc, BitVec.xor_comm d', ← BitVec.xor_assoc]
  rw [h u, h (u ^^^ d'), hswap, xor_cancel, foldMul_comm]

/-- Over all seeds the mix determines its operands up to their order, and no more. -/
theorem foldMix_eq_iff (heven : Even w) (hw : 0 < w) {p q p' q' : BitVec w} :
    (∀ s, foldMix p q s = foldMix p' q' s) ↔ p = p' ∧ q = q' ∨ p = q' ∧ q = p' := by
  constructor
  · intro h
    -- in terms of the first factor of one mix and the shift to the other's
    have hshift : ∀ u, (p ^^^ q) ^^^ foldMul u (u ^^^ (p ^^^ q)) =
        (p' ^^^ q') ^^^ foldMul (u ^^^ (p ^^^ p')) (u ^^^ (p ^^^ p') ^^^ (p' ^^^ q')) := by
      intro u
      rw [← foldMix_shift, h, ← foldMix_shift, BitVec.xor_assoc u, xor_cancel]
    have hdist : p ^^^ q = p' ^^^ q' := by
      have hback : ∀ u, (p' ^^^ q') ^^^ foldMul u (u ^^^ (p' ^^^ q')) =
          (p ^^^ q) ^^^ foldMul (u ^^^ (p ^^^ p')) (u ^^^ (p ^^^ p') ^^^ (p ^^^ q)) := by
        intro u
        rw [hshift, xor_cancel]
      rcases dist_cases heven hw hshift with h0 | hd
      · rcases dist_cases heven hw hback with h0' | hd'
        · rw [h0, h0']
        · exact hd'
      · exact hd.symm
    rw [← hdist] at hshift
    rcases shift_eq heven hw fun u => (BitVec.xor_right_inj _).mp (hshift u) with h0 | hd
    · obtain rfl := BitVec.xor_eq_zero_iff.mp h0
      exact .inl ⟨rfl, (BitVec.xor_right_inj _).mp hdist⟩
    · obtain rfl := (BitVec.xor_right_inj _).mp hd
      rw [BitVec.xor_comm p] at hdist
      exact .inr ⟨(BitVec.xor_right_inj _).mp hdist, rfl⟩
  · rintro (⟨rfl, rfl⟩ | ⟨rfl, rfl⟩) s
    · rfl
    · exact foldMix_comm p q s

end FoldMul
