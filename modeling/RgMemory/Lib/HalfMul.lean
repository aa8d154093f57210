import Mathlib.Tactic.Ring

/-!
# Long multiplication with two digits

The product of two numbers of two digits each, from the four products of their digits. The two
middle products are not added as they are: their sum may not fit two digits. Only their low digits
and the high digit of the lowest product are, which gives `mid`; the high digits go straight into
the upper half.

In every base the two halves make up the product (`high_low`), and the upper half has two digits
(`high_lt`), so no sum on the way to it is larger.
-/

namespace HalfMul

/-- The carry into the upper half, with the second digit of the product below it. -/
def mid (B ll lh hl : Nat) : Nat := ll / B + lh % B + hl % B

/-- The lower half of the product. -/
def low (B ll lh hl : Nat) : Nat := mid B ll lh hl % B * B + ll % B

/-- The upper half of the product. -/
def high (B ll lh hl hh : Nat) : Nat := hh + lh / B + hl / B + mid B ll lh hl / B

/-- The halves make up the sum of the four products, each at its place. -/
theorem high_low (B ll lh hl hh : Nat) :
    high B ll lh hl hh * (B * B) + low B ll lh hl = hh * (B * B) + (lh + hl) * B + ll := by
  have hll := Nat.div_add_mod ll B
  have hlh := Nat.div_add_mod lh B
  have hhl := Nat.div_add_mod hl B
  have hmid := Nat.div_add_mod (mid B ll lh hl) B
  have hdef : mid B ll lh hl = ll / B + lh % B + hl % B := rfl
  calc high B ll lh hl hh * (B * B) + low B ll lh hl
      = (hh + lh / B + hl / B) * (B * B) +
          (B * (mid B ll lh hl / B) + mid B ll lh hl % B) * B + ll % B := by
        unfold high low
        ring
    _ = hh * (B * B) + ((B * (lh / B) + lh % B) + (B * (hl / B) + hl % B)) * B +
          (B * (ll / B) + ll % B) := by
        rw [hmid, hdef]
        ring
    _ = hh * (B * B) + (lh + hl) * B + ll := by rw [hll, hlh, hhl]

/-- In terms of the digits, the halves make up the product. -/
theorem high_low_mul (B al ah bl bh : Nat) :
    high B (al * bl) (al * bh) (ah * bl) (ah * bh) * (B * B) + low B (al * bl) (al * bh) (ah * bl) =
      (ah * B + al) * (bh * B + bl) := by
  rw [high_low]
  ring

/-- The upper half has two digits, as the product has four. -/
theorem high_lt {B al ah bl bh : Nat} (hal : al < B) (hah : ah < B) (hbl : bl < B) (hbh : bh < B) :
    high B (al * bl) (al * bh) (ah * bl) (ah * bh) < B * B := by
  have ha : ah * B + al < B * B := by
    have hmul : (ah + 1) * B ≤ B * B := Nat.mul_le_mul_right B hah
    rw [Nat.succ_mul] at hmul
    omega
  have hb : bh * B + bl < B * B := by
    have hmul : (bh + 1) * B ≤ B * B := Nat.mul_le_mul_right B hbh
    rw [Nat.succ_mul] at hmul
    omega
  have hprod := Nat.mul_lt_mul'' ha hb
  rw [← high_low_mul] at hprod
  exact Nat.lt_of_mul_lt_mul_right (Nat.lt_of_le_of_lt (Nat.le_add_right ..) hprod)

end HalfMul
