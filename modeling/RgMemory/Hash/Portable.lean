import RgMemory.Hash.Func
import RgMemory.Lib.HalfMul

/-!
# The multiply without 128-bit words

Where the compiler has no 128-bit product, `rgm_hash_wymum128` multiplies the 32-bit halves of its
operands and adds up the four products in 64-bit words. The words of that branch are the numbers of
`Lib.HalfMul` in base `2 ^ 32`, each of which fits, so no addition wraps, and both branches are one
function (`schoolbook_exact`). Every digest is computed through it, and with it the bytes of every
saved map.
-/

namespace RgMemory

open HalfMul

/-- The products of the 32-bit halves of two words. -/
structure PartialProducts where
  ll : BitVec 64
  lh : BitVec 64
  hl : BitVec 64
  hh : BitVec 64

def rgmHashPartialProducts (a b : BitVec 64) : PartialProducts :=
  let al := (a.setWidth 32).setWidth 64
  let ah := a >>> 32
  let bl := (b.setWidth 32).setWidth 64
  let bh := b >>> 32
  { ll := al * bl
    lh := al * bh
    hl := ah * bl
    hh := ah * bh }

namespace PartialProducts

/-- The middle sum, which carries into the high word. -/
def mid (p : PartialProducts) : BitVec 64 :=
  p.ll >>> 32 + (p.lh.setWidth 32).setWidth 64 + (p.hl.setWidth 32).setWidth 64

def lo (p : PartialProducts) : BitVec 64 := p.mid <<< 32 ||| (p.ll.setWidth 32).setWidth 64

def hi (p : PartialProducts) : BitVec 64 := p.hh + p.lh >>> 32 + p.hl >>> 32 + p.mid >>> 32

end PartialProducts

/-- The branch of `rgm_hash_wymum128` for targets without a 128-bit product. -/
def rgmHashWymum128Schoolbook (a b : BitVec 64) : BitVec 64 × BitVec 64 :=
  let p := rgmHashPartialProducts a b
  (p.lo, p.hi)

/-! ## Halves of words -/

theorem toNat_high (a : BitVec 64) : (a >>> 32).toNat = a.toNat / 2 ^ 32 := by
  rw [BitVec.toNat_ushiftRight, Nat.shiftRight_eq_div_pow]

theorem toNat_low (a : BitVec 64) : ((a.setWidth 32).setWidth 64).toNat = a.toNat % 2 ^ 32 := by
  rw [BitVec.toNat_setWidth_of_le (by decide), BitVec.toNat_setWidth]

/-- The product of two halves fits a word. -/
theorem toNat_mul_halves {x y : BitVec 64} (hx : x.toNat < 2 ^ 32) (hy : y.toNat < 2 ^ 32) :
    (x * y).toNat = x.toNat * y.toNat := by
  rw [BitVec.toNat_mul]
  apply Nat.mod_eq_of_lt
  calc x.toNat * y.toNat < 2 ^ 32 * 2 ^ 32 := Nat.mul_lt_mul'' hx hy
    _ = 2 ^ 64 := by rw [← Nat.pow_add]

/-- A word below `2 ^ 32` put beside another. -/
theorem toNat_shiftLeft_or {x y : BitVec 64} (hy : y.toNat < 2 ^ 32) :
    (x <<< 32 ||| y).toNat = x.toNat % 2 ^ 32 * 2 ^ 32 + y.toNat := by
  have hx : (x <<< 32).toNat = 2 ^ 32 * (x.toNat % 2 ^ 32) := by
    rw [BitVec.toNat_shiftLeft, Nat.shiftLeft_eq]
    omega
  rw [BitVec.toNat_or, hx, ← Nat.two_pow_add_eq_or_of_lt hy, Nat.mul_comm]

/-! ## The words of the branch -/

/-- Each partial product is exact. -/
theorem partialProducts_exact (a b : BitVec 64) :
    let p := rgmHashPartialProducts a b
    p.ll.toNat = (a.toNat % 2 ^ 32) * (b.toNat % 2 ^ 32) ∧
      p.lh.toNat = (a.toNat % 2 ^ 32) * (b.toNat / 2 ^ 32) ∧
      p.hl.toNat = (a.toNat / 2 ^ 32) * (b.toNat % 2 ^ 32) ∧
      p.hh.toNat = (a.toNat / 2 ^ 32) * (b.toNat / 2 ^ 32) := by
  have hlow : ∀ x : BitVec 64, ((x.setWidth 32).setWidth 64).toNat < 2 ^ 32 := by
    intro x
    rw [toNat_low]
    exact Nat.mod_lt _ (by decide)
  have hhigh : ∀ x : BitVec 64, (x >>> 32).toNat < 2 ^ 32 := by
    intro x
    have hx := x.isLt
    rw [toNat_high]
    omega
  refine ⟨?_, ?_, ?_, ?_⟩
  · rw [rgmHashPartialProducts, toNat_mul_halves (hlow a) (hlow b), toNat_low, toNat_low]
  · rw [rgmHashPartialProducts, toNat_mul_halves (hlow a) (hhigh b), toNat_low, toNat_high]
  · rw [rgmHashPartialProducts, toNat_mul_halves (hhigh a) (hlow b), toNat_high, toNat_low]
  · rw [rgmHashPartialProducts, toNat_mul_halves (hhigh a) (hhigh b), toNat_high, toNat_high]

/-- The middle sum of three numbers below `2 ^ 32` does not wrap. -/
theorem PartialProducts.mid_toNat (p : PartialProducts) :
    p.mid.toNat = HalfMul.mid (2 ^ 32) p.ll.toNat p.lh.toNat p.hl.toNat := by
  have hll := p.ll.isLt
  have hlh := Nat.mod_lt p.lh.toNat (by decide : 0 < 2 ^ 32)
  have hhl := Nat.mod_lt p.hl.toNat (by decide : 0 < 2 ^ 32)
  have hdiv : p.ll.toNat / 2 ^ 32 < 2 ^ 32 := by omega
  rw [PartialProducts.mid, BitVec.toNat_add, BitVec.toNat_add, toNat_high, toNat_low, toNat_low,
    HalfMul.mid]
  omega

theorem PartialProducts.lo_toNat (p : PartialProducts) :
    p.lo.toNat = low (2 ^ 32) p.ll.toNat p.lh.toNat p.hl.toNat := by
  have hlow : ((p.ll.setWidth 32).setWidth 64).toNat < 2 ^ 32 := by
    rw [toNat_low]
    exact Nat.mod_lt _ (by decide)
  rw [PartialProducts.lo, toNat_shiftLeft_or hlow, toNat_low, p.mid_toNat, low]

/-- Nor does the high sum, when the upper half of the product is a word. -/
theorem PartialProducts.hi_toNat (p : PartialProducts)
    (hlt : high (2 ^ 32) p.ll.toNat p.lh.toNat p.hl.toNat p.hh.toNat < 2 ^ 64) :
    p.hi.toNat = high (2 ^ 32) p.ll.toNat p.lh.toNat p.hl.toNat p.hh.toNat := by
  unfold high at hlt ⊢
  rw [PartialProducts.hi, BitVec.toNat_add, BitVec.toNat_add, BitVec.toNat_add, toNat_high,
    toNat_high, toNat_high, p.mid_toNat]
  omega

/-- **The portable multiply is exact.** For all operands the two words of the schoolbook branch make
up the product, none of the sums on the way wraps, and the answer is that of the branch with a
128-bit product. -/
theorem schoolbook_exact (a b : BitVec 64) :
    rgmHashWymum128Schoolbook a b = rgmHashWymum128 a b ∧
      let p := rgmHashPartialProducts a b
      let r := rgmHashWymum128Schoolbook a b
      r.2.toNat * 2 ^ 64 + r.1.toNat = a.toNat * b.toNat ∧
        p.mid.toNat = p.ll.toNat / 2 ^ 32 + p.lh.toNat % 2 ^ 32 + p.hl.toNat % 2 ^ 32 ∧
        r.2.toNat =
          p.hh.toNat + p.lh.toNat / 2 ^ 32 + p.hl.toNat / 2 ^ 32 + p.mid.toNat / 2 ^ 32 := by
  let p := rgmHashPartialProducts a b
  let r := rgmHashWymum128Schoolbook a b
  obtain ⟨hll, hlh, hhl, hhh⟩ := partialProducts_exact a b
  have ha := a.isLt
  have hb := b.isLt
  have hhigh : high (2 ^ 32) p.ll.toNat p.lh.toNat p.hl.toNat p.hh.toNat < 2 ^ 64 := by
    rw [hll, hlh, hhl, hhh]
    exact high_lt (B := 2 ^ 32) (Nat.mod_lt _ (by decide)) (by omega) (Nat.mod_lt _ (by decide))
      (by omega)
  have hlo : r.1.toNat = _ := p.lo_toNat
  have hhi : r.2.toNat = _ := p.hi_toNat hhigh
  have hexact : r.2.toNat * 2 ^ 64 + r.1.toNat = a.toNat * b.toNat := by
    have hmul := high_low_mul (2 ^ 32) (a.toNat % 2 ^ 32) (a.toNat / 2 ^ 32) (b.toNat % 2 ^ 32)
      (b.toNat / 2 ^ 32)
    rw [Nat.div_add_mod', Nat.div_add_mod'] at hmul
    rw [hlo, hhi, hll, hlh, hhl, hhh]
    exact hmul
  have hagree : r = rgmHashWymum128 a b := by
    have hlt := r.1.isLt
    rw [rgmHashWymum128_eq, ← hexact]
    refine Prod.ext (BitVec.eq_of_toNat_eq ?_) (BitVec.eq_of_toNat_eq ?_)
    · rw [BitVec.toNat_ofNat]
      omega
    · rw [BitVec.toNat_ofNat]
      omega
  refine ⟨hagree, hexact, p.mid_toNat, ?_⟩
  rw [hhi, p.mid_toNat]
  rfl

end RgMemory
