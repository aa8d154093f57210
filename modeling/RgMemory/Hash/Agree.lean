import RgMemory.Hash.Separate
import RgMemory.Hash.Wide

/-!
# One hash function

The hash of a byte key is written out several times in `rg_hash_func.h`: for one seed, for two seeds
at once, with a second digest, and for an eight-byte key in a register; and inside each body the
eight-byte length has a path of its own. They are one function (`hash_variants_agree`).
-/

namespace RgMemory

open Bytes

/-- The wide mix hands out the digest of the plain one. -/
theorem rgmHashWymix128_fst (a b s1 s2 : BitVec 64) :
    (rgmHashWymix128 a b s1 s2).1 = rgmHashWymix a b s1 s2 := BitVec.xor_assoc ..

theorem rgmHashWyhash128Seeded_fst (p : Mem) (len : Nat) (seed : BitVec 64) :
    (rgmHashWyhash128Seeded p len seed).1 = rgmHashWyhashSeeded p len seed := by
  unfold rgmHashWyhash128Seeded rgmHashWyhashSeeded
  split
  · exact rgmHashWymix128_fst ..
  split
  · exact rgmHashWymix128_fst ..
  · dsimp only
    rw [rgmHash128LongLanes_eq]
    exact rgmHashWymix128_fst ..

/-! ## The path of eight bytes -/

/-- Eight bytes are two loads of four. -/
theorem loadU64_halves (p : Mem) (i : Nat) :
    rgmHashLoadU64 p i =
      (rgmHashLoadU32 p (i + 4)).setWidth 64 <<< 32 ||| (rgmHashLoadU32 p i).setWidth 64 := by
  apply BitVec.eq_of_toNat_eq
  rw [pack_toNat, loadU64_eq, loadU32_eq, loadU32_eq, load64_toNat, load32_toNat, load32_toNat]
  simp only [leNat, Nat.add_assoc, Nat.reduceAdd]
  omega

/-- Rotating a word by half its width swaps its halves. -/
theorem rotate_pack (a b : BitVec 32) :
    (a.setWidth 64 <<< 32 ||| b.setWidth 64) <<< 32 |||
        (a.setWidth 64 <<< 32 ||| b.setWidth 64) >>> 32 =
      b.setWidth 64 <<< 32 ||| a.setWidth 64 := by
  have ha := a.isLt
  have hb := b.isLt
  apply BitVec.eq_of_toNat_eq
  have hlow : ((a.setWidth 64 <<< 32 ||| b.setWidth 64) >>> 32).toNat = a.toNat := by
    rw [BitVec.toNat_ushiftRight, pack_toNat, Nat.shiftRight_eq_div_pow]
    omega
  have hhigh : ((a.setWidth 64 <<< 32 ||| b.setWidth 64) <<< 32).toNat = 2 ^ 32 * b.toNat := by
    rw [BitVec.toNat_shiftLeft, pack_toNat, Nat.shiftLeft_eq]
    omega
  rw [pack_toNat, BitVec.toNat_or, hlow, hhigh, ← Nat.two_pow_add_eq_or_of_lt ha, Nat.add_comm]

/-- The rotation of the short path packs what the four loads of the general one pack. -/
theorem rgmHashShortWords_eight (p : Mem) :
    rgmHashShortWords p 8 =
      (rgmHashLoadU64 p 0 <<< 32 ||| rgmHashLoadU64 p 0 >>> 32, rgmHashLoadU64 p 0) := by
  have hrot := rotate_pack (rgmHashLoadU32 p 4) (rgmHashLoadU32 p 0)
  rw [loadU64_halves p 0, hrot]
  rfl

/-- What the general path of at most 16 bytes makes of its two words. -/
def generalShort {α : Type} (words : Mem → Nat → BitVec 64 × BitVec 64)
    (mix : BitVec 64 → BitVec 64 → α) (p : Mem) (len : Nat) : α :=
  mix (words p len).1 ((words p len).2 ^^^ BitVec.ofNat 64 len)

theorem rgmHashWyhashSeeded_general {p : Mem} {len : Nat} (hlen : len ≤ 16) (seed : BitVec 64) :
    rgmHashWyhashSeeded p len seed =
      generalShort rgmHashShortWords (fun a b => rgmHashWymix a b rgmHashWyp1 seed) p len := by
  unfold rgmHashWyhashSeeded generalShort
  split
  · next h8 =>
    rw [h8, rgmHashShortWords_eight]
    rfl
  · rfl

theorem rgmHashWyhash128Seeded_general {p : Mem} {len : Nat} (hlen : len ≤ 16) (seed : BitVec 64) :
    rgmHashWyhash128Seeded p len seed =
      generalShort rgmHash128ShortWords (fun a b => rgmHashWymix128 a b rgmHashWyp1 seed) p
        len := by
  unfold rgmHashWyhash128Seeded generalShort
  split
  · next h8 =>
    rw [h8, rgmHash128ShortWords_eq, rgmHashShortWords_eight]
    rfl
  · rfl

theorem rgmHashWyhashDualSeeded_general {p : Mem} {len : Nat} (hlen : len ≤ 16)
    (s1 s2 : BitVec 64) :
    rgmHashWyhashDualSeeded p len s1 s2 =
      generalShort rgmHashDualShortWords (fun a b => (rgmHashWymix a b rgmHashWyp1 s1,
        rgmHashWymix a b rgmHashWyp1 s2)) p len := by
  unfold rgmHashWyhashDualSeeded generalShort
  split
  · next h8 =>
    rw [h8, rgmHashDualShortWords_eq, rgmHashShortWords_eight]
    rfl
  · rfl

/-- **All hash variants are one function.** For every key and all seeds: two seeds at once give the
two digests, the second digest comes beside the plain one, the path of eight bytes computes what the
general path of at most 16 would, and a key in a register has the digests of its little-endian
bytes. -/
theorem hash_variants_agree :
    (∀ p len s1 s2, rgmHashWyhashDualSeeded p len s1 s2 =
      (rgmHashWyhashSeeded p len s1, rgmHashWyhashSeeded p len s2)) ∧
    (∀ p len seed, (rgmHashWyhash128Seeded p len seed).1 = rgmHashWyhashSeeded p len seed) ∧
    (∀ p seed,
      rgmHashWyhashSeeded p 8 seed =
          generalShort rgmHashShortWords (fun a b => rgmHashWymix a b rgmHashWyp1 seed) p 8 ∧
        rgmHashWyhash128Seeded p 8 seed =
          generalShort rgmHash128ShortWords (fun a b => rgmHashWymix128 a b rgmHashWyp1 seed) p 8 ∧
        ∀ s2, rgmHashWyhashDualSeeded p 8 seed s2 =
          generalShort rgmHashDualShortWords (fun a b => (rgmHashWymix a b rgmHashWyp1 seed,
            rgmHashWymix a b rgmHashWyp1 s2)) p 8) ∧
    (∀ key seed, rgmHashU64Seeded key seed = rgmHashWyhashSeeded (ptr (leBytes key)) 8 seed) ∧
    ∀ key, rgmHashU64_128 key = rgmHashWyhash128 (ptr (leBytes key)) 8 := by
  refine ⟨rgmHashWyhashDualSeeded_eq, rgmHashWyhash128Seeded_fst, fun p seed => ⟨?_, ?_, ?_⟩,
    rgmHashU64Seeded_eq, rgmHashU64_128_eq⟩
  · exact rgmHashWyhashSeeded_general (by decide) seed
  · exact rgmHashWyhash128Seeded_general (by decide) seed
  · exact rgmHashWyhashDualSeeded_general (by decide) seed

end RgMemory
