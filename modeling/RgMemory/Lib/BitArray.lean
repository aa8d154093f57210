import Mathlib.Data.List.Basic
import Mathlib.Data.Nat.Count

/-!
# Bit arrays in words

Bits numbered through an array of 64-bit words, least significant first. Setting a bit is an
exclusive effect on it (`bit_mark`); folding positions into masks and OR-ing the masks is setting
the bits one by one (`bit_markAll`); a masked word is zero exactly when its bit is clear
(`and_mask_eq_zero_iff`). The set bits are counted word by word (`popCount_word`), and setting some
raises the count by at most their number (`popCount_le_of_or`), by exactly that when they are distinct
and the array was clear (`popCount_of_clear`).
-/

namespace RgMemory.BitArray

/-- Bit `n` of the array. -/
def bit (w : Nat → BitVec 64) (n : Nat) : Bool := (w (n / 64)).getLsbD (n % 64)

/-- The array with bit `n` set. -/
def mark (w : Nat → BitVec 64) (n : Nat) : Nat → BitVec 64 :=
  fun j => if j = n / 64 then w j ||| 1#64 <<< (n % 64) else w j

def markAll (w : Nat → BitVec 64) (ns : List Nat) : Nat → BitVec 64 := ns.foldl mark w

theorem getLsbD_mask {i j : Nat} (hi : i < 64) :
    (1#64 <<< j).getLsbD i = decide (i = j) := by
  rw [BitVec.getLsbD_shiftLeft, BitVec.getLsbD_one]
  by_cases hij : i = j
  · simp [hij, hij ▸ hi]
  · by_cases hlt : i < j
    · simp [hlt, hij]
    · have hpos : 0 ≠ i - j := by omega
      simp [hlt, hij, hpos.symm]

/-- A word masked by one bit. -/
theorem and_mask_eq_zero_iff {v : BitVec 64} {j : Nat} (hj : j < 64) :
    v &&& 1#64 <<< j = 0 ↔ v.getLsbD j = false := by
  constructor
  · intro h
    have hbit := congrArg (fun b : BitVec 64 => b.getLsbD j) h
    simpa [BitVec.getLsbD_and, getLsbD_mask hj] using hbit
  · intro h
    apply BitVec.eq_of_getLsbD_eq
    intro i hi
    rw [BitVec.getLsbD_and, getLsbD_mask hi]
    by_cases hij : i = j
    · simp [hij, h]
    · simp [hij]

/-- A mask that a word covers adds nothing to it. -/
theorem or_eq_self_of_and_eq {v m : BitVec 64} (h : v &&& m = m) : v ||| m = v := by
  apply BitVec.eq_of_getLsbD_eq
  intro i _
  have hbit := congrArg (fun b : BitVec 64 => b.getLsbD i) h
  simp only [BitVec.getLsbD_and] at hbit
  rw [BitVec.getLsbD_or]
  cases hv : v.getLsbD i with
  | false =>
    rw [hv, Bool.false_and] at hbit
    rw [← hbit]
    rfl
  | true => rfl

theorem bit_mark (w : Nat → BitVec 64) (n k : Nat) :
    bit (mark w n) k = (bit w k || decide (k = n)) := by
  have hlt : k % 64 < 64 := Nat.mod_lt _ (by decide)
  unfold bit mark
  by_cases hword : k / 64 = n / 64
  · rw [if_pos hword, BitVec.getLsbD_or, getLsbD_mask hlt]
    congr 1
    exact decide_eq_decide.mpr ⟨fun h => by omega, fun h => by omega⟩
  · have hne : ¬ k = n := fun h => hword (congrArg (· / 64) h)
    simp [hword, hne]

theorem bit_markAll (w : Nat → BitVec 64) (ns : List Nat) (k : Nat) :
    bit (markAll w ns) k = (bit w k || decide (k ∈ ns)) := by
  induction ns generalizing w with
  | nil => simp [markAll]
  | cons n ns ih =>
    rw [markAll, List.foldl_cons, ← markAll, ih, bit_mark, Bool.or_assoc]
    congr 1
    simp

@[simp] theorem bit_zero (k : Nat) : bit (fun _ => 0) k = false := BitVec.getLsbD_zero

/-- Words are equal when their bits are. -/
theorem word_eq_of_bit {w v : Nat → BitVec 64} {j : Nat}
    (h : ∀ k, k / 64 = j → bit w k = bit v k) : w j = v j := by
  apply BitVec.eq_of_getLsbD_eq
  intro i hi
  have hdiv : (64 * j + i) / 64 = j := by omega
  have hmod : (64 * j + i) % 64 = i := by omega
  have hbit := h (64 * j + i) hdiv
  unfold bit at hbit
  rwa [hdiv, hmod] at hbit

/-! ## Counting -/

/-- The number of set bits among the first `n`. -/
def popCount (w : Nat → BitVec 64) (n : Nat) : Nat := Nat.count (fun k => bit w k = true) n

theorem popCount_eq_card (w : Nat → BitVec 64) (n : Nat) :
    popCount w n = (Finset.filter (fun k => bit w k = true) (Finset.range n)).card :=
  Nat.count_eq_card_filter_range _ n

/-- One more word is counted by its own bits. -/
theorem popCount_word (w : Nat → BitVec 64) (n : Nat) :
    popCount w (64 * (n + 1)) =
      popCount w (64 * n) + Nat.count (fun i => (w n).getLsbD i = true) 64 := by
  rw [popCount, Nat.mul_succ, Nat.count_add, popCount]
  congr 1
  rw [Nat.count_eq_card_filter_range, Nat.count_eq_card_filter_range]
  congr 1
  apply Finset.filter_congr
  intro i hi
  have hlt := Finset.mem_range.mp hi
  have hdiv : (64 * n + i) / 64 = n := by omega
  have hmod : (64 * n + i) % 64 = i := by omega
  rw [bit, hdiv, hmod]

section

variable {w w' : Nat → BitVec 64} {ns : List Nat}

theorem popCount_le_of_or (h : ∀ k, bit w' k = (bit w k || decide (k ∈ ns))) (n : Nat) :
    popCount w n ≤ popCount w' n ∧ popCount w' n ≤ popCount w n + ns.length := by
  constructor
  · apply Nat.count_mono_left
    intro k _ hk
    rw [h, hk, Bool.true_or]
  · have hsub : Finset.filter (fun k => bit w' k = true) (Finset.range n) ⊆
        Finset.filter (fun k => bit w k = true) (Finset.range n) ∪ ns.toFinset := by
      intro k hk
      simp only [Finset.mem_filter, h, Bool.or_eq_true, decide_eq_true_eq] at hk
      simp only [Finset.mem_union, Finset.mem_filter, List.mem_toFinset]
      exact hk.2.imp (fun hw => ⟨hk.1, hw⟩) id
    rw [popCount_eq_card, popCount_eq_card]
    have hunion := (Finset.card_le_card hsub).trans (Finset.card_union_le _ _)
    have hlen := List.toFinset_card_le ns
    omega

theorem popCount_of_clear (h : ∀ k, bit w' k = (bit w k || decide (k ∈ ns))) {n : Nat}
    (hclear : ∀ k, k < n → bit w k = false) (hin : ∀ k ∈ ns, k < n) (hnodup : ns.Nodup) :
    popCount w' n = ns.length := by
  rw [popCount_eq_card, ← List.toFinset_card_of_nodup hnodup]
  congr 1
  ext k
  simp only [Finset.mem_filter, Finset.mem_range, List.mem_toFinset, h, Bool.or_eq_true,
    decide_eq_true_eq]
  constructor
  · rintro ⟨hk, hw | hmem⟩
    · rw [hclear k hk] at hw
      cases hw
    · exact hmem
  · intro hmem
    exact ⟨hin k hmem, Or.inr hmem⟩

end

end RgMemory.BitArray
