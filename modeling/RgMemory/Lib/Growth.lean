import Mathlib.Tactic.Ring
import RgMemory.Lib.Trie

/-!
# How deep a trie grows

A trie that starts empty and takes one payload after the other. Each payload goes where the walk
along its own digits falls off, so it lengthens the walk along other digits exactly when the two
agree as far as that walk went (`pathLen_add`).

The main law (`ofList_depthLe_iff`) reads the depth off the list of payloads: the trie is deeper
than `n` exactly when `n + 1` of the payloads form a staircase, each agreeing with the last one on
as many digits as payloads of the staircase came before it. A walk is greedy, and agreeing on more
digits is harder, so greed loses nothing.
-/

namespace RgMemory.Trie

variable {α : Type} {b : Nat}

/-! ## The walk along a sequence of digits -/

/-- The number of nodes that the walk along `ds` meets. -/
def pathLen : Digits b → Trie b α → Nat
  | _, nil => 0
  | ds, node _ kids => pathLen ds.tail (kids (ds 0)) + 1

/-- The digits agree at the first `n` places. -/
def AgreeTo (n : Nat) (ds ds' : Digits b) : Prop := ∀ i, i < n → ds i = ds' i

theorem AgreeTo.mono {m n : Nat} {ds ds' : Digits b} (hmn : m ≤ n) (h : AgreeTo n ds ds') :
    AgreeTo m ds ds' :=
  fun i hi => h i (Nat.lt_of_lt_of_le hi hmn)

theorem agreeTo_succ {n : Nat} {ds ds' : Digits b} :
    AgreeTo (n + 1) ds ds' ↔ ds 0 = ds' 0 ∧ AgreeTo n ds.tail ds'.tail := by
  constructor
  · intro h
    exact ⟨h 0 (Nat.succ_pos n), fun i hi => h (i + 1) (Nat.succ_lt_succ hi)⟩
  · rintro ⟨hzero, htail⟩ i hi
    cases i with
    | zero => exact hzero
    | succ i => exact htail i (Nat.lt_of_succ_lt_succ hi)

/-- A trie is as deep as its longest walk. -/
theorem depthLe_iff_pathLen [NeZero b] {n : Nat} {t : Trie b α} :
    t.DepthLe n ↔ ∀ ds, pathLen ds t ≤ n := by
  induction t generalizing n with
  | nil => simp [DepthLe, pathLen]
  | node a kids ih =>
    cases n with
    | zero =>
      refine ⟨fun h => absurd h id, fun h => ?_⟩
      exact absurd (h fun _ => 0) (Nat.not_succ_le_zero _)
    | succ n =>
      constructor
      · intro h ds
        exact Nat.succ_le_succ ((ih (ds 0)).mp (h (ds 0)) ds.tail)
      · intro h i
        refine (ih i).mpr fun ds => ?_
        -- the walk that takes the child `i` first
        have hwalk := h fun k => if k = 0 then i else ds (k - 1)
        exact Nat.le_of_succ_le_succ hwalk

/-- Adding a payload lengthens the walks that its own follows to their end. -/
theorem pathLen_add (x : α) (ds ds' : Digits b) (t : Trie b α) :
    (AgreeTo (pathLen ds t) ds' ds → pathLen ds (add x ds' t) = pathLen ds t + 1) ∧
      (¬ AgreeTo (pathLen ds t) ds' ds → pathLen ds (add x ds' t) = pathLen ds t) := by
  induction t generalizing ds ds' with
  | nil => exact ⟨fun _ => rfl, fun h => absurd (fun i hi => absurd hi (Nat.not_lt_zero i)) h⟩
  | node a kids ih =>
    rw [add, pathLen, pathLen, agreeTo_succ]
    by_cases hzero : ds' 0 = ds 0
    · obtain ⟨hyes, hno⟩ := ih (ds 0) ds.tail ds'.tail
      rw [hzero, Function.update_self]
      exact ⟨fun h => congrArg _ (hyes h.2), fun h => congrArg _ (hno fun ht => h ⟨rfl, ht⟩)⟩
    · rw [Function.update_of_ne (Ne.symm hzero)]
      exact ⟨fun h => absurd h.1 hzero, fun _ => rfl⟩

/-! ## Staircases -/

/-- Each sequence agrees with `ds` on as many digits as there are sequences after it in the list.
The list has the latest sequence first. -/
def Stairs (ds : Digits b) : List (Digits b) → Prop
  | [] => True
  | d :: older => AgreeTo older.length d ds ∧ Stairs ds older

theorem Stairs.congr {ds ds' : Digits b} {l : List (Digits b)} (h : Stairs ds l)
    (hds : AgreeTo (l.length - 1) ds ds') : Stairs ds' l := by
  induction l with
  | nil => trivial
  | cons d older ih =>
    refine ⟨fun i hi => (h.1 i hi).trans (hds i hi), ih h.2 (hds.mono ?_)⟩
    rw [List.length_cons, Nat.add_sub_cancel]
    exact Nat.sub_le ..

/-- The trie of a list of payloads with their digits, the latest first. -/
def ofList : List (α × Digits b) → Trie b α
  | [] => nil
  | (x, ds) :: older => add x ds (ofList older)

/-- The walk along `ds` is as long as the longest staircase towards `ds`. -/
theorem le_pathLen_ofList_iff {ds : Digits b} {l : List (α × Digits b)} {n : Nat} :
    n ≤ pathLen ds (ofList l) ↔
      ∃ stairs, stairs.Sublist (l.map Prod.snd) ∧ stairs.length = n ∧ Stairs ds stairs := by
  induction l generalizing n with
  | nil =>
    constructor
    · intro h
      exact ⟨[], .refl [], (Nat.le_zero.mp h).symm, trivial⟩
    · rintro ⟨stairs, hsub, rfl, -⟩
      rw [List.sublist_nil.mp hsub]
      exact Nat.zero_le _
  | cons entry older ih =>
    obtain ⟨x, d⟩ := entry
    obtain ⟨hyes, hno⟩ := pathLen_add x ds d (ofList older)
    rw [ofList, List.map_cons]
    by_cases hagree : AgreeTo (pathLen ds (ofList older)) d ds
    · rw [hyes hagree]
      constructor
      · intro h
        cases n with
        | zero => exact ⟨[], List.nil_sublist _, rfl, trivial⟩
        | succ n =>
          have hn := Nat.le_of_succ_le_succ h
          obtain ⟨stairs, hsub, hlen, hstairs⟩ := ih.mp hn
          exact ⟨d :: stairs, hsub.cons_cons d, by rw [List.length_cons, hlen],
            hlen ▸ hagree.mono hn, hstairs⟩
      · rintro ⟨stairs, hsub, rfl, hstairs⟩
        cases hsub with
        | cons _ hsub => exact Nat.le_succ_of_le (ih.mpr ⟨stairs, hsub, rfl, hstairs⟩)
        | @cons_cons rest _ _ hsub =>
          exact Nat.succ_le_succ (ih.mpr ⟨rest, hsub, rfl, hstairs.2⟩)
    · rw [hno hagree]
      constructor
      · intro h
        obtain ⟨stairs, hsub, hlen, hstairs⟩ := ih.mp h
        exact ⟨stairs, hsub.cons d, hlen, hstairs⟩
      · rintro ⟨stairs, hsub, rfl, hstairs⟩
        cases hsub with
        | cons _ hsub => exact ih.mpr ⟨stairs, hsub, rfl, hstairs⟩
        | @cons_cons rest _ _ hsub =>
          -- greed: the sequence was of no use, so the staircase below it is shorter than the walk
          have hrest := ih.mpr ⟨rest, hsub, rfl, hstairs.2⟩
          refine Nat.lt_of_le_of_ne hrest fun heq => hagree ?_
          rw [← heq]
          exact hstairs.1

/-- **A trie is deeper than `n`** exactly when `n + 1` of its payloads form a staircase towards the
latest of them. -/
theorem ofList_depthLe_iff [NeZero b] {l : List (α × Digits b)} {n : Nat} :
    (ofList l).DepthLe n ↔ ¬ ∃ last older, (last :: older).Sublist (l.map Prod.snd) ∧
      older.length = n ∧ Stairs last older := by
  rw [depthLe_iff_pathLen]
  constructor
  · rintro h ⟨last, older, hsub, hlen, hstairs⟩
    refine Nat.not_succ_le_self n ((le_pathLen_ofList_iff.mpr ⟨last :: older, hsub, ?_, ?_⟩).trans
      (h last))
    · rw [List.length_cons, hlen]
    · exact ⟨fun _ _ => rfl, hstairs⟩
  · intro h ds
    by_contra hlong
    obtain ⟨stairs, hsub, hlen, hstairs⟩ := le_pathLen_ofList_iff.mp (Nat.lt_of_not_le hlong)
    cases stairs with
    | nil => cases hlen
    | cons last older =>
      have hlen' : older.length = n := Nat.succ.inj hlen
      refine h ⟨last, older, hsub, hlen', hstairs.2.congr fun i hi => ?_⟩
      exact (hstairs.1 i (Nat.lt_of_lt_of_le hi (Nat.sub_le ..))).symm

end RgMemory.Trie
