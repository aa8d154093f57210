import Mathlib.Logic.Function.Basic
import Mathlib.Data.List.Nodup
import Mathlib.Data.List.FinRange
import Mathlib.Data.List.Pairwise
import Mathlib.Data.List.Perm.Basic

/-!
# Digital tries and the pointer graphs that carry them

A trie has a payload at every node and a child for every digit. A walk follows an infinite sequence
of digits; `find` stops at the first payload that satisfies a test, `add` puts a new payload where
the walk falls off. Nothing is assumed about where payloads sit, so the two laws hold of any trie:
what is added is found along its own digits (`find_add_self`), and no search for anything else
changes (`find_add_other`).

A linked structure is a function from a node and a digit to the next node. `Unfolds next t r` says
that following the links from `r` traces out exactly `t`. Writing one link, the one where the walk
falls off, turns an unfolding of `t` into one of `t.add` (`Unfolds.add`); that step is the only
place where distinctness of the nodes matters.
-/

namespace RgMemory

/-- A trie with `b` children at each node. -/
inductive Trie (b : Nat) (α : Type) where
  | nil
  | node (a : α) (kids : Fin b → Trie b α)

/-- An infinite sequence of digits, read from the front. -/
abbrev Digits (b : Nat) := Nat → Fin b

def Digits.tail {b : Nat} (ds : Digits b) : Digits b := fun n => ds (n + 1)

namespace Trie

variable {α : Type} {b : Nat}

/-- The payloads in pre-order. -/
def toList : Trie b α → List α
  | nil => []
  | node a kids => a :: (List.finRange b).flatMap fun i => (kids i).toList

/-- The payloads of a family of tries, one trie after the other. -/
def listAll {n : Nat} (f : Fin n → Trie b α) : List α :=
  (List.finRange n).flatMap fun i => (f i).toList

/-- The first payload along `ds` that satisfies `p`. -/
def find (p : α → Bool) : Digits b → Trie b α → Option α
  | _, nil => none
  | ds, node a kids => if p a then some a else find p ds.tail (kids (ds 0))

/-- Put a payload where the walk along `ds` falls off. -/
def add (x : α) : Digits b → Trie b α → Trie b α
  | _, nil => node x fun _ => nil
  | ds, node a kids =>
    node a (Function.update kids (ds 0) (add x ds.tail (kids (ds 0))))

/-- The link where the walk along `ds` falls off; none when the trie is empty. -/
def seat : Digits b → Trie b α → Option (α × Fin b)
  | _, nil => none
  | ds, node a kids => some ((seat ds.tail (kids (ds 0))).getD (a, ds 0))

/-- No walk meets more than `n` nodes. -/
def DepthLe : Nat → Trie b α → Prop
  | _, nil => True
  | 0, node _ _ => False
  | n + 1, node _ kids => ∀ i, DepthLe n (kids i)

@[simp] theorem toList_nil : (nil : Trie b α).toList = [] := rfl

theorem toList_node (a : α) (kids : Fin b → Trie b α) :
    (node a kids).toList = a :: listAll kids := rfl

@[simp] theorem mem_listAll {n : Nat} {f : Fin n → Trie b α} {x : α} :
    x ∈ listAll f ↔ ∃ i, x ∈ (f i).toList := by
  simp [listAll]

theorem mem_node {a x : α} {kids : Fin b → Trie b α} :
    x ∈ (node a kids).toList ↔ x = a ∨ ∃ i, x ∈ (kids i).toList := by
  rw [toList_node, List.mem_cons, mem_listAll]

theorem mem_kid {a x : α} {kids : Fin b → Trie b α} {i : Fin b} (h : x ∈ (kids i).toList) :
    x ∈ (node a kids).toList :=
  mem_node.mpr (.inr ⟨i, h⟩)

/-! ## Searching -/

theorem find_mem {p : α → Bool} {ds : Digits b} {t : Trie b α} {a : α}
    (h : find p ds t = some a) : a ∈ t.toList ∧ p a = true := by
  induction t generalizing ds with
  | nil => cases h
  | node c kids ih =>
    rw [find] at h
    split at h
    · next hp =>
      cases h
      exact ⟨List.mem_cons_self, hp⟩
    · exact ⟨mem_kid (ih _ h).1, (ih _ h).2⟩

/-- A search depends on the test at the nodes of the trie only. -/
theorem find_congr {p q : α → Bool} {ds : Digits b} {t : Trie b α}
    (h : ∀ a ∈ t.toList, p a = q a) : find p ds t = find q ds t := by
  induction t generalizing ds with
  | nil => rfl
  | node a kids ih =>
    have hkids : find p ds.tail (kids (ds 0)) = find q ds.tail (kids (ds 0)) :=
      ih _ fun c hc => h c (mem_kid hc)
    rw [find, find, h a List.mem_cons_self, hkids]

/-! ## Adding -/

theorem find_add_self {p : α → Bool} {ds : Digits b} {t : Trie b α} {x : α} (hx : p x = true)
    (h : find p ds t = none) : find p ds (add x ds t) = some x := by
  induction t generalizing ds with
  | nil => simp [add, find, hx]
  | node a kids ih =>
    rw [find] at h
    split at h
    · cases h
    · next hp =>
      rw [add, find, if_neg hp, Function.update_self]
      exact ih _ h

theorem find_add_other {p : α → Bool} {ds ds' : Digits b} {t : Trie b α} {x : α}
    (hx : p x = false) : find p ds' (add x ds t) = find p ds' t := by
  induction t generalizing ds ds' with
  | nil => simp [add, find, hx]
  | node a kids ih =>
    rw [add, find, find]
    by_cases hd : ds' 0 = ds 0
    · rw [hd, Function.update_self, ih]
    · rw [Function.update_of_ne hd]

/-- Changing a member that is not listed changes nothing. -/
theorem flatMap_update_of_notMem {ι β γ : Type} [DecidableEq ι] {l : List ι} {d : ι} (hd : d ∉ l)
    (f : ι → β) (new : β) (g : β → List γ) :
    (l.flatMap fun i => g (Function.update f d new i)) = l.flatMap fun i => g (f i) :=
  List.flatMap_congr fun i hi => by rw [Function.update_of_ne (ne_of_mem_of_not_mem hi hd)]

/-- Changing one member of a family to a list with one more element adds that element. -/
theorem flatMap_update_perm {ι : Type} [DecidableEq ι] {l : List ι} (hl : l.Nodup) {d : ι}
    (hd : d ∈ l) {f : ι → List α} {x : α} {new : List α} (hnew : new.Perm (x :: f d)) :
    (l.flatMap (Function.update f d new)).Perm (x :: l.flatMap f) := by
  induction l with
  | nil => cases hd
  | cons c rest ih =>
    obtain ⟨hc, hrest⟩ := List.nodup_cons.mp hl
    rw [List.flatMap_cons, List.flatMap_cons]
    by_cases hdc : d = c
    · subst hdc
      have hsame : rest.flatMap (Function.update f d new) = rest.flatMap f :=
        flatMap_update_of_notMem hc f new id
      rw [Function.update_self, hsame]
      exact hnew.append_right _
    · rw [Function.update_of_ne (Ne.symm hdc)]
      have hmem : d ∈ rest := (List.mem_cons.mp hd).resolve_left hdc
      exact ((ih hrest hmem).append_left (f c)).trans List.perm_middle

/-- A value in two members of a family without repetition: they are the same member. -/
theorem flatMap_nodup_unique {ι β : Type} {l : List ι} {g : ι → List β} (h : (l.flatMap g).Nodup)
    {i j : ι} (hi : i ∈ l) (hj : j ∈ l) {c : β} (hci : c ∈ g i) (hcj : c ∈ g j) : i = j := by
  by_contra hij
  have hsymm : Std.Symm (Function.onFun List.Disjoint g) := ⟨fun _ _ hd _ hc hc' => hd hc' hc⟩
  exact (List.nodup_flatMap.mp h).2.forall hi hj hij hci hcj

theorem listAll_update_perm {n : Nat} {f : Fin n → Trie b α} {i : Fin n} {t : Trie b α} {x : α}
    (ht : t.toList.Perm (x :: (f i).toList)) :
    (listAll (Function.update f i t)).Perm (x :: listAll f) := by
  have hcomp : (fun j => (Function.update f i t j).toList) =
      Function.update (fun j => (f j).toList) i t.toList := by
    funext j
    by_cases hj : j = i
    · rw [hj, Function.update_self, Function.update_self]
    · rw [Function.update_of_ne hj, Function.update_of_ne hj]
  rw [listAll, hcomp]
  exact flatMap_update_perm (List.nodup_finRange n) (List.mem_finRange i) ht

theorem toList_add_perm (x : α) (ds : Digits b) (t : Trie b α) :
    (add x ds t).toList.Perm (x :: t.toList) := by
  induction t generalizing ds with
  | nil => simp [add, toList_node, listAll]
  | node a kids ih =>
    rw [add, toList_node, toList_node]
    exact ((listAll_update_perm (ih _ ds.tail)).cons a).trans (.swap x a _)

theorem seat_eq_none_iff {ds : Digits b} {t : Trie b α} : seat ds t = none ↔ t = nil := by
  cases t <;> simp [seat]

theorem seat_mem {ds : Digits b} {t : Trie b α} {a : α} {i : Fin b}
    (h : seat ds t = some (a, i)) : a ∈ t.toList := by
  induction t generalizing ds with
  | nil => cases h
  | node c kids ih =>
    rw [seat] at h
    cases hs : seat ds.tail (kids (ds 0)) with
    | none =>
      rw [hs] at h
      cases h
      exact List.mem_cons_self
    | some s =>
      rw [hs] at h
      cases h
      exact mem_kid (ih _ hs)

/-! ## Depth -/

theorem DepthLe.mono {m n : Nat} (hmn : m ≤ n) {t : Trie b α} (h : t.DepthLe m) : t.DepthLe n := by
  induction t generalizing m n with
  | nil => cases n <;> trivial
  | node a kids ih =>
    cases m with
    | zero => exact absurd h id
    | succ m =>
      obtain ⟨k, rfl⟩ : ∃ k, n = k + 1 := ⟨n - 1, by omega⟩
      exact fun i => ih i (by omega) (h i)

theorem length_member_le {n : Nat} (f : Fin n → Trie b α) (i : Fin n) :
    (f i).toList.length ≤ (listAll f).length := by
  have hsub : (f i).toList.Sublist (listAll f) := by
    have := List.sublist_flatten_of_mem
      (List.mem_map_of_mem (f := fun j => (f j).toList) (List.mem_finRange i))
    rwa [← List.flatMap_def] at this
  exact hsub.length_le

/-- A trie is no deeper than it has nodes. -/
theorem depthLe_length (t : Trie b α) : t.DepthLe t.toList.length := by
  induction t with
  | nil => trivial
  | node a kids ih =>
    rw [toList_node, List.length_cons]
    exact fun i => (ih i).mono (length_member_le kids i)

/-- Nor is any of a family deeper than the family has nodes. -/
theorem depthLe_listAll {n : Nat} (f : Fin n → Trie b α) (i : Fin n) :
    (f i).DepthLe (listAll f).length :=
  (depthLe_length (f i)).mono (length_member_le f i)

/-! ## Pointer graphs -/

/-- Following the links of `next` from `r` traces out the trie. -/
def Unfolds (next : α → Fin b → Option α) : Trie b α → Option α → Prop
  | nil, r => r = none
  | node a kids, r => r = some a ∧ ∀ i, Unfolds next (kids i) (next a i)

namespace Unfolds

variable {next next' : α → Fin b → Option α} {t : Trie b α} {r : Option α}

theorem eq_none_iff (h : Unfolds next t r) : r = none ↔ t = nil := by
  cases t with
  | nil => exact ⟨fun _ => rfl, fun _ => h⟩
  | node a kids =>
    obtain ⟨rfl, _⟩ := h
    exact ⟨nofun, nofun⟩

/-- A graph that agrees on the nodes of the trie has the same unfolding. -/
theorem congr (h : Unfolds next t r) (hnext : ∀ a ∈ t.toList, ∀ i, next' a i = next a i) :
    Unfolds next' t r := by
  induction t generalizing r with
  | nil => exact h
  | node a kids ih =>
    obtain ⟨hr, hkids⟩ := h
    refine ⟨hr, fun i => ?_⟩
    rw [hnext a List.mem_cons_self i]
    exact ih i (hkids i) fun c hc => hnext c (mem_kid hc)

/-- A graph has one unfolding from a node. -/
theorem unique {u : Trie b α} (h : Unfolds next t r) (hu : Unfolds next u r) : t = u := by
  induction t generalizing u r with
  | nil => exact (hu.eq_none_iff.mp h).symm
  | node a kids ih =>
    obtain ⟨rfl, hkids⟩ := h
    cases u with
    | nil => cases hu
    | node c kids' =>
      obtain ⟨hac, hkids'⟩ := hu
      cases hac
      exact congrArg (node a) (funext fun i => ih i (hkids i) (hkids' i))

/-- The link at a seat is empty. -/
theorem seat_link {ds : Digits b} (h : Unfolds next t r) {a : α} {i : Fin b}
    (hseat : seat ds t = some (a, i)) : next a i = none := by
  induction t generalizing ds r with
  | nil => cases hseat
  | node c kids ih =>
    obtain ⟨-, hkids⟩ := h
    rw [seat] at hseat
    cases hs : seat ds.tail (kids (ds 0)) with
    | none =>
      rw [hs] at hseat
      cases hseat
      exact (hkids (ds 0)).eq_none_iff.mpr (seat_eq_none_iff.mp hs)
    | some s =>
      rw [hs] at hseat
      cases hseat
      exact ih _ (hkids (ds 0)) hs

/-- A graph that has all the links has all the nodes. -/
theorem mem_mono {t' : Trie b α} {r' : Option α} (h : Unfolds next t r)
    (h' : Unfolds next' t' r') (hroot : ∀ c, r = some c → r' = some c)
    (hnext : ∀ a ∈ t.toList, ∀ i c, next a i = some c → next' a i = some c) {a : α}
    (ha : a ∈ t.toList) : a ∈ t'.toList := by
  induction t generalizing t' r r' with
  | nil => cases ha
  | node c kids ih =>
    obtain ⟨rfl, hkids⟩ := h
    rw [hroot c rfl] at h'
    cases t' with
    | nil => cases h'
    | node c' kids' =>
      obtain ⟨heq, hkids'⟩ := h'
      cases heq
      rcases mem_node.mp ha with rfl | ⟨i, hi⟩
      · exact List.mem_cons_self
      · exact mem_kid (ih i (hkids i) (hkids' i) (hnext c List.mem_cons_self i)
          (fun d hd => hnext d (mem_kid hd)) hi)

/-- Linking a fresh node at the seat adds it to the trie. -/
theorem add [DecidableEq α] {x : α} (ds : Digits b) (h : Unfolds next t r)
    (hnodup : t.toList.Nodup) (hx : ∀ i, next' x i = none)
    (hnext : ∀ a ∈ t.toList, ∀ i, next' a i = if seat ds t = some (a, i) then some x else next a i) :
    Unfolds next' (t.add x ds) (if seat ds t = none then some x else r) := by
  induction t generalizing ds r with
  | nil => exact ⟨rfl, hx⟩
  | node a kids ih =>
    obtain ⟨rfl, hkids⟩ := h
    rw [toList_node, List.nodup_cons] at hnodup
    obtain ⟨ha, hnodup⟩ := hnodup
    have hkid := (List.nodup_flatMap.mp hnodup).1
    have hapart : ∀ {i j : Fin b}, i ≠ j → ∀ {c}, c ∈ (kids i).toList → c ∉ (kids j).toList :=
      fun hij _ hci hcj => hij (flatMap_nodup_unique hnodup (List.mem_finRange _)
        (List.mem_finRange _) hci hcj)
    have hne : ∀ {i : Fin b} {c : α}, c ∈ (kids i).toList → c ≠ a := by
      rintro i c hc rfl
      exact ha (mem_listAll.mpr ⟨i, hc⟩)
    refine ⟨by simp [seat], fun i => ?_⟩
    -- the seat is the link at `a` when the subtrie is empty, and inside the subtrie otherwise
    have hseat : seat ds (node a kids) = some ((seat ds.tail (kids (ds 0))).getD (a, ds 0)) := rfl
    by_cases hi : i = ds 0
    · subst hi
      rw [Function.update_self]
      have hsub := ih (ds 0) ds.tail (hkids (ds 0)) (hkid _ (List.mem_finRange _))
        fun c hc j => by
          rw [hnext c (mem_kid hc), hseat]
          cases hs : seat ds.tail (kids (ds 0)) with
          | none => simp [(hne hc).symm]
          | some s => simp
      rw [hnext a List.mem_cons_self, hseat]
      cases hs : seat ds.tail (kids (ds 0)) with
      | none => simpa [hs] using hsub
      | some s =>
        obtain ⟨c, d⟩ := s
        simpa [hs, hne (seat_mem hs)] using hsub
    · rw [Function.update_of_ne hi, hnext a List.mem_cons_self, hseat]
      have hlink : (seat ds.tail (kids (ds 0))).getD (a, ds 0) ≠ (a, i) := by
        cases hs : seat ds.tail (kids (ds 0)) with
        | none => simpa using Ne.symm hi
        | some s =>
          obtain ⟨c, d⟩ := s
          simp [hne (seat_mem hs)]
      rw [if_neg (by simpa using hlink)]
      refine (hkids i).congr fun c hc j => ?_
      rw [hnext c (mem_kid hc), hseat, if_neg]
      cases hs : seat ds.tail (kids (ds 0)) with
      | none => simp [(hne hc).symm]
      | some s =>
        obtain ⟨e, d⟩ := s
        have hec : e ≠ c := by
          rintro rfl
          exact hapart hi hc (seat_mem hs)
        simp [hec]

end Unfolds

/-! ## Who links to a node -/

/-- The nodes that a node links to. -/
def targets (next : α → Fin b → Option α) (a : α) : List α :=
  (List.finRange b).flatMap fun i => (next a i).toList

section

variable {next next' : α → Fin b → Option α}

theorem mem_targets {a c : α} : c ∈ targets next a ↔ ∃ i, next a i = some c := by
  simp [targets]

/-- The nodes of a family are its roots and what its nodes link to. -/
theorem listAll_perm_targets {n : Nat} {f : Fin n → Trie b α} {r : Fin n → Option α}
    (h : ∀ i, (f i).toList.Perm ((r i).toList ++ (f i).toList.flatMap (targets next))) :
    (listAll f).Perm ((List.finRange n).flatMap (fun i => (r i).toList) ++
      (listAll f).flatMap (targets next)) := by
  have hall := List.Perm.flatMap_left (List.finRange n) fun i _ => h i
  have hsplit := List.flatMap_append_perm (List.finRange n) (fun i => (r i).toList)
    fun i => (f i).toList.flatMap (targets next)
  rw [← List.flatMap_assoc] at hsplit
  exact hall.trans hsplit.symm

theorem Unfolds.perm {t : Trie b α} {r : Option α} (h : Unfolds next t r) :
    t.toList.Perm (r.toList ++ t.toList.flatMap (targets next)) := by
  induction t generalizing r with
  | nil =>
    cases h
    exact .refl _
  | node a kids ih =>
    obtain ⟨rfl, hkids⟩ := h
    rw [toList_node, List.flatMap_cons]
    exact (listAll_perm_targets fun i => ih i (hkids i)).cons a

/-- A family of tries without repetition that a graph unfolds to. -/
structure UnfoldsAll {n : Nat} (next : α → Fin b → Option α) (f : Fin n → Trie b α)
    (r : Fin n → Option α) : Prop where
  unfolds : ∀ i, Unfolds next (f i) (r i)
  nodup : (listAll f).Nodup

namespace UnfoldsAll

variable {n : Nat} {f f' : Fin n → Trie b α} {r : Fin n → Option α}

theorem perm (h : UnfoldsAll next f r) :
    (listAll f).Perm ((List.finRange n).flatMap (fun i => (r i).toList) ++
      (listAll f).flatMap (targets next)) :=
  listAll_perm_targets fun i => (h.unfolds i).perm

theorem nodup_targets (h : UnfoldsAll next f r) :
    ((listAll f).flatMap (targets next)).Nodup ∧
      List.Disjoint ((List.finRange n).flatMap fun i => (r i).toList)
        ((listAll f).flatMap (targets next)) := by
  obtain ⟨-, hnodup, hdisjoint⟩ := List.nodup_append'.mp (h.perm.nodup_iff.mp h.nodup)
  exact ⟨hnodup, hdisjoint⟩

/-- No node links to a root. -/
theorem link_ne_root (h : UnfoldsAll next f r) {a c : α} {i : Fin b} (ha : a ∈ listAll f)
    (hlink : next a i = some c) (j : Fin n) : r j ≠ some c := by
  intro hroot
  have hc : c ∈ (List.finRange n).flatMap fun i => (r i).toList :=
    List.mem_flatMap.mpr ⟨j, List.mem_finRange j, by simp [hroot]⟩
  exact h.nodup_targets.2 hc (List.mem_flatMap.mpr ⟨a, ha, mem_targets.mpr ⟨i, hlink⟩⟩)

/-- One link leads to a node. -/
theorem link_unique (h : UnfoldsAll next f r) {a a' c : α} {i i' : Fin b} (ha : a ∈ listAll f)
    (ha' : a' ∈ listAll f) (hlink : next a i = some c) (hlink' : next a' i' = some c) :
    a = a' ∧ i = i' := by
  have hnodup := h.nodup_targets.1
  obtain rfl := flatMap_nodup_unique hnodup ha ha' (mem_targets.mpr ⟨i, hlink⟩)
    (mem_targets.mpr ⟨i', hlink'⟩)
  have hone := (List.nodup_flatMap.mp hnodup).1 a ha
  exact ⟨rfl, flatMap_nodup_unique hone (List.mem_finRange i) (List.mem_finRange i')
    (Option.mem_toList.mpr hlink) (Option.mem_toList.mpr hlink')⟩

/-- A node is a root, or another one links to it. -/
theorem root_or_link (h : UnfoldsAll next f r) {c : α} (hc : c ∈ listAll f) :
    (∃ j, r j = some c) ∨ ∃ a ∈ listAll f, ∃ i, next a i = some c := by
  rcases List.mem_append.mp (h.perm.mem_iff.mp hc) with hroot | hlink
  · obtain ⟨j, -, hj⟩ := List.mem_flatMap.mp hroot
    exact .inl ⟨j, Option.mem_toList.mp hj⟩
  · obtain ⟨a, ha, hlink⟩ := List.mem_flatMap.mp hlink
    exact .inr ⟨a, ha, mem_targets.mp hlink⟩

/-- A link leads to a node. -/
theorem link_mem (h : UnfoldsAll next f r) {a c : α} {i : Fin b} (ha : a ∈ listAll f)
    (hlink : next a i = some c) : c ∈ listAll f := by
  refine h.perm.mem_iff.mpr (List.mem_append_right _ ?_)
  exact List.mem_flatMap.mpr ⟨a, ha, mem_targets.mpr ⟨i, hlink⟩⟩

/-- A graph with the same roots and nodes, each at one place, whose changed links are links of
roots: no link has changed. -/
theorem links_eq (h : UnfoldsAll next f r) (h' : UnfoldsAll next' f' r)
    (hnodes : (listAll f').Perm (listAll f))
    (hchanged : ∀ a ∈ listAll f, ∀ i, next' a i = next a i ∨ ∃ j, next' a i = r j) {a : α}
    (ha : a ∈ listAll f) (i : Fin b) : next' a i = next a i := by
  have hmem : ∀ {c}, c ∈ listAll f → c ∈ listAll f' := fun hc => hnodes.mem_iff.mpr hc
  rcases hchanged a ha i with hsame | ⟨j, hj⟩
  · exact hsame
  cases hroot : r j with
  | some c => exact absurd hroot (h'.link_ne_root (hmem ha) (hj.trans hroot) j)
  | none =>
    rw [hroot] at hj
    cases hold : next a i with
    | none => exact hj
    | some c =>
      -- `c` was below this link only, and has to be somewhere in the new graph
      rcases h'.root_or_link (hmem (h.link_mem ha hold)) with ⟨k, hk⟩ | ⟨d, hd, l, hl⟩
      · exact absurd hk (h.link_ne_root ha hold k)
      · rcases hchanged d (hnodes.mem_iff.mp hd) l with hsame | ⟨k, hk⟩
        · obtain ⟨rfl, rfl⟩ := h.link_unique ha (hnodes.mem_iff.mp hd) hold (hsame.symm.trans hl)
          exact absurd (hj.symm.trans hl) (by simp)
        · exact absurd (hk.symm.trans hl) (h'.link_ne_root hd hl k)

end UnfoldsAll

end

end Trie

end RgMemory
