import Mathlib.Data.List.Perm.Subperm
import RgMemory.Lib.Trie

/-!
# Forests of links that only grow

A linked structure has seats, which are its roots and the children of its nodes; a seat is empty or
holds a node. `Grows` compares two such structures when seats are only ever filled. A walk from a
root reads a digit at each node to choose the next seat; `Walk` also says what held of the nodes it
passed.

A walk stays a walk as the structure grows (`Walk.grows`), and when it has come to an empty seat it
has passed every node on its path (`Walk.passed_of_empty`).
-/

namespace RgMemory.Links

variable {ρ α : Type} {b : Nat}

/-- Where a link is: at a root, or at a node. -/
inductive Seat (ρ α : Type) (b : Nat)
  | root (r : ρ)
  | child (a : α) (i : Fin b)
  deriving DecidableEq

/-- Filled seats keep their nodes. -/
def Grows (f g : Seat ρ α b → Option α) : Prop := ∀ x a, f x = some a → g x = some a

theorem Grows.refl (f : Seat ρ α b → Option α) : Grows f f := fun _ _ h => h

theorem Grows.trans {f g h : Seat ρ α b → Option α} (hfg : Grows f g) (hgh : Grows g h) :
    Grows f h := fun x a hx => hgh x a (hfg x a hx)

/-- Filling an empty seat. -/
theorem fill_grows [DecidableEq ρ] [DecidableEq α] {f : Seat ρ α b → Option α} {x : Seat ρ α b}
    (hempty : f x = none) (c : α) : Grows f (Function.update f x (some c)) := by
  intro y a hy
  rwa [Function.update_of_ne]
  rintro rfl
  rw [hempty] at hy
  cases hy

/-- The walk along `ds` from `r` comes to the seat `x` after `n` nodes, and each of them satisfies
`p`. -/
inductive Walk (f : Seat ρ α b → Option α) (p : α → Prop) (r : ρ) (ds : Digits b) :
    Nat → Seat ρ α b → Prop
  | root : Walk f p r ds 0 (.root r)
  | child {n : Nat} {x : Seat ρ α b} {a : α} (before : Walk f p r ds n x) (link : f x = some a)
      (holds : p a) : Walk f p r ds (n + 1) (.child a (ds n))

/-- A node lies on the path of `ds` from `r`. -/
def OnPath (f : Seat ρ α b → Option α) (r : ρ) (ds : Digits b) (a : α) : Prop :=
  ∃ n x, Walk f (fun _ => True) r ds n x ∧ f x = some a

variable {f g : Seat ρ α b → Option α} {p q : α → Prop} {r : ρ} {ds : Digits b} {n m : Nat}
  {x y : Seat ρ α b} {a : α}

theorem Walk.grows (h : Walk f p r ds n x) (hg : Grows f g) (hp : ∀ a, p a → q a) :
    Walk g q r ds n x := by
  induction h with
  | root => exact .root
  | child _ link holds ih => exact .child ih (hg _ _ link) (hp _ holds)

theorem OnPath.grows (h : OnPath f r ds a) (hg : Grows f g) : OnPath g r ds a := by
  obtain ⟨n, x, hwalk, hx⟩ := h
  exact ⟨n, x, hwalk.grows hg fun _ h => h, hg x a hx⟩

/-- A walk ends on a node of its path. -/
theorem Walk.onPath (h : Walk f p r ds n x) (hx : f x = some a) : OnPath f r ds a :=
  ⟨n, x, h.grows (Grows.refl f) fun _ _ => trivial, hx⟩

/-- The digits and the number of nodes determine the seat. -/
theorem Walk.unique (h : Walk f p r ds n x) (h' : Walk f q r ds n y) : x = y := by
  induction h generalizing y with
  | root =>
    cases h'
    rfl
  | child _ link _ ih =>
    cases h' with
    | child before link' =>
      cases ih before
      cases link.symm.trans link'
      rfl

/-- A longer walk has passed the node where a shorter one stands. -/
theorem Walk.passed (h : Walk f p r ds n x) (h' : Walk f q r ds m y) (hlt : m < n) :
    ∃ a, f y = some a ∧ p a := by
  induction h with
  | root => exact absurd hlt (Nat.not_lt_zero m)
  | @child n x a before link holds ih =>
    rcases Nat.lt_succ_iff_lt_or_eq.mp hlt with hlt | rfl
    · exact ih hlt
    · cases before.unique h'
      exact ⟨a, link, holds⟩

/-- A walk that has come to an empty seat has passed all nodes of its path. -/
theorem Walk.passed_of_empty (h : Walk f p r ds n x) (hempty : f x = none) (ha : OnPath f r ds a) :
    p a := by
  obtain ⟨m, y, hwalk, hy⟩ := ha
  rcases Nat.lt_trichotomy m n with hlt | rfl | hgt
  · obtain ⟨c, hc, hp⟩ := h.passed hwalk hlt
    cases hy.symm.trans hc
    exact hp
  · cases h.unique hwalk
    rw [hempty] at hy
    cases hy
  · obtain ⟨c, hc, -⟩ := hwalk.passed h hgt
    rw [hempty] at hc
    cases hc

/-! ## The length of a walk -/

/-- When no node has two seats, a walk comes to a seat once. -/
theorem Walk.depth_unique (honce : ∀ x y a, f x = some a → f y = some a → x = y)
    (h : Walk f p r ds n x) {r' : ρ} {ds' : Digits b} (h' : Walk f q r' ds' m x) : n = m := by
  induction h generalizing m with
  | root =>
    cases h'
    rfl
  | @child n x a before link _ ih =>
    generalize hy : Seat.child a (ds n) = y at h'
    cases h' with
    | root => cases hy
    | @child m' x' a' before' link' _ =>
      obtain ⟨rfl, -⟩ := Seat.child.inj hy
      obtain rfl := honce x x' a link link'
      rw [ih before']

/-- The nodes that a walk has passed are different. -/
theorem Walk.path (honce : ∀ x y a, f x = some a → f y = some a → x = y)
    (h : Walk f p r ds n x) :
    ∃ l : List α, l.length = n ∧ l.Nodup ∧
      ∀ c ∈ l, ∃ m y, m < n ∧ Walk f p r ds m y ∧ f y = some c := by
  induction h with
  | root => exact ⟨[], rfl, List.nodup_nil, nofun⟩
  | @child n x a before link _ ih =>
    obtain ⟨l, hlen, hnodup, hl⟩ := ih
    refine ⟨a :: l, by rw [List.length_cons, hlen], List.nodup_cons.mpr ⟨fun ha => ?_, hnodup⟩, ?_⟩
    · obtain ⟨m, y, hlt, hwalk, hy⟩ := hl a ha
      obtain rfl := honce x y a link hy
      exact Nat.ne_of_gt hlt (before.depth_unique honce hwalk)
    · intro c hc
      rcases List.mem_cons.mp hc with rfl | hc
      · exact ⟨n, x, Nat.lt_succ_self n, before, link⟩
      · obtain ⟨m, y, hlt, hrest⟩ := hl c hc
        exact ⟨m, y, Nat.lt_succ_of_lt hlt, hrest⟩

/-- A walk that stands on a node is shorter than the number of nodes. -/
theorem Walk.length_lt (honce : ∀ x y a, f x = some a → f y = some a → x = y)
    (h : Walk f p r ds n x) (hx : f x = some a) {nodes : List α}
    (hnodes : ∀ x a, f x = some a → a ∈ nodes) : n < nodes.length := by
  have hon : Walk f (fun _ => True) r ds (n + 1) (.child a (ds n)) :=
    .child (h.grows (Grows.refl f) fun _ _ => trivial) hx trivial
  obtain ⟨l, hlen, hnodup, hl⟩ := hon.path honce
  have hle : l.length ≤ nodes.length := by
    refine (hnodup.subperm fun c hc => ?_).length_le
    obtain ⟨m, y, -, -, hy⟩ := hl c hc
    exact hnodes y c hy
  omega

/-! ## Nodes on the paths of their keys -/

section

variable {κ : Type} {root : κ → ρ} {digits : κ → Digits b} {key key' : α → Option κ}

/-- Every linked node has a key, lies on the path of its key, and shares it with no other node; no
node is linked twice. -/
structure Placed (root : κ → ρ) (digits : κ → Digits b) (key : α → Option κ)
    (f : Seat ρ α b → Option α) : Prop where
  onPath : ∀ x a, f x = some a → ∃ k, key a = some k ∧ OnPath f (root k) (digits k) a
  once : ∀ x y a, f x = some a → f y = some a → x = y
  unique : ∀ x y a c, f x = some a → f y = some c → key a = key c → a = c

namespace Placed

theorem empty : Placed root digits key (fun _ => none) :=
  ⟨nofun, nofun, nofun⟩

/-- The keys of the linked nodes are all that matters. -/
theorem congr (h : Placed root digits key f) (hkey : ∀ x a, f x = some a → key' a = key a) :
    Placed root digits key' f where
  onPath x a hx := by
    rw [hkey x a hx]
    exact h.onPath x a hx
  once := h.once
  unique x y a c hx hy hac := by
    rw [hkey x a hx, hkey y c hy] at hac
    exact h.unique x y a c hx hy hac

/-- No node of a key is linked when a walk of the key has passed other keys only and come to an
empty seat. -/
theorem absent (h : Placed root digits key f) {k : κ}
    (hwalk : Walk f (fun a => key a ≠ some k) (root k) (digits k) n x) (hempty : f x = none)
    (hy : f y = some a) : key a ≠ some k := by
  intro hk
  obtain ⟨k', hk', hpath⟩ := h.onPath y a hy
  cases hk.symm.trans hk'
  exact hwalk.passed_of_empty hempty hpath hk

/-- A new node of the key joins at the end of such a walk. -/
theorem fill [DecidableEq ρ] [DecidableEq α] (h : Placed root digits key f) {k : κ} {c : α}
    (hwalk : Walk f (fun a => key a ≠ some k) (root k) (digits k) n x) (hempty : f x = none)
    (hc : key c = some k) (hnew : ∀ y, f y ≠ some c) :
    Placed root digits key (Function.update f x (some c)) := by
  have hgrows : Grows f (Function.update f x (some c)) := fill_grows hempty c
  have hcases : ∀ {y a}, Function.update f x (some c) y = some a →
      y = x ∧ a = c ∨ y ≠ x ∧ f y = some a := by
    intro y a hy
    by_cases hyx : y = x
    · subst hyx
      rw [Function.update_self] at hy
      exact .inl ⟨rfl, (Option.some.inj hy).symm⟩
    · rw [Function.update_of_ne hyx] at hy
      exact .inr ⟨hyx, hy⟩
  constructor
  · intro y a hy
    rcases hcases hy with ⟨rfl, rfl⟩ | ⟨-, hold⟩
    · exact ⟨k, hc, n, y, hwalk.grows hgrows fun _ _ => trivial, hy⟩
    · obtain ⟨k', hk', hpath⟩ := h.onPath y a hold
      exact ⟨k', hk', hpath.grows hgrows⟩
  · intro y z a hy hz
    rcases hcases hy with ⟨rfl, rfl⟩ | ⟨-, hold⟩ <;> rcases hcases hz with ⟨hzx, hzc⟩ | ⟨-, hold'⟩
    · exact hzx.symm
    · exact absurd hold' (hnew z)
    · exact absurd (hzc ▸ hold) (hnew y)
    · exact h.once y z a hold hold'
  · intro y z a e hy hz hkey
    rcases hcases hy with ⟨rfl, rfl⟩ | ⟨-, hold⟩ <;> rcases hcases hz with ⟨-, hzc⟩ | ⟨-, hold'⟩
    · exact hzc.symm
    · exact absurd (hkey.symm.trans hc) (h.absent hwalk hempty hold')
    · exact absurd (hkey.trans (hzc ▸ hc)) (h.absent hwalk hempty hold)
    · exact h.unique y z a e hold hold' hkey

end Placed

end

end RgMemory.Links
