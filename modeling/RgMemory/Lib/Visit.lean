import RgMemory.Lib.Trie

/-!
# Checked visits of a pointer graph

A visit follows every link below a node, depth first, and gives up at the first node that fails a
test against its parent, at a depth limit, or when its budget of nodes is spent. Shared nodes are
visited once for each path to them, and nothing is assumed of the graph: it may have cycles.

A visit succeeds exactly when the graph unfolds from the node to a finite trie that passes the
tests, within the limits, and then it has spent one unit for each node of the trie
(`visit_eq_some_iff`). The same holds of a row of roots that share one budget
(`visitSlots_eq_some_iff`).
-/

namespace RgMemory.Trie

variable {α : Type} {b : Nat}

/-- Visit the links of a row, one after the other, with one budget. -/
def visitSlots (enter : Nat → α → Option Nat) : List (Option α) → Nat → Option Nat
  | [], budget => some budget
  | none :: rest, budget => visitSlots enter rest budget
  | some a :: rest, budget => (enter budget a).bind (visitSlots enter rest)

/-- Visit what hangs below a node; the answer is the budget that is left. -/
def visit (next : α → Fin b → Option α) (ok : α → α → Bool) : Nat → Nat → α → α → Option Nat
  | 0, _, _, _ => none
  | depth + 1, budget, parent, a =>
    if budget = 0 ∨ ok parent a = false then none
    else
      visitSlots (fun n c => visit next ok depth n a c) ((List.finRange b).map (next a))
        (budget - 1)

/-- Every node passes the test against its parent, and no path has more than so many nodes. -/
def Checked (ok : α → α → Bool) : Nat → α → Trie b α → Prop
  | _, _, nil => True
  | 0, _, node _ _ => False
  | depth + 1, parent, node a kids => ok parent a = true ∧ ∀ i, Checked ok depth a (kids i)

/-! ## Rows -/

section

variable {n : Nat} {enter : Nat → α → Option Nat} {good : Trie b α → Option α → Prop}

/-- A row is visited when each of its links is, at the cost of all of them. -/
theorem visitSlots_eq_some_iff (hnone : ∀ t, good t none ↔ t = nil)
    (hsome : ∀ m a m', enter m a = some m' ↔ ∃ t, good t (some a) ∧ t.toList.length + m' = m)
    (links : Fin n → Option α) {l : List (Fin n)} (hl : l.Nodup) {m m' : Nat} :
    visitSlots enter (l.map links) m = some m' ↔
      ∃ f : Fin n → Trie b α, (∀ i ∈ l, good (f i) (links i)) ∧
        (l.flatMap fun i => (f i).toList).length + m' = m := by
  induction l generalizing m with
  | nil =>
    constructor
    · intro h
      cases h
      exact ⟨fun _ => nil, nofun, Nat.zero_add _⟩
    · rintro ⟨f, -, hm⟩
      have : m' = m := (Nat.zero_add m').symm.trans hm
      exact congrArg some this.symm
  | cons i rest ih =>
    obtain ⟨hi, hrest⟩ := List.nodup_cons.mp hl
    simp only [List.map_cons, List.flatMap_cons, List.length_append, List.forall_mem_cons]
    cases hlink : links i with
    | none =>
      rw [visitSlots, ih hrest]
      constructor
      · rintro ⟨f, hf, hm⟩
        -- the trie of an empty link is empty, whatever the rest of the row chose for it
        have hsame := flatMap_update_of_notMem hi f nil toList
        refine ⟨Function.update f i nil, ⟨?_, fun j hj => ?_⟩, ?_⟩
        · rw [Function.update_self]
          exact (hnone nil).mpr rfl
        · rw [Function.update_of_ne (ne_of_mem_of_not_mem hj hi)]
          exact hf j hj
        · rw [Function.update_self, hsame, toList_nil, List.length_nil, Nat.zero_add]
          exact hm
      · rintro ⟨f, ⟨hfi, hf⟩, hm⟩
        rw [(hnone _).mp hfi, toList_nil, List.length_nil, Nat.zero_add] at hm
        exact ⟨f, hf, hm⟩
    | some a =>
      rw [visitSlots, Option.bind_eq_some_iff]
      constructor
      · rintro ⟨k, henter, hrow⟩
        obtain ⟨t, ht, hk⟩ := (hsome m a k).mp henter
        obtain ⟨f, hf, hm⟩ := (ih hrest).mp hrow
        have hsame := flatMap_update_of_notMem hi f t toList
        refine ⟨Function.update f i t, ⟨?_, fun j hj => ?_⟩, ?_⟩
        · rwa [Function.update_self]
        · rw [Function.update_of_ne (ne_of_mem_of_not_mem hj hi)]
          exact hf j hj
        · rw [Function.update_self, hsame]
          omega
      · rintro ⟨f, ⟨hfi, hf⟩, hm⟩
        refine ⟨(rest.flatMap fun j => (f j).toList).length + m', ?_, ?_⟩
        · exact (hsome ..).mpr ⟨f i, hfi, by omega⟩
        · exact (ih hrest).mpr ⟨f, hf, rfl⟩

/-- The same for a whole family of links. -/
theorem visitSlots_finRange (hnone : ∀ t, good t none ↔ t = nil)
    (hsome : ∀ m a m', enter m a = some m' ↔ ∃ t, good t (some a) ∧ t.toList.length + m' = m)
    (links : Fin n → Option α) {m m' : Nat} :
    visitSlots enter ((List.finRange n).map links) m = some m' ↔
      ∃ f : Fin n → Trie b α, (∀ i, good (f i) (links i)) ∧ (listAll f).length + m' = m := by
  rw [visitSlots_eq_some_iff hnone hsome links (List.nodup_finRange n)]
  simp [listAll]

end

/-! ## Visits -/

section

variable {next : α → Fin b → Option α} {ok : α → α → Bool}

theorem unfolds_none_iff {depth : Nat} {parent : α} (t : Trie b α) :
    Unfolds next t none ∧ Checked ok depth parent t ↔ t = nil := by
  constructor
  · rintro ⟨h, -⟩
    exact h.eq_none_iff.mp rfl
  · rintro rfl
    exact ⟨rfl, by cases depth <;> trivial⟩

/-- A visit succeeds when the graph unfolds to a trie that passes, at the cost of its nodes. -/
theorem visit_eq_some_iff {depth budget : Nat} {parent a : α} {left : Nat} :
    visit next ok depth budget parent a = some left ↔
      ∃ t, (Unfolds next t (some a) ∧ Checked ok depth parent t) ∧
        t.toList.length + left = budget := by
  induction depth generalizing budget parent a left with
  | zero =>
    constructor
    · nofun
    · rintro ⟨t, ⟨hunf, hcheck⟩, -⟩
      cases t with
      | nil => cases hunf
      | node c kids => exact absurd hcheck id
  | succ depth ih =>
    have hrow := @visitSlots_finRange α b b (fun n c => visit next ok depth n a c)
      (fun t r => Unfolds next t r ∧ Checked ok depth a t) unfolds_none_iff
      (fun _ _ _ => ih) (next a) (budget - 1) left
    rw [visit]
    constructor
    · intro h
      split at h
      · cases h
      · next hgo =>
        obtain ⟨kids, hkids, hcost⟩ := hrow.mp h
        have hok : ok parent a = true := by simpa using fun hf => hgo (.inr hf)
        have hpos : budget ≠ 0 := fun hz => hgo (.inl hz)
        refine ⟨node a kids, ⟨⟨rfl, fun i => (hkids i).1⟩, hok, fun i => (hkids i).2⟩, ?_⟩
        rw [toList_node, List.length_cons]
        omega
    · rintro ⟨t, ⟨hunf, hcheck⟩, hcost⟩
      cases t with
      | nil => cases hunf
      | node c kids =>
        obtain ⟨hac, hkids⟩ := hunf
        cases hac
        rw [toList_node, List.length_cons] at hcost
        have hgo : ¬ (budget = 0 ∨ ok parent a = false) := by
          rintro (hz | hf)
          · omega
          · rw [hcheck.1] at hf
            cases hf
        rw [if_neg hgo]
        exact hrow.mpr ⟨kids, fun i => ⟨hkids i, hcheck.2 i⟩, by omega⟩

/-- A visit never adds to its budget. -/
theorem visit_le {depth budget : Nat} {parent a : α} {left : Nat}
    (h : visit next ok depth budget parent a = some left) : left ≤ budget := by
  obtain ⟨t, -, hcost⟩ := visit_eq_some_iff.mp h
  omega

end

/-! ## What a check gives -/

theorem Checked.depthLe {ok : α → α → Bool} {depth : Nat} {parent : α} {t : Trie b α}
    (h : Checked ok depth parent t) : t.DepthLe depth := by
  induction t generalizing depth parent with
  | nil => cases depth <;> trivial
  | node a kids ih =>
    cases depth with
    | zero => exact absurd h id
    | succ depth => exact fun i => ih i (h.2 i)

/-- What the test says of a node whatever its parent holds of every node. -/
theorem Checked.forall {ok : α → α → Bool} {P : α → Prop} (hP : ∀ p a, ok p a = true → P a)
    {depth : Nat} {parent : α} {t : Trie b α} (h : Checked ok depth parent t) :
    ∀ a ∈ t.toList, P a := by
  induction t generalizing depth parent with
  | nil => nofun
  | node a kids ih =>
    cases depth with
    | zero => exact absurd h id
    | succ depth =>
      intro c hc
      rcases mem_node.mp hc with rfl | ⟨i, hi⟩
      · exact hP parent c h.1
      · exact ih i (h.2 i) c hi

/-! ## Parents and children -/

/-- Every node stands in the relation `r` to its parent; `p` takes the place of the root's. -/
def Descends (r : α → α → Prop) : α → Trie b α → Prop
  | _, nil => True
  | p, node a kids => r p a ∧ ∀ i, Descends r a (kids i)

section

variable {r : α → α → Prop} {p x : α} {t : Trie b α}

/-- A node that stands in the relation to all nodes can be added. -/
theorem Descends.add {ds : Digits b} (h : Descends r p t) (hp : r p x)
    (hall : ∀ a ∈ t.toList, r a x) : Descends r p (t.add x ds) := by
  induction t generalizing p ds with
  | nil => exact ⟨hp, fun _ => trivial⟩
  | node a kids ih =>
    refine ⟨h.1, fun i => ?_⟩
    by_cases hi : i = ds 0
    · subst hi
      rw [Function.update_self]
      exact ih _ (h.2 _) (hall a List.mem_cons_self) fun c hc => hall c (mem_kid hc)
    · rw [Function.update_of_ne hi]
      exact h.2 i

/-- The root is related to the node above it. -/
theorem Descends.root {next : α → Fin b → Option α} {c : α} (h : Descends r p t)
    (hunf : Unfolds next t (some c)) : c ∈ t.toList ∧ r p c := by
  cases t with
  | nil => cases hunf
  | node a kids =>
    cases hunf.1
    exact ⟨List.mem_cons_self, h.1⟩

/-- A link of a node leads to a node of the trie, related to it. -/
theorem Descends.link {next : α → Fin b → Option α} {root : Option α} (h : Descends r p t)
    (hunf : Unfolds next t root) {a c : α} (ha : a ∈ t.toList) {i : Fin b}
    (hlink : next a i = some c) : c ∈ t.toList ∧ r a c := by
  induction t generalizing p root with
  | nil => cases ha
  | node d kids ih =>
    rcases mem_node.mp ha with rfl | ⟨j, hj⟩
    · have hkid := hunf.2 i
      rw [hlink] at hkid
      obtain ⟨hmem, hr⟩ := (h.2 i).root hkid
      exact ⟨mem_kid hmem, hr⟩
    · obtain ⟨hmem, hr⟩ := ih j (h.2 j) (hunf.2 j) hj
      exact ⟨mem_kid hmem, hr⟩

/-- A bounded trie whose nodes pass is checked. -/
theorem Descends.checked {ok : α → α → Bool} {P : α → Prop} {depth : Nat}
    (hok : ∀ p a, r p a → P a → ok p a = true) (h : Descends r p t) (hP : ∀ a ∈ t.toList, P a)
    (hdepth : t.DepthLe depth) : Checked ok depth p t := by
  induction t generalizing p depth with
  | nil => cases depth <;> trivial
  | node a kids ih =>
    cases depth with
    | zero => exact absurd hdepth id
    | succ depth =>
      exact ⟨hok p a h.1 (hP a List.mem_cons_self), fun i =>
        ih i (h.2 i) (fun c hc => hP c (mem_kid hc)) (hdepth i)⟩

/-- A checked trie descends in what the test says of parent and child. -/
theorem Checked.descends {ok : α → α → Bool} {depth : Nat} (hr : ∀ p a, ok p a = true → r p a)
    (h : Checked ok depth p t) : Descends r p t := by
  induction t generalizing p depth with
  | nil => trivial
  | node a kids ih =>
    cases depth with
    | zero => exact absurd h id
    | succ depth => exact ⟨hr p a h.1, fun i => ih i (h.2 i)⟩

/-! ### Relations that end -/

variable {rank : α → Nat}

/-- A walk along a relation that descends in rank is no longer than the rank. -/
theorem Descends.depthLe (hrank : ∀ a c, r a c → rank c < rank a) (h : Descends r p t) :
    t.DepthLe (rank p) := by
  induction t generalizing p with
  | nil => cases rank p <;> trivial
  | node a kids ih =>
    have hlt := hrank p a h.1
    obtain ⟨n, hn⟩ : ∃ n, rank p = n + 1 := ⟨rank p - 1, by omega⟩
    rw [hn]
    exact fun i => (ih i (h.2 i)).mono (by omega)

/-- A graph unfolds from the nodes of a set that its links do not leave, if they descend in rank. -/
theorem exists_unfolds {next : α → Fin b → Option α} {N : α → Prop}
    (hclosed : ∀ a, N a → ∀ i c, next a i = some c → N c ∧ r a c)
    (hrank : ∀ a c, r a c → rank c < rank a) {a : α} (ha : N a) (hp : r p a) :
    ∃ t, Unfolds next t (some a) ∧ (∀ c ∈ t.toList, N c) ∧ Descends r p t := by
  obtain ⟨n, hn⟩ : ∃ n, n = rank a := ⟨_, rfl⟩
  induction n using Nat.strong_induction_on generalizing a p with
  | _ n ih =>
    have hkid : ∀ i, ∃ t, Unfolds next t (next a i) ∧ (∀ c ∈ t.toList, N c) ∧ Descends r a t := by
      intro i
      cases hlink : next a i with
      | none => exact ⟨nil, rfl, by simp, trivial⟩
      | some c =>
        obtain ⟨hc, hac⟩ := hclosed a ha i c hlink
        exact ih (rank c) (hn ▸ hrank a c hac) hc hac rfl
    choose kids hunf hmem hdesc using hkid
    refine ⟨node a kids, ⟨rfl, hunf⟩, fun c hc => ?_, hp, hdesc⟩
    rcases mem_node.mp hc with rfl | ⟨i, hi⟩
    · exact ha
    · exact hmem i c hi

/-- So it does from every root of a family that lies in the set. -/
theorem exists_unfolds_family {n : Nat} {next : α → Fin b → Option α} {N : α → Prop}
    (hclosed : ∀ a, N a → ∀ i c, next a i = some c → N c ∧ r a c)
    (hrank : ∀ a c, r a c → rank c < rank a) {roots : Fin n → Option α}
    (hroots : ∀ j c, roots j = some c → N c ∧ r p c) :
    ∃ f : Fin n → Trie b α, ∀ j, Unfolds next (f j) (roots j) ∧ (∀ c ∈ (f j).toList, N c) ∧
      Descends r p (f j) := by
  have hone : ∀ j, ∃ t, Unfolds next t (roots j) ∧ (∀ c ∈ t.toList, N c) ∧ Descends r p t := by
    intro j
    cases hroot : roots j with
    | none => exact ⟨nil, rfl, by simp, trivial⟩
    | some c =>
      obtain ⟨hc, hpc⟩ := hroots j c hroot
      exact exists_unfolds hclosed hrank hc hpc
  choose f hf using hone
  exact ⟨f, hf⟩

end

end RgMemory.Trie
