import RgMemory.Lib.Sweep

/-!
# The order of a sweep

A forest whose links do not change hangs a trie on each of its seats (`Hangs`), and a sweep visits
the nodes of these tries in pre-order: what it has visited, followed by what it still has to visit,
is the same list in every step (`Sweep.Step.visits`), so at the end it is the list of all nodes.

`exists_hangs` says that there are such tries when every node lies on the path of its key and the
nodes are finitely many, because a child is farther from its root than its parent.
-/

namespace RgMemory.Links

open Trie

variable {ρ α : Type} {b m : Nat}

/-- The tries that hang on the seats. -/
structure Hangs (f : Seat ρ α b → Option α) (T : Seat ρ α b → Trie b α) : Prop where
  empty : ∀ x, f x = none → T x = nil
  node : ∀ x a, f x = some a → T x = node a fun i => T (.child a i)

namespace Hangs

variable {f : Seat ρ α b → Option α} {T : Seat ρ α b → Trie b α}

/-- They are what the links unfold to. -/
theorem unfolds (h : Hangs f T) (x : Seat ρ α b) :
    Unfolds (fun a i => f (.child a i)) (T x) (f x) := by
  generalize ht : T x = t
  induction t generalizing x with
  | nil =>
    cases hx : f x with
    | none => rfl
    | some a =>
      rw [h.node x a hx] at ht
      cases ht
  | node c kids ih =>
    cases hx : f x with
    | none =>
      rw [h.empty x hx] at ht
      cases ht
    | some a =>
      rw [h.node x a hx] at ht
      cases ht
      exact ⟨rfl, fun i => ih i (.child c i) rfl⟩

theorem toList_empty (h : Hangs f T) {x : Seat ρ α b} (hx : f x = none) : (T x).toList = [] := by
  rw [h.empty x hx, toList_nil]

theorem toList_node (h : Hangs f T) {x : Seat ρ α b} {a : α} (hx : f x = some a) :
    (T x).toList = a :: (List.finRange b).flatMap fun i => (T (.child a i)).toList := by
  rw [h.node x a hx]
  rfl

end Hangs

/-! ## What a sweep has to visit -/

namespace Sweep

/-- The nodes that a frame has to visit: its own, and those below its children. -/
def frameTodo (T : Seat (Fin m) α b → Trie b α) (fr : SweepFrame α) : List α :=
  (if fr.visited then [] else [fr.node]) ++
    ((List.finRange b).drop fr.next).flatMap fun i => (T (.child fr.node i)).toList

/-- The nodes that a sweep has to visit. -/
def todo (T : Seat (Fin m) α b → Trie b α) (sw : Sweep α) : List α :=
  sw.frames.flatMap (frameTodo T) ++
    ((List.finRange m).drop sw.top).flatMap fun i => (T (.root i)).toList

theorem todo_start (T : Seat (Fin m) α b → Trie b α) :
    (start : Sweep α).todo T = listAll fun i => T (.root i) := rfl

theorem todo_through (T : Seat (Fin m) α b → Trie b α) {sw : Sweep α} (hframes : sw.frames = [])
    (htop : m ≤ sw.top) : sw.todo T = [] := by
  have hdrop : (List.finRange m).drop sw.top = [] :=
    List.drop_eq_nil_of_le (by rwa [List.length_finRange])
  rw [todo, hframes, hdrop]
  rfl

theorem drop_finRange {n k : Nat} (hk : k < n) :
    (List.finRange n).drop k = ⟨k, hk⟩ :: (List.finRange n).drop (k + 1) := by
  have hlen : k < (List.finRange n).length := by rwa [List.length_finRange]
  rw [List.drop_eq_getElem_cons hlen, List.getElem_finRange]
  rfl

variable {f : Seat (Fin m) α b → Option α} {T : Seat (Fin m) α b → Trie b α} {sw sw' : Sweep α}

/-- A step visits the next node that the sweep has to visit, or none. -/
theorem Step.visits (h : Hangs f T) (hstep : Step f sw sw') :
    sw'.visited ++ sw'.todo T = sw.visited ++ sw.todo T := by
  cases hstep with
  | @visit top k a rest seen =>
    simp [todo, frameTodo]
  | @skip top k a rest seen hk empty =>
    simp [todo, frameTodo, drop_finRange hk, h.toList_empty empty]
  | @enter top k a c rest seen hk link =>
    simp [todo, frameTodo, drop_finRange hk, h.toList_node link]
  | @leave top k a rest seen hk =>
    have hdrop : (List.finRange b).drop k = [] :=
      List.drop_eq_nil_of_le (by rwa [List.length_finRange])
    simp [todo, frameTodo, hdrop]
  | @skipRoot top seen ht empty =>
    simp [todo, drop_finRange ht, h.toList_empty empty]
  | @enterRoot top c seen ht link =>
    simp [todo, frameTodo, drop_finRange ht, h.toList_node link]

end Sweep

/-! ## The tries are there -/

/-- What hangs on a seat, down to `n` nodes. -/
def unroll (f : Seat ρ α b → Option α) : Nat → Seat ρ α b → Trie b α
  | 0, _ => nil
  | n + 1, x =>
    match f x with
    | none => nil
    | some a => node a fun i => unroll f n (.child a i)

variable {κ : Type} {root : κ → ρ} {digits : κ → Digits b} {key : α → Option κ}
  {f : Seat ρ α b → Option α}

/-- A filled child is one node farther from its root than its parent. -/
theorem Placed.depth_child (h : Placed root digits key f) {x : Seat ρ α b} {a c : α} {i : Fin b}
    (hx : f x = some a) (hc : f (.child a i) = some c) {r : ρ} {ds : Digits b} {n : Nat}
    (hwalk : Walk f (fun _ => True) r ds n x) :
    ∃ r' ds', Walk f (fun _ => True) r' ds' (n + 1) (.child a i) := by
  obtain ⟨k, -, m, y, hwalk', hy⟩ := h.onPath _ c hc
  obtain rfl := h.once y (.child a i) c hy hc
  cases hwalk' with
  | @child m' x' a' before link holds =>
    obtain rfl := h.once x' x a link hx
    rw [hwalk.depth_unique h.once before]
    exact ⟨_, _, .child before link holds⟩

/-- Beyond the number of nodes, unrolling more changes nothing. -/
theorem Placed.unroll_succ (h : Placed root digits key f) {nodes : List α}
    (hnodes : ∀ x a, f x = some a → a ∈ nodes) {n d : Nat} {x : Seat ρ α b} {r : ρ} {ds : Digits b}
    (hwalk : Walk f (fun _ => True) r ds d x) (hle : nodes.length ≤ d + n) :
    unroll f n x = unroll f (n + 1) x := by
  induction n generalizing d x r ds with
  | zero =>
    cases hx : f x with
    | none => rw [unroll, unroll, hx]
    | some a =>
      have := hwalk.length_lt h.once hx hnodes
      omega
  | succ n ih =>
    rw [unroll, unroll]
    cases hx : f x with
    | none => rfl
    | some a =>
      refine congrArg (node a) (funext fun i => ?_)
      cases hc : f (.child a i) with
      | none => cases n <;> simp only [unroll, hc]
      | some c =>
        obtain ⟨r', ds', hchild⟩ := h.depth_child hx hc hwalk
        exact ih hchild (by omega)

theorem Placed.exists_hangs (h : Placed root digits key f) {nodes : List α}
    (hnodes : ∀ x a, f x = some a → a ∈ nodes) : ∃ T, Hangs f T := by
  refine ⟨unroll f (nodes.length + 1), fun x hx => ?_, fun x a hx => ?_⟩
  · rw [unroll, hx]
  · obtain ⟨k, -, n, y, hwalk, hy⟩ := h.onPath x a hx
    obtain rfl := h.once y x a hy hx
    rw [unroll, hx]
    refine congrArg (node a) (funext fun i => ?_)
    cases hc : f (.child a i) with
    | none => cases nodes.length <;> simp only [unroll, hc]
    | some c =>
      obtain ⟨r', ds', hchild⟩ := h.depth_child hx hc hwalk
      exact h.unroll_succ hnodes hchild (by omega)

/-! ## All nodes -/

/-- A sweep is through, or takes a step. -/
theorem Sweep.exists_step (f : Seat (Fin m) α b → Option α) (sw : Sweep α) :
    (sw.frames = [] ∧ m ≤ sw.top) ∨ ∃ sw', Step f sw sw' := by
  obtain ⟨top, frames, seen⟩ := sw
  cases frames with
  | nil =>
    by_cases ht : top < m
    · cases hx : f (.root ⟨top, ht⟩) with
      | none => exact .inr ⟨_, .skipRoot ht hx⟩
      | some c => exact .inr ⟨_, .enterRoot ht hx⟩
    · exact .inl ⟨rfl, Nat.le_of_not_lt ht⟩
  | cons fr rest =>
    obtain ⟨a, v, k⟩ := fr
    cases v with
    | false => exact .inr ⟨_, .visit⟩
    | true =>
      by_cases hk : k < b
      · cases hx : f (.child a ⟨k, hk⟩) with
        | none => exact .inr ⟨_, .skip hk hx⟩
        | some c => exact .inr ⟨_, .enter hk hx⟩
      · exact .inr ⟨_, .leave (Nat.le_of_not_lt hk)⟩

section

variable {κ : Type} {root : κ → Fin m} {digits : κ → Digits b} {key : α → Option κ}
  {f : Seat (Fin m) α b → Option α} {T : Seat (Fin m) α b → Trie b α}

/-- A sweep gets through, and then it has visited what it had to. -/
theorem Hangs.through (hT : Hangs f T) (h : Placed root digits key f) {nodes : List α}
    (hnodes : ∀ x a, f x = some a → a ∈ nodes) {sw : Sweep α} (hsound : sw.Sound f f) :
    ∃ top, m ≤ top ∧ (⟨top, [], sw.visited ++ sw.todo T⟩ : Sweep α).Sound f f := by
  induction hw : sw.work m b nodes.length using Nat.strong_induction_on generalizing sw with
  | _ w ih =>
    rcases sw.exists_step f with ⟨hframes, htop⟩ | ⟨sw', hstep⟩
    · rw [Sweep.todo_through T hframes htop, List.append_nil]
      obtain ⟨top, frames, seen⟩ := sw
      cases hframes
      exact ⟨top, htop, hsound⟩
    · have hsound' := hsound.step (Grows.refl f) h.once hstep
      obtain ⟨top, htop, hend⟩ := ih _ (hw ▸ hstep.work_lt (hsound'.met_le hnodes)) hsound' rfl
      rw [hstep.visits hT] at hend
      exact ⟨top, htop, hend⟩

/-- The tries on the roots have each linked node, and none twice. -/
theorem Hangs.listAll (hT : Hangs f T) (h : Placed root digits key f) {nodes : List α}
    (hnodes : ∀ x a, f x = some a → a ∈ nodes) :
    (Trie.listAll fun i => T (.root i)).Nodup ∧
      ∀ a, a ∈ Trie.listAll (fun i => T (.root i)) ↔ ∃ x, f x = some a := by
  obtain ⟨top, htop, hend⟩ := hT.through h hnodes (Sweep.Sound.start f f)
  have hvisited : Sweep.start.visited ++ Sweep.start.todo T = Trie.listAll fun i => T (.root i) := rfl
  rw [hvisited] at hend
  have hmet : (⟨top, [], Trie.listAll fun i => T (.root i)⟩ : Sweep α).met =
      Trie.listAll fun i => T (.root i) := List.append_nil _
  refine ⟨hmet ▸ hend.nodup, fun a => ⟨fun ha => ?_, fun ⟨x, hx⟩ => ?_⟩⟩
  · obtain ⟨x, hx, -⟩ := hend.seated a (hmet.symm ▸ ha)
    exact ⟨x, hx⟩
  · obtain ⟨k, -, hpath⟩ := h.onPath x a hx
    exact hend.visited_of_onPath rfl htop hpath

end

end RgMemory.Links
