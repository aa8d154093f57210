import Mathlib.Data.Set.Card
import RgMemory.Lib.Progress
import RgMemory.Slots.Sweep

/-!
# Calls of Put and Get are bounded

A Put that loses a race does not start over: the node that won is on the path of its key, so the
descent goes on past it. A call therefore takes at most four steps at each published node that it
passes, and the published nodes are no more than the Puts that have ended. This holds whatever the
other threads do (`slot_calls_bounded`).

The node of a lost race stays in the arena of its thread. Each loss is to a node that was published
during the call, and no two are to the same one, so a call leaves no more nodes in its arena than were
published while it ran.
-/

namespace RgMemory

open Bytes Links Concurrent

section

variable {ω β ι κ τ : Type} {K : SlotKeys β κ} {page : Nat} {s s' s₀ : Slots β τ}

/-! ## Published nodes and the nodes of a thread -/

namespace Slots

/-- The nodes in the arena of a thread, published or not. -/
def nodesOf (s : Slots β τ) (t : τ) : Set Nat := {a | s.heap a ≠ none ∧ s.Owns t a}

/-- The nodes that have been published since. -/
def publishedSince (s₀ s : Slots β τ) : Set Nat := {a | s.Linked a ∧ ¬ s₀.Linked a}

/-- The nodes of a thread are as they were when its arena is and no node of it came or went. -/
theorem nodesOf_congr {t : τ} (harena : s'.arenas t = s.arenas t)
    (hheap : ∀ a, s.Owns t a → ((s'.heap a = none) ↔ (s.heap a = none))) :
    s'.nodesOf t = s.nodesOf t := by
  ext a
  have howns : s'.Owns t a ↔ s.Owns t a := by
    unfold Owns
    rw [harena]
  show _ ∧ s'.Owns t a ↔ _ ∧ s.Owns t a
  rw [howns]
  exact and_congr_left fun h => not_congr (hheap a h)

/-- A write that keeps the bodies leaves every thread its nodes. -/
theorem nodesOf_of_body (harenas : s'.arenas = s.arenas)
    (hbody : ∀ a, (s'.heap a).map SlotNode.body = (s.heap a).map SlotNode.body) (t : τ) :
    s'.nodesOf t = s.nodesOf t := by
  refine nodesOf_congr (congrFun harenas t) fun a _ => ?_
  rw [← Option.map_eq_none_iff, hbody a, Option.map_eq_none_iff]

theorem store_nodesOf (s : Slots β τ) (a : Nat) (v : BitVec 64) (t : τ) :
    (s.store a v).nodesOf t = s.nodesOf t := by
  have harenas : (s.store a v).arenas = s.arenas := rfl
  exact nodesOf_of_body harenas (store_body s a v) t

theorem write_nodesOf (s : Slots β τ) (a : Nat) (x : NodeSlot) (t : τ) :
    (s.write a x).nodesOf t = s.nodesOf t := by
  have harenas : (s.write a x).arenas = s.arenas := by cases x <;> rfl
  exact nodesOf_of_body harenas (write_body s a x) t

theorem create_arenas_other [DecidableEq τ] (page : Nat) (os : OsReply) {t t' : τ} (htt : t' ≠ t)
    (pr : SlotProbe β) (value : BitVec 64) (s : Slots β τ) :
    (s.create page os t pr value).2.arenas t' = s.arenas t' := by
  unfold create
  generalize rgArenaAllocAligned page os (s.arenas t) pr.size rgmCacheLine = made
  obtain ⟨node, a⟩ := made
  by_cases hnode : node = 0
  · simp only [if_pos hnode, Function.update_of_ne htt]
  · simp only [if_neg hnode, Function.update_of_ne htt]

/-- The creation of a node leaves the other threads theirs. -/
theorem Created.nodesOf_other {t t' : τ} (htt : t' ≠ t) {pr : SlotProbe β} {value : BitVec 64}
    {out : Option Nat × Slots β τ} (hc : Created K page t pr value s out)
    (harena : out.2.arenas t' = s.arenas t') : out.2.nodesOf t' = s.nodesOf t' := by
  cases hc with
  | refused => rfl
  | @granted a s' sound grows read fresh heap owns =>
    refine nodesOf_congr harena fun c hc => ?_
    have hca : c ≠ a := by
      rintro rfl
      exact htt (sound.arenas.owner (grows.owns t' c hc) owns)
    show s'.heap c = none ↔ _
    rw [heap, Function.update_of_ne hca]

/-- A thread has at most one node more after a creation. -/
theorem Created.nodesOf_own (hs : s.Sound K page) {t : τ} {pr : SlotProbe β} {value : BitVec 64}
    {a : Nat} (hc : Created K page t pr value s (some a, s')) :
    (s'.nodesOf t).encard ≤ (s.nodesOf t).encard + 1 := by
  cases hc with
  | granted sound grows read fresh heap owns =>
    refine (Set.encard_le_encard fun c hc => ?_).trans (Set.encard_insert_le (s.nodesOf t) a)
    obtain ⟨hnode, howns⟩ := hc
    rw [heap] at hnode
    by_cases hca : c = a
    · exact .inl hca
    · rw [Function.update_of_ne hca] at hnode
      obtain ⟨n, hn⟩ := Option.ne_none_iff_exists'.mp hnode
      -- what was there belonged to some thread, and that thread has it still
      obtain ⟨t', howns', -⟩ := hs.owned c n hn
      obtain rfl := sound.arenas.owner (grows.owns t' c howns') howns
      exact .inr ⟨hnode, howns'⟩

/-- The descent of a key comes to a slot after `m` nodes. -/
def ReachesAt (K : SlotKeys β κ) (s : Slots β τ) (k : κ) (m : Nat) (x : NodeSlot) (d : Descent) :
    Prop :=
  Walk s.read (s.Other K k) (K.root k) (K.digits k) m x ∧ d = K.descent k m

theorem Extends.reachesAt (h : s.Extends s') {k : κ} {m : Nat} {x : NodeSlot} {d : Descent}
    (hr : s.ReachesAt K k m x d) : s'.ReachesAt K k m x d :=
  ⟨hr.1.grows h.read fun _ ⟨k', hk', hne⟩ => ⟨k', h.key hk', hne⟩, hr.2⟩

theorem reachesAt_root [DecidableEq κ] {pr : SlotProbe β} (hpr : pr.Lawful K) :
    s.ReachesAt K (K.keyOf pr.body) 0 (.root pr.root) pr.descend := by
  have hroot : pr.root = K.root (K.keyOf pr.body) := by
    unfold SlotProbe.root SlotKeys.root
    rw [hpr.hfull]
  refine ⟨hroot ▸ .root, ?_⟩
  unfold SlotProbe.descend
  rw [hpr.hfull]
  rfl

end Slots

/-! ## How far a call has come -/

namespace SlotPhase

/-- The phase of a descent that has passed `m` nodes. -/
def Stands (K : SlotKeys β κ) (s : Slots β τ) (k : κ) (m : Nat) : SlotPhase ι → Prop
  | .enter => m = 0
  | .load x d => s.ReachesAt K k m x d
  | .create x d => s.ReachesAt K k m x d
  | .cas x d _ => s.ReachesAt K k m x d
  | .inspect cur d => ∃ x, s.ReachesAt K k m x d ∧ s.read x = some cur
  | .access cur => ∃ x d, s.ReachesAt K k m x d ∧ s.read x = some cur
  | .iter _ => False

/-- The steps since the last node was passed. -/
def cost : SlotPhase ι → Nat
  | .enter => 0
  | .load .. => 1
  | .create .. => 2
  | .cas .. => 3
  | .inspect .. => 4
  | .access _ => 5
  | .iter _ => 0

/-- The node that the descent stands on. -/
def ahead : SlotPhase ι → Nat
  | .inspect .. => 1
  | .access _ => 1
  | _ => 0

/-- The node that is created and not published. -/
def held : SlotPhase ι → Nat
  | .cas .. => 1
  | _ => 0

/-- The slot for a new node. -/
def target : SlotPhase ι → Option NodeSlot
  | .create x _ => some x
  | .cas x _ _ => some x
  | _ => none

theorem Stands.grows {k : κ} {m : Nat} {p : SlotPhase ι} (h : p.Stands K s k m)
    (hg : s.Extends s') : p.Stands K s' k m := by
  cases p with
  | enter => exact h
  | load x d => exact hg.reachesAt h
  | create x d => exact hg.reachesAt h
  | cas x d a => exact hg.reachesAt h
  | inspect cur d =>
    obtain ⟨x, hx, hcur⟩ := h
    exact ⟨x, hg.reachesAt hx, hg.read x cur hcur⟩
  | access cur =>
    obtain ⟨x, d, hx, hcur⟩ := h
    exact ⟨x, d, hg.reachesAt hx, hg.read x cur hcur⟩
  | iter it => exact h

end SlotPhase

/-- A node among the first `m` on the path of a key. -/
def Slots.Passed (K : SlotKeys β κ) (s : Slots β τ) (k : κ) (m a : Nat) : Prop :=
  ∃ m' x, m' < m ∧ Walk s.read (s.Other K k) (K.root k) (K.digits k) m' x ∧ s.read x = some a

theorem Slots.Extends.passed (h : s.Extends s') {k : κ} {m a : Nat} (hp : s.Passed K k m a) :
    s'.Passed K k m a := by
  obtain ⟨m', x, hm', hwalk, hx⟩ := hp
  exact ⟨m', x, hm', hwalk.grows h.read fun _ ⟨k', hk', hne⟩ => ⟨k', h.key hk', hne⟩, h.read x a hx⟩

/-- A call for the key `k` by the thread `t`, from the state `s₀` on, after `n` steps: it has passed
`m` nodes, and lost races to those of `lost`, which are on its path and were not published when it was
called. -/
structure Spent (K : SlotKeys β κ) (s₀ s : Slots β τ) (t : τ) (k : κ) (n : Nat) (p : SlotPhase ι)
    (m : Nat) (lost : List Nat) : Prop where
  stands : p.Stands K s k m
  steps : n ≤ 4 * m + p.cost
  nodup : lost.Nodup
  fresh : ∀ a ∈ lost, ¬ s₀.Linked a
  passed : ∀ a ∈ lost, s.Passed K k (m + p.ahead) a
  empty : ∀ x, p.target = some x → s₀.read x = none
  nodes : (s.nodesOf t).encard ≤ (s₀.nodesOf t).encard + ((lost.length + p.held : Nat) : ℕ∞)

/-- What a call may leave in the arena of its thread. -/
def Settled (s₀ s : Slots β τ) (t : τ) : Prop :=
  (s.nodesOf t).encard ≤ (s₀.nodesOf t).encard + (s₀.publishedSince s).encard

/-- Different nodes that have been published since are not more than all of them. -/
theorem length_le_publishedSince {l : List Nat} (hnodup : l.Nodup)
    (hl : ∀ a ∈ l, s.Linked a ∧ ¬ s₀.Linked a) : (l.length : ℕ∞) ≤ (s₀.publishedSince s).encard := by
  rw [← List.toFinset_card_of_nodup hnodup, ← Set.encard_coe_eq_coe_finsetCard]
  exact Set.encard_le_encard fun a ha => hl a (by simpa using ha)

namespace Spent

variable {t : τ} {k : κ} {n m a : Nat} {p p' : SlotPhase ι} {lost : List Nat} {x : NodeSlot}
  {d : Descent}

theorem linked (h : Spent K s₀ s t k n p m lost) : ∀ a ∈ lost, s.Linked a ∧ ¬ s₀.Linked a := by
  intro a ha
  obtain ⟨-, x, -, -, hx⟩ := h.passed a ha
  exact ⟨⟨x, hx⟩, h.fresh a ha⟩

/-- A call that ends without a node in hand. -/
theorem settled (h : Spent K s₀ s t k n p m lost) (hheld : p.held = 0) : Settled s₀ s t := by
  refine h.nodes.trans (add_le_add_right ?_ _)
  rw [hheld]
  exact length_le_publishedSince h.nodup h.linked

/-- Other threads fill slots. -/
theorem grows (h : Spent K s₀ s t k n p m lost) (hg : s.Extends s')
    (hnodes : s'.nodesOf t = s.nodesOf t) : Spent K s₀ s' t k n p m lost := by
  refine ⟨h.stands.grows hg, h.steps, h.nodup, h.fresh, fun a ha => hg.passed (h.passed a ha),
    h.empty, ?_⟩
  rw [hnodes]
  exact h.nodes

/-- A step that reads: the descent stays where it is, or goes past one node. -/
theorem move {m' : Nat} (h : Spent K s₀ s t k n p m lost) (hstands : p'.Stands K s k m')
    (hcost : 4 * m + p.cost + 1 ≤ 4 * m' + p'.cost) (hahead : m + p.ahead ≤ m' + p'.ahead)
    (htarget : ∀ x, p'.target = some x → s₀.read x = none) (hheld : p'.held = p.held) :
    Spent K s₀ s t k (n + 1) p' m' lost := by
  refine ⟨hstands, ?_, h.nodup, h.fresh, fun a ha => ?_, htarget, hheld ▸ h.nodes⟩
  · have hsteps := h.steps
    omega
  · obtain ⟨m₁, x, hm₁, hrest⟩ := h.passed a ha
    exact ⟨m₁, x, Nat.lt_of_lt_of_le hm₁ hahead, hrest⟩

/-- The creation of a node, which the call has in hand then. -/
theorem created (h : Spent K s₀ s t k n (.create x d : SlotPhase ι) m lost) (hs : s.Sound K page)
    {pr : SlotProbe β} {value : BitVec 64} {a : Nat}
    (hc : Slots.Created K page t pr value s (some a, s')) :
    Spent K s₀ s' t k (n + 1) (.cas x d a : SlotPhase ι) m lost := by
  have hnodes := hc.nodesOf_own hs
  cases hc with
  | granted sound grows read fresh heap owns =>
    refine ⟨grows.reachesAt h.stands, Nat.succ_le_succ h.steps, h.nodup, h.fresh,
      fun c hc => grows.passed (h.passed c hc), h.empty, hnodes.trans ?_⟩
    refine (add_le_add_left h.nodes 1).trans (le_of_eq ?_)
    rw [add_assoc]
    rfl

/-- The CAS that publishes the node: it has been published since. -/
theorem published (h : Spent K s₀ s t k n (.cas x d a : SlotPhase ι) m lost) (hs : s.Sound K page)
    (hext : s₀.Extends s) {node : SlotNode β} (hprivate : s.Private t a node)
    (hempty : s.read x = none) : Settled s₀ (s.write a x) t := by
  have hreach : s.Reaches K k x d := ⟨m, h.stands⟩
  have hread := hs.write_read hreach.slot a
  have hgrows : Grows s.read (s.write a x).read := hread ▸ fill_grows hempty a
  unfold Settled
  rw [Slots.write_nodesOf]
  refine h.nodes.trans (add_le_add_right ?_ _)
  refine length_le_publishedSince (l := a :: lost) (List.nodup_cons.mpr ⟨fun ha => ?_, h.nodup⟩)
    fun c hc => ?_
  · exact hprivate.unlinked (h.linked a ha).1
  · rcases List.mem_cons.mp hc with rfl | hc
    · exact ⟨⟨x, hread ▸ Function.update_self ..⟩, fun ha => hprivate.unlinked (hext.linked ha)⟩
    · obtain ⟨⟨y, hy⟩, hfresh⟩ := h.linked c hc
      exact ⟨⟨y, hgrows y c hy⟩, hfresh⟩

/-- The CAS that finds the slot filled: the race is lost to the node there. -/
theorem beaten (h : Spent K s₀ s t k n (.cas x d a : SlotPhase ι) m lost) (hs : s.Sound K page)
    (hext : s₀.Extends s) {prior : Nat} (hread : s.read x = some prior) :
    Spent K s₀ s t k (n + 1) (.inspect prior d : SlotPhase ι) m (prior :: lost) := by
  have honce := hs.placed.once
  refine ⟨⟨x, h.stands, hread⟩, Nat.succ_le_succ h.steps, List.nodup_cons.mpr ⟨fun ha => ?_, h.nodup⟩,
    fun c hc => ?_, fun c hc => ?_, (fun _ hx => by cases hx), h.nodes.trans (le_of_eq ?_)⟩
  · -- the call has passed all nodes of the list, and stands before this one
    obtain ⟨m', y, hm', hwalk, hy⟩ := h.passed prior ha
    obtain rfl := honce x y prior hread hy
    exact Nat.ne_of_lt hm' (hwalk.depth_unique honce h.stands.1)
  · rcases List.mem_cons.mp hc with rfl | hc
    · rintro ⟨y, hy⟩
      obtain rfl := honce x y c hread (hext.read y c hy)
      rw [h.empty x rfl] at hy
      cases hy
    · exact h.fresh c hc
  · rcases List.mem_cons.mp hc with rfl | hc
    · exact ⟨m, x, Nat.lt_succ_self m, h.stands.1, hread⟩
    · obtain ⟨m', y, hm', hrest⟩ := h.passed c hc
      exact ⟨m', y, Nat.lt_succ_of_lt hm', hrest⟩
  · rfl

/-- The comparison with a node: it has the key, or the descent goes on past it. -/
theorem inspected [DecidableEq κ] {pr : SlotProbe β} {cur : Nat}
    (h : Spent K s₀ s t (K.keyOf pr.body) n (.inspect cur d : SlotPhase ι) m lost)
    (hs : s.Sound K page) (hpr : pr.Lawful K) :
    ((s.heap cur).bind fun n => pr.test cur n.body) = some true ∧
        Spent K s₀ s t (K.keyOf pr.body) (n + 1) (.access cur : SlotPhase ι) m lost ∨
      ((s.heap cur).bind fun n => pr.test cur n.body) = some false ∧
        Spent K s₀ s t (K.keyOf pr.body) (n + 1)
          (.load (.child cur d.digit) (d.next pr.reseed) : SlotPhase ι) (m + 1) lost := by
  obtain ⟨x, ⟨hwalk, rfl⟩, hread⟩ := h.stands
  obtain ⟨node, hnode, hgenuine⟩ := hs.linked_node ⟨x, hread⟩
  rw [hnode, Option.bind_some, hpr.test cur node.body hgenuine]
  by_cases hk : K.keyOf node.body = K.keyOf pr.body
  · rw [decide_eq_true hk]
    exact .inl ⟨rfl, h.move ⟨x, _, ⟨hwalk, rfl⟩, hread⟩ (Nat.le_refl _) (Nat.le_refl _)
      (fun _ hx => by cases hx) rfl⟩
  · have hother : s.Other K (K.keyOf pr.body) cur := ⟨_, by simp [Slots.key, hnode], hk⟩
    rw [decide_eq_false hk, hpr.reseed, ← K.descent_succ]
    exact .inr ⟨rfl, h.move ⟨.child hwalk hread hother, rfl⟩ (Nat.le_refl _) (Nat.le_refl _)
      (fun _ hx => by cases hx) rfl⟩

end Spent

/-! ## The steps of a call -/

/-- What the next step of a call leads to. -/
def Spends (K : SlotKeys β κ) (s₀ s : Slots β τ) (t : τ) (k : κ) (n : Nat) :
    SlotPhase ι ⊕ SlotResult ι → Prop
  | .inl p => ∃ m lost, Spent K s₀ s t k n p m lost
  | .inr _ => Settled s₀ s t

namespace Spent

section

variable [DecidableEq κ] {t : τ} {n m : Nat} {p : SlotPhase ι} {lost : List Nat} {pr : SlotProbe β}

theorem put_step [DecidableEq τ] (hpage : IsPageSize page) (hs : s.Sound K page)
    (hext : s₀.Extends s) (os : OsReply) (hpr : pr.Lawful K) {value : BitVec 64}
    (hp : PutRelies K s t pr value p) (h : Spent K s₀ s t (K.keyOf pr.body) n p m lost)
    {out : SlotPhase ι ⊕ SlotResult ι} (hstep : slotPutStep page os t pr value s p = (s', out)) :
    Spends K s₀ s' t (K.keyOf pr.body) (n + 1) out := by
  cases p with
  | enter =>
    have hlive : (s.arenas t).base ≠ 0 := Nat.ne_of_gt (hs.arenas.live t)
    simp only [slotPutStep, if_neg hlive] at hstep
    cases hstep
    obtain rfl := h.stands
    exact ⟨0, lost, h.move (Slots.reachesAt_root hpr) (Nat.le_refl _) (Nat.le_refl _)
      (fun _ hx => by cases hx) rfl⟩
  | load x d =>
    cases hread : s.read x with
    | none =>
      simp only [slotPutStep, hread] at hstep
      cases hstep
      refine ⟨m, lost, h.move h.stands (Nat.le_refl _) (Nat.le_refl _) (fun y hy => ?_) rfl⟩
      cases hy
      cases hread₀ : s₀.read x with
      | none => rfl
      | some a => exact absurd (hext.read x a hread₀) (by simp [hread])
    | some cur =>
      simp only [slotPutStep, hread] at hstep
      cases hstep
      exact ⟨m, lost, h.move ⟨x, h.stands, hread⟩ (by simp only [SlotPhase.cost]; omega)
        (Nat.le_succ _) (fun _ hx => by cases hx) rfl⟩
  | create x d =>
    have hcreated := Slots.create_cases hpage hs os t hpr value
    simp only [slotPutStep] at hstep
    generalize s.create page os t pr value = made at hcreated hstep
    obtain ⟨made, s₁⟩ := made
    cases made with
    | none =>
      cases hcreated
      cases hstep
      exact h.settled rfl
    | some a =>
      cases hstep
      exact ⟨m, lost, h.created hs hcreated⟩
  | cas x d a =>
    cases hread : s.read x with
    | none =>
      simp only [slotPutStep, hread] at hstep
      cases hstep
      exact h.published hs hext (hp.node x d a rfl) hread
    | some prior =>
      simp only [slotPutStep, hread] at hstep
      cases hstep
      exact ⟨m, prior :: lost, h.beaten hs hext hread⟩
  | inspect cur d =>
    rcases h.inspected hs hpr with ⟨htest, hnext⟩ | ⟨htest, hnext⟩
    · simp only [slotPutStep, htest] at hstep
      cases hstep
      exact ⟨m, lost, hnext⟩
    · simp only [slotPutStep, htest] at hstep
      cases hstep
      exact ⟨m + 1, lost, hnext⟩
  | access cur =>
    cases hstep
    have hbody := Slots.store_body s cur value
    have hread := Slots.store_read s cur value
    have hgrows : s.Extends (s.store cur value) :=
      Slots.extends_of_body (hread ▸ Grows.refl _) rfl hbody
    exact (h.grows hgrows (Slots.store_nodesOf s cur value t)).settled rfl
  | iter it => exact absurd h.stands id

theorem get_step (hs : s.Sound K page) (hpr : pr.Lawful K) {missing : Status} {outValue : Bool}
    (hp : GetRelies K s pr outValue p) (h : Spent K s₀ s t (K.keyOf pr.body) n p m lost) :
    Spends K s₀ s t (K.keyOf pr.body) (n + 1) (slotGetStep missing pr outValue s p) := by
  cases p with
  | enter =>
    obtain rfl := h.stands
    exact ⟨0, lost, h.move (Slots.reachesAt_root hpr) (Nat.le_refl _) (Nat.le_refl _)
      (fun _ hx => by cases hx) rfl⟩
  | load x d =>
    cases hread : s.read x with
    | none =>
      simp only [slotGetStep, hread]
      exact h.settled rfl
    | some cur =>
      simp only [slotGetStep, hread]
      exact ⟨m, lost, h.move ⟨x, h.stands, hread⟩ (by simp only [SlotPhase.cost]; omega)
        (Nat.le_succ _) (fun _ hx => by cases hx) rfl⟩
  | create x d => exact absurd rfl (hp.create x d)
  | cas x d a => exact absurd rfl (hp.cas x d a)
  | inspect cur d =>
    rcases h.inspected hs hpr with ⟨htest, hnext⟩ | ⟨htest, hnext⟩
    · simp only [slotGetStep, htest]
      cases outValue with
      | true => exact ⟨m, lost, hnext⟩
      | false => exact h.settled rfl
    · simp only [slotGetStep, htest]
      exact ⟨m + 1, lost, hnext⟩
  | access cur =>
    simp only [slotGetStep]
    cases s.heap cur with
    | none => exact h.settled rfl
    | some node => exact h.settled rfl
  | iter it => exact absurd h.stands id

end

end Spent

/-! ## The steps of the other threads -/

/-- A step leaves the other threads their nodes. -/
theorem slotStep_nodesOf [DecidableEq τ] [DecidableEq κ] {code : SlotCode ω β ι}
    (hpage : IsPageSize page) (hcode : code.Lawful K) (hs : s.Sound K page) {t t' : τ} (htt : t' ≠ t)
    {os : OsReply} {op : ω} {p : SlotPhase ι} {out : SlotPhase ι ⊕ SlotResult ι}
    (hstep : slotStep page code t' os op p s = (s', out)) : s'.nodesOf t = s.nodesOf t := by
  unfold slotStep at hstep
  cases hop : code.op op with
  | refused r =>
    rw [hop] at hstep
    cases hstep
    rfl
  | get pr outValue =>
    rw [hop] at hstep
    cases hstep
    rfl
  | forEach fn =>
    rw [hop] at hstep
    dsimp only at hstep
    split at hstep <;> cases hstep <;> rfl
  | put pr value =>
    rw [hop] at hstep
    cases p with
    | create x d =>
      have hcreated := Slots.create_cases hpage hs os t' (hcode.probe op pr (by rw [hop]; rfl)) value
      have harena := Slots.create_arenas_other page os (Ne.symm htt) pr value s
      have hnodes := hcreated.nodesOf_other (Ne.symm htt) harena
      simp only [slotPutStep] at hstep
      generalize s.create page os t' pr value = made at hnodes hstep
      obtain ⟨made, s₁⟩ := made
      cases made with
      | none =>
        cases hstep
        exact hnodes
      | some a =>
        cases hstep
        exact hnodes
    | cas x d a =>
      simp only [slotPutStep] at hstep
      split at hstep
      · cases hstep
        exact Slots.write_nodesOf s a x t
      · cases hstep
        rfl
    | access cur =>
      cases hstep
      exact Slots.store_nodesOf s cur value t
    | enter | load | inspect =>
      simp only [slotPutStep] at hstep
      split at hstep <;> cases hstep <;> rfl
    | iter it =>
      cases hstep
      rfl

/-! ## The published nodes are no more than the Puts that have ended -/

/-- A Put that has ended with OK. -/
def isPut (code : SlotCode ω β ι) (x : Nat × ω × SlotResult ι) : Bool :=
  match code.op x.2.1, x.2.2 with
  | .put .., .answer .ok _ => true
  | _, _ => false

def putCount (code : SlotCode ω β ι) (log : List (Nat × ω × SlotResult ι)) : Nat :=
  log.countP (isPut code)

/-- The key that a Put has put. -/
def putKey (K : SlotKeys β κ) (code : SlotCode ω β ι) (x : Nat × ω × SlotResult ι) : Option κ :=
  match code.op x.2.1, x.2.2 with
  | .put pr _, .answer .ok _ => some (K.keyOf pr.body)
  | _, _ => none

theorem putKey_isSome (K : SlotKeys β κ) (code : SlotCode ω β ι) (x : Nat × ω × SlotResult ι) :
    (putKey K code x).isSome = isPut code x := by
  unfold putKey isPut
  split <;> rfl

theorem StoredBy.putKey {code : SlotCode ω β ι} {log : List (Nat × ω × SlotResult ι)} {k : κ}
    {v : BitVec 64} (h : StoredBy K code log k v) : k ∈ log.filterMap (putKey K code) := by
  obtain ⟨id, put, hmem, hput⟩ := h
  refine List.mem_filterMap.mpr ⟨_, hmem, ?_⟩
  unfold RgMemory.putKey
  cases hop : code.op put with
  | put pr value =>
    rw [hop] at hput
    exact congrArg some (MapOp.put.inj hput).1
  | _ =>
    rw [hop] at hput
    cases hput

section

variable [DecidableEq κ] {code : SlotCode ω β ι}
  {c : Config τ (Slots β τ) ω (SlotPhase ι) (SlotResult ι)}

section

variable {log : List (Nat × ω × SlotResult ι)} {map : κ → Option (BitVec 64)}
  (h : Legal (SlotSpec K code) (fun _ => none) log map) (hs : s.Sound K page) (hm : s.Holds K map)

include h hs hm

/-- Different published nodes have different keys, and each was put. -/
theorem SlotSpec.linked_le {l : List Nat} (hnodup : l.Nodup) (hl : ∀ a ∈ l, s.Linked a) :
    l.length ≤ putCount code log := by
  have hcount : (log.filterMap (putKey K code)).length = putCount code log := by
    rw [List.length_filterMap_eq_countP]
    exact congrArg (List.countP · log) (funext (putKey_isSome K code))
  have hkeys : (l.map (s.key K)).Nodup := by
    refine hnodup.map_on fun a ha a' ha' heq => ?_
    obtain ⟨x, hx⟩ := hl a ha
    obtain ⟨x', hx'⟩ := hl a' ha'
    exact hs.placed.unique x x' a a' hx hx' heq
  have hsub : l.map (s.key K) ⊆ (log.filterMap (putKey K code)).map some := by
    intro k hk
    obtain ⟨a, ha, rfl⟩ := List.mem_map.mp hk
    obtain ⟨n, hn, -⟩ := hs.linked_node (hl a ha)
    have hstored := SlotSpec.stored h ((hm _ _).mpr ⟨a, n, hl a ha, hn, rfl, rfl⟩)
    refine List.mem_map.mpr ⟨K.keyOf n.body, hstored.putKey, ?_⟩
    simp [Slots.key, hn]
  have hle := (hkeys.subperm hsub).length_le
  rwa [List.length_map, List.length_map, hcount] at hle

/-- The path of a key is no longer than there are nodes. -/
theorem SlotSpec.reachesAt_le {k : κ} {m : Nat} {x : NodeSlot} {d : Descent}
    (hx : s.ReachesAt K k m x d) : m ≤ putCount code log := by
  obtain ⟨l, rfl, hnodup, hl⟩ := hx.1.path hs.placed.once
  refine SlotSpec.linked_le h hs hm hnodup fun a ha => ?_
  obtain ⟨-, y, -, -, hy⟩ := hl a ha
  exact ⟨y, hy⟩

end

/-- A descent has passed no more nodes than there are. -/
theorem Spent.passed_le (hc : SlotFollows K code page c) {t : τ} {k : κ} {n m : Nat}
    {p : SlotPhase ι} {lost : List Nat} (h : Spent K s₀ c.shared t k n p m lost) :
    m + p.ahead ≤ putCount code c.log := by
  obtain ⟨map, hlegal, hs, hm⟩ := hc.log
  have hpath : ∀ {x d}, c.shared.ReachesAt K k m x d → m ≤ putCount code c.log := fun hx =>
    SlotSpec.reachesAt_le hlegal hs hm hx
  have hnext : ∀ {x d cur}, c.shared.ReachesAt K k m x d → c.shared.read x = some cur →
      m + 1 ≤ putCount code c.log := by
    intro x d cur hx hcur
    have hwalk := Walk.child (hx.1.grows (Grows.refl _) fun _ _ => trivial) hcur trivial
    obtain ⟨l, hlen, hnodup, hl⟩ := hwalk.path hs.placed.once
    rw [← hlen]
    refine SlotSpec.linked_le hlegal hs hm hnodup fun a ha => ?_
    obtain ⟨-, y, -, -, hy⟩ := hl a ha
    exact ⟨y, hy⟩
  have hstands := h.stands
  cases p with
  | enter =>
    obtain rfl := hstands
    exact Nat.zero_le _
  | load x d => exact hpath hstands
  | create x d => exact hpath hstands
  | cas x d a => exact hpath hstands
  | inspect cur d =>
    obtain ⟨x, hx, hcur⟩ := hstands
    exact hnext hx hcur
  | access cur =>
    obtain ⟨x, d, hx, hcur⟩ := hstands
    exact hnext hx hcur
  | iter it => exact absurd hstands id

theorem Spent.steps_le (hc : SlotFollows K code page c) {t : τ} {k : κ} {n m : Nat}
    {p : SlotPhase ι} {lost : List Nat} (h : Spent K s₀ c.shared t k n p m lost) :
    n ≤ 4 * putCount code c.log + 3 := by
  have hpassed := h.passed_le hc
  have hsteps := h.steps
  cases p <;> simp only [SlotPhase.ahead, SlotPhase.cost] at hpassed hsteps <;> omega

/-! ## Runs -/

variable [DecidableEq τ]

omit [DecidableEq κ] [DecidableEq τ] in
theorem Settled.grows {t : τ} (h : Settled s₀ s t) (hg : s.Extends s')
    (hnodes : s'.nodesOf t = s.nodesOf t) : Settled s₀ s' t := by
  have hle : (s₀.publishedSince s).encard ≤ (s₀.publishedSince s').encard :=
    Set.encard_le_encard fun a ha => ⟨hg.linked ha.1, ha.2⟩
  unfold Settled
  rw [hnodes]
  exact h.trans (add_le_add_right hle _)

/-- A call of the thread `t` in the state `s₀`, after `n` steps of its own. -/
def CallSpends (K : SlotKeys β κ) (code : SlotCode ω β ι) (s₀ : Slots β τ) (t : τ) (op : ω) (n : Nat)
    (s : Slots β τ) (y : SlotPhase ι ⊕ SlotResult ι) : Prop :=
  match (code.op op).probe with
  | some pr => Spends K s₀ s t (K.keyOf pr.body) n y
  | none => (y.isLeft = true → n = 0) ∧ s.nodesOf t = s₀.nodesOf t

omit [DecidableEq κ] [DecidableEq τ] in
theorem CallSpends.grows {t : τ} {op : ω} {n : Nat} {y : SlotPhase ι ⊕ SlotResult ι}
    (h : CallSpends K code s₀ t op n s y) (hg : s.Extends s')
    (hnodes : s'.nodesOf t = s.nodesOf t) : CallSpends K code s₀ t op n s' y := by
  unfold CallSpends at *
  split at h
  · cases y with
    | inl p =>
      obtain ⟨m, lost, hspent⟩ := h
      exact ⟨m, lost, hspent.grows hg hnodes⟩
    | inr r => exact Settled.grows h hg hnodes
  · exact ⟨h.1, hnodes.trans h.2⟩

/-- A step of the call itself. -/
theorem CallSpends.step (hpage : IsPageSize page) (hcode : code.Lawful K) (hs : s.Sound K page)
    (hext : s₀.Extends s) {t : τ} {op : ω} (hop : ∀ fn, code.op op ≠ .forEach fn) {n : Nat}
    {p : SlotPhase ι} (hp : SlotRelies K code s t op p)
    (h : CallSpends K code s₀ t op n s (.inl p)) {os : OsReply} {out : SlotPhase ι ⊕ SlotResult ι}
    (hstep : slotStep page code t os op p s = (s', out)) :
    CallSpends K code s₀ t op (n + 1) s' out := by
  have hprobe := hcode.probe op
  unfold CallSpends SlotRelies at *
  unfold slotStep at hstep
  cases hcall : code.op op with
  | refused r =>
    rw [hcall] at h hstep
    cases hstep
    exact ⟨fun hleft => (by cases hleft), h.2⟩
  | put pr value =>
    rw [hcall] at h hstep hp hprobe
    obtain ⟨m, lost, hspent⟩ := h
    exact hspent.put_step hpage hs hext os (hprobe pr rfl) hp hstep
  | get pr outValue =>
    rw [hcall] at h hstep hp hprobe
    obtain ⟨m, lost, hspent⟩ := h
    cases hstep
    exact hspent.get_step hs (hprobe pr rfl) hp
  | forEach fn => exact absurd hcall (hop fn)

omit [DecidableEq τ] in
/-- What a call that runs has taken. -/
theorem CallSpends.running {c : Config τ (Slots β τ) ω (SlotPhase ι) (SlotResult ι)}
    (hc : SlotFollows K code page c) {t : τ} {op : ω} {n : Nat} {p : SlotPhase ι}
    (h : CallSpends K code s₀ t op n c.shared (.inl p)) :
    n ≤ 4 * putCount code c.log + 3 ∧
      (c.shared.nodesOf t).encard ≤
        (s₀.nodesOf t).encard + (s₀.publishedSince c.shared).encard + 1 := by
  unfold CallSpends at h
  split at h
  · obtain ⟨m, lost, hspent⟩ := h
    refine ⟨hspent.steps_le hc, hspent.nodes.trans ?_⟩
    have hlost := length_le_publishedSince hspent.nodup hspent.linked
    have hheld : ((p.held : Nat) : ℕ∞) ≤ 1 := by cases p <;> simp [SlotPhase.held]
    rw [Nat.cast_add, add_assoc]
    exact add_le_add_right (add_le_add hlost hheld) _
  · obtain ⟨hn, hnodes⟩ := h
    rw [hn rfl, hnodes, add_assoc]
    exact ⟨Nat.zero_le _, le_self_add⟩

omit [DecidableEq κ] [DecidableEq τ] in
theorem CallSpends.settled {t : τ} {op : ω} {n : Nat} {r : SlotResult ι}
    (h : CallSpends K code s₀ t op n s (.inr r)) : Settled s₀ s t := by
  unfold CallSpends at h
  split at h
  · exact h
  · unfold Settled
    rw [h.2]
    exact le_self_add

/-- A call of Put or Get that has no result yet has taken at most four steps for each Put that has
ended, and three more, in any run. When it has its result, its thread has no more new nodes than were
published meanwhile. -/
def CallsBounded (page : Nat) (code : SlotCode ω β ι) (s : Slots β τ) : Prop :=
  ∀ (t : τ) (op : ω) (before after : List (Action τ OsReply ω)),
    (∀ fn, code.op op ≠ .forEach fn) →
    let M := slotMachine page code τ
    let c₁ := (Config.start s).run M before
    let c₂ := (c₁.act M (.call t op)).run M after
    c₁.thread t = .idle →
      (∀ p, c₂.thread t = .running c₁.next op p →
        ownSteps t after ≤ 4 * putCount code c₂.log + 3 ∧
        (c₂.shared.nodesOf t).encard ≤
          (c₁.shared.nodesOf t).encard + (c₁.shared.publishedSince c₂.shared).encard + 1) ∧
      ∀ r, c₂.thread t = .done c₁.next op r →
        (c₂.shared.nodesOf t).encard ≤
          (c₁.shared.nodesOf t).encard + (c₁.shared.publishedSince c₂.shared).encard

theorem slot_calls_bounded (hpage : IsPageSize page) (hcode : code.Lawful K) (hs : s.Fresh page) :
    CallsBounded page code s := by
  intro t op before after hop M c₁ c₂ hidle
  have hfollows : SlotFollows K code page c₁ := slot_follows hpage hcode hs before
  have hact : c₁.act M (.call t op) = c₁.called M t op := by
    simp only [Config.act, hidle]
  have hstart : Config.Counted (CallSpends K code c₁.shared t op) t c₁.next op 0
      (c₁.act M (.call t op)) := by
    rw [hact]
    refine ⟨Nat.lt_succ_self _, .inl ⟨.inl .enter, 0, Function.update_self .., fun _ => rfl, ?_⟩⟩
    unfold CallSpends
    split
    · exact ⟨0, [], rfl, Nat.le_refl _, List.nodup_nil, (fun _ ha => by cases ha),
        (fun _ ha => by cases ha), (fun _ hx => by cases hx), le_self_add⟩
    · exact ⟨fun _ => rfl, rfl⟩
  have hnow : SlotFollows K code page (c₁.act M (.call t op)) ∧
      c₁.shared.Extends (c₁.act M (.call t op)).shared := by
    rw [hact]
    exact ⟨(slot_simulation hpage hcode).follows_next hfollows (.call hidle), .refl _⟩
  have hnext : ∀ c c', SlotFollows K code page c ∧ c₁.shared.Extends c.shared → c.Next M c' →
      SlotFollows K code page c' ∧ c₁.shared.Extends c'.shared := fun c c' hc hnext =>
    ⟨(slot_simulation hpage hcode).follows_next hc.1 hnext,
      hc.2.trans (hc.1.extends_next hpage hcode hnext)⟩
  have hother : ∀ c s' n y, SlotFollows K code page c ∧ c₁.shared.Extends c.shared →
      c.thread t = .of c₁.next op y → Config.Foreign M c t s' →
      CallSpends K code c₁.shared t op n c.shared y → CallSpends K code c₁.shared t op n s' y := by
    rintro c s' n y ⟨hc, -⟩ - (rfl | ⟨t', os, id', op', p', out, htt, hrun, hstep⟩) h
    · exact h
    · have hsteps := (slotStep_spec hpage hcode hc.sound os (hc.running t' id' op' p' hrun) hstep).1
      exact h.grows hsteps.grows (slotStep_nodesOf hpage hcode hc.sound htt hstep)
  have hown : ∀ c n os p s' out, SlotFollows K code page c ∧ c₁.shared.Extends c.shared →
      c.thread t = .running c₁.next op p → CallSpends K code c₁.shared t op n c.shared (.inl p) →
      M.step t os op p c.shared = (s', out) → CallSpends K code c₁.shared t op (n + 1) s' out := by
    rintro c n os p s' out ⟨hc, hext⟩ hrun h hstep
    exact h.step hpage hcode hc.sound hext hop (hc.running t c₁.next op p hrun) hstep
  obtain ⟨⟨hfollows₂, hext⟩, -, hstatus⟩ :=
    Config.Counted.run (M := M) hnext hother hown hnow hstart after
  -- the thread is in the call still
  have hspends : ∀ y, c₂.thread t = .of c₁.next op y →
      ∃ n, (y.isLeft = true → n = ownSteps t after) ∧
        CallSpends K code c₁.shared t op n c₂.shared y := by
    intro y hy
    rcases hstatus with ⟨y', n, hy', hn, h⟩ | hleft
    · have heq : y' = y := Status.of_inj (hy'.symm.trans hy)
      exact ⟨n, heq ▸ hn, heq ▸ h⟩
    · exact absurd hy (hleft op y)
  refine ⟨fun p hrun => ?_, fun r hdone => ?_⟩
  · obtain ⟨n, hn, h⟩ := hspends (.inl p) hrun
    rw [← hn rfl]
    exact h.running hfollows₂
  · obtain ⟨n, -, h⟩ := hspends (.inr r) hdone
    exact h.settled

end

end

end RgMemory
