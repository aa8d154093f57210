import Mathlib.Data.List.Perm.Subperm
import Mathlib.Tactic.Ring
import RgMemory.Lib.Links

/-!
# Sweeps of links that grow

A depth-first sweep of a linked structure with an explicit stack. It goes through the roots in
order; when it has come to a node it visits it, and then it reads the seats of the node one after
the other. The structure may grow between two steps, so every seat is read at a moment of its own.

`Sweep.Sound` compares the links at the start of a sweep with the present ones. Every node that the
sweep has met sits in a seat that it has passed, and a node has one seat: so none is met twice.
Every node that was in a passed seat at the start has been met: so a sweep that is through has
visited whatever was on a path at its start (`Sweep.Sound.visited_of_onPath`). It gets through,
because each step takes something from its work (`Sweep.Step.work_lt`).
-/

namespace RgMemory.Links

/-- A node that the sweep is at: whether it has been visited, and the next of its seats. -/
structure SweepFrame (α : Type) where
  node : α
  visited : Bool
  next : Nat

/-- The next root, the nodes that the sweep is at, innermost first, and those it has visited. -/
structure Sweep (α : Type) where
  top : Nat
  frames : List (SweepFrame α)
  visited : List α

namespace Sweep

variable {α : Type} {m b : Nat}

def start : Sweep α := ⟨0, [], []⟩

/-- A step, with the links as they are. -/
inductive Step (f : Seat (Fin m) α b → Option α) : Sweep α → Sweep α → Prop
  | visit {top k : Nat} {a : α} {rest : List (SweepFrame α)} {seen : List α} :
      Step f ⟨top, ⟨a, false, k⟩ :: rest, seen⟩ ⟨top, ⟨a, true, k⟩ :: rest, seen ++ [a]⟩
  | skip {top k : Nat} {a : α} {rest : List (SweepFrame α)} {seen : List α} (h : k < b)
      (empty : f (.child a ⟨k, h⟩) = none) :
      Step f ⟨top, ⟨a, true, k⟩ :: rest, seen⟩ ⟨top, ⟨a, true, k + 1⟩ :: rest, seen⟩
  | enter {top k : Nat} {a c : α} {rest : List (SweepFrame α)} {seen : List α} (h : k < b)
      (link : f (.child a ⟨k, h⟩) = some c) :
      Step f ⟨top, ⟨a, true, k⟩ :: rest, seen⟩
        ⟨top, ⟨c, false, 0⟩ :: ⟨a, true, k + 1⟩ :: rest, seen⟩
  | leave {top k : Nat} {a : α} {rest : List (SweepFrame α)} {seen : List α} (h : b ≤ k) :
      Step f ⟨top, ⟨a, true, k⟩ :: rest, seen⟩ ⟨top, rest, seen⟩
  | skipRoot {top : Nat} {seen : List α} (h : top < m) (empty : f (.root ⟨top, h⟩) = none) :
      Step f ⟨top, [], seen⟩ ⟨top + 1, [], seen⟩
  | enterRoot {top : Nat} {c : α} {seen : List α} (h : top < m)
      (link : f (.root ⟨top, h⟩) = some c) :
      Step f ⟨top, [], seen⟩ ⟨top + 1, [⟨c, false, 0⟩], seen⟩

/-- The nodes that wait for their visit. -/
def waiting (frames : List (SweepFrame α)) : List α :=
  (frames.filter fun fr => !fr.visited).map SweepFrame.node

@[simp] theorem waiting_nil : waiting ([] : List (SweepFrame α)) = [] := rfl

@[simp] theorem waiting_visited (a : α) (k : Nat) (rest : List (SweepFrame α)) :
    waiting (⟨a, true, k⟩ :: rest) = waiting rest := rfl

@[simp] theorem waiting_cons (a : α) (k : Nat) (rest : List (SweepFrame α)) :
    waiting (⟨a, false, k⟩ :: rest) = a :: waiting rest := rfl

/-- The nodes that the sweep has come to. -/
def met (sw : Sweep α) : List α := sw.visited ++ waiting sw.frames

/-- The seats that the sweep has read. -/
def Passed (sw : Sweep α) : Seat (Fin m) α b → Prop
  | .root i => i.val < sw.top
  | .child a i => a ∈ sw.visited ∧ ∀ fr ∈ sw.frames, fr.node = a → i.val < fr.next

/-- No node is met twice, and the flags of the frames are right. -/
structure Shape (sw : Sweep α) : Prop where
  nodup : sw.met.Nodup
  frames : (sw.frames.map SweepFrame.node).Nodup
  flags : ∀ fr ∈ sw.frames, fr.visited = true → fr.node ∈ sw.visited
  fresh : ∀ fr ∈ sw.frames, fr.visited = false → fr.next = 0

/-- The links at the start are `f₀`, and now they are `f`. -/
structure Sound (f₀ f : Seat (Fin m) α b → Option α) (sw : Sweep α) : Prop extends Shape sw where
  seated : ∀ a ∈ sw.met, ∃ x, f x = some a ∧ sw.Passed x
  covers : ∀ x a, f₀ x = some a → sw.Passed x → a ∈ sw.met

variable {f₀ f g : Seat (Fin m) α b → Option α} {sw sw' : Sweep α}

theorem Sound.start (f₀ f : Seat (Fin m) α b → Option α) : Sound f₀ f (start : Sweep α) := by
  refine ⟨⟨List.nodup_nil, List.nodup_nil, nofun, nofun⟩, nofun, fun x a _ hx => ?_⟩
  cases x with
  | root i => exact absurd hx (Nat.not_lt_zero _)
  | child c i => exact absurd hx.1 List.not_mem_nil

/-- The structure may grow between two steps. -/
theorem Sound.grows (h : Sound f₀ f sw) (hg : Grows f g) : Sound f₀ g sw := by
  refine ⟨h.toShape, fun a ha => ?_, h.covers⟩
  obtain ⟨x, hx, hpassed⟩ := h.seated a ha
  exact ⟨x, hg x a hx, hpassed⟩

/-! ## One step -/

/-- A step that reads the seat `x`. -/
theorem Sound.of_read (h : Sound f₀ f sw) (hg : Grows f₀ f) (hshape : Shape sw')
    {x : Seat (Fin m) α b} (hpassed : ∀ y, sw'.Passed y ↔ sw.Passed y ∨ y = x)
    (hmet : ∀ a, a ∈ sw'.met ↔ a ∈ sw.met ∨ f x = some a) : Sound f₀ f sw' := by
  refine ⟨hshape, ?_, ?_⟩
  · intro a ha
    rcases (hmet a).mp ha with hold | hnew
    · obtain ⟨y, hy, hp⟩ := h.seated a hold
      exact ⟨y, hy, (hpassed y).mpr (.inl hp)⟩
    · exact ⟨x, hnew, (hpassed x).mpr (.inr rfl)⟩
  · intro y a hy hp
    rcases (hpassed y).mp hp with hold | rfl
    · exact (hmet a).mpr (.inl (h.covers y a hy hold))
    · exact (hmet a).mpr (.inr (hg y a hy))

/-- A step that reads no seat. -/
theorem Sound.of_same (h : Sound f₀ f sw) (hshape : Shape sw')
    (hpassed : ∀ y : Seat (Fin m) α b, sw'.Passed y ↔ sw.Passed y)
    (hmet : ∀ a, a ∈ sw'.met ↔ a ∈ sw.met) : Sound f₀ f sw' := by
  refine ⟨hshape, ?_, ?_⟩
  · intro a ha
    obtain ⟨y, hy, hp⟩ := h.seated a ((hmet a).mp ha)
    exact ⟨y, hy, (hpassed y).mpr hp⟩
  · intro y a hy hp
    exact (hmet a).mpr (h.covers y a hy ((hpassed y).mp hp))

/-- A seat that has not been passed holds no node that was met. -/
theorem Sound.not_met (h : Sound f₀ f sw) (honce : ∀ x y a, f x = some a → f y = some a → x = y)
    {x : Seat (Fin m) α b} {c : α} (hx : f x = some c) (hnew : ¬ sw.Passed x) : c ∉ sw.met := by
  intro hc
  obtain ⟨y, hy, hp⟩ := h.seated c hc
  exact hnew (honce y x c hy hx ▸ hp)

/-! ### How a step moves the passed seats -/

section

variable {top k : Nat} {a c : α} {rest : List (SweepFrame α)} {seen : List α}

/-- A node that has not been visited has no passed seat. -/
theorem passed_push (hc : c ∉ seen) (y : Seat (Fin m) α b) :
    Passed ⟨top, ⟨c, false, k⟩ :: rest, seen⟩ y ↔ Passed ⟨top, rest, seen⟩ y := by
  cases y with
  | root i => exact Iff.rfl
  | child e i =>
    refine and_congr_right fun he => ?_
    rw [List.forall_mem_cons]
    exact and_iff_right fun heq => absurd he (heq ▸ hc)

/-- One more seat of the innermost node. -/
theorem passed_advance (ha : a ∈ seen) (hrest : ∀ fr ∈ rest, fr.node ≠ a) (hk : k < b)
    (y : Seat (Fin m) α b) :
    Passed ⟨top, ⟨a, true, k + 1⟩ :: rest, seen⟩ y ↔
      Passed ⟨top, ⟨a, true, k⟩ :: rest, seen⟩ y ∨ y = .child a ⟨k, hk⟩ := by
  cases y with
  | root i => simp [Passed]
  | child e i =>
    simp only [Passed, List.forall_mem_cons, Seat.child.injEq]
    constructor
    · rintro ⟨he, hhead, htail⟩
      by_cases heq : e = a ∧ i = ⟨k, hk⟩
      · exact .inr heq
      · refine .inl ⟨he, fun hae => ?_, htail⟩
        have hlt := hhead hae
        have hne : i.val ≠ k := fun hik => heq ⟨hae.symm, Fin.ext hik⟩
        omega
    · rintro (⟨he, hhead, htail⟩ | ⟨rfl, rfl⟩)
      · exact ⟨he, fun hae => Nat.lt_succ_of_lt (hhead hae), htail⟩
      · exact ⟨ha, fun _ => Nat.lt_succ_self k, fun fr hfr heq => absurd heq (hrest fr hfr)⟩

/-- A node whose seats have all been read. -/
theorem passed_leave (hk : b ≤ k) (y : Seat (Fin m) α b) :
    Passed ⟨top, rest, seen⟩ y ↔ Passed ⟨top, ⟨a, true, k⟩ :: rest, seen⟩ y := by
  cases y with
  | root i => exact Iff.rfl
  | child e i =>
    refine and_congr_right fun _ => ?_
    rw [List.forall_mem_cons]
    exact (and_iff_right fun _ => Nat.lt_of_lt_of_le i.isLt hk).symm

/-- One more root. -/
theorem passed_root (ht : top < m) (y : Seat (Fin m) α b) :
    Passed ⟨top + 1, [], seen⟩ y ↔ Passed ⟨top, [], seen⟩ y ∨ y = .root ⟨top, ht⟩ := by
  cases y with
  | root i =>
    simp only [Passed, Seat.root.injEq, Fin.ext_iff]
    omega
  | child e i => simp [Passed]

/-- A visit passes no seat. -/
theorem passed_visit (y : Seat (Fin m) α b) :
    Passed ⟨top, ⟨a, true, 0⟩ :: rest, seen ++ [a]⟩ y ↔
      Passed ⟨top, ⟨a, false, 0⟩ :: rest, seen⟩ y := by
  cases y with
  | root i => exact Iff.rfl
  | child e i =>
    simp only [Passed, List.forall_mem_cons, List.mem_append, List.mem_singleton]
    constructor
    · rintro ⟨he, hhead, htail⟩
      have hea : e ≠ a := fun heq => Nat.not_lt_zero _ (hhead heq.symm)
      exact ⟨he.resolve_right hea, hhead, htail⟩
    · rintro ⟨he, hhead, htail⟩
      exact ⟨.inl he, hhead, htail⟩

end

/-! ### How a step moves the frames -/

namespace Shape

variable {top top' k k' : Nat} {a c : α} {rest : List (SweepFrame α)} {seen : List α}

/-- The nodes that the sweep is at have been met. -/
theorem node_met (h : Shape sw) {fr : SweepFrame α} (hfr : fr ∈ sw.frames) : fr.node ∈ sw.met := by
  cases hv : fr.visited with
  | true => exact List.mem_append_left _ (h.flags fr hfr hv)
  | false =>
    refine List.mem_append_right _ (List.mem_map.mpr ⟨fr, List.mem_filter.mpr ⟨hfr, ?_⟩, rfl⟩)
    rw [hv]
    rfl

/-- The innermost node is no other node that the sweep is at. -/
theorem rest_ne {v : Bool} (h : Shape ⟨top, ⟨a, v, k⟩ :: rest, seen⟩) :
    ∀ fr ∈ rest, fr.node ≠ a := by
  intro fr hfr heq
  exact (List.nodup_cons.mp h.frames).1 (List.mem_map.mpr ⟨fr, hfr, heq⟩)

theorem advance (h : Shape ⟨top, ⟨a, true, k⟩ :: rest, seen⟩) :
    Shape ⟨top', ⟨a, true, k'⟩ :: rest, seen⟩ := by
  refine ⟨h.nodup, h.frames, ?_, ?_⟩
  · exact List.forall_mem_cons.mpr (List.forall_mem_cons.mp h.flags)
  · exact List.forall_mem_cons.mpr ⟨nofun, (List.forall_mem_cons.mp h.fresh).2⟩

theorem leave (h : Shape ⟨top, ⟨a, true, k⟩ :: rest, seen⟩) : Shape ⟨top, rest, seen⟩ :=
  ⟨h.nodup, (List.nodup_cons.mp h.frames).2, (List.forall_mem_cons.mp h.flags).2,
    (List.forall_mem_cons.mp h.fresh).2⟩

/-- A new node waits behind those that were visited. -/
theorem met_push (t t' : Nat) (c : α) (rest : List (SweepFrame α)) (seen : List α) :
    (met ⟨t', ⟨c, false, 0⟩ :: rest, seen⟩).Perm (c :: met ⟨t, rest, seen⟩) := by
  simp only [met, waiting_cons]
  exact List.perm_middle

theorem mem_met_push (t t' : Nat) {e : α} : e ∈ met ⟨t', ⟨c, false, 0⟩ :: rest, seen⟩ ↔
    e ∈ met ⟨t, rest, seen⟩ ∨ some c = some e := by
  rw [(met_push t t' c rest seen).mem_iff, List.mem_cons, or_comm, Option.some.injEq, eq_comm]

/-- A new node comes on top. -/
theorem push (h : Shape ⟨top, rest, seen⟩) (hc : c ∉ met ⟨top, rest, seen⟩) :
    Shape ⟨top', ⟨c, false, 0⟩ :: rest, seen⟩ := by
  refine ⟨?_, ?_, ?_, ?_⟩
  · rw [(met_push top top' c rest seen).nodup_iff]
    exact List.nodup_cons.mpr ⟨hc, h.nodup⟩
  · refine List.nodup_cons.mpr ⟨fun hmem => ?_, h.frames⟩
    obtain ⟨fr, hfr, rfl⟩ := List.mem_map.mp hmem
    exact hc (h.node_met hfr)
  · exact List.forall_mem_cons.mpr ⟨nofun, h.flags⟩
  · exact List.forall_mem_cons.mpr ⟨fun _ => rfl, h.fresh⟩

theorem met_visit : met ⟨top, ⟨a, true, k⟩ :: rest, seen ++ [a]⟩ =
    met ⟨top, ⟨a, false, k⟩ :: rest, seen⟩ := by
  simp [met]

theorem visit (h : Shape ⟨top, ⟨a, false, k⟩ :: rest, seen⟩) :
    Shape ⟨top, ⟨a, true, k⟩ :: rest, seen ++ [a]⟩ := by
  refine ⟨?_, h.frames, ?_, ?_⟩
  · rw [met_visit]
    exact h.nodup
  · intro fr hfr hv
    rcases List.mem_cons.mp hfr with rfl | hfr
    · exact List.mem_append_right _ (List.mem_singleton_self _)
    · exact List.mem_append_left _ (h.flags fr (List.mem_cons_of_mem _ hfr) hv)
  · exact List.forall_mem_cons.mpr ⟨nofun, (List.forall_mem_cons.mp h.fresh).2⟩

end Shape

/-- A step keeps a sweep sound when no node has two seats. -/
theorem Sound.step (h : Sound f₀ f sw) (hg : Grows f₀ f)
    (honce : ∀ x y a, f x = some a → f y = some a → x = y) (hstep : Step f sw sw') :
    Sound f₀ f sw' := by
  have hshape := h.toShape
  cases hstep with
  | @visit top k a rest seen =>
    obtain rfl : k = 0 := hshape.fresh _ List.mem_cons_self rfl
    exact h.of_same hshape.visit passed_visit fun c => by rw [Shape.met_visit]
  | @skip top k a rest seen hk empty =>
    have ha : a ∈ seen := hshape.flags _ List.mem_cons_self rfl
    exact h.of_read hg hshape.advance (passed_advance ha hshape.rest_ne hk)
      fun c => by simp [empty, met]
  | @enter top k a c rest seen hk link =>
    have ha : a ∈ seen := hshape.flags _ List.mem_cons_self rfl
    have hc : c ∉ met ⟨top, ⟨a, true, k⟩ :: rest, seen⟩ :=
      h.not_met honce link fun hp => Nat.lt_irrefl k (hp.2 _ List.mem_cons_self rfl)
    have hseen : c ∉ seen := fun hmem => hc (List.mem_append_left _ hmem)
    have hadvanced : Shape ⟨top, ⟨a, true, k + 1⟩ :: rest, seen⟩ := hshape.advance
    refine h.of_read (x := .child a ⟨k, hk⟩) hg (hadvanced.push hc) (fun y => ?_) fun e => ?_
    · exact (passed_push hseen y).trans (passed_advance ha hshape.rest_ne hk y)
    · rw [link]
      exact Shape.mem_met_push top top
  | @leave top k a rest seen hk =>
    exact h.of_same hshape.leave (passed_leave hk) fun c => Iff.rfl
  | @skipRoot top seen ht empty =>
    refine h.of_read hg ⟨hshape.nodup, hshape.frames, hshape.flags, hshape.fresh⟩
      (passed_root ht) fun c => by simp [empty, met]
  | @enterRoot top c seen ht link =>
    have hc : c ∉ met ⟨top, [], seen⟩ := h.not_met honce link (Nat.lt_irrefl top)
    have hseen : c ∉ seen := fun hmem => hc (List.mem_append_left _ hmem)
    refine h.of_read (x := .root ⟨top, ht⟩) hg (hshape.push hc) (fun y => ?_) fun e => ?_
    · exact (passed_push hseen y).trans (passed_root ht y)
    · rw [link]
      exact Shape.mem_met_push top (top + 1)

/-- A sweep that is through has visited what was on a path when it started. -/
theorem Sound.visited_of_onPath (h : Sound f₀ f sw) (hframes : sw.frames = []) (htop : m ≤ sw.top)
    {r : Fin m} {ds : Digits b} {a : α} (ha : OnPath f₀ r ds a) : a ∈ sw.visited := by
  have hmet : ∀ c, c ∈ sw.met ↔ c ∈ sw.visited := by
    intro c
    simp [met, hframes]
  obtain ⟨n, x, hwalk, hx⟩ := ha
  refine (hmet a).mp (h.covers x a hx ?_)
  clear hx
  induction hwalk with
  | root => exact Nat.lt_of_lt_of_le r.isLt htop
  | child before link _ ih =>
    refine ⟨(hmet _).mp (h.covers _ _ link ih), ?_⟩
    rw [hframes]
    exact nofun

/-! ## The work that is left -/

/-- The steps that a frame takes at most. -/
def frameWork (b : Nat) (fr : SweepFrame α) : Nat :=
  (if fr.visited then 0 else 1) + (b - fr.next) + 1

/-- The steps that a sweep takes at most when it meets at most `n` nodes. -/
def work (m b n : Nat) (sw : Sweep α) : Nat :=
  (b + 4) * (n - sw.met.length) + (sw.frames.map (frameWork b)).sum + (m - sw.top)

/-- A sweep meets linked nodes only. -/
theorem Sound.met_le (h : Sound f₀ f sw) {nodes : List α}
    (hnodes : ∀ x a, f x = some a → a ∈ nodes) : sw.met.length ≤ nodes.length := by
  refine (h.nodup.subperm fun a ha => ?_).length_le
  obtain ⟨x, hx, -⟩ := h.seated a ha
  exact hnodes x a hx

/-- Each step does some of the work. -/
theorem Step.work_lt (hstep : Step f sw sw') {n : Nat} (hle : sw'.met.length ≤ n) :
    sw'.work m b n < sw.work m b n := by
  have hnew : ∀ (t t' : Nat) (c : α) rest seen,
      (met ⟨t', ⟨c, false, 0⟩ :: rest, seen⟩).length = (met ⟨t, rest, seen⟩).length + 1 :=
    fun t t' c rest seen => (Shape.met_push t t' c rest seen).length_eq
  -- a new node brings its frame, and one node less is left to be met
  have hroom : ∀ l, l + 1 ≤ n → (b + 4) * (n - (l + 1)) + (b + 4) = (b + 4) * (n - l) := by
    intro l hl
    rw [← Nat.mul_succ, ← Nat.succ_sub hl, Nat.succ_sub_succ]
  cases hstep with
  | visit =>
    simp only [work, Shape.met_visit, List.map_cons, List.sum_cons, frameWork]
    simp
  | @skip top k a rest seen hk empty =>
    have hsame : met ⟨top, ⟨a, true, k + 1⟩ :: rest, seen⟩ = met ⟨top, ⟨a, true, k⟩ :: rest, seen⟩ :=
      rfl
    simp only [work, hsame, List.map_cons, List.sum_cons, frameWork]
    omega
  | @enter top k a c rest seen hk link =>
    have hmet := hnew top top c (⟨a, true, k + 1⟩ :: rest) seen
    rw [hmet] at hle
    have hsame : met ⟨top, ⟨a, true, k + 1⟩ :: rest, seen⟩ = met ⟨top, ⟨a, true, k⟩ :: rest, seen⟩ :=
      rfl
    have hless := hroom _ hle
    simp only [work, hmet, List.map_cons, List.sum_cons, frameWork]
    rw [hsame] at hless ⊢
    simp only [if_true, if_false, Bool.false_eq_true]
    omega
  | @leave top k a rest seen hk =>
    have hsame : met ⟨top, ⟨a, true, k⟩ :: rest, seen⟩ = met ⟨top, rest, seen⟩ := rfl
    simp only [work, hsame, List.map_cons, List.sum_cons, frameWork]
    omega
  | @skipRoot top seen ht empty =>
    have hsame : met ⟨top + 1, [], seen⟩ = met ⟨top, [], seen⟩ := rfl
    simp only [work, hsame]
    omega
  | @enterRoot top c seen ht link =>
    have hmet := hnew top (top + 1) c [] seen
    rw [hmet] at hle
    have hless := hroom _ hle
    simp only [work, hmet, List.map_cons, List.map_nil, List.sum_cons, List.sum_nil, frameWork]
    simp only [if_false, Bool.false_eq_true]
    omega

end Sweep

end RgMemory.Links
