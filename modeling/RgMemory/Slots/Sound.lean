import RgMemory.Arena.Alloc
import RgMemory.HashMap.Walk
import RgMemory.Slots.Model

/-!
# Sound states of a lock-free trie

`Slots.Sound` is what every step of every thread keeps: each published node lies on the path of its
key, no key has two published nodes, no node is published twice, and no two nodes share a byte.
`Slots.Steps` adds what a step does to the other threads: filled slots stay as they are, bodies never
change, and a private node of another thread is left alone.

Three writes change a state: the creation of a node (`create_cases`), its publication
(`Sound.publish`) and the store of a value (`Sound.store`). A publication goes into the empty slot
that the descent of a key came to, so that no published node has the key at that moment
(`Reaches.absent`).
-/

namespace RgMemory

open Bytes Links Concurrent

/-! ## Keys -/

/-- What the bodies of nodes mean: their keys, and the path of a key. `Genuine` bodies are those that
a Put writes; `size` is the room that their nodes take. -/
structure SlotKeys (β κ : Type) where
  keyOf : β → κ
  hfull : κ → BitVec 64
  reseed : κ → BitVec 32 → BitVec 64
  Genuine : β → Prop
  size : β → Nat

namespace SlotKeys

variable {β κ : Type} (K : SlotKeys β κ)

def root (k : κ) : Fin 4096 := rgmHashMapRoot (K.hfull k)

/-- The register after `n` nodes. -/
def descent (k : κ) (n : Nat) : Descent :=
  (Descent.next (K.reseed k))^[n] ⟨K.hfull k <<< rgHashTopBits, 0⟩

def digits (k : κ) : Digits 4 := fun n => (K.descent k n).digit

theorem descent_succ (k : κ) (n : Nat) :
    K.descent k (n + 1) = (K.descent k n).next (K.reseed k) :=
  Function.iterate_succ_apply' ..

end SlotKeys

/-- A probe for the key of its body. -/
structure SlotProbe.Lawful {β κ : Type} [DecidableEq κ] (K : SlotKeys β κ) (pr : SlotProbe β) :
    Prop where
  hfull : pr.hfull = K.hfull (K.keyOf pr.body)
  reseed : pr.reseed = K.reseed (K.keyOf pr.body)
  test : ∀ a b, K.Genuine b → pr.test a b = some (decide (K.keyOf b = K.keyOf pr.body))
  genuine : K.Genuine pr.body
  size : pr.size = K.size pr.body
  size_lt : pr.size < 2 ^ 64

/-- The probe of an operation. -/
def SlotOp.probe {β ι : Type} : SlotOp β ι → Option (SlotProbe β)
  | .put pr _ => some pr
  | .get pr _ => some pr
  | _ => none

structure SlotCode.Lawful {ω β ι κ : Type} [DecidableEq κ] (K : SlotKeys β κ)
    (code : SlotCode ω β ι) : Prop where
  probe : ∀ op pr, (code.op op).probe = some pr → pr.Lawful K
  report : ∀ a b v, K.Genuine b → ∃ r, code.report a b v = some r

/-! ## States -/

namespace Slots

variable {β κ τ : Type} (K : SlotKeys β κ)

/-- The key of the node at an address. -/
def key (s : Slots β τ) (a : Nat) : Option κ := (s.heap a).map fun n => K.keyOf n.body

/-- A published node. -/
def Linked (s : Slots β τ) (a : Nat) : Prop := ∃ x, s.read x = some a

/-- An address below the position of a thread's arena. -/
def Owns (s : Slots β τ) (t : τ) (a : Nat) : Prop :=
  (s.arenas t).base ≤ a ∧ a < (s.arenas t).base + (s.arenas t).pos

/-- The map that the published nodes hold. -/
def Holds (s : Slots β τ) (m : κ → Option (BitVec 64)) : Prop :=
  ∀ k v, m k = some v ↔ ∃ a n, s.Linked a ∧ s.heap a = some n ∧ K.keyOf n.body = k ∧ n.value = v

/-- The arenas of the threads are live, and no two share a byte. -/
structure Arenas (page : Nat) (s : Slots β τ) : Prop where
  ok : ∀ t, (s.arenas t).Ok page
  live : ∀ t, 0 < (s.arenas t).base
  apart : ∀ t t', t ≠ t' → Apart (s.arenas t).base (s.arenas t).reserved (s.arenas t').base
    (s.arenas t').reserved

/-- What every step keeps. -/
structure Sound (page : Nat) (s : Slots β τ) : Prop where
  arenas : s.Arenas page
  placed : Placed K.root K.digits (s.key K) s.read
  genuine : ∀ a n, s.heap a = some n → K.Genuine n.body
  owned : ∀ a n, s.heap a = some n → ∃ t, s.Owns t a ∧
    a + K.size n.body ≤ (s.arenas t).base + (s.arenas t).pos
  disjoint : ∀ a n a' n', s.heap a = some n → s.heap a' = some n' → a ≠ a' →
    Apart a (K.size n.body) a' (K.size n'.body)

/-- What changes in a step: slots are filled, nodes come and keep their bodies, and the arenas give
out more. -/
structure Extends (s s' : Slots β τ) : Prop where
  read : Grows s.read s'.read
  body : ∀ a n, s.heap a = some n → ∃ n', s'.heap a = some n' ∧ n'.body = n.body
  owns : ∀ t a, s.Owns t a → s'.Owns t a

variable {K} {page : Nat} {s s' s'' : Slots β τ}

theorem Extends.refl (s : Slots β τ) : s.Extends s :=
  ⟨Grows.refl _, fun _ n h => ⟨n, h, rfl⟩, fun _ _ h => h⟩

theorem Extends.trans (h : s.Extends s') (h' : s'.Extends s'') : s.Extends s'' := by
  refine ⟨h.read.trans h'.read, fun a n hn => ?_, fun t a ha => h'.owns t a (h.owns t a ha)⟩
  obtain ⟨n', hn', hb⟩ := h.body a n hn
  obtain ⟨n'', hn'', hb'⟩ := h'.body a n' hn'
  exact ⟨n'', hn'', hb'.trans hb⟩

theorem Extends.key (h : s.Extends s') {a : Nat} {k : κ} (hk : s.key K a = some k) :
    s'.key K a = some k := by
  obtain ⟨n, hn, rfl⟩ := Option.map_eq_some_iff.mp hk
  obtain ⟨n', hn', hb⟩ := h.body a n hn
  simp [Slots.key, hn', hb]

theorem Extends.linked (h : s.Extends s') {a : Nat} (ha : s.Linked a) : s'.Linked a :=
  ha.imp fun x hx => h.read x a hx

/-- A published node is there, and its body is genuine. -/
theorem Sound.linked_node (h : s.Sound K page) {a : Nat} (ha : s.Linked a) :
    ∃ n, s.heap a = some n ∧ K.Genuine n.body := by
  obtain ⟨x, hx⟩ := ha
  obtain ⟨k, hk, -⟩ := h.placed.onPath x a hx
  obtain ⟨n, hn, -⟩ := Option.map_eq_some_iff.mp hk
  exact ⟨n, hn, h.genuine a n hn⟩

/-- An address belongs to one thread. -/
theorem Arenas.owner (h : s.Arenas page) {t t' : τ} {a : Nat} (ha : s.Owns t a)
    (ha' : s.Owns t' a) : t = t' := by
  by_contra hne
  have hapart := h.apart t t' hne
  have hp := (h.ok t).pos_le
  have hc := (h.ok t).committed_le
  have hp' := (h.ok t').pos_le
  have hc' := (h.ok t').committed_le
  unfold Apart at hapart
  unfold Owns at ha ha'
  omega

/-! ## The creation of a node -/

section

variable [DecidableEq τ]

/-- The state after a node was put at an address that the thread's arena gave out. -/
def grant (s : Slots β τ) (t : τ) (arena : ArenaState) (a : Nat) (n : SlotNode β) : Slots β τ :=
  { s with
    arenas := Function.update s.arenas t arena
    heap := Function.update s.heap a (some n) }

/-- A creation fails, or gives a node at a fresh address of the thread's own arena. -/
inductive Created (K : SlotKeys β κ) (page : Nat) (t : τ) (pr : SlotProbe β) (value : BitVec 64)
    (s : Slots β τ) : Option Nat × Slots β τ → Prop
  | refused : Created K page t pr value s (none, s)
  | granted {a : Nat} {s' : Slots β τ} (sound : s'.Sound K page) (grows : s.Extends s')
      (read : s'.read = s.read) (fresh : s.heap a = none)
      (heap : s'.heap = Function.update s.heap a (some ⟨fun _ => none, value, pr.body⟩))
      (owns : s'.Owns t a) : Created K page t pr value s (some a, s')

variable {t : τ} {arena : ArenaState} {a size align : Nat} {n : SlotNode β}

theorem grant_read (hfresh : s.heap a = none) (hn : ∀ i, n.child i = none) :
    (s.grant t arena a n).read = s.read := by
  funext x
  cases x with
  | root i => rfl
  | child c i =>
    by_cases hca : c = a
    · subst hca
      simp [grant, Slots.read, hfresh, hn]
    · simp [grant, Slots.read, Function.update_of_ne hca]

theorem grant_owns (hg : Granted page (s.arenas t) arena a size align) {t' : τ} {c : Nat}
    (hc : s.Owns t' c) : (s.grant t arena a n).Owns t' c := by
  have hbase := hg.grown.base
  have hend := hg.pos
  have habove := hg.above
  unfold Slots.Owns at *
  by_cases htt : t' = t
  · subst htt
    simp only [grant, Function.update_self]
    omega
  · simp only [grant, Function.update_of_ne htt]
    exact hc

theorem grant_arenas (h : s.Arenas page) (hg : Granted page (s.arenas t) arena a size align) :
    (s.grant t arena a n).Arenas page := by
  have hbase := hg.grown.base
  have hreserved := hg.grown.reserved
  have hrange : ∀ t', ((s.grant t arena a n).arenas t').base = (s.arenas t').base ∧
      ((s.grant t arena a n).arenas t').reserved = (s.arenas t').reserved := by
    intro t'
    by_cases htt : t' = t
    · subst htt
      simp only [grant, Function.update_self]
      exact ⟨hbase, hreserved⟩
    · simp [grant, Function.update_of_ne htt]
  refine ⟨fun t' => ?_, fun t' => ?_, fun t' t'' hne => ?_⟩
  · by_cases htt : t' = t
    · subst htt
      simp only [grant, Function.update_self]
      exact hg.ok
    · simp only [grant, Function.update_of_ne htt]
      exact h.ok t'
  · rw [(hrange t').1]
    exact h.live t'
  · rw [(hrange t').1, (hrange t').2, (hrange t'').1, (hrange t'').2]
    exact h.apart t' t'' hne

/-- The nodes that are there lie apart from a new one. -/
theorem Sound.apart_granted (h : s.Sound K page)
    (hg : Granted page (s.arenas t) arena a size align) {c : Nat} {n : SlotNode β}
    (hc : s.heap c = some n) : Apart a size c (K.size n.body) ∧ c ≠ a := by
  have hbase := hg.grown.base
  have hreserved := hg.grown.reserved
  have habove := hg.above
  have hend := hg.pos
  have hsize := hg.size_pos
  have hle := hg.ok.pos_le
  have hcommitted := hg.ok.committed_le
  obtain ⟨t', ⟨hlow, hhigh⟩, hfit⟩ := h.owned c n hc
  by_cases htt : t' = t
  · subst htt
    exact ⟨.inr (by omega), by omega⟩
  · have hapart := h.arenas.apart t' t htt
    have hp' := (h.arenas.ok t').pos_le
    have hc' := (h.arenas.ok t').committed_le
    unfold Apart at hapart ⊢
    omega

theorem Sound.grant (h : s.Sound K page) (hg : Granted page (s.arenas t) arena a size align)
    (hgenuine : K.Genuine n.body) (hsize : size = K.size n.body) (hn : ∀ i, n.child i = none) :
    (s.grant t arena a n).Sound K page := by
  have hfresh : s.heap a = none := by
    cases hheap : s.heap a with
    | none => rfl
    | some n => exact absurd rfl (h.apart_granted hg hheap).2
  have hheap : ∀ {c n'}, (s.grant t arena a n).heap c = some n' →
      c = a ∧ n' = n ∨ c ≠ a ∧ s.heap c = some n' := by
    intro c n' hc
    by_cases hca : c = a
    · subst hca
      simp only [Slots.grant, Function.update_self] at hc
      exact .inl ⟨rfl, (Option.some.inj hc).symm⟩
    · simp only [Slots.grant, Function.update_of_ne hca] at hc
      exact .inr ⟨hca, hc⟩
  refine ⟨grant_arenas h.arenas hg, ?_, fun c n' hc => ?_, fun c n' hc => ?_,
    fun c n' c' n'' hc hc' hne => ?_⟩
  · rw [grant_read hfresh hn]
    refine h.placed.congr fun x c hx => ?_
    have hca : c ≠ a := by
      rintro rfl
      obtain ⟨m, hm, -⟩ := h.linked_node ⟨x, hx⟩
      rw [hfresh] at hm
      cases hm
    simp [Slots.key, Slots.grant, Function.update_of_ne hca]
  · rcases hheap hc with ⟨rfl, rfl⟩ | ⟨-, hold⟩
    · exact hgenuine
    · exact h.genuine c n' hold
  · rcases hheap hc with ⟨rfl, rfl⟩ | ⟨-, hold⟩
    · have habove := hg.above
      have hbase := hg.grown.base
      have hend := hg.pos
      have hpos := hg.size_pos
      refine ⟨t, ?_, ?_⟩
      · simp only [Slots.Owns, Slots.grant, Function.update_self]
        omega
      · simp only [Slots.grant, Function.update_self]
        omega
    · obtain ⟨t', howns, hfit⟩ := h.owned c n' hold
      refine ⟨t', grant_owns hg howns, ?_⟩
      have hbase := hg.grown.base
      have hend := hg.pos
      have habove := hg.above
      by_cases htt : t' = t
      · subst htt
        simp only [Slots.grant, Function.update_self]
        omega
      · simp only [Slots.grant, Function.update_of_ne htt]
        exact hfit
  · rcases hheap hc with ⟨rfl, rfl⟩ | ⟨-, hold⟩ <;> rcases hheap hc' with ⟨rfl, rfl⟩ | ⟨-, hold'⟩
    · exact absurd rfl hne
    · exact hsize ▸ (h.apart_granted hg hold').1
    · exact (hsize ▸ (h.apart_granted hg hold).1 : Apart _ _ _ _).symm
    · exact h.disjoint c n' c' n'' hold hold' hne

theorem create_cases [DecidableEq κ] (hpage : IsPageSize page) (h : s.Sound K page) (os : OsReply)
    (t : τ) {pr : SlotProbe β} (hpr : pr.Lawful K) (value : BitVec 64) :
    Created K page t pr value s (s.create page os t pr value) := by
  unfold create
  rcases rgArenaAllocAligned_cases hpage os (h.arenas.ok t) hpr.size_lt
    (by decide : rgmCacheLine < 2 ^ 64) with hnull | ⟨a, arena, hok, hg⟩
  · rw [hnull]
    simp only [if_true, Function.update_eq_self]
    exact .refused
  rw [hok]
  have hbase := hg.grown.base
  have hlive := hg.live
  have habove := hg.above
  have hend := hg.pos
  have hsize := hg.size_pos
  have ha : a ≠ 0 := by omega
  simp only [ha, if_false]
  have hfresh : s.heap a = none := by
    cases hheap : s.heap a with
    | none => rfl
    | some n => exact absurd rfl (h.apart_granted hg hheap).2
  have hread : (s.grant t arena a ⟨fun _ => none, value, pr.body⟩).read = s.read :=
    grant_read hfresh fun _ => rfl
  refine .granted (h.grant hg hpr.genuine hpr.size fun _ => rfl)
    ⟨fun x c hx => (congrFun hread x).trans hx, fun c n hc => ⟨n, ?_, rfl⟩,
      fun t' c hc => grant_owns hg hc⟩ hread hfresh rfl ?_
  · show Function.update s.heap a _ c = some n
    rwa [Function.update_of_ne (h.apart_granted hg hc).2]
  · simp only [Slots.Owns, Function.update_self]
    omega

end

/-! ## Writes to nodes -/

/-- A private node: created by a thread and not published. -/
structure Private (s : Slots β τ) (t : τ) (a : Nat) (n : SlotNode β) : Prop where
  heap : s.heap a = some n
  owns : s.Owns t a
  unlinked : ¬ s.Linked a

/-- A step of the thread `t` leads from a sound state to a sound state that extends it, and leaves
the private nodes of the other threads alone. -/
structure Steps (K : SlotKeys β κ) (page : Nat) (t : τ) (s s' : Slots β τ) : Prop where
  sound : s'.Sound K page
  grows : s.Extends s'
  frame : ∀ t', t' ≠ t → ∀ a n, s.Private t' a n → s'.Private t' a n

theorem Sound.steps_refl (h : s.Sound K page) (t : τ) : Steps K page t s s :=
  ⟨h, .refl s, fun _ _ _ _ hp => hp⟩

theorem Created.steps [DecidableEq τ] {t : τ} {pr : SlotProbe β} {value : BitVec 64}
    {out : Option Nat × Slots β τ} (h : s.Sound K page) (hc : Created K page t pr value s out) :
    Steps K page t s out.2 := by
  cases hc with
  | refused => exact h.steps_refl t
  | @granted a s' sound grows read fresh heap owns =>
    refine ⟨sound, grows, fun t' _ c n hp => ⟨?_, grows.owns t' c hp.owns, ?_⟩⟩
    · have hca : c ≠ a := by
        rintro rfl
        exact absurd (fresh.symm.trans hp.heap) (by simp)
      rw [heap, Function.update_of_ne hca]
      exact hp.heap
    · rintro ⟨x, hx⟩
      exact hp.unlinked ⟨x, read ▸ hx⟩

theorem key_of_body (hbody : ∀ c, (s'.heap c).map SlotNode.body = (s.heap c).map SlotNode.body) :
    s'.key K = s.key K := by
  funext c
  have hkey : ∀ s : Slots β τ, s.key K c = ((s.heap c).map SlotNode.body).map K.keyOf := by
    intro s
    rw [Option.map_map]
    rfl
  rw [hkey, hkey, hbody]

/-- Writes that keep the bodies keep a state sound when its nodes are still in their places. -/
theorem Sound.of_body (h : s.Sound K page) (harenas : s'.arenas = s.arenas)
    (hbody : ∀ c, (s'.heap c).map SlotNode.body = (s.heap c).map SlotNode.body)
    (hplaced : Placed K.root K.digits (s.key K) s'.read) : s'.Sound K page := by
  have hold : ∀ c n', s'.heap c = some n' → ∃ n, s.heap c = some n ∧ n.body = n'.body := by
    intro c n' hc
    have hmap := hbody c
    rw [hc, Option.map_some, eq_comm, Option.map_eq_some_iff] at hmap
    exact hmap
  refine ⟨⟨fun t => ?_, fun t => ?_, fun t t' => ?_⟩, ?_, fun c n' hc => ?_, fun c n' hc => ?_,
    fun c n' d m' hc hd hne => ?_⟩
  · rw [harenas]
    exact h.arenas.ok t
  · rw [harenas]
    exact h.arenas.live t
  · rw [harenas]
    exact h.arenas.apart t t'
  · rw [key_of_body hbody]
    exact hplaced
  · obtain ⟨n, hn, hb⟩ := hold c n' hc
    exact hb ▸ h.genuine c n hn
  · obtain ⟨n, hn, hb⟩ := hold c n' hc
    obtain ⟨t, howns, hfit⟩ := h.owned c n hn
    rw [hb] at hfit
    refine ⟨t, ?_, ?_⟩
    · unfold Slots.Owns
      rw [harenas]
      exact howns
    · rw [harenas]
      exact hfit
  · obtain ⟨n, hn, hb⟩ := hold c n' hc
    obtain ⟨m, hm, hb'⟩ := hold d m' hd
    rw [← hb, ← hb']
    exact h.disjoint c n d m hn hm hne

theorem extends_of_body (hread : Grows s.read s'.read) (harenas : s'.arenas = s.arenas)
    (hbody : ∀ c, (s'.heap c).map SlotNode.body = (s.heap c).map SlotNode.body) :
    s.Extends s' := by
  refine ⟨hread, fun c n hc => ?_, fun t c hc => ?_⟩
  · have hmap := hbody c
    rw [hc, Option.map_some, Option.map_eq_some_iff] at hmap
    exact hmap
  · unfold Slots.Owns at *
    rwa [harenas]

/-! ### The store of a value -/

theorem store_body (s : Slots β τ) (a : Nat) (v : BitVec 64) (c : Nat) :
    ((s.store a v).heap c).map SlotNode.body = (s.heap c).map SlotNode.body := by
  by_cases hca : c = a
  · subst hca
    simp only [store, Function.update_self, Option.map_map]
    rfl
  · simp [store, Function.update_of_ne hca]

theorem store_read (s : Slots β τ) (a : Nat) (v : BitVec 64) : (s.store a v).read = s.read := by
  funext x
  cases x with
  | root i => rfl
  | child c i =>
    by_cases hca : c = a
    · subst hca
      simp only [Slots.read, store, Function.update_self, Option.bind_map]
      rfl
    · simp [Slots.read, store, Function.update_of_ne hca]

/-- A store goes to a published node. -/
theorem Sound.store (h : s.Sound K page) (t : τ) {a : Nat} (ha : s.Linked a) (v : BitVec 64) :
    Steps K page t s (s.store a v) := by
  have hread := store_read s a v
  have hgrows : s.Extends (s.store a v) := by
    refine extends_of_body ?_ rfl (store_body s a v)
    rw [hread]
    exact Grows.refl _
  refine ⟨h.of_body rfl (store_body s a v) ?_, hgrows, fun t' _ c n hp => ⟨?_, hp.owns, ?_⟩⟩
  · rw [hread]
    exact h.placed
  · have hca : c ≠ a := by
      rintro rfl
      exact hp.unlinked ha
    simp only [Slots.store, Function.update_of_ne hca]
    exact hp.heap
  · rintro ⟨x, hx⟩
    exact hp.unlinked ⟨x, hread ▸ hx⟩

theorem Holds.store [DecidableEq κ] (h : s.Sound K page) {m : κ → Option (BitVec 64)}
    (hm : s.Holds K m) {a : Nat} (ha : s.Linked a) {k : κ} (hk : s.key K a = some k)
    (v : BitVec 64) : (s.store a v).Holds K (Function.update m k (some v)) := by
  obtain ⟨n, hn, rfl⟩ := Option.map_eq_some_iff.mp hk
  have hlinked : ∀ c, (s.store a v).Linked c ↔ s.Linked c := by
    intro c
    unfold Slots.Linked
    rw [store_read]
  intro k' v'
  by_cases hkk : k' = K.keyOf n.body
  · subst hkk
    rw [Function.update_self]
    constructor
    · rintro ⟨⟩
      exact ⟨a, { n with value := v }, (hlinked a).mpr ha, by simp [Slots.store, hn], rfl, rfl⟩
    · rintro ⟨c, n', hc, hheap, hkey, rfl⟩
      obtain ⟨x, hx⟩ := (hlinked c).mp hc
      obtain ⟨y, hy⟩ := ha
      have hca : c = a := by
        refine h.placed.unique x y c a hx hy ?_
        have hck : (s.store a v).key K c = some (K.keyOf n.body) := by
          simp [Slots.key, hheap, hkey]
        rw [key_of_body (store_body s a v)] at hck
        rw [hck, hk]
      subst hca
      simp only [Slots.store, Function.update_self, hn, Option.map_some, Option.some.injEq] at hheap
      rw [← hheap]
  · rw [Function.update_of_ne hkk, hm k' v']
    have hiff : ∀ c n', K.keyOf n'.body = k' → ((s.store a v).heap c = some n' ↔
        s.heap c = some n') := by
      intro c n' hkey
      by_cases hca : c = a
      · subst hca
        simp only [Slots.store, Function.update_self, hn, Option.map_some, Option.some.injEq]
        constructor
        · rintro rfl
          exact absurd hkey.symm hkk
        · rintro rfl
          exact absurd hkey.symm hkk
      · simp [Slots.store, Function.update_of_ne hca]
    constructor
    · rintro ⟨c, n', hc, hheap, hkey, hval⟩
      exact ⟨c, n', (hlinked c).mpr hc, (hiff c n' hkey).mpr hheap, hkey, hval⟩
    · rintro ⟨c, n', hc, hheap, hkey, hval⟩
      exact ⟨c, n', (hlinked c).mp hc, (hiff c n' hkey).mp hheap, hkey, hval⟩

/-! ### The publication of a node -/

theorem write_body (s : Slots β τ) (a : Nat) (x : NodeSlot) (c : Nat) :
    ((s.write a x).heap c).map SlotNode.body = (s.heap c).map SlotNode.body := by
  cases x with
  | root i => rfl
  | child d i =>
    by_cases hcd : c = d
    · subst hcd
      simp only [write, Function.update_self, Option.map_map]
      rfl
    · simp [write, Function.update_of_ne hcd]

theorem write_value (s : Slots β τ) (a : Nat) (x : NodeSlot) (c : Nat) :
    ((s.write a x).heap c).map SlotNode.value = (s.heap c).map SlotNode.value := by
  cases x with
  | root i => rfl
  | child d i =>
    by_cases hcd : c = d
    · subst hcd
      simp only [write, Function.update_self, Option.map_map]
      rfl
    · simp [write, Function.update_of_ne hcd]

/-- A slot that is there: in the index, or in a published node. -/
def Slot (s : Slots β τ) : NodeSlot → Prop
  | .root _ => True
  | .child c _ => s.Linked c

theorem Sound.write_read (h : s.Sound K page) {x : NodeSlot} (hx : s.Slot x) (a : Nat) :
    (s.write a x).read = Function.update s.read x (some a) := by
  funext y
  cases x with
  | root i =>
    cases y with
    | root j =>
      by_cases hij : j = i
      · subst hij
        simp [Slots.read, write]
      · rw [Function.update_of_ne (by simpa using hij)]
        exact if_neg hij
    | child c j => rfl
  | child d i =>
    cases y with
    | root j => rfl
    | child c j =>
      by_cases hcd : c = d
      · subst hcd
        obtain ⟨n, hn, -⟩ := h.linked_node hx
        by_cases hij : j = i
        · subst hij
          simp [Slots.read, write, hn]
        · rw [Function.update_of_ne (by simpa using hij)]
          simp [Slots.read, write, hn, Function.update_of_ne hij]
      · rw [Function.update_of_ne (by simp [hcd])]
        simp [Slots.read, write, Function.update_of_ne hcd]

/-- A node of another key. -/
def Other (K : SlotKeys β κ) (s : Slots β τ) (k : κ) (a : Nat) : Prop :=
  ∃ k', s.key K a = some k' ∧ k' ≠ k

/-- The descent of a key comes to a slot, past nodes of other keys. -/
def Reaches (K : SlotKeys β κ) (s : Slots β τ) (k : κ) (x : NodeSlot) (d : Descent) : Prop :=
  ∃ n, Walk s.read (s.Other K k) (K.root k) (K.digits k) n x ∧ d = K.descent k n

theorem Extends.reaches (h : s.Extends s') {k : κ} {x : NodeSlot} {d : Descent}
    (hr : s.Reaches K k x d) : s'.Reaches K k x d := by
  obtain ⟨n, hwalk, hd⟩ := hr
  refine ⟨n, hwalk.grows h.read fun a => ?_, hd⟩
  rintro ⟨k', hk', hne⟩
  exact ⟨k', h.key hk', hne⟩

theorem Reaches.slot {k : κ} {x : NodeSlot} {d : Descent} (hr : s.Reaches K k x d) : s.Slot x := by
  obtain ⟨n, hwalk, -⟩ := hr
  cases hwalk with
  | root => trivial
  | child _ link _ => exact ⟨_, link⟩

/-- When the descent of a key comes to an empty slot, no published node has the key. -/
theorem Reaches.absent (h : s.Sound K page) {k : κ} {x : NodeSlot} {d : Descent}
    (hr : s.Reaches K k x d) (hempty : s.read x = none) {a : Nat} (ha : s.Linked a) :
    s.key K a ≠ some k := by
  obtain ⟨n, hwalk, -⟩ := hr
  obtain ⟨y, hy⟩ := ha
  refine h.placed.absent (hwalk.grows (Grows.refl _) fun c => ?_) hempty hy
  rintro ⟨k', hk', hne⟩ hk
  exact hne (Option.some.inj (hk'.symm.trans hk))

/-- A private node of the key goes into the slot that the descent came to. -/
theorem Sound.publish (h : s.Sound K page) {t : τ} {a : Nat} {n : SlotNode β} (hp : s.Private t a n)
    {x : NodeSlot} {d : Descent} (hr : s.Reaches K (K.keyOf n.body) x d) (hempty : s.read x = none) :
    Steps K page t s (s.write a x) := by
  have hread := h.write_read hr.slot a
  have harenas : (s.write a x).arenas = s.arenas := by cases x <;> rfl
  have hkey : s.key K a = some (K.keyOf n.body) := by simp [Slots.key, hp.heap]
  have hgrows : s.Extends (s.write a x) := by
    refine extends_of_body ?_ harenas (write_body s a x)
    rw [hread]
    exact fill_grows hempty a
  refine ⟨h.of_body harenas (write_body s a x) ?_, hgrows, fun t' htt c n' hp' => ⟨?_, ?_, ?_⟩⟩
  · obtain ⟨m, hwalk, -⟩ := hr
    rw [hread]
    refine h.placed.fill (hwalk.grows (Grows.refl _) fun c => ?_) hempty hkey fun y hy =>
      hp.unlinked ⟨y, hy⟩
    rintro ⟨k', hk', hne⟩ hk
    exact hne (Option.some.inj (hk'.symm.trans hk))
  · cases x with
    | root i => exact hp'.heap
    | child e i =>
      have hce : c ≠ e := by
        rintro rfl
        exact hp'.unlinked hr.slot
      simp only [write, Function.update_of_ne hce]
      exact hp'.heap
  · exact hgrows.owns t' c hp'.owns
  · rintro ⟨y, hy⟩
    rw [hread] at hy
    by_cases hyx : y = x
    · subst hyx
      rw [Function.update_self] at hy
      cases hy
      exact htt (h.arenas.owner hp'.owns hp.owns)
    · rw [Function.update_of_ne hyx] at hy
      exact hp'.unlinked ⟨y, hy⟩

theorem Holds.publish [DecidableEq κ] (h : s.Sound K page) {m : κ → Option (BitVec 64)}
    (hm : s.Holds K m) {t : τ} {a : Nat} {n : SlotNode β} (hp : s.Private t a n) {x : NodeSlot}
    {d : Descent} (hr : s.Reaches K (K.keyOf n.body) x d) (hempty : s.read x = none) :
    (s.write a x).Holds K (Function.update m (K.keyOf n.body) (some n.value)) := by
  have hread := h.write_read hr.slot a
  have hlinked : ∀ c, (s.write a x).Linked c ↔ c = a ∨ s.Linked c := by
    intro c
    unfold Slots.Linked
    rw [hread]
    constructor
    · rintro ⟨y, hy⟩
      by_cases hyx : y = x
      · subst hyx
        rw [Function.update_self] at hy
        exact .inl (Option.some.inj hy).symm
      · rw [Function.update_of_ne hyx] at hy
        exact .inr ⟨y, hy⟩
    · rintro (rfl | ⟨y, hy⟩)
      · exact ⟨x, Function.update_self ..⟩
      · exact ⟨y, fill_grows hempty a y c hy⟩
  -- a node is there with a key and a value exactly when it was before
  have hheap : ∀ c k v, (∃ n', (s.write a x).heap c = some n' ∧ K.keyOf n'.body = k ∧ n'.value = v) ↔
      ∃ n', s.heap c = some n' ∧ K.keyOf n'.body = k ∧ n'.value = v := by
    intro c k v
    have hb := write_body s a x c
    have hv := write_value s a x c
    cases hold : s.heap c with
    | none =>
      rw [hold, Option.map_none, Option.map_eq_none_iff] at hb
      simp [hb]
    | some n₁ =>
      rw [hold, Option.map_some, Option.map_eq_some_iff] at hb hv
      obtain ⟨n₂, hn₂, hb⟩ := hb
      obtain ⟨n₃, hn₃, hv⟩ := hv
      cases hn₂.symm.trans hn₃
      simp [hn₂, hb, hv]
  intro k v
  have hiff : (∃ c n', (s.write a x).Linked c ∧ (s.write a x).heap c = some n' ∧
      K.keyOf n'.body = k ∧ n'.value = v) ↔
      ∃ c, (c = a ∨ s.Linked c) ∧ ∃ n', s.heap c = some n' ∧ K.keyOf n'.body = k ∧ n'.value = v := by
    refine exists_congr fun c => ?_
    rw [← hheap c k v, ← hlinked c]
    exact exists_and_left
  rw [hiff]
  by_cases hk : k = K.keyOf n.body
  · subst hk
    rw [Function.update_self]
    constructor
    · rintro ⟨⟩
      exact ⟨a, .inl rfl, n, hp.heap, rfl, rfl⟩
    · rintro ⟨c, rfl | hc, n', hn', hkey, rfl⟩
      · cases hp.heap.symm.trans hn'
        rfl
      · exact absurd (by simp [Slots.key, hn', hkey]) (hr.absent h hempty hc)
  · rw [Function.update_of_ne hk, hm k v]
    constructor
    · rintro ⟨c, n', hc, hn', hkey, hval⟩
      exact ⟨c, .inr hc, n', hn', hkey, hval⟩
    · rintro ⟨c, rfl | hc, n', hn', hkey, hval⟩
      · cases hp.heap.symm.trans hn'
        exact absurd hkey.symm hk
      · exact ⟨c, n', hc, hn', hkey, hval⟩

end Slots

end RgMemory
