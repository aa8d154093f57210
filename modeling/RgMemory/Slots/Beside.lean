import RgMemory.Lib.Readers
import RgMemory.Lib.Turns
import RgMemory.Slots.Batch
import RgMemory.Slots.Progress

/-!
# A batched lookup beside writers

The lanes of a batched lookup load a pointer in one round and look at its node in the next, while other
threads put. `slotLookupReader` takes them one atomic access at a time, as an operation beside the
others (`Concurrent.Machine.beside`).

A lane relies on what a Get relies on: it has passed nodes of other keys only, and the pointer that it
holds is in the slot that it came to. A pointer that was null when it was loaded may be null no more
when the lane reports its miss; the key was absent at the load, and that was during the call. So every
key of the batch has an answer of the map at a moment of the call (`slot_lookup_beside`), each at its
own moment.
-/

namespace RgMemory

open Bytes Links Concurrent

/-- A batched lookup whose arguments are checked. -/
structure SlotLookup (β : Type) where
  probe : Nat → SlotProbe β
  count : Nat
  outValues : Nat → BitVec 64
  outFound : Option (Nat → Int)

/-- What a lane has at hand: its probe, the register, and the pointer that it has loaded. -/
abbrev SlotLane (β : Type) := SlotProbe β × Descent × Option Nat

/-- The number of hits is clamped to an `int32_t`. -/
def SlotLookup.answer {β : Type} (l : SlotLookup β) (b : Lanes.Shared (BitVec 64)) : BatchAnswer :=
  .hits (min b.hits (2 ^ 31 - 1)) (b.outValues.getD l.outValues) b.outFound

/-- Batched lookups with `k` lanes, access by access. A call may be refused. -/
def slotLookupReader {β τ χ : Type} (k : Nat) (call : χ → Option (SlotLookup β)) :
    Reader (Slots β τ) χ (Lanes.Place (SlotLane β) (BitVec 64)) (Except Stop BatchAnswer) where
  start op :=
    match call op with
    | none => .fill [] k ⟨0, 0, 0, none, none⟩
    | some l => .fill [] k ⟨0, 0, 0, some l.outValues, l.outFound⟩
  step op p s :=
    match call op with
    | none => .inr (.ok (.status .errInvalid))
    | some l =>
      match p.next (slotWalker s l.probe) l.count with
      | .error e => .inr (.error e)
      | .ok (.inl p) => .inl p
      | .ok (.inr b) => .inr (.ok (l.answer b))

section

variable {ω β ι κ τ χ : Type} {K : SlotKeys β κ} {page : Nat} {s s' : Slots β τ}
  {code : SlotCode ω β ι} {probe : Nat → SlotProbe β} {call : χ → Option (SlotLookup β)} {k : Nat}
  {Seen Seen' : κ → Option (BitVec 64) → Prop}

/-! ## The lanes -/

/-- What a lane relies on after `d` steps: it has passed that many nodes, and its pointer is in the
slot that it came to, or the key has been seen absent. -/
def LaneRelies (K : SlotKeys β κ) (s : Slots β τ) (Seen : κ → Option (BitVec 64) → Prop)
    (probe : Nat → SlotProbe β) (j d : Nat) : SlotLane β → Prop
  | (pr, dsc, cur) => pr = probe j ∧ ∃ x, s.ReachesAt K (K.keyOf (probe j).body) d x dsc ∧
    (∀ a, cur = some a → s.read x = some a) ∧ (cur = none → Seen (K.keyOf (probe j).body) none)

/-- What the result of a search means that has taken `d` steps. -/
def LaneAnswers (K : SlotKeys β κ) (s : Slots β τ) (Seen : κ → Option (BitVec 64) → Prop)
    (probe : Nat → SlotProbe β) (j d : Nat) (r : Option (BitVec 64)) : Prop :=
  Seen (K.keyOf (probe j).body) r ∧
    ∃ m x dsc, s.ReachesAt K (K.keyOf (probe j).body) m x dsc ∧ d = m + 1

theorem LaneRelies.mono {j d : Nat} {x : SlotLane β} (h : LaneRelies K s Seen probe j d x)
    (hg : s.Extends s') (hseen : ∀ k r, Seen k r → Seen' k r) : LaneRelies K s' Seen' probe j d x := by
  obtain ⟨pr, dsc, cur⟩ := x
  obtain ⟨hpr, x, hx, hcur, habsent⟩ := h
  exact ⟨hpr, x, hg.reachesAt hx, fun a ha => hg.read x a (hcur a ha),
    fun hnone => hseen _ _ (habsent hnone)⟩

theorem LaneAnswers.mono {j d : Nat} {r : Option (BitVec 64)} (h : LaneAnswers K s Seen probe j d r)
    (hg : s.Extends s') (hseen : ∀ k r, Seen k r → Seen' k r) : LaneAnswers K s' Seen' probe j d r := by
  obtain ⟨hr, m, x, dsc, hx, hd⟩ := h
  exact ⟨hseen _ _ hr, m, x, dsc, hg.reachesAt hx, hd⟩

/-- At an empty slot that the descent of a key comes to, the key is absent. -/
theorem Slots.ReachesAt.absent (h : s.Sound K page) {key : κ} {m : Nat} {x : NodeSlot} {d : Descent}
    (hx : s.ReachesAt K key m x d) (hread : s.read x = none) {map : κ → Option (BitVec 64)}
    (hm : s.Holds K map) : map key = none := by
  cases hk : map key with
  | none => rfl
  | some v =>
    obtain ⟨a, n, hlinked, hn, hkey, -⟩ := (hm _ _).mp hk
    have hreaches : s.Reaches K key x d := ⟨m, hx.1, hx.2⟩
    exact absurd (by simp [Slots.key, hn, hkey]) (hreaches.absent h hread hlinked)

/-- The lane has loaded a slot. -/
theorem LaneRelies.load (h : s.Sound K page) {map : κ → Option (BitVec 64)} (hm : s.Holds K map)
    (hseen : ∀ key, Seen key (map key)) {j d : Nat} {x : NodeSlot} {dsc : Descent}
    (hx : s.ReachesAt K (K.keyOf (probe j).body) d x dsc) :
    LaneRelies K s Seen probe j d (probe j, dsc, s.read x) := by
  refine ⟨rfl, x, hx, fun a ha => ha, fun hnone => ?_⟩
  have hnow := hseen (K.keyOf (probe j).body)
  rwa [hx.absent h hnone hm] at hnow

/-- **The walker of a moment serves the lanes**, with what is seen at that moment. -/
theorem slotWalker_serves [DecidableEq κ] (h : s.Sound K page) {map : κ → Option (BitVec 64)}
    (hm : s.Holds K map) (hseen : ∀ key, Seen key (map key)) (hprobe : ∀ j, (probe j).Lawful K) :
    Lanes.Serves (slotWalker s probe) (LaneRelies K s Seen probe) (LaneAnswers K s Seen probe) where
  load j := LaneRelies.load h hm hseen (Slots.reachesAt_root (hprobe j))
  step := by
    rintro j d ⟨pr, dsc, cur⟩ ⟨rfl, x, hx, hcur, habsent⟩
    cases cur with
    | none => exact .last ⟨habsent rfl, d, x, dsc, hx, rfl⟩
    | some a =>
      have hread := hcur a rfl
      obtain ⟨n, hn, hgenuine⟩ := h.linked_node ⟨x, hread⟩
      have htest := (hprobe j).test a n.body hgenuine
      simp only [slotWalker, hn]
      by_cases hk : K.keyOf n.body = K.keyOf (probe j).body
      · -- the value is loaded now, whenever the pointer was
        rw [decide_eq_true hk] at htest
        simp only [htest]
        refine .last ⟨?_, d, x, dsc, hx, rfl⟩
        have hvalue : map (K.keyOf (probe j).body) = some n.value :=
          (hm _ _).mpr ⟨a, n, ⟨x, hread⟩, hn, hk, rfl⟩
        rw [← hvalue]
        exact hseen _
      · rw [decide_eq_false hk] at htest
        simp only [htest]
        obtain ⟨hwalk, rfl⟩ := hx
        have hother : s.Other K (K.keyOf (probe j).body) a := ⟨_, by simp [Slots.key, hn], hk⟩
        have hchild : n.child (K.descent (K.keyOf (probe j).body) d).digit =
            s.read (.child a (K.descent (K.keyOf (probe j).body) d).digit) := by
          simp only [Slots.read, hn, Option.bind_some]
        rw [hchild, (hprobe j).reseed, ← K.descent_succ]
        exact .more (.load h hm hseen ⟨.child hwalk hread hother, rfl⟩)

/-! ## One call -/

/-- A lookup whose lanes have made `n` accesses, or which has ended. -/
def LookupGoes (K : SlotKeys β κ) (s : Slots β τ) (Seen : κ → Option (BitVec 64) → Prop) (k : Nat)
    (l : SlotLookup β) (n : Nat) :
    Lanes.Place (SlotLane β) (BitVec 64) ⊕ Except Stop BatchAnswer → Prop
  | .inl p => Lanes.Going (LaneRelies K s Seen l.probe) (LaneAnswers K s Seen l.probe) l.count k
      (some l.outValues) l.outFound n p
  | .inr r => ∃ single, (∀ j < l.count, Seen (K.keyOf (l.probe j).body) (single j)) ∧
      r = .ok (.ofSingle single l.outValues l.outFound l.count)

theorem LookupGoes.start {l : SlotLookup β} {op : χ} (hop : call op = some l) :
    LookupGoes K s Seen k l 0 (.inl ((slotLookupReader (τ := τ) k call).start op)) := by
  have hstart : (slotLookupReader (τ := τ) k call).start op =
      .fill [] k ⟨0, 0, 0, some l.outValues, l.outFound⟩ := by
    simp only [slotLookupReader, hop]
  rw [hstart]
  exact Lanes.Going.start k (some l.outValues) l.outFound

theorem LookupGoes.mono {l : SlotLookup β} {n : Nat}
    {y : Lanes.Place (SlotLane β) (BitVec 64) ⊕ Except Stop BatchAnswer}
    (h : LookupGoes K s Seen k l n y) (hg : s.Extends s') (hseen : ∀ key r, Seen key r → Seen' key r) :
    LookupGoes K s' Seen' k l n y := by
  cases y with
  | inl p => exact Lanes.Going.mono h (fun _ _ _ hx => hx.mono hg hseen) fun _ _ _ hr => hr.mono hg hseen
  | inr r =>
    obtain ⟨single, hsingle, hr⟩ := h
    exact ⟨single, fun j hj => hseen _ _ (hsingle j hj), hr⟩

/-- **A step of the call** keeps the lanes going, or ends it with the answers that were seen. -/
theorem LookupGoes.step [DecidableEq κ] (hk : 0 < k) (h : s.Sound K page)
    {map : κ → Option (BitVec 64)} (hm : s.Holds K map) (hseen : ∀ key, Seen key (map key))
    {l : SlotLookup β} {op : χ} (hop : call op = some l) (hprobe : ∀ j, (l.probe j).Lawful K) {n : Nat}
    {p : Lanes.Place (SlotLane β) (BitVec 64)} (hp : LookupGoes K s Seen k l n (.inl p)) :
    LookupGoes K s Seen k l (n + 1) ((slotLookupReader k call).step op p s) := by
  have hnext := Lanes.Going.next hk (slotWalker_serves h hm hseen hprobe) hp
  simp only [slotLookupReader, hop]
  generalize p.next (slotWalker s l.probe) l.count = out at hnext
  cases hnext with
  | more going => exact going
  | last ended =>
    obtain ⟨single, hsingle, rfl⟩ := ended
    refine ⟨single, fun j hj => ?_, ?_⟩
    · obtain ⟨d, hd, -⟩ := hsingle j hj
      exact hd
    · rw [BatchAnswer.ofSingle_eq]
      rfl

/-! ## Runs -/

section

variable [DecidableEq τ] [DecidableEq κ]

/-- What happens to a container whose threads also look up batches. -/
abbrev BesideConfig (τ β ω χ ι : Type) : Type :=
  Config τ (Slots β τ) (ω ⊕ χ) (SlotPhase ι ⊕ Lanes.Place (SlotLane β) (BitVec 64))
    (SlotResult ι ⊕ Except Stop BatchAnswer)

/-- What holds in every configuration of such a run. -/
abbrev BesideFollows (K : SlotKeys β κ) (code : SlotCode ω β ι) (page : Nat)
    (c : BesideConfig τ β ω χ ι) : Prop :=
  Follows (besideSpec (SlotSpec K code)) (fun s m => s.Sound K page ∧ s.Holds K m)
    (besideRelies (SlotRelies K code)) (fun _ => none) c

variable {c c' : BesideConfig τ β ω χ ι}

theorem beside_simulation (hpage : IsPageSize page) (hcode : code.Lawful K) (k : Nat)
    (call : χ → Option (SlotLookup β)) :
    Simulation (besideSpec (SlotSpec K code))
      ((slotMachine page code τ).beside (slotLookupReader k call))
      (fun s m => s.Sound K page ∧ s.Holds K m) (besideRelies (SlotRelies K code)) :=
  (slot_simulation hpage hcode).beside (slotLookupReader k call)

/-- No step takes anything away. -/
theorem BesideFollows.extends_step (hpage : IsPageSize page) (hcode : code.Lawful K)
    (hc : BesideFollows K code page c) {t : τ} {os : OsReply} {id : Nat} {op : ω ⊕ χ}
    {p : SlotPhase ι ⊕ Lanes.Place (SlotLane β) (BitVec 64)} {s' : Slots β τ}
    {out : (SlotPhase ι ⊕ Lanes.Place (SlotLane β) (BitVec 64)) ⊕
      (SlotResult ι ⊕ Except Stop BatchAnswer)}
    (hrun : c.thread t = .running id op p)
    (hstep : ((slotMachine page code τ).beside (slotLookupReader k call)).step t os op p c.shared =
      (s', out)) : c.shared.Extends s' := by
  obtain ⟨m, -, hsound, -⟩ := hc.log
  have hrelies := hc.running t id op p hrun
  cases besideStep_of hrelies hstep with
  | object step => exact (slotStep_spec hpage hcode hsound os hrelies step).1.grows
  | reader shared =>
    rw [shared]
    exact .refl _

theorem BesideFollows.extends_next (hpage : IsPageSize page) (hcode : code.Lawful K)
    (hc : BesideFollows K code page c)
    (hnext : c.Next ((slotMachine page code τ).beside (slotLookupReader k call)) c') :
    c.shared.Extends c'.shared := by
  rcases hnext.shared_cases with heq | ⟨t, os, id, op, p, out, hrun, hstep⟩
  · rw [heq]
    exact .refl _
  · exact hc.extends_step hpage hcode hrun hstep

/-- The map had this answer for a key at some moment since the log `start`. -/
def SeenSince (K : SlotKeys β κ) (code : SlotCode ω β ι)
    (start log : List (Nat × (ω ⊕ χ) × (SlotResult ι ⊕ Except Stop BatchAnswer))) (key : κ)
    (r : Option (BitVec 64)) : Prop :=
  Between (besideSpec (SlotSpec K code)) (fun _ => none) start log fun m => r = m key

omit [DecidableEq τ] in
/-- A key that was put before that is found. -/
theorem SeenSince.found
    {start log : List (Nat × (ω ⊕ χ) × (SlotResult ι ⊕ Except Stop BatchAnswer))} {key : κ}
    {r : Option (BitVec 64)} (h : SeenSince K code start log key r) {id : Nat} {put : ω}
    {v : BitVec 64} (hmem : (id, .inl put, .inl (.answer .ok none)) ∈ start)
    (hput : (code.op put).toMap K = .put key v) : r.isSome = true := by
  obtain ⟨pre, m, hpre, -, hlegal, rfl⟩ := h
  have hown : (id, put, .answer .ok none) ∈ ownLog pre := mem_ownLog.mpr (hpre.subset hmem)
  obtain ⟨v', hv'⟩ := SlotSpec.present hlegal.own hown hput
  rw [hv']
  rfl

/-- In any run of Puts, Gets, ForEachs and batched lookups, a batched lookup answers for each of its
keys what the map answered at a moment of the call. It stores the values of the hits and their flags,
and counts them; it finds every key that had been put when it was called. The number of steps that
its thread takes for it is bounded by the number of the Puts that have ended. -/
def LookupsBeside (K : SlotKeys β κ) (page : Nat) (code : SlotCode ω β ι) (k : Nat)
    (call : χ → Option (SlotLookup β)) (s : Slots β τ) : Prop :=
  ∀ (t : τ) (op : χ) (l : SlotLookup β) (before after : List (Action τ OsReply (ω ⊕ χ))),
    call op = some l →
    let M := (slotMachine page code τ).beside (slotLookupReader k call)
    let c₁ := (Config.start s).run M before
    let c₂ := (c₁.act M (.call t (.inr op))).run M after
    c₁.thread t = .idle →
      (∀ r, Event.ret c₁.next r ∈ c₂.history → ∃ single : Nat → Option (BitVec 64),
        r = .inr (.ok (.ofSingle single l.outValues l.outFound l.count)) ∧
        (∀ j < l.count, SeenSince K code c₁.log c₂.log (K.keyOf (l.probe j).body) (single j)) ∧
        ∀ j < l.count, ∀ id put v, (id, .inl put, .inl (.answer .ok none)) ∈ c₁.log →
          (code.op put).toMap K = .put (K.keyOf (l.probe j).body) v → (single j).isSome = true) ∧
      ∀ p, c₂.thread t = .running c₁.next (.inr op) p →
        ownSteps t after ≤
          2 * (k + 1) + (k + 2) * (l.count * (putCount code (ownLog c₂.log) + 1))

variable {l : SlotLookup β} {op : χ} {t : τ}

/-- What the call has seen when it returns. -/
theorem lookup_answers (hpage : IsPageSize page) (hcode : code.Lawful K) (hk : 0 < k)
    (hop : call op = some l) (hprobe : ∀ j, (l.probe j).Lawful K) {c₁ : BesideConfig τ β ω χ ι}
    (hc₁ : BesideFollows K code page c₁) (hidle : c₁.thread t = .idle)
    (after : List (Action τ OsReply (ω ⊕ χ))) {r : SlotResult ι ⊕ Except Stop BatchAnswer} :
    let M := (slotMachine page code τ).beside (slotLookupReader k call)
    let c₂ := (c₁.act M (.call t (.inr op))).run M after
    Event.ret c₁.next r ∈ c₂.history → ∃ single : Nat → Option (BitVec 64),
      r = .inr (.ok (.ofSingle single l.outValues l.outFound l.count)) ∧
      ∀ j < l.count, SeenSince K code c₁.log c₂.log (K.keyOf (l.probe j).body) (single j) := by
  intro M c₂ hret
  let G := fun (c : BesideConfig τ β ω χ ι) y =>
    ∃ n, LookupGoes K c.shared (SeenSince K code c₁.log c.log) k l n y
  let Q := fun c : BesideConfig τ β ω χ ι =>
    BesideFollows K code page c ∧ c₁.log <+: c.log ∧ Reads G t c₁.next op c
  have hnext : ∀ c c', Q c → c.Next M c' → Q c' := by
    rintro c c' ⟨hc, hpre, hreads⟩ hnext
    refine ⟨(beside_simulation hpage hcode k call).follows_next hc hnext,
      hpre.trans hnext.log_prefix, hreads.next hnext ?_ ?_⟩
    · rintro y ⟨n, hn⟩
      exact ⟨n, hn.mono (hc.extends_next hpage hcode hnext) fun _ _ h => h.mono hnext.log_prefix⟩
    · rintro p ⟨n, hn⟩
      obtain ⟨m, hlegal, hs, hm⟩ := hc.log
      exact ⟨n + 1, hn.step hk hs hm (fun key => .now hpre hlegal rfl) hop hprobe⟩
  have hcalled : Q (c₁.act M (.call t (.inr op))) := by
    have hact : c₁.act M (.call t (.inr op)) = c₁.called M t (.inr op) := by
      simp only [Config.act, hidle]
    rw [hact]
    exact ⟨(beside_simulation hpage hcode k call).follows_next hc₁ (.call hidle), List.prefix_rfl,
      .running (Function.update_self ..) ⟨_, rfl, 0, .start hop⟩⟩
  obtain ⟨hc₂, -, hreads⟩ := Config.run_induction M hnext hcalled after
  obtain ⟨r', rfl, n, single, hsingle, rfl⟩ := hreads.of_ret hc₂.wf hret
  exact ⟨single, rfl, hsingle⟩

/-- The steps of the call while it runs. -/
theorem lookup_steps_le (hpage : IsPageSize page) (hcode : code.Lawful K) (hk : 0 < k)
    (hop : call op = some l) (hprobe : ∀ j, (l.probe j).Lawful K) {c₁ : BesideConfig τ β ω χ ι}
    (hc₁ : BesideFollows K code page c₁) (hidle : c₁.thread t = .idle)
    (after : List (Action τ OsReply (ω ⊕ χ)))
    {p : SlotPhase ι ⊕ Lanes.Place (SlotLane β) (BitVec 64)} :
    let M := (slotMachine page code τ).beside (slotLookupReader k call)
    let c₂ := (c₁.act M (.call t (.inr op))).run M after
    c₂.thread t = .running c₁.next (.inr op) p →
      ownSteps t after ≤
        2 * (k + 1) + (k + 2) * (l.count * (putCount code (ownLog c₂.log) + 1)) := by
  intro M c₂ hrun
  have hnext : ∀ c c', BesideFollows K code page c → c.Next M c' → BesideFollows K code page c' :=
    fun c c' hc hnext => (beside_simulation hpage hcode k call).follows_next hc hnext
  have hother : ∀ (c : BesideConfig τ β ω χ ι) s' n y, BesideFollows K code page c →
      Config.Foreign M c t s' → LookupGoes K c.shared (fun _ _ => True) k l n y →
      LookupGoes K s' (fun _ _ => True) k l n y := by
    rintro c s' n y hc (rfl | ⟨t', os, id, op', p', out, -, hrun', hstep⟩) h
    · exact h
    · exact h.mono (hc.extends_step hpage hcode hrun' hstep) fun _ _ h => h
  have hown : ∀ (c : BesideConfig τ β ω χ ι) n p', BesideFollows K code page c →
      LookupGoes K c.shared (fun _ _ => True) k l n (.inl p') →
      LookupGoes K c.shared (fun _ _ => True) k l (n + 1)
        ((slotLookupReader k call).step op p' c.shared) := by
    intro c n p' hc h
    obtain ⟨m, -, hs, hm⟩ := hc.log
    exact h.step hk hs hm (fun _ => trivial) hop hprobe
  obtain ⟨p', rfl, hgoes⟩ :=
    Reader.counted (H := fun n s y => LookupGoes K s (fun _ _ => True) k l n y) hnext hother hown
      hidle hc₁ (LookupGoes.start hop) after p hrun
  have hc₂ : BesideFollows K code page c₂ :=
    Config.run_induction M hnext (hnext _ _ hc₁ (Config.act_next M c₁ _)) after
  obtain ⟨m, hlegal, hs, hm⟩ := hc₂.log
  refine Lanes.Going.steps_le hgoes ?_ ?_
  · rintro j d ⟨pr, dsc, cur⟩ ⟨-, x, hx, -⟩
    exact Nat.le_succ_of_le (SlotSpec.reachesAt_le hlegal.own hs hm hx)
  · rintro j d r ⟨-, m', x, dsc, hx, rfl⟩
    exact Nat.succ_le_succ (SlotSpec.reachesAt_le hlegal.own hs hm hx)

/-- **A batched lookup beside writers.** -/
theorem slot_lookup_beside (hpage : IsPageSize page) (hcode : code.Lawful K) (hk : 0 < k)
    (hcall : ∀ op l, call op = some l → ∀ j, (l.probe j).Lawful K) (hs : s.Fresh page) :
    LookupsBeside K page code k call s := by
  intro t op l before after hop M c₁ c₂ hidle
  have hc₁ : BesideFollows K code page c₁ :=
    (beside_simulation hpage hcode k call).follows hs.sound before
  refine ⟨fun r hret => ?_, fun p hrun => ?_⟩
  · obtain ⟨single, hr, hsingle⟩ :=
      lookup_answers hpage hcode hk hop (hcall op l hop) hc₁ hidle after hret
    exact ⟨single, hr, hsingle, fun j hj id put v hmem hput => (hsingle j hj).found hmem hput⟩
  · exact lookup_steps_le hpage hcode hk hop (hcall op l hop) hc₁ hidle after hrun

omit [DecidableEq κ] in
/-- When no other thread does anything, the accesses of a call are the walk of its lanes. -/
theorem lookup_alone (hop : call op = some l) {pl : Lanes.Place (SlotLane β) (BitVec 64)}
    {b : Lanes.Shared (BitVec 64)} (h : Lanes.Comes (slotWalker s l.probe) l.count pl b)
    (os : OsReply) (id : Nat) :
    ∃ n, ∀ c : BesideConfig τ β ω χ ι, c.shared = s →
      c.thread t = .running id (.inr op) (.inr pl) →
      (c.run ((slotMachine page code τ).beside (slotLookupReader k call))
        (List.replicate n (.step t os))).thread t =
          .done id (.inr op) (.inr (.ok (l.answer b))) := by
  induction h with
  | @last pl b next =>
    refine ⟨1, fun c hshared hthread => ?_⟩
    have hstep : (slotLookupReader k call).step op pl c.shared = .inr (.ok (l.answer b)) := by
      simp only [slotLookupReader, hop, hshared, next]
    show (c.act _ (.step t os)).thread t = _
    simp only [Config.act, hthread, Machine.beside, hstep]
    exact Function.update_self ..
  | @more pl pl' b next rest ih =>
    obtain ⟨n, hn⟩ := ih
    refine ⟨n + 1, fun c hshared hthread => ?_⟩
    have hstep : (slotLookupReader k call).step op pl c.shared = .inl pl' := by
      simp only [slotLookupReader, hop, hshared, next]
    have hact : c.act ((slotMachine page code τ).beside (slotLookupReader k call)) (.step t os) =
        c.moved t id (.inr op) c.shared (.inr pl') := by
      simp only [Config.act, hthread, Machine.beside, hstep]
      rfl
    rw [List.replicate_succ, Config.run, List.foldl_cons, hact]
    exact hn _ hshared (Function.update_self ..)

end

end

end RgMemory
