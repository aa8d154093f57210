import RgMemory.Slots.Sound

/-!
# Runs of a lock-free trie

Any number of threads call Put and Get, each with an arena of its own, and their steps interleave in
any order. `SlotPhase.Near` is what an operation relies on while it descends: it has passed nodes of
other keys only. So the empty slot that a Put wins or a Get sees is the end of the path of its key.

The result is `slot_simulation`: the steps with a result follow the finite map from keys to values,
and `Concurrent.Follows.linearization` turns that into a sequential order of the operations. The map
says nothing about arenas; a Put that ends without memory was refused its node by the arena of its
own thread (`slot_refused`).
-/

namespace RgMemory

open Bytes Links Concurrent

/-! ## Phases -/

section

variable {ω β ι κ τ : Type} {K : SlotKeys β κ} {page : Nat} {s s' : Slots β τ}

/-- What a phase of a descent for the key `k` relies on. -/
def SlotPhase.Near (K : SlotKeys β κ) (s : Slots β τ) (k : κ) : SlotPhase ι → Prop
  | .enter => True
  | .load x d => s.Reaches K k x d
  | .create x d => s.Reaches K k x d
  | .cas x d _ => s.Reaches K k x d
  | .inspect cur d => ∃ x, s.Reaches K k x d ∧ s.read x = some cur
  | .access cur => s.Linked cur ∧ s.key K cur = some k
  | .iter _ => False

theorem SlotPhase.Near.grows {k : κ} {p : SlotPhase ι} (h : p.Near K s k) (hg : s.Extends s') :
    p.Near K s' k := by
  cases p with
  | enter => trivial
  | load x d => exact hg.reaches h
  | create x d => exact hg.reaches h
  | cas x d a => exact hg.reaches h
  | inspect cur d =>
    obtain ⟨x, hr, hx⟩ := h
    exact ⟨x, hg.reaches hr, hg.read x cur hx⟩
  | access cur => exact ⟨hg.linked h.1, hg.key h.2⟩
  | iter it => exact h

/-- The node that a Put makes. -/
def SlotProbe.node (pr : SlotProbe β) (value : BitVec 64) : SlotNode β :=
  ⟨fun _ => none, value, pr.body⟩

/-- What a Put relies on: between creation and CAS its node is private. -/
structure PutRelies (K : SlotKeys β κ) (s : Slots β τ) (t : τ) (pr : SlotProbe β)
    (value : BitVec 64) (p : SlotPhase ι) : Prop where
  near : p.Near K s (K.keyOf pr.body)
  node : ∀ x d a, p = .cas x d a → s.Private t a (pr.node value)

/-- What a Get relies on: it never comes to the phases of an insertion, and to the value only when
it has somewhere to put it. -/
structure GetRelies (K : SlotKeys β κ) (s : Slots β τ) (pr : SlotProbe β) (outValue : Bool)
    (p : SlotPhase ι) : Prop where
  near : p.Near K s (K.keyOf pr.body)
  create : ∀ x d, p ≠ .create x d
  cas : ∀ x d a, p ≠ .cas x d a
  access : ∀ cur, p = .access cur → outValue = true

/-- The entry slot of a descent. -/
theorem reaches_root [DecidableEq κ] {pr : SlotProbe β} (hpr : pr.Lawful K) :
    s.Reaches K (K.keyOf pr.body) (.root pr.root) pr.descend := by
  have hroot : pr.root = K.root (K.keyOf pr.body) := by
    rw [SlotProbe.root, hpr.hfull]
    rfl
  have hdescend : pr.descend = K.descent (K.keyOf pr.body) 0 := by
    rw [SlotProbe.descend, hpr.hfull]
    rfl
  rw [hroot, hdescend]
  exact ⟨0, .root, rfl⟩

/-- The comparison with a published node decides whether it has the key, and if not, the descent
goes on past it. -/
theorem inspect_cases [DecidableEq κ] (h : s.Sound K page) {pr : SlotProbe β} (hpr : pr.Lawful K)
    {cur : Nat} {d : Descent} (hnear : (SlotPhase.inspect cur d : SlotPhase ι).Near K s
      (K.keyOf pr.body)) :
    ((s.heap cur).bind fun n => pr.test cur n.body) = some true ∧ s.Linked cur ∧
        s.key K cur = some (K.keyOf pr.body) ∨
      ((s.heap cur).bind fun n => pr.test cur n.body) = some false ∧
        s.Reaches K (K.keyOf pr.body) (.child cur d.digit) (d.next pr.reseed) := by
  obtain ⟨x, ⟨m, hwalk, rfl⟩, hx⟩ := hnear
  obtain ⟨n, hn, hgenuine⟩ := h.linked_node ⟨x, hx⟩
  have hkey : s.key K cur = some (K.keyOf n.body) := by simp [Slots.key, hn]
  rw [hn, Option.bind_some, hpr.test cur n.body hgenuine]
  by_cases hk : K.keyOf n.body = K.keyOf pr.body
  · rw [decide_eq_true hk]
    exact .inl ⟨rfl, ⟨x, hx⟩, hk ▸ hkey⟩
  · rw [decide_eq_false hk, hpr.reseed, ← K.descent_succ]
    exact .inr ⟨rfl, m + 1, .child hwalk hx ⟨_, hkey, hk⟩, rfl⟩

/-- What a step of Put does to the map: nothing, or it ends with the key inserted or its value
replaced, or without memory. -/
def PutYields [DecidableEq κ] (K : SlotKeys β κ) (s s' : Slots β τ) (t : τ) (pr : SlotProbe β)
    (value : BitVec 64) : SlotPhase ι ⊕ SlotResult ι → Prop
  | .inl p => (∀ m, s.Holds K m → s'.Holds K m) ∧ PutRelies K s' t pr value p
  | .inr r =>
    (r = .answer .ok none ∧
      ∀ m, s.Holds K m → s'.Holds K (Function.update m (K.keyOf pr.body) (some value))) ∨
    (r = .answer .errNoMemory none ∧ ∀ m, s.Holds K m → s'.Holds K m)

theorem slotPutStep_spec [DecidableEq τ] [DecidableEq κ] (hpage : IsPageSize page)
    (h : s.Sound K page) (os : OsReply) {t : τ} {pr : SlotProbe β} (hpr : pr.Lawful K)
    {value : BitVec 64} {p : SlotPhase ι} (hp : PutRelies K s t pr value p)
    {out : SlotPhase ι ⊕ SlotResult ι}
    (hstep : slotPutStep page os t pr value s p = (s', out)) :
    Slots.Steps K page t s s' ∧ PutYields K s s' t pr value out := by
  have hstay : ∀ {p' : SlotPhase ι}, p'.Near K s (K.keyOf pr.body) →
      (∀ x d a, p' ≠ .cas x d a) → Slots.Steps K page t s s ∧
        PutYields K s s t pr value (.inl p') := fun hnear hcas =>
    ⟨h.steps_refl t, fun _ hm => hm, hnear, fun x d a heq => absurd heq (hcas x d a)⟩
  cases p with
  | enter =>
    have hlive : (s.arenas t).base ≠ 0 := Nat.ne_of_gt (h.arenas.live t)
    simp only [slotPutStep, if_neg hlive] at hstep
    cases hstep
    exact hstay (reaches_root hpr) nofun
  | load x d =>
    cases hread : s.read x with
    | none =>
      simp only [slotPutStep, hread] at hstep
      cases hstep
      exact hstay hp.near nofun
    | some cur =>
      simp only [slotPutStep, hread] at hstep
      cases hstep
      exact hstay ⟨x, hp.near, hread⟩ nofun
  | create x d =>
    have hcreated := Slots.create_cases hpage h os t hpr value
    have hsteps := hcreated.steps h
    simp only [slotPutStep] at hstep
    generalize s.create page os t pr value = made at hcreated hsteps hstep
    cases hcreated with
    | refused =>
      cases hstep
      exact ⟨hsteps, .inr ⟨rfl, fun m hm => hm⟩⟩
    | @granted a s₁ sound grows read fresh heap owns =>
      cases hstep
      have hheap : s'.heap a = some (pr.node value) := by
        rw [heap, Function.update_self]
        rfl
      have hunlinked : ∀ c, s.Linked c → c ≠ a := by
        rintro c hc rfl
        obtain ⟨n, hn, -⟩ := h.linked_node hc
        exact absurd (fresh.symm.trans hn) (by simp)
      have hlinked : ∀ c, s'.Linked c ↔ s.Linked c := fun c => by
        unfold Slots.Linked
        rw [read]
      refine ⟨hsteps, fun m hm k v => ?_, grows.reaches hp.near, fun x' d' a' heq => ?_⟩
      · rw [hm k v]
        refine exists_congr fun c => exists_congr fun n => ?_
        rw [hlinked c]
        refine and_congr_right fun hc => ?_
        rw [heap, Function.update_of_ne (hunlinked c hc)]
      · cases heq
        exact ⟨hheap, owns, fun hl => hunlinked a ((hlinked a).mp hl) rfl⟩
  | cas x d a =>
    have hprivate := hp.node x d a rfl
    cases hread : s.read x with
    | none =>
      simp only [slotPutStep, hread] at hstep
      cases hstep
      exact ⟨h.publish hprivate hp.near hread, .inl ⟨rfl, fun m hm =>
        hm.publish h hprivate hp.near hread⟩⟩
    | some prior =>
      simp only [slotPutStep, hread] at hstep
      cases hstep
      exact hstay ⟨x, hp.near, hread⟩ nofun
  | inspect cur d =>
    rcases inspect_cases h hpr hp.near with ⟨htest, hlinked, hkey⟩ | ⟨htest, hnext⟩
    · simp only [slotPutStep, htest] at hstep
      cases hstep
      exact hstay ⟨hlinked, hkey⟩ nofun
    · simp only [slotPutStep, htest] at hstep
      cases hstep
      exact hstay hnext nofun
  | access cur =>
    obtain ⟨hlinked, hkey⟩ := hp.near
    cases hstep
    exact ⟨h.store t hlinked value, .inl ⟨rfl, fun m hm => hm.store h hlinked hkey value⟩⟩
  | iter it => exact absurd hp.near id

/-- A Put ends without memory only where its thread's arena has refused the node. -/
theorem slotPutStep_refused [DecidableEq τ] {os : OsReply} {t : τ} {pr : SlotProbe β}
    {value : BitVec 64} {p : SlotPhase ι}
    (hstep : slotPutStep page os t pr value s p = (s', .inr (.answer .errNoMemory none))) :
    (rgArenaAllocAligned page os (s.arenas t) pr.size rgmCacheLine).1 = 0 := by
  cases p with
  | enter =>
    simp only [slotPutStep] at hstep
    split at hstep <;> cases hstep
  | load x d =>
    simp only [slotPutStep] at hstep
    split at hstep <;> cases hstep
  | create x d =>
    simp only [slotPutStep] at hstep
    split at hstep
    · next hmade =>
      unfold Slots.create at hmade
      dsimp only at hmade
      split at hmade
      · next hnull => exact hnull
      · cases hmade
    · cases hstep
  | cas x d a =>
    simp only [slotPutStep] at hstep
    split at hstep <;> cases hstep
  | inspect cur d =>
    simp only [slotPutStep] at hstep
    split at hstep <;> cases hstep
  | access cur => cases hstep
  | iter it => cases hstep

/-- The answer of a Get in a map. -/
def getAnswer (missing : Status) (outValue : Bool) : Option (BitVec 64) → SlotResult ι
  | some v => .answer .ok (if outValue then some v else none)
  | none => .answer missing none

/-- A step of Get goes on, or ends with the answer of the map. -/
def GetYields (K : SlotKeys β κ) (s : Slots β τ) (missing : Status) (pr : SlotProbe β)
    (outValue : Bool) : SlotPhase ι ⊕ SlotResult ι → Prop
  | .inl p => GetRelies K s pr outValue p
  | .inr r => ∀ m, s.Holds K m → r = getAnswer missing outValue (m (K.keyOf pr.body))

theorem slotGetStep_spec [DecidableEq κ] (h : s.Sound K page) {pr : SlotProbe β}
    (hpr : pr.Lawful K) {missing : Status} {outValue : Bool} {p : SlotPhase ι}
    (hp : GetRelies K s pr outValue p) :
    GetYields K s missing pr outValue (slotGetStep missing pr outValue s p) := by
  have hvalue : ∀ {cur n m}, s.Linked cur → s.key K cur = some (K.keyOf pr.body) →
      s.heap cur = some n → s.Holds K m → m (K.keyOf pr.body) = some n.value := by
    intro cur n m hlinked hkey hn hm
    refine (hm _ _).mpr ⟨cur, n, hlinked, hn, ?_, rfl⟩
    simpa [Slots.key, hn] using hkey
  cases p with
  | enter => exact ⟨reaches_root hpr, by simp, by simp, by simp⟩
  | load x d =>
    cases hread : s.read x with
    | none =>
      simp only [slotGetStep, hread]
      intro m hm
      have habsent : m (K.keyOf pr.body) = none := by
        cases hk : m (K.keyOf pr.body) with
        | none => rfl
        | some v =>
          obtain ⟨a, n, hlinked, hn, hkey, -⟩ := (hm _ _).mp hk
          exact absurd (by simp [Slots.key, hn, hkey]) (Slots.Reaches.absent h hp.near hread hlinked)
      rw [habsent]
      rfl
    | some cur =>
      simp only [slotGetStep, hread]
      exact ⟨⟨x, hp.near, hread⟩, by simp, by simp, by simp⟩
  | create x d => exact absurd rfl (hp.create x d)
  | cas x d a => exact absurd rfl (hp.cas x d a)
  | inspect cur d =>
    rcases inspect_cases h hpr hp.near with ⟨htest, hlinked, hkey⟩ | ⟨htest, hnext⟩
    · simp only [slotGetStep, htest]
      cases outValue with
      | true => exact ⟨⟨hlinked, hkey⟩, by simp, by simp, fun _ _ => rfl⟩
      | false =>
        intro m hm
        obtain ⟨n, hn, -⟩ := h.linked_node hlinked
        rw [hvalue hlinked hkey hn hm]
        rfl
    · simp only [slotGetStep, htest]
      exact ⟨hnext, by simp, by simp, by simp⟩
  | access cur =>
    obtain ⟨hlinked, hkey⟩ := hp.near
    obtain ⟨n, hn, -⟩ := h.linked_node hlinked
    obtain rfl := hp.access cur rfl
    simp only [slotGetStep, hn]
    intro m hm
    rw [hvalue hlinked hkey hn hm]
    rfl
  | iter it => exact absurd hp.near id

/-! ## The simulation -/

/-- A call, as an operation of a finite map. -/
inductive MapOp (κ ι : Type)
  | settled (r : SlotResult ι)
  | put (k : κ) (value : BitVec 64)
  | get (k : κ) (out : Bool)
  | forEach

/-- What the results mean on the map. ForEach reads the map while it changes, so its result says
nothing about one moment. -/
def mapSpec [DecidableEq κ] (missing : Status) (m : κ → Option (BitVec 64)) (op : MapOp κ ι)
    (r : SlotResult ι) (m' : κ → Option (BitVec 64)) : Prop :=
  match op with
  | .settled r' => r = r' ∧ m' = m
  | .put k value =>
    r = .answer .ok none ∧ m' = Function.update m k (some value) ∨
      r = .answer .errNoMemory none ∧ m' = m
  | .get k out => r = getAnswer missing out (m k) ∧ m' = m
  | .forEach => m' = m

def SlotOp.toMap (K : SlotKeys β κ) : SlotOp β ι → MapOp κ ι
  | .refused r => .settled r
  | .put pr value => .put (K.keyOf pr.body) value
  | .get pr out => .get (K.keyOf pr.body) out
  | .forEach _ => .forEach

def SlotSpec [DecidableEq κ] (K : SlotKeys β κ) (code : SlotCode ω β ι)
    (m : κ → Option (BitVec 64)) (op : ω) (r : SlotResult ι) (m' : κ → Option (BitVec 64)) : Prop :=
  mapSpec code.missing m ((code.op op).toMap K) r m'

/-- What an operation relies on in a phase. -/
def SlotRelies (K : SlotKeys β κ) (code : SlotCode ω β ι) (s : Slots β τ) (t : τ) (op : ω)
    (p : SlotPhase ι) : Prop :=
  match code.op op with
  | .put pr value => PutRelies K s t pr value p
  | .get pr out => GetRelies K s pr out p
  | _ => True

/-- A step of another thread does not disturb an operation. -/
theorem SlotRelies.frame {code : SlotCode ω β ι} {t t' : τ} (h : Slots.Steps K page t s s')
    (htt : t' ≠ t) {op : ω} {p : SlotPhase ι} (hp : SlotRelies K code s t' op p) :
    SlotRelies K code s' t' op p := by
  unfold SlotRelies at *
  cases hop : code.op op with
  | refused r' => trivial
  | put pr value =>
    rw [hop] at hp
    exact ⟨hp.near.grows h.grows, fun x d a heq => h.frame t' htt a _ (hp.node x d a heq)⟩
  | get pr out =>
    rw [hop] at hp
    exact ⟨hp.near.grows h.grows, hp.create, hp.cas, hp.access⟩
  | forEach fn => trivial

variable [DecidableEq κ] {code : SlotCode ω β ι}

/-- What a step of an operation does to the map: nothing, or it ends with what the specification
says. -/
def SlotYields (K : SlotKeys β κ) (code : SlotCode ω β ι) (s s' : Slots β τ) (t : τ) (op : ω) :
    SlotPhase ι ⊕ SlotResult ι → Prop
  | .inl p => (∀ m, s.Holds K m → s'.Holds K m) ∧ SlotRelies K code s' t op p
  | .inr r => ∀ m, s.Holds K m → ∃ m', SlotSpec K code m op r m' ∧ s'.Holds K m'

theorem PutYields.slot {t : τ} {op : ω} {pr : SlotProbe β} {value : BitVec 64}
    (hop : code.op op = .put pr value) {out : SlotPhase ι ⊕ SlotResult ι}
    (h : PutYields K s s' t pr value out) : SlotYields K code s s' t op out := by
  unfold SlotYields SlotRelies SlotSpec
  rw [hop]
  cases out with
  | inl p => exact h
  | inr r =>
    intro m hm
    rcases h with ⟨hr, hholds⟩ | ⟨hr, hholds⟩
    · exact ⟨_, .inl ⟨hr, rfl⟩, hholds m hm⟩
    · exact ⟨m, .inr ⟨hr, rfl⟩, hholds m hm⟩

theorem GetYields.slot {t : τ} {op : ω} {pr : SlotProbe β} {outValue : Bool}
    (hop : code.op op = .get pr outValue) {out : SlotPhase ι ⊕ SlotResult ι}
    (h : GetYields K s code.missing pr outValue out) : SlotYields K code s s t op out := by
  unfold SlotYields SlotRelies SlotSpec
  rw [hop]
  cases out with
  | inl p => exact ⟨fun _ hm => hm, h⟩
  | inr r => exact fun m hm => ⟨m, ⟨h m hm, rfl⟩, hm⟩

variable [DecidableEq τ]

/-- Every step keeps the state sound and extends it, and follows the map. -/
theorem slotStep_spec (hpage : IsPageSize page) (hcode : code.Lawful K) (h : s.Sound K page)
    (os : OsReply) {t : τ} {op : ω} {p : SlotPhase ι} (hp : SlotRelies K code s t op p)
    {out : SlotPhase ι ⊕ SlotResult ι} (hstep : slotStep page code t os op p s = (s', out)) :
    Slots.Steps K page t s s' ∧ SlotYields K code s s' t op out := by
  unfold slotStep at hstep
  cases hop : code.op op with
  | refused r =>
    rw [hop] at hstep
    cases hstep
    refine ⟨h.steps_refl t, fun m hm => ⟨m, ?_, hm⟩⟩
    unfold SlotSpec
    rw [hop]
    exact ⟨rfl, rfl⟩
  | put pr value =>
    unfold SlotRelies at hp
    rw [hop] at hstep hp
    have hprobe := hcode.probe op pr (by rw [hop]; rfl)
    obtain ⟨hsteps, hyields⟩ := slotPutStep_spec hpage h os hprobe hp hstep
    exact ⟨hsteps, hyields.slot hop⟩
  | get pr outValue =>
    unfold SlotRelies at hp
    rw [hop] at hstep hp
    have hprobe := hcode.probe op pr (by rw [hop]; rfl)
    cases hstep
    exact ⟨h.steps_refl t, (slotGetStep_spec h hprobe hp).slot hop⟩
  | forEach fn =>
    have hstay : ∀ out, SlotYields K code s s t op out := by
      intro out
      unfold SlotYields SlotRelies SlotSpec
      rw [hop]
      cases out with
      | inl p => exact ⟨fun _ hm => hm, trivial⟩
      | inr r => exact fun m hm => ⟨m, rfl, hm⟩
    rw [hop] at hstep
    dsimp only at hstep
    split at hstep <;> cases hstep <;> exact ⟨h.steps_refl t, hstay _⟩

/-- **The steps of the threads follow the finite map.** -/
theorem slot_simulation (hpage : IsPageSize page) (hcode : code.Lawful K) :
    Simulation (SlotSpec K code) (slotMachine page code τ)
      (fun s m => s.Sound K page ∧ s.Holds K m) (SlotRelies K code) where
  start := by
    intro s m t op _
    show SlotRelies K code s t op .enter
    unfold SlotRelies
    cases code.op op with
    | refused r' => trivial
    | put pr value => exact ⟨trivial, by simp⟩
    | get pr out => exact ⟨trivial, by simp, by simp, by simp⟩
    | forEach fn => trivial
  move := by
    intro s m t os op p s' p' ⟨h, hm⟩ hp hstep
    obtain ⟨hsteps, hholds, hnext⟩ := slotStep_spec hpage hcode h os hp hstep
    exact ⟨⟨hsteps.sound, hholds m hm⟩, hnext⟩
  commit := by
    intro s m t os op p s' r ⟨h, hm⟩ hp hstep
    obtain ⟨hsteps, hyields⟩ := slotStep_spec hpage hcode h os hp hstep
    obtain ⟨m', hspec, hm'⟩ := hyields m hm
    exact ⟨m', hspec, hsteps.sound, hm'⟩
  frame := by
    intro s m t os op p s' out ⟨h, _⟩ hp hstep t' htt op' p' hp'
    exact hp'.frame (slotStep_spec hpage hcode h os hp hstep).1 htt

omit [DecidableEq τ] in
/-- A key that was put is in the map from then on. -/
theorem SlotSpec.present {m m' : κ → Option (BitVec 64)} {xs : List (Nat × ω × SlotResult ι)}
    (h : Legal (SlotSpec K code) m xs m') {a : Nat} {op : ω} {k : κ} {v : BitVec 64}
    (hx : (a, op, .answer .ok none) ∈ xs) (hop : (code.op op).toMap K = .put k v) :
    ∃ v, m' k = some v := by
  refine h.keeps (Q := fun m => ∃ v, m k = some v) hx (fun m m' hspec => ?_)
    fun m op r m' hspec hm => ?_
  · unfold SlotSpec at hspec
    rw [hop] at hspec
    rcases hspec with ⟨-, rfl⟩ | ⟨hr, -⟩
    · exact ⟨v, Function.update_self ..⟩
    · cases hr
  · unfold SlotSpec at hspec
    cases hmap : (code.op op).toMap K with
    | settled r' =>
      rw [hmap] at hspec
      exact hspec.2 ▸ hm
    | put k' v' =>
      rw [hmap] at hspec
      rcases hspec with ⟨-, rfl⟩ | ⟨-, rfl⟩
      · by_cases heq : k = k'
        · exact ⟨v', by rw [heq, Function.update_self]⟩
        · rwa [Function.update_of_ne heq]
      · exact hm
    | get k' out =>
      rw [hmap] at hspec
      exact hspec.2 ▸ hm
    | forEach =>
      rw [hmap] at hspec
      exact hspec ▸ hm

omit [DecidableEq τ] in
/-- A key that no call puts has the value that it had. -/
theorem SlotSpec.untouched {m m' : κ → Option (BitVec 64)} {xs : List (Nat × ω × SlotResult ι)}
    (h : Legal (SlotSpec K code) m xs m') {k : κ}
    (hno : ∀ x ∈ xs, ∀ v, (code.op x.2.1).toMap K ≠ .put k v) : m' k = m k := by
  refine h.invariant (Q := fun m' => m' k = m k) rfl fun x hx m₁ m₂ hspec hm => ?_
  have hput := hno x hx
  unfold SlotSpec at hspec
  cases hmap : (code.op x.2.1).toMap K with
  | settled r' =>
    rw [hmap] at hspec
    exact hspec.2 ▸ hm
  | put k' v' =>
    rw [hmap] at hspec hput
    rcases hspec with ⟨-, rfl⟩ | ⟨-, rfl⟩
    · rwa [Function.update_of_ne]
      rintro rfl
      exact hput v' rfl
    · exact hm
  | get k' out =>
    rw [hmap] at hspec
    exact hspec.2 ▸ hm
  | forEach =>
    rw [hmap] at hspec
    exact hspec ▸ hm

/-- A container as its Init leaves it: no node, and an arena for each thread. -/
structure Slots.Fresh (page : Nat) (s : Slots β τ) : Prop where
  top : ∀ i, s.top i = none
  heap : ∀ a, s.heap a = none
  arenas : s.Arenas page

omit [DecidableEq τ] [DecidableEq κ] in
theorem Slots.Fresh.sound (h : s.Fresh page) : s.Sound K page ∧ s.Holds K fun _ => none := by
  have hread : s.read = fun _ => none := by
    funext x
    cases x with
    | root i => exact h.top i
    | child a i => simp [Slots.read, h.heap a]
  refine ⟨⟨h.arenas, ?_, fun a n hn => ?_, fun a n hn => ?_, fun a n a' n' hn => ?_⟩, fun k v => ?_⟩
  · rw [hread]
    exact Placed.empty
  · exact absurd ((h.heap a).symm.trans hn) (by simp)
  · exact absurd ((h.heap a).symm.trans hn) (by simp)
  · exact absurd ((h.heap a).symm.trans hn) (by simp)
  · constructor
    · intro hnone
      cases hnone
    · rintro ⟨a, n, -, hn, -⟩
      exact absurd ((h.heap a).symm.trans hn) (by simp)

/-- The two threads of the samples. -/
def threadA : Fin 2 := 0

def threadB : Fin 2 := 1

/-- Two arenas of 64 KiB, for two threads. -/
def sampleArenas (t : Fin 2) : ArenaState :=
  { base := 65536 * (t + 1), reserved := 65536, committed := 65536, pos := 0, backing := .anon,
    mem := fun _ => 0, access := fun _ => true }

omit [DecidableEq τ] [DecidableEq κ] in
theorem sampleArenas_ok (s : Slots β (Fin 2)) (hs : s.arenas = sampleArenas) :
    s.Arenas 4096 := by
  refine ⟨fun t => ?_, fun t => ?_, fun t t' hne => ?_⟩ <;> rw [hs]
  · refine ⟨?_, ?_, ?_, Nat.zero_le _, Nat.le_refl _, .inr rfl, fun _ _ _ => rfl⟩
    · exact ⟨16 * (t.val + 1), by show 65536 * (t.val + 1) = _; omega⟩
    · intro h0
      change 65536 * (t.val + 1) = 0 at h0
      omega
    · show 65536 * (t.val + 1) + 65536 ≤ 2 ^ 64
      omega
  · show 0 < 65536 * (t.val + 1)
    omega
  · have : t.val ≠ t'.val := fun h => hne (Fin.ext h)
    show Apart (65536 * (t.val + 1)) 65536 (65536 * (t'.val + 1)) 65536
    unfold Apart
    omega

/-- What holds in every configuration of every run of a container. -/
theorem slot_follows (hpage : IsPageSize page) (hcode : code.Lawful K) (hs : s.Fresh page)
    (actions : List (Action τ OsReply ω)) :
    Follows (SlotSpec K code) (fun s m => s.Sound K page ∧ s.Holds K m) (SlotRelies K code)
      (fun _ => none) ((Config.start s).run (slotMachine page code τ) actions) :=
  (slot_simulation hpage hcode).follows hs.sound actions

section

variable {c : Config τ (Slots β τ) ω (SlotPhase ι) (SlotResult ι)}
  (hc : Follows (SlotSpec K code) (fun s m => s.Sound K page ∧ s.Holds K m) (SlotRelies K code)
    (fun _ => none) c)

include hc

omit [DecidableEq τ] in
/-- A Get that is called after a Put of its key returned OK finds the key. -/
theorem slot_found {a b : Nat} {put get : ω} {k : κ} {v : BitVec 64} {out : Bool}
    {r : SlotResult ι} (hput : Event.call a put ∈ c.history)
    (hputs : (code.op put).toMap K = .put k v)
    (hsub : [Event.ret a (.answer .ok none), Event.call b get].Sublist c.history)
    (hgets : (code.op get).toMap K = .get k out) (hret : Event.ret b r ∈ c.history) :
    ∃ v, r = .answer .ok (if out then some v else none) := by
  obtain ⟨pre, m₁, m₂, hmem, hlegal, hspec⟩ := hc.after hput hsub hret
  obtain ⟨v', hv⟩ := SlotSpec.present hlegal hmem hputs
  unfold SlotSpec at hspec
  rw [hgets] at hspec
  obtain ⟨rfl, -⟩ := hspec
  exact ⟨v', by rw [hv, getAnswer]⟩

omit [DecidableEq τ] in
/-- A Get of a key that no call has put answers so. -/
theorem slot_missing {b : Nat} {get : ω} {k : κ} {out : Bool} {r : SlotResult ι}
    (hcall : Event.call b get ∈ c.history) (hgets : (code.op get).toMap K = .get k out)
    (hno : ∀ a put v, Event.call a put ∈ c.history → (code.op put).toMap K ≠ .put k v)
    (hret : Event.ret b r ∈ c.history) : r = .answer code.missing none := by
  obtain ⟨m, hlegal, -⟩ := hc.log
  obtain ⟨op, hlog⟩ := hc.wf.ret_logged b r hret
  obtain rfl := hc.wf.call_unique b op get (hc.wf.log_called _ hlog) hcall
  obtain ⟨pre, m₁, m₂, hsub, hpre, hspec⟩ := hlegal.of_mem hlog
  have hnone := SlotSpec.untouched hpre fun x hx v =>
    hno x.1 x.2.1 v (hc.wf.log_called x (hsub hx))
  unfold SlotSpec at hspec
  rw [hgets] at hspec
  have hr : r = getAnswer code.missing out (m₁ k) := hspec.1
  rw [hr, hnone, getAnswer]

end

/-- The call `a` of the operation `op` ended without memory at a step of its thread in which the
thread's own arena had no block of `size` bytes. -/
def RefusedBy (page : Nat) (code : SlotCode ω β ι) (s : Slots β τ)
    (actions : List (Action τ OsReply ω)) (a : Nat) (op : ω) (size : Nat) : Prop :=
  ∃ before t os after p, actions = before ++ .step t os :: after ∧
    let M := slotMachine page code τ
    let c := (Config.start s).run M before
    c.thread t = .running a op p ∧
      (c.act M (.step t os)).thread t = .done a op (.answer .errNoMemory none) ∧
      (rgArenaAllocAligned page os (c.shared.arenas t) size rgmCacheLine).1 = 0

/-- A Put that returns without memory was refused it. -/
theorem slot_refused (hpage : IsPageSize page) (hcode : code.Lawful K) (hs : s.Fresh page)
    {actions : List (Action τ OsReply ω)} {a : Nat} {put : ω} {k : κ} {v : BitVec 64}
    (hput : Event.call a put ∈ ((Config.start s).run (slotMachine page code τ) actions).history)
    (hputs : (code.op put).toMap K = .put k v)
    (hret : Event.ret a (.answer .errNoMemory none) ∈
      ((Config.start s).run (slotMachine page code τ) actions).history) :
    ∃ body, K.keyOf body = k ∧ K.Genuine body ∧ RefusedBy page code s actions a put (K.size body) := by
  have hwf := (slot_follows hpage hcode hs actions).wf
  obtain ⟨op, hlog⟩ := hwf.ret_logged a _ hret
  obtain rfl := hwf.call_unique a op put (hwf.log_called _ hlog) hput
  obtain ⟨before, t, os, after, p, s', rfl, hthread, hstep⟩ := Config.mem_log_run _ hlog
  have hdone : (((Config.start s).run (slotMachine page code τ) before).act (slotMachine page code τ)
      (.step t os)).thread t = .done a op (.answer .errNoMemory none) := by
    simp only [Config.act, hthread, hstep]
    exact Function.update_self ..
  change slotStep page code t os op p _ = _ at hstep
  unfold slotStep at hstep
  have hprobe := hcode.probe op
  cases hop : code.op op with
  | put pr value =>
    rw [hop] at hputs hstep hprobe
    obtain ⟨hkey, -⟩ := MapOp.put.inj hputs
    have hrefused := slotPutStep_refused hstep
    rw [(hprobe pr rfl).size] at hrefused
    exact ⟨pr.body, hkey, (hprobe pr rfl).genuine, before, t, os, after, p, rfl, hthread, hdone, hrefused⟩
  | _ =>
    rw [hop] at hputs
    cases hputs

end

end RgMemory
