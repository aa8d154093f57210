import RgMemory.HashIndex.Model
import RgMemory.Slots.Run

/-!
# The hash index is linearizable

The keys of the lock-free trie are digest pairs. The path of a pair starts with the first digest and
goes on with reseeds of both, so two entries that share the first digest may lie on one path for a
long way; the comparison of both digests keeps them apart.
-/

namespace RgMemory

open Bytes Concurrent

def indexKeys : SlotKeys IndexBody (BitVec 64 × BitVec 64) where
  keyOf b := (b.h1, b.h2)
  hfull k := k.1
  reseed k := rgmHashReseedH k.1 k.2
  Genuine _ := True
  size _ := hashIndexNodeSize

theorem indexProbe_lawful (h1 h2 : BitVec 64) : (indexProbe h1 h2).Lawful indexKeys := by
  refine ⟨rfl, rfl, fun _ b _ => ?_, trivial, rfl, by show 56 < 2 ^ 64; decide⟩
  rw [indexProbe, Option.some.injEq, Bool.eq_iff_iff, Bool.and_eq_true, beq_iff_eq, beq_iff_eq,
    decide_eq_true_iff]
  exact Prod.mk.injEq _ _ _ _ ▸ Iff.rfl

theorem hashIndexCode_lawful : hashIndexCode.Lawful indexKeys := by
  refine ⟨fun op pr hpr => ?_, fun a b v _ => ⟨_, rfl⟩⟩
  change op.op.probe = some pr at hpr
  unfold HashIndexOp.op at hpr
  cases op with
  | putH h1 h2 value =>
    cases hpr
    exact indexProbe_lawful h1 h2
  | getH h1 h2 out =>
    cases hpr
    exact indexProbe_lawful h1 h2
  | put key value =>
    dsimp only at hpr
    split at hpr
    · cases hpr
    · cases hpr
      exact indexProbe_lawful _ _
  | get key out =>
    dsimp only at hpr
    split at hpr
    · cases hpr
    · cases hpr
      exact indexProbe_lawful _ _
  | forEach fn => cases fn <;> cases hpr

/-- The digests that a byte key stands for: the hashes with the seeds `WYP0` and `WYP2`. -/
def indexPair (key : List Byte) : BitVec 64 × BitVec 64 :=
  (rgmHashWyhashSeeded (ptr key) key.length rgmHashWyp0,
    rgmHashWyhashSeeded (ptr key) key.length rgmHashWyp2)

/-- The calls on an index, as operations of a finite map. -/
def HashIndexOp.toMap : HashIndexOp → MapOp (BitVec 64 × BitVec 64) IndexReport
  | .putH h1 h2 value => .put (h1, h2) value
  | .getH h1 h2 out => .get (h1, h2) out
  | .put key value =>
    if key.null && key.bytes.length ≠ 0 then .settled (.answer .errInvalid none)
    else .put (indexPair key.bytes) value
  | .get key out =>
    if key.null && key.bytes.length ≠ 0 then .settled (.answer .errInvalid none)
    else .get (indexPair key.bytes) out
  | .forEach none => .settled (.visited 0 [])
  | .forEach (some _) => .forEach

theorem HashIndexOp.toMap_eq (op : HashIndexOp) :
    (hashIndexCode.op op).toMap indexKeys = op.toMap := by
  have hpair : ∀ key, rgmHashIndexPair key = indexPair key := fun key =>
    rgmHashWyhashDualSeeded_eq ..
  cases op with
  | putH h1 h2 value => rfl
  | getH h1 h2 out => rfl
  | put key value =>
    simp only [hashIndexCode, HashIndexOp.op, HashIndexOp.toMap, hpair]
    split <;> rfl
  | get key out =>
    simp only [hashIndexCode, HashIndexOp.op, HashIndexOp.toMap, hpair]
    split <;> rfl
  | forEach fn => cases fn <;> rfl

/-- The results of the calls, in terms of a map from digest pairs to values. -/
def HashIndexSpec (m : BitVec 64 × BitVec 64 → Option (BitVec 64)) (op : HashIndexOp)
    (r : SlotResult IndexReport) (m' : BitVec 64 × BitVec 64 → Option (BitVec 64)) : Prop :=
  mapSpec .errNotFound m op.toMap r m'

/-- **The hash index is linearizable.** Threads with an arena each call Put and Get, with digest pairs
or byte keys, and their steps interleave in any order. The order in which the calls get their results
is a sequential run of a finite map whose keys are the pairs of both digests, and respects real time.
A Get that is called after a Put of its pair returned OK finds the pair, and a Get of a pair that
nobody puts answers NOT_FOUND and leaves `*_outValue` alone. A Put that answers that there is no
memory was refused its node by the arena of its own thread. -/
theorem hash_index_linearizable {page : Nat} (hpage : IsPageSize page) {τ : Type} [DecidableEq τ]
    {s : Slots IndexBody τ} (hs : s.Fresh page)
    (actions : List (Action τ OsReply HashIndexOp)) :
    let c := (Config.start s).run (slotMachine page hashIndexCode τ) actions
    Linearization HashIndexSpec (fun _ => none) c.history c.log ∧
      (∀ a b put get k v out r, Event.call a put ∈ c.history → put.toMap = .put k v →
        [Event.ret a (.answer .ok none), Event.call b get].Sublist c.history →
        get.toMap = .get k out → Event.ret b r ∈ c.history →
        ∃ v, r = .answer .ok (if out then some v else none)) ∧
      (∀ b get k out r, Event.call b get ∈ c.history → get.toMap = .get k out →
        (∀ a put v, Event.call a put ∈ c.history → put.toMap ≠ .put k v) →
        Event.ret b r ∈ c.history → r = .answer .errNotFound none) ∧
      ∀ a put k v, Event.call a put ∈ c.history → put.toMap = .put k v →
        Event.ret a (.answer .errNoMemory none) ∈ c.history →
        RefusedBy page hashIndexCode s actions a put hashIndexNodeSize := by
  intro c
  have hfollows := slot_follows hpage hashIndexCode_lawful hs actions
  refine ⟨hfollows.linearization.imp fun m op r m' hspec => ?_, ?_, ?_, ?_⟩
  · rw [HashIndexSpec, ← HashIndexOp.toMap_eq]
    exact hspec
  · intro a b put get k v out r hput hputs hsub hgets hret
    rw [← HashIndexOp.toMap_eq] at hputs hgets
    exact slot_found hfollows hput hputs hsub hgets hret
  · intro b get k out r hcall hgets hno hret
    rw [← HashIndexOp.toMap_eq] at hgets
    refine slot_missing hfollows hcall hgets (fun a put v hput => ?_) hret
    rw [HashIndexOp.toMap_eq]
    exact hno a put v hput
  · intro a put k v hput hputs hret
    rw [← HashIndexOp.toMap_eq] at hputs
    obtain ⟨body, -, -, hrefused⟩ := slot_refused hpage hashIndexCode_lawful hs hput hputs hret
    exact hrefused

/-- Two threads, each with an arena of 64 KiB. -/
def sampleIndex : Slots IndexBody (Fin 2) where
  top _ := none
  heap _ := none
  arenas := sampleArenas

theorem sampleIndex_fresh : sampleIndex.Fresh 4096 :=
  ⟨fun _ => rfl, fun _ => rfl, sampleArenas_ok _ rfl⟩

/-- The same threads, the second with a full arena. -/
def tightArenas (t : Fin 2) : ArenaState :=
  { sampleArenas t with pos := if t = threadB then 65536 else 0 }

def sampleTightIndex : Slots IndexBody (Fin 2) where
  top _ := none
  heap _ := none
  arenas := tightArenas

theorem sampleTightIndex_fresh : sampleTightIndex.Fresh 4096 := by
  obtain ⟨hok, hlive, hapart⟩ := sampleArenas_ok sampleIndex rfl
  refine ⟨fun _ => rfl, fun _ => rfl, fun t => ?_, hlive, hapart⟩
  have hpos : (tightArenas t).pos ≤ 65536 := by
    show (if t = threadB then 65536 else 0) ≤ 65536
    split <;> decide
  have ht := hok t
  exact ⟨ht.base_page, ht.inert, ht.fits, hpos, ht.committed_le, ht.committed_page, ht.opened⟩

/-- The first thread puts a byte key. The second, whose arena is full, puts a digest pair meanwhile,
and then asks for the pair of the byte key; the first asks for a pair with the first digest of the
one that was refused. -/
def sampleIndexActions : List (Action (Fin 2) OsReply HashIndexOp) :=
  let a : Action (Fin 2) OsReply _ := .step threadA ⟨0, true, true, fun _ => 0⟩
  let b : Action (Fin 2) OsReply _ := .step threadB ⟨0, true, true, fun _ => 0⟩
  let pair := rgmHashIndexPair [7]
  [.call threadA (.put ⟨false, [7]⟩ 10), a, a, .call threadB (.putH 0 1 20), b, b, a, b,
    .ret threadB, a, .ret threadA, .call threadB (.getH pair.1 pair.2 true), b, b,
    .call threadA (.getH 0 2 true), a, b, a, b, .ret threadA, .ret threadB]

theorem sampleIndex_history :
    ((Config.start sampleTightIndex).run (slotMachine 4096 hashIndexCode (Fin 2))
      sampleIndexActions).history =
      [.call 0 (.put ⟨false, [7]⟩ 10), .call 1 (.putH 0 1 20), .ret 1 (.answer .errNoMemory none),
        .ret 0 (.answer .ok none),
        .call 2 (.getH (rgmHashIndexPair [7]).1 (rgmHashIndexPair [7]).2 true),
        .call 3 (.getH 0 2 true), .ret 3 (.answer .errNotFound none),
        .ret 2 (.answer .ok (some 10))] := by
  rfl

/-- The byte key is found by its pair, the other pair is not there, and the Put that answered that
there is no memory was refused its node. -/
theorem sampleIndex_linearizable :
    let c := (Config.start sampleTightIndex).run (slotMachine 4096 hashIndexCode (Fin 2))
      sampleIndexActions
    Linearization HashIndexSpec (fun _ => none) c.history c.log ∧
      (∃ r, Event.ret 2 r ∈ c.history ∧ (∃ v, r = .answer .ok (some v)) ∧
        r = .answer .ok (some 10)) ∧
      (∃ r, Event.ret 3 r ∈ c.history ∧ r = .answer .errNotFound none) ∧
      RefusedBy 4096 hashIndexCode sampleTightIndex sampleIndexActions 1 (.putH 0 1 20)
        hashIndexNodeSize := by
  intro c
  have hpage : IsPageSize 4096 := ⟨12, by decide, rfl⟩
  have hhistory : c.history = _ := sampleIndex_history
  obtain ⟨hlin, hfound, hmissing, hrefused⟩ :=
    hash_index_linearizable hpage sampleTightIndex_fresh sampleIndexActions
  have hpair : indexPair [7] = rgmHashIndexPair [7] := (rgmHashWyhashDualSeeded_eq ..).symm
  refine ⟨hlin, ?_, ?_, ?_⟩
  · have hret : Event.ret 2 (.answer .ok (some 10)) ∈ c.history := by simp [hhistory]
    refine ⟨_, hret, ?_, rfl⟩
    refine hfound 0 2 (.put ⟨false, [7]⟩ 10)
      (.getH (rgmHashIndexPair [7]).1 (rgmHashIndexPair [7]).2 true) (indexPair [7]) 10 true _
      ?_ rfl ?_ ?_ hret
    · rw [sampleIndex_history]
      simp
    · rw [sampleIndex_history]
      exact .cons _ (.cons _ (.cons _ (.cons_cons _ (.cons_cons _ (List.nil_sublist _)))))
    · rw [hpair]
      rfl
  · have hret : Event.ret 3 (.answer .errNotFound none) ∈ c.history := by simp [hhistory]
    refine ⟨_, hret, hmissing 3 (.getH 0 2 true) (0, 2) true _ ?_ rfl ?_ hret⟩
    · rw [sampleIndex_history]
      simp
    · intro a put v hput heq
      rw [sampleIndex_history] at hput
      simp only [List.mem_cons, Event.call.injEq, reduceCtorEq, List.not_mem_nil, or_false,
        false_or] at hput
      rcases hput with ⟨-, rfl⟩ | ⟨-, rfl⟩ | ⟨-, rfl⟩ | ⟨-, rfl⟩
      · exact absurd (MapOp.put.inj heq).1 (by decide)
      all_goals simp [HashIndexOp.toMap] at heq
  · have hret : Event.ret 1 (.answer .errNoMemory none) ∈ c.history := by simp [hhistory]
    refine hrefused 1 (.putH 0 1 20) (0, 1) 20 ?_ rfl hret
    rw [sampleIndex_history]
    simp

end RgMemory
