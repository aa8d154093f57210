import RgMemory.HashIndex.Batch
import RgMemory.Slots.Beside

/-!
# Batched lookups of the lock-free tries beside Puts

`Slots.slot_lookup_beside` for the two containers: threads put, get and iterate, and others look up
batches. On their own the calls are those of `HashIndex.Batch` (`batch_get_alone`).
-/

namespace RgMemory

open Bytes Concurrent

/-- The arguments of `rgHashTrieGetBatchU64`. A null array is `none`. -/
structure HashTrieBatch where
  keys : Option (Nat → BitVec 64)
  outValues : Option (Nat → BitVec 64)
  outFound : Option (Nat → Int)
  count : BitVec 32

/-- The call with its arguments checked. -/
def HashTrieBatch.lookup (nocopy : Bool) (b : HashTrieBatch) : Option (SlotLookup TrieBody) :=
  match b.keys, b.outValues with
  | some keys, some values =>
    if nocopy then none
    else some ⟨fun j => u64TrieProbe (keys j), b.count.toNat, values, b.outFound⟩
  | _, _ => none

/-- The arguments of `rgHashIndexGetBatchH`. A null array is `none`. -/
structure HashIndexBatch where
  h1s : Option (Nat → BitVec 64)
  h2s : Option (Nat → BitVec 64)
  outValues : Option (Nat → BitVec 64)
  outFound : Option (Nat → Int)
  count : BitVec 32

/-- The call with its arguments checked. -/
def HashIndexBatch.lookup (b : HashIndexBatch) : Option (SlotLookup IndexBody) :=
  match b.h1s, b.h2s, b.outValues with
  | some h1s, some h2s, some values =>
    some ⟨fun j => indexProbe (h1s j) (h2s j), b.count.toNat, values, b.outFound⟩
  | _, _, _ => none

/-- A trie whose threads look up batches beside other calls. -/
def hashTrieBeside (page : Nat) (mem : Mem) (nocopy : Bool) (τ : Type) [DecidableEq τ] :=
  (slotMachine page (hashTrieCode mem nocopy) τ).beside
    (slotLookupReader rgmHashTrieBatchK (HashTrieBatch.lookup nocopy))

/-- An index whose threads look up batches beside other calls. -/
def hashIndexBeside (page : Nat) (τ : Type) [DecidableEq τ] :=
  (slotMachine page hashIndexCode τ).beside
    (slotLookupReader rgmHashIndexBatchK HashIndexBatch.lookup)

section

variable {page : Nat} {τ : Type} [DecidableEq τ]

/-- **With no other thread at work, the calls answer as they do when they run at once.** -/
theorem batch_get_alone (mem : Mem) (t : τ) (os : OsReply) (id : Nat) {fuel : Nat} :
    (∀ (b : HashTrieBatch) (l : SlotLookup TrieBody) {s : Slots TrieBody τ} {answer : BatchAnswer},
      b.lookup false = some l →
      rgHashTrieGetBatchU64 false fuel s b.keys b.outValues b.outFound b.count = .ok answer →
      ∃ n, ∀ c : BesideConfig τ TrieBody (HashTrieOp mem false) HashTrieBatch TrieReport,
        c.shared = s → c.thread t = .running id (.inr b) (.inr ((slotLookupReader (τ := τ)
          rgmHashTrieBatchK (HashTrieBatch.lookup false)).start b)) →
        (c.run (hashTrieBeside page mem false τ) (List.replicate n (.step t os))).thread t =
          .done id (.inr b) (.inr (.ok answer))) ∧
    ∀ (b : HashIndexBatch) (l : SlotLookup IndexBody) {s : Slots IndexBody τ} {answer : BatchAnswer},
      b.lookup = some l →
      rgHashIndexGetBatchH fuel s b.h1s b.h2s b.outValues b.outFound b.count = .ok answer →
      ∃ n, ∀ c : BesideConfig τ IndexBody HashIndexOp HashIndexBatch IndexReport,
        c.shared = s → c.thread t = .running id (.inr b) (.inr ((slotLookupReader (τ := τ)
          rgmHashIndexBatchK HashIndexBatch.lookup).start b)) →
        (c.run (hashIndexBeside page τ) (List.replicate n (.step t os))).thread t =
          .done id (.inr b) (.inr (.ok answer)) := by
  constructor
  · intro b l s answer hop hanswer
    obtain ⟨keys, values, found, count⟩ := b
    cases keys with
    | none => cases hop
    | some keys =>
      cases values with
      | none => cases hop
      | some values =>
        have hlookup := hop
        cases hop
        rw [rgHashTrieGetBatchU64, if_neg Bool.false_ne_true] at hanswer
        cases hwalk : rgmHashTrieBatchWalk s keys fuel (some values) found count with
        | error e =>
          rw [hwalk] at hanswer
          cases hanswer
        | ok b =>
          rw [hwalk] at hanswer
          cases hanswer
          exact lookup_alone hlookup (Lanes.walk_comes hwalk) os id
  · intro b l s answer hop hanswer
    obtain ⟨h1s, h2s, values, found, count⟩ := b
    cases h1s with
    | none => cases hop
    | some h1s =>
      cases h2s with
      | none => cases hop
      | some h2s =>
        cases values with
        | none => cases hop
        | some values =>
          have hlookup := hop
          cases hop
          rw [rgHashIndexGetBatchH] at hanswer
          dsimp only at hanswer
          cases hwalk : rgmHashIndexBatchWalk s h1s h2s fuel (some values) found count with
          | error e =>
            rw [hwalk] at hanswer
            cases hanswer
          | ok b =>
            rw [hwalk] at hanswer
            cases hanswer
            exact lookup_alone hlookup (Lanes.walk_comes hwalk) os id

/-- **Batched lookups beside Puts**, of a trie and of an index: whatever the other threads do, each key
of a batch is answered as the map answered at some moment of the call. -/
theorem batch_get_beside_puts (hpage : IsPageSize page) (mem : Mem) (nocopy : Bool)
    {s : Slots TrieBody τ} (hs : s.Fresh page) {s' : Slots IndexBody τ} (hs' : s'.Fresh page) :
    LookupsBeside (trieKeys mem nocopy) page (hashTrieCode mem nocopy) rgmHashTrieBatchK
        (HashTrieBatch.lookup nocopy) s ∧
      LookupsBeside indexKeys page hashIndexCode rgmHashIndexBatchK HashIndexBatch.lookup s' := by
  constructor
  · refine slot_lookup_beside hpage (hashTrieCode_lawful mem nocopy) (by decide) ?_ hs
    rintro ⟨keys, values, found, count⟩ l hop j
    cases keys with
    | none => cases hop
    | some keys =>
      cases values with
      | none => cases hop
      | some values =>
        cases nocopy with
        | true => cases hop
        | false =>
          cases hop
          exact (hashTrieCode_lawful mem false).probe (.getU64 (keys j) true) _ rfl
  · refine slot_lookup_beside hpage hashIndexCode_lawful (by decide) ?_ hs'
    rintro ⟨h1s, h2s, values, found, count⟩ l hop j
    cases h1s with
    | none => cases hop
    | some h1s =>
      cases h2s with
      | none => cases hop
      | some h2s =>
        cases values with
        | none => cases hop
        | some values =>
          cases hop
          exact indexProbe_lawful (h1s j) (h2s j)

/-- The actions of the sample. -/
abbrev BatchAction : Type := Action (Fin 2) OsReply (HashTrieOp (fun _ => 0) false ⊕ HashTrieBatch)

def batchStepA : BatchAction := .step threadA ⟨0, true, true, fun _ => 0⟩

def batchStepB : BatchAction := .step threadB ⟨0, true, true, fun _ => 0⟩

/-- The keys 7 and 8. -/
def samplePair : HashTrieBatch :=
  ⟨some fun j => BitVec.ofNat 64 (7 + j), some fun _ => 5, some fun _ => 9, 2⟩

/-- A thread puts the key 7. -/
def samplePairBefore : List BatchAction :=
  [.call threadA (.inl (.putU64 7 1)), batchStepA, batchStepA, batchStepA, batchStepA, .ret threadA]

/-- The other thread has seen the slot of the key 8 empty when the first one puts it. -/
def samplePairAfter : List BatchAction :=
  [batchStepB, batchStepB, .call threadA (.inl (.putU64 8 2)), batchStepA, batchStepA, batchStepA,
    batchStepA, .ret threadA] ++ List.replicate 68 batchStepB ++ [.ret threadB]

def samplePairStart :
    BesideConfig (Fin 2) TrieBody (HashTrieOp (fun _ => 0) false) HashTrieBatch TrieReport :=
  (Config.start sampleTrie).run (hashTrieBeside 4096 (fun _ => 0) false (Fin 2)) samplePairBefore

def samplePairEnd :
    BesideConfig (Fin 2) TrieBody (HashTrieOp (fun _ => 0) false) HashTrieBatch TrieReport :=
  (samplePairStart.act (hashTrieBeside 4096 (fun _ => 0) false (Fin 2))
    (.call threadB (.inr samplePair))).run (hashTrieBeside 4096 (fun _ => 0) false (Fin 2))
    samplePairAfter

theorem samplePairStart_idle : samplePairStart.thread threadB = .idle := by
  rfl

theorem samplePairStart_put :
    (0, .inl (.putU64 7 1), .inl (.answer .ok none)) ∈ samplePairStart.log :=
  .head _

/-- The call returns. -/
theorem samplePairEnd_returned : ∃ r, Event.ret 1 r ∈ samplePairEnd.history := by
  have hlast : (samplePairEnd.history.any fun e =>
      match e with
      | .ret id _ => id == 1
      | .call _ _ => false) = true := by decide +kernel
  obtain ⟨e, he, hret⟩ := List.any_eq_true.mp hlast
  cases e with
  | call id op => cases hret
  | ret id r =>
    obtain rfl : id = 1 := beq_iff_eq.mp hret
    exact ⟨r, he⟩

/-- The key 7 is found, whatever becomes of the key 8. -/
theorem samplePairEnd_answers : ∃ single : Nat → Option (BitVec 64),
    Event.ret 1 (.inr (.ok (.ofSingle single (fun _ => 5) (some fun _ => 9) 2))) ∈
        samplePairEnd.history ∧
      (single 0).isSome = true := by
  obtain ⟨r, hret⟩ := samplePairEnd_returned
  obtain ⟨single, rfl, -, hfound⟩ :=
    ((batch_get_beside_puts ⟨12, by decide, rfl⟩ (fun _ => 0) false sampleTrie_fresh
      sampleIndex_fresh).1 threadB samplePair _ samplePairBefore samplePairAfter rfl
      samplePairStart_idle).1 r hret
  exact ⟨single, hret, hfound 0 (by decide) 0 (.putU64 7 1) 1 samplePairStart_put rfl⟩

end

end RgMemory
