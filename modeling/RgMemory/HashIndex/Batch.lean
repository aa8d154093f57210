import RgMemory.HashIndex.Run
import RgMemory.HashMap.Failed
import RgMemory.HashTrie.Sweep
import RgMemory.Slots.Batch

/-!
# Batched lookups answer as single ones do

The three containers have a batched lookup each, and the lane loop is written three times. With 32
lanes at different depths, refilled out of order, every key is looked up exactly once
(`batch_get_eq_single`): the rounds end, the hits are stored with their flags, and the misses leave
their values alone.

The 64-bit entry points of a NOCOPY trie refuse to work, and so does its batched lookup: it answers
ERR_INVALID before it reads or writes an array.
-/

namespace RgMemory

open Bytes Trie Concurrent

/-- `RGM_HASH_TRIE_BATCH_K`. -/
def rgmHashTrieBatchK : Nat := 32

/-- `RGM_HASH_INDEX_BATCH_K`. -/
def rgmHashIndexBatchK : Nat := 32

section

variable {τ : Type}

/-- `rgm_hash_trie_batch_walk`. -/
def rgmHashTrieBatchWalk (s : Slots TrieBody τ) (keys : Nat → BitVec 64) (fuel : Nat)
    (outValues : Option (Nat → BitVec 64)) (outFound : Option (Nat → Int)) (count : BitVec 32) :
    Except Stop (Lanes.Shared (BitVec 64)) :=
  Lanes.walk (slotWalker s fun j => u64TrieProbe (keys j)) count.toNat .diverge rgmHashTrieBatchK
    fuel outValues outFound

/-- `rgm_hash_index_batch_walk`. -/
def rgmHashIndexBatchWalk (s : Slots IndexBody τ) (h1s h2s : Nat → BitVec 64) (fuel : Nat)
    (outValues : Option (Nat → BitVec 64)) (outFound : Option (Nat → Int)) (count : BitVec 32) :
    Except Stop (Lanes.Shared (BitVec 64)) :=
  Lanes.walk (slotWalker s fun j => indexProbe (h1s j) (h2s j)) count.toNat .diverge
    rgmHashIndexBatchK fuel outValues outFound

/-- Look up `count` keys. A null array is `none`; a NOCOPY trie is refused. -/
def rgHashTrieGetBatchU64 (nocopy : Bool) (fuel : Nat) (s : Slots TrieBody τ)
    (keys outValues : Option (Nat → BitVec 64)) (outFound : Option (Nat → Int))
    (count : BitVec 32) : Except Stop BatchAnswer :=
  match keys, outValues with
  | some keys, some values =>
    if nocopy then .ok (.status .errInvalid)
    else
      match rgmHashTrieBatchWalk s keys fuel (some values) outFound count with
      | .error e => .error e
      | .ok b => .ok (.hits (min b.hits (2 ^ 31 - 1)) (b.outValues.getD values) b.outFound)
  | _, _ => .ok (.status .errInvalid)

/-- Look up `count` digest pairs. A null array is `none`. -/
def rgHashIndexGetBatchH (fuel : Nat) (s : Slots IndexBody τ)
    (h1s h2s outValues : Option (Nat → BitVec 64)) (outFound : Option (Nat → Int))
    (count : BitVec 32) : Except Stop BatchAnswer :=
  match h1s, h2s, outValues with
  | some h1s, some h2s, some values =>
    match rgmHashIndexBatchWalk s h1s h2s fuel (some values) outFound count with
    | .error e => .error e
    | .ok b => .ok (.hits (min b.hits (2 ^ 31 - 1)) (b.outValues.getD values) b.outFound)
  | _, _, _ => .ok (.status .errInvalid)

end

/-! ## The answers -/

/-- What a lane of a map finds is the value in the node of its key. -/
theorem HashMap.Rep.valueU64_eq {map : HashMap} {s : ArenaState}
    {forest : Fin 4096 → Trie 4 (BitVec 32)} (h : map.Rep s forest) (key : BitVec 64) :
    HashMap.valueU64 s forest key =
      (nodeOf s.img forest (leBytes key)).map (HashMapNode.value s.img) := by
  have hlen : (leBytes key).length < 2 ^ 32 := by
    rw [leBytes_length]
    decide
  rw [HashMap.valueU64, u64Probe_eq, nodeOf]
  refine congrArg _ (find_congr fun a ha => ?_)
  exact bytesProbe_test (h.genuine a (mem_listAll.mpr ⟨_, ha⟩)) hlen

/-- It is what a single lookup answers. -/
theorem HashMap.Rep.getU64 {page : Nat} {map : HashMap} {s : ArenaState}
    {forest : Fin 4096 → Trie 4 (BitVec 32)} (h : map.Rep s forest) (hs : s.Ok page)
    (hlive : 0 < s.base) (key : BitVec 64) :
    ∃ p, rgHashMapGetU64 map s key = .ok p ∧
      HashMap.valueU64 s forest key = if p = 0 then none else some (load64 s.mem p) := by
  have hnot : KeyArg.refused ⟨false, leBytes key⟩ = false := by
    rw [KeyArg.refused, leBytes_length]
    rfl
  have hvalue := h.value_eq hs hlive ⟨false, leBytes key⟩
  rw [hnot, if_neg Bool.false_ne_true, ← h.valueU64_eq, rgmHashMapValue] at hvalue
  rw [rgHashMapGetU64_eq]
  cases hget : rgHashMapGet map s ⟨false, leBytes key⟩ with
  | error e =>
    rw [hget] at hvalue
    cases hvalue
  | ok p =>
    rw [hget] at hvalue
    exact ⟨p, rfl, (Except.ok.inj hvalue).symm⟩

/-- **Batched lookups answer as single ones do**, for every array of keys, every count, and with or
without an array of flags: the rounds end, each key is looked up once, a hit has its value and its
flag stored, a miss has its flag cleared and its value left alone, and the hits are counted, up to
INT32_MAX.

For a map that a client can hold, for a copying trie and for an index after any run of calls;
`slotCall` runs the steps of a single Get one after the other. On a NOCOPY trie the call answers
ERR_INVALID, with nothing read or written. -/
theorem batch_get_eq_single {page : Nat} (hpage : IsPageSize page) (hline : 64 ∣ page)
    (values : Nat → BitVec 64) (found : Option (Nat → Int)) (count : BitVec 32) :
    (∀ {map : HashMap} {s : ArenaState}, map.Reached page s → ∀ keys : Nat → BitVec 64,
      ∃ single : Nat → Option (BitVec 64),
        (∀ j, ∃ p, rgHashMapGetU64 map s (keys j) = .ok p ∧
          single j = if p = 0 then none else some (load64 s.mem p)) ∧
        ∃ N, ∀ fuel ≥ N,
          rgHashMapGetBatchU64 fuel map s (some keys) (some values) found count =
            .ok (.ofSingle single values found count.toNat)) ∧
    (∀ {τ : Type} [DecidableEq τ] {s : Slots TrieBody τ}, s.Fresh page →
      ∀ (mem : Mem) (actions : List (Action τ OsReply (HashTrieOp mem false))) (t : τ)
        (keys : Nat → BitVec 64),
      let c := (Config.start s).run (slotMachine page (hashTrieCode mem false) τ) actions
      ∃ single : Nat → Option (BitVec 64),
        (∀ j, ∃ n, ∀ os, slotCall page (hashTrieCode mem false) t (.getU64 (keys j) true) n os
          .enter c.shared = some (c.shared, getAnswer .errInvalid true (single j))) ∧
        ∃ N, ∀ fuel ≥ N,
          rgHashTrieGetBatchU64 false fuel c.shared (some keys) (some values) found count =
            .ok (.ofSingle single values found count.toNat)) ∧
    (∀ {τ : Type} [DecidableEq τ] {s : Slots IndexBody τ}, s.Fresh page →
      ∀ (actions : List (Action τ OsReply HashIndexOp)) (t : τ) (h1s h2s : Nat → BitVec 64),
      let c := (Config.start s).run (slotMachine page hashIndexCode τ) actions
      ∃ single : Nat → Option (BitVec 64),
        (∀ j, ∃ n, ∀ os, slotCall page hashIndexCode t (.getH (h1s j) (h2s j) true) n os
          .enter c.shared = some (c.shared, getAnswer .errNotFound true (single j))) ∧
        ∃ N, ∀ fuel ≥ N,
          rgHashIndexGetBatchH fuel c.shared (some h1s) (some h2s) (some values) found count =
            .ok (.ofSingle single values found count.toNat)) ∧
    ∀ {τ : Type} (s : Slots TrieBody τ) (keys : Nat → BitVec 64) (fuel : Nat),
      rgHashTrieGetBatchU64 true fuel s (some keys) (some values) found count =
        .ok (.status .errInvalid) := by
  refine ⟨fun {map s} hreach keys => ?_, fun {τ _ s} hs mem actions t keys => ?_,
    fun {τ _ s} hs actions t h1s h2s => ?_, fun _ _ _ => rfl⟩
  · obtain ⟨hok, hlive, forest, hrep, -⟩ := hreach.rep hpage hline
    have hread : map.Readable s forest := ⟨hrep.isLive hlive, hrep.unfolds, hrep.inside⟩
    refine ⟨fun j => HashMap.valueU64 s forest (keys j), fun j => hrep.getU64 hok hlive (keys j),
      count.toNat * ((listAll forest).length + 1), fun fuel hfuel => ?_⟩
    exact rgHashMapGetBatchU64_eq hread (depthLe_listAll forest) keys values found count hfuel
  · intro c
    have hcode := hashTrieCode_lawful mem false
    have hfollows : SlotFollows (trieKeys mem false) (hashTrieCode mem false) page c :=
      slot_follows hpage hcode hs actions
    obtain ⟨m, -, hsound, hm⟩ := hfollows.log
    obtain ⟨nodes, hnodes⟩ := hfollows.nodes
    have hops : ∀ j, (hashTrieCode mem false).op (.getU64 (keys j) true) =
      .get (u64TrieProbe (keys j)) true := fun j => rfl
    obtain ⟨N, hN⟩ := slotBatchWalk_eq hpage hcode hsound hm hnodes t hops
      (k := rgmHashTrieBatchK) (by decide) count.toNat (some values) found
    refine ⟨_, fun j => (slotCall_get (fun j => u64TrieProbe (keys j)) hpage hcode hsound hm hnodes
      t (hops j)).1, N, fun fuel hfuel => ?_⟩
    unfold rgHashTrieGetBatchU64 rgmHashTrieBatchWalk
    dsimp only
    rw [if_neg Bool.false_ne_true, hN fuel hfuel, BatchAnswer.ofSingle_eq]
    rfl
  · intro c
    have hfollows : SlotFollows indexKeys hashIndexCode page c :=
      slot_follows hpage hashIndexCode_lawful hs actions
    obtain ⟨m, -, hsound, hm⟩ := hfollows.log
    obtain ⟨nodes, hnodes⟩ := hfollows.nodes
    have hops : ∀ j, hashIndexCode.op (.getH (h1s j) (h2s j) true) =
      .get (indexProbe (h1s j) (h2s j)) true := fun j => rfl
    obtain ⟨N, hN⟩ := slotBatchWalk_eq hpage hashIndexCode_lawful hsound hm hnodes t hops
      (k := rgmHashIndexBatchK) (by decide) count.toNat (some values) found
    refine ⟨_, fun j => (slotCall_get (fun j => indexProbe (h1s j) (h2s j)) hpage
      hashIndexCode_lawful hsound hm hnodes t (hops j)).1, N, fun fuel hfuel => ?_⟩
    unfold rgHashIndexGetBatchH rgmHashIndexBatchWalk
    dsimp only
    rw [hN fuel hfuel, BatchAnswer.ofSingle_eq]
    rfl

/-- The key of no bytes, in a null buffer. -/
def emptyTrieKey : TrieKey (fun _ => 0) true := ⟨0, [], fun _ => rfl⟩

/-- A Put of the empty key in a NOCOPY trie. -/
def sampleNocopyPut : List (Action (Fin 2) OsReply (HashTrieOp (fun _ => 0) true)) :=
  let a : Action (Fin 2) OsReply _ := .step threadA ⟨0, true, true, fun _ => 0⟩
  [.call threadA (.put emptyTrieKey 10), a, a, a, a]

def sampleNocopyFilled : Slots TrieBody (Fin 2) :=
  ((Config.start sampleTrie).run (slotMachine 4096 (hashTrieCode (fun _ => 0) true) (Fin 2))
    sampleNocopyPut).shared

/-- On a NOCOPY trie with one key the single lookup of a 64-bit key does not hit, and the batched one
does not clear the flag, nor does it answer 0 hits. -/
theorem nocopy_batch_not_single :
    (sampleNocopyFilled.heap 65536).map SlotNode.value = some 10 ∧
    (∀ os, slotCall 4096 (hashTrieCode (fun _ => 0) true) threadA (.getU64 7 true) 1 os .enter
      sampleNocopyFilled = some (sampleNocopyFilled, .answer .errInvalid none)) ∧
    ∀ fuel, rgHashTrieGetBatchU64 true fuel sampleNocopyFilled (some fun _ => 7) (some fun _ => 5)
      (some fun _ => 9) 1 ≠
        .ok (.ofSingle (fun _ => none) (fun _ => 5) (some fun _ => 9) 1) := by
  refine ⟨rfl, ?_, ?_⟩
  · intro os
    rfl
  · intro fuel h
    have hanswer : (BatchAnswer.status .errInvalid) = _ := Except.ok.inj h
    rw [BatchAnswer.ofSingle] at hanswer
    cases hanswer

/-- A map with one key, a trie with one key and an index with no pair, each asked for three keys. -/
theorem sample_batch_get :
    (∃ N, ∀ fuel ≥ N, ∃ answer, rgHashMapGetBatchU64 fuel sampleSession'.map sampleSession'.arena
      (some fun j => BitVec.ofNat 64 j) (some fun _ => 5) none 3 = .ok answer) ∧
    (∃ N, ∀ fuel ≥ N, ∃ answer, rgHashTrieGetBatchU64 false fuel samplePutDone.shared
      (some fun j => BitVec.ofNat 64 (7 + j)) (some fun _ => 5) (some fun _ => 9) 3 =
        .ok answer) ∧
    ∃ N, ∀ fuel ≥ N, ∃ answer, rgHashIndexGetBatchH fuel sampleIndex (some fun _ => 0)
      (some fun j => BitVec.ofNat 64 j) (some fun _ => 5) none 3 = .ok answer := by
  refine ⟨?_, ?_, ?_⟩
  · obtain ⟨hmap, -⟩ := batch_get_eq_single samplePage (by decide) (fun _ => 5) none 3
    obtain ⟨single, -, N, hN⟩ := hmap
      (.session sampleSession_fresh (.single sampleSession_step)) fun j => BitVec.ofNat 64 j
    exact ⟨N, fun fuel hfuel => ⟨_, hN fuel hfuel⟩⟩
  · obtain ⟨-, htrie, -⟩ :=
      batch_get_eq_single samplePage (by decide) (fun _ => 5) (some fun _ => 9) 3
    obtain ⟨single, -, N, hN⟩ := htrie sampleTrie_fresh (fun _ => 0) samplePut threadA
      fun j => BitVec.ofNat 64 (7 + j)
    exact ⟨N, fun fuel hfuel => ⟨_, hN fuel hfuel⟩⟩
  · obtain ⟨-, -, hindex, -⟩ := batch_get_eq_single samplePage (by decide) (fun _ => 5) none 3
    obtain ⟨single, -, N, hN⟩ := hindex sampleIndex_fresh [] threadA (fun _ => 0)
      fun j => BitVec.ofNat 64 j
    exact ⟨N, fun fuel hfuel => ⟨_, hN fuel hfuel⟩⟩

end RgMemory
