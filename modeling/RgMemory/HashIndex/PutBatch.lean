import RgMemory.HashIndex.Batch
import RgMemory.HashMap.PutBatch
import RgMemory.Slots.PutBatch

/-!
# Batched inserts are the loops over their entries

The batched inserts of the three containers warm the paths of a window of 32 keys, and then put the
32 entries; the serial loop puts the entries one after the other and stops at the first failure.
They leave the same container and the same arena and return the same error or OK
(`put_batch_eq_serial`), whatever the arena answers to each entry.

The batched insert of a NOCOPY trie fails before its loop. The serial loop fails at its first entry;
without an entry it does not fail.
-/

namespace RgMemory

open Bytes Trie Concurrent Windows

/-- `RGM_HASH_TRIE_PUT_WINDOW`. -/
def rgmHashTriePutWindow : BitVec 32 := 32

/-- `RGM_HASH_INDEX_PUT_WINDOW`. -/
def rgmHashIndexPutWindow : BitVec 32 := 32

section

variable {τ : Type} [DecidableEq τ]

/-- Put `count` entries, as the thread `t`. A null array is `none`; a NOCOPY trie is refused. The
operating system has an answer for each step of each entry. -/
def rgHashTriePutBatchU64 (mem : Mem) (nocopy : Bool) (page fuel : Nat) (t : τ)
    (os : Nat → Nat → OsReply) (s : Slots TrieBody τ) (keys values : Option (Nat → BitVec 64))
    (count : BitVec 32) : Except Stop (Slots TrieBody τ × Status) :=
  if (s.arenas t).base = 0 then .ok (s, .errInvalid)
  else
    match keys, values with
    | some keys, some values =>
      if nocopy then .ok (s, .errInvalid)
      else
        match windows (fun i => slotPutEntry page (hashTrieCode mem nocopy) t
            (.putU64 (keys i) (values i)) fuel (os i)) Stop.diverge
            (fun done n s => (rgmHashTrieBatchWalk s (fun j => keys (done.toNat + j)) fuel none
              none n).map fun _ => ()) rgmHashTriePutWindow count fuel fuel 0 s with
        | .error e => .error e
        | .ok (s, r) => .ok (s, r.getD .ok)
    | _, _ => .ok (s, .errInvalid)

/-- Put `count` digest pairs, as the thread `t`. A null array is `none`. -/
def rgHashIndexPutBatchH (page fuel : Nat) (t : τ) (os : Nat → Nat → OsReply)
    (s : Slots IndexBody τ) (h1s h2s values : Option (Nat → BitVec 64)) (count : BitVec 32) :
    Except Stop (Slots IndexBody τ × Status) :=
  if (s.arenas t).base = 0 then .ok (s, .errInvalid)
  else
    match h1s, h2s, values with
    | some h1s, some h2s, some values =>
      match windows (fun i => slotPutEntry page hashIndexCode t
          (.putH (h1s i) (h2s i) (values i)) fuel (os i)) Stop.diverge
          (fun done n s => (rgmHashIndexBatchWalk s (fun j => h1s (done.toNat + j))
            (fun j => h2s (done.toNat + j)) fuel none none n).map fun _ => ())
          rgmHashIndexPutWindow count fuel fuel 0 s with
      | .error e => .error e
      | .ok (s, r) => .ok (s, r.getD .ok)
    | _, _, _ => .ok (s, .errInvalid)

/-- The single Gets of a copying trie answer from a finite map. -/
def HashTrieAnswers (page : Nat) (mem : Mem) (t : τ) (s : Slots TrieBody τ)
    (m : List Byte → Option (BitVec 64)) : Prop :=
  ∀ key : TrieKey mem false, key.refused = false →
    ∃ n, ∀ os, slotCall page (hashTrieCode mem false) t (.get key true) n os .enter s =
      some (s, getAnswer .errInvalid true (m key.bytes))

/-- The single Gets of an index answer from a finite map. -/
def HashIndexAnswers (page : Nat) (t : τ) (s : Slots IndexBody τ)
    (m : BitVec 64 × BitVec 64 → Option (BitVec 64)) : Prop :=
  ∀ h1 h2, ∃ n, ∀ os, slotCall page hashIndexCode t (.getH h1 h2 true) n os .enter s =
    some (s, getAnswer .errNotFound true (m (h1, h2)))

variable {page : Nat}

theorem hashTrie_answers (hpage : IsPageSize page) (mem : Mem) (t : τ) {s : Slots TrieBody τ}
    {m : List Byte → Option (BitVec 64)} (h : s.Stores (trieKeys mem false) page m) :
    HashTrieAnswers page mem t s m := by
  intro key hok
  have hop : (hashTrieCode mem false).op (.get key true) = .get (bytesTrieProbe key) true := by
    simp only [hashTrieCode, HashTrieOp.op, hok, Bool.false_eq_true, if_false]
  have hbody : (trieKeys mem false).keyOf (bytesTrieProbe key).body = key.bytes :=
    (bytesTrieProbe_body key (TrieKey.length_lt hok)).1
  obtain ⟨n, hn⟩ := h.get hpage (hashTrieCode_lawful mem false) t hop
  rw [hbody] at hn
  exact ⟨n, hn⟩

theorem hashIndex_answers (hpage : IsPageSize page) (t : τ) {s : Slots IndexBody τ}
    {m : BitVec 64 × BitVec 64 → Option (BitVec 64)} (h : s.Stores indexKeys page m) :
    HashIndexAnswers page t s m := by
  intro h1 h2
  have hop : hashIndexCode.op (.getH h1 h2 true) = .get (indexProbe h1 h2) true := rfl
  exact h.get hpage hashIndexCode_lawful t hop

end

/-- **A batched insert is the serial loop** over its entries, which stops at the first failure: for
every array of entries, every count and every answer of the operating system, it leaves the same
container and arena and returns the same error or OK. `r` is the error, if there is one; the `n`
entries before it are stored, a later one of a key over an earlier one, and no other.

For a map that a client can hold, for a copying trie and for an index after any run of calls, with
the entries put by one thread. On a NOCOPY trie nothing is changed and the answer is ERR_INVALID, as
in the serial loop over at least one entry. -/
theorem put_batch_eq_serial {page : Nat} (hpage : IsPageSize page) (hline : 64 ∣ page)
    (values : Nat → BitVec 64) (count : BitVec 32) :
    (∀ {map : HashMap} {s : ArenaState}, map.Reached page s →
      ∀ (os : Nat → OsReply) (keys : Nat → BitVec 64), ∃ map' s' r m, ∃ n ≤ count.toNat,
        Settles (fun fuel => rgHashMapPutBatchU64 page fuel os map s (some keys) (some values) count)
          ((map', s'), r.getD .ok) ∧
        inOrder (fun i => rgmHashMapPutEntry page (os i) (keys i) (values i))
          (List.range count.toNat) (map, s) = .ok ((map', s'), r) ∧
        (r = none ∧ n = count.toNat ∨ r = some .errNoMemory ∧ n < count.toNat) ∧
        map.Answers s m ∧ map'.Answers s' (stored (fun j => leBytes (keys j)) values m n)) ∧
    (∀ {τ : Type} [DecidableEq τ] {s : Slots TrieBody τ}, s.Fresh page →
      ∀ (mem : Mem) (actions : List (Action τ OsReply (HashTrieOp mem false))) (t : τ)
        (os : Nat → Nat → OsReply) (keys : Nat → BitVec 64),
      let c := (Config.start s).run (slotMachine page (hashTrieCode mem false) τ) actions
      ∃ s' r m, ∃ n ≤ count.toNat,
        Settles (fun fuel => rgHashTriePutBatchU64 mem false page fuel t os c.shared (some keys)
          (some values) count) (s', r.getD .ok) ∧
        Settles (fun fuel => inOrder (fun i => slotPutEntry page (hashTrieCode mem false) t
          (.putU64 (keys i) (values i)) fuel (os i)) (List.range count.toNat) c.shared) (s', r) ∧
        (r = none ∧ n = count.toNat ∨ r = some .errNoMemory ∧ n < count.toNat) ∧
        HashTrieAnswers page mem t c.shared m ∧
        HashTrieAnswers page mem t s' (stored (fun j => leBytes (keys j)) values m n)) ∧
    (∀ {τ : Type} [DecidableEq τ] {s : Slots IndexBody τ}, s.Fresh page →
      ∀ (actions : List (Action τ OsReply HashIndexOp)) (t : τ) (os : Nat → Nat → OsReply)
        (h1s h2s : Nat → BitVec 64),
      let c := (Config.start s).run (slotMachine page hashIndexCode τ) actions
      ∃ s' r m, ∃ n ≤ count.toNat,
        Settles (fun fuel => rgHashIndexPutBatchH page fuel t os c.shared (some h1s) (some h2s)
          (some values) count) (s', r.getD .ok) ∧
        Settles (fun fuel => inOrder (fun i => slotPutEntry page hashIndexCode t
          (.putH (h1s i) (h2s i) (values i)) fuel (os i)) (List.range count.toNat) c.shared)
            (s', r) ∧
        (r = none ∧ n = count.toNat ∨ r = some .errNoMemory ∧ n < count.toNat) ∧
        HashIndexAnswers page t c.shared m ∧
        HashIndexAnswers page t s' (stored (fun j => (h1s j, h2s j)) values m n)) ∧
    ∀ {τ : Type} [DecidableEq τ] (s : Slots TrieBody τ) (mem : Mem) (t : τ)
      (os : Nat → Nat → OsReply) (keys : Nat → BitVec 64),
      (∀ fuel, rgHashTriePutBatchU64 mem true page fuel t os s (some keys) (some values) count =
        .ok (s, .errInvalid)) ∧
      (0 < count.toNat → Settles (fun fuel => inOrder (fun i => slotPutEntry page
        (hashTrieCode mem true) t (.putU64 (keys i) (values i)) fuel (os i))
          (List.range count.toNat) s) (s, some .errInvalid)) := by
  refine ⟨fun {map s} hreach os keys => ?_, fun {τ _ s} hs mem actions t os keys => ?_,
    fun {τ _ s} hs actions t os h1s h2s => ?_, fun {τ _} s mem t os keys => ⟨fun fuel => ?_, ?_⟩⟩
  · obtain ⟨hok, hlive, forest, hrep, -⟩ := hreach.rep hpage hline
    have hstores : map.Stores page s fun key =>
        (nodeOf s.img forest key).map (HashMapNode.value s.img) :=
      ⟨hok, hlive, Nat.dvd_trans hline hok.base_page, forest, hrep, fun _ => rfl⟩
    obtain ⟨map', s', r, n, hn, hbatch, hserial, hr, hstores'⟩ :=
      hstores.putBatch hpage os keys values count
    exact ⟨map', s', r, _, n, hn, hbatch, hserial, hr, hstores.answers, hstores'.answers⟩
  · intro c
    have hcode := hashTrieCode_lawful mem false
    have hfollows : SlotFollows (trieKeys mem false) (hashTrieCode mem false) page c :=
      slot_follows hpage hcode hs actions
    obtain ⟨m, hstores⟩ := hfollows.stores
    have hputs : ∀ i, (hashTrieCode mem false).op (.putU64 (keys i) (values i)) =
      .put (u64TrieProbe (keys i)) (values i) := fun i => rfl
    have hreads : ∀ i, (hashTrieCode mem false).op (.getU64 (keys i) true) =
      .get (u64TrieProbe (keys i)) true := fun i => rfl
    obtain ⟨s', r, n, hn, ⟨N, hN⟩, hserial, hr, hstores'⟩ := hstores.windows hpage hcode t hputs
      hreads (k := rgmHashTrieBatchK) (by decide) (show 0 < rgmHashTriePutWindow by decide) os count
    have hbase : (c.shared.arenas t).base ≠ 0 := Nat.ne_of_gt (hstores.sound.arenas.live t)
    refine ⟨s', r, m, n, hn, ⟨N, fun fuel hfuel => ?_⟩, hserial, hr,
      hashTrie_answers hpage mem t hstores, hashTrie_answers hpage mem t hstores'⟩
    have hwindows := hN fuel hfuel
    dsimp only at hwindows
    dsimp only [rgHashTriePutBatchU64, rgmHashTrieBatchWalk]
    rw [if_neg hbase, if_neg Bool.false_ne_true, hwindows]
  · intro c
    have hfollows : SlotFollows indexKeys hashIndexCode page c :=
      slot_follows hpage hashIndexCode_lawful hs actions
    obtain ⟨m, hstores⟩ := hfollows.stores
    have hputs : ∀ i, hashIndexCode.op (.putH (h1s i) (h2s i) (values i)) =
      .put (indexProbe (h1s i) (h2s i)) (values i) := fun i => rfl
    have hreads : ∀ i, hashIndexCode.op (.getH (h1s i) (h2s i) true) =
      .get (indexProbe (h1s i) (h2s i)) true := fun i => rfl
    obtain ⟨s', r, n, hn, ⟨N, hN⟩, hserial, hr, hstores'⟩ :=
      hstores.windows hpage hashIndexCode_lawful t hputs hreads (k := rgmHashIndexBatchK)
        (by decide) (show 0 < rgmHashIndexPutWindow by decide) os count
    have hbase : (c.shared.arenas t).base ≠ 0 := Nat.ne_of_gt (hstores.sound.arenas.live t)
    refine ⟨s', r, m, n, hn, ⟨N, fun fuel hfuel => ?_⟩, hserial, hr,
      hashIndex_answers hpage t hstores, hashIndex_answers hpage t hstores'⟩
    have hwindows := hN fuel hfuel
    dsimp only at hwindows
    dsimp only [rgHashIndexPutBatchH, rgmHashIndexBatchWalk]
    rw [if_neg hbase, hwindows]
  · rw [rgHashTriePutBatchU64]
    split <;> rfl
  · intro hpos
    obtain ⟨k, hk⟩ : ∃ k, count.toNat = k + 1 := ⟨count.toNat - 1, by omega⟩
    refine ⟨1, fun fuel hfuel => ?_⟩
    obtain ⟨fuel, rfl⟩ : ∃ f, fuel = f + 1 := ⟨fuel - 1, by omega⟩
    dsimp only
    rw [hk, List.range_succ_eq_map]
    rfl

/-- Without an entry the serial loop over a NOCOPY trie returns OK, and the batched insert does
not. -/
theorem nocopy_batch_not_serial :
    ¬ ∃ s' r, Settles (fun fuel => rgHashTriePutBatchU64 (fun _ => 0) true 4096 fuel threadA
        (fun _ _ => ⟨0, true, true, fun _ => 0⟩) sampleNocopyFilled (some fun _ => 7)
        (some fun _ => 5) 0) (s', r.getD .ok) ∧
      Settles (fun fuel => inOrder (fun _ => slotPutEntry 4096 (hashTrieCode (fun _ => 0) true)
        threadA (.putU64 7 5) fuel fun _ => ⟨0, true, true, fun _ => 0⟩) (List.range 0)
          sampleNocopyFilled) (s', r) := by
  rintro ⟨s', r, ⟨N, hN⟩, ⟨M, hM⟩⟩
  have hserial : (sampleNocopyFilled, none) = (s', r) := Except.ok.inj (hM M (Nat.le_refl M))
  have hbatch : (sampleNocopyFilled, Status.errInvalid) = (s', r.getD .ok) :=
    Except.ok.inj (hN N (Nat.le_refl N))
  obtain ⟨-, rfl⟩ := Prod.mk.inj hserial
  obtain ⟨-, hstatus⟩ := Prod.mk.inj hbatch
  cases hstatus

/-- A map with one key, a trie with one key and an empty index, each with forty more entries. -/
theorem sample_put_batch :
    (∃ x, Settles (fun fuel => rgHashMapPutBatchU64 4096 fuel (fun _ => sampleOs)
      sampleSession'.map sampleSession'.arena (some fun j => BitVec.ofNat 64 j) (some fun _ => 5)
        40) x) ∧
    (∃ x, Settles (fun fuel => rgHashTriePutBatchU64 (fun _ => 0) false 4096 fuel threadA
      (fun _ _ => ⟨0, true, true, fun _ => 0⟩) samplePutDone.shared
        (some fun j => BitVec.ofNat 64 j) (some fun _ => 5) 40) x) ∧
    ∃ x, Settles (fun fuel => rgHashIndexPutBatchH 4096 fuel threadA
      (fun _ _ => ⟨0, true, true, fun _ => 0⟩) sampleIndex (some fun _ => 0)
        (some fun j => BitVec.ofNat 64 j) (some fun _ => 5) 40) x := by
  obtain ⟨hmap, htrie, hindex, -⟩ := put_batch_eq_serial samplePage (by decide) (fun _ => 5) 40
  refine ⟨?_, ?_, ?_⟩
  · obtain ⟨map', s', r, m, n, -, hbatch, -⟩ :=
      hmap (.session sampleSession_fresh (.single sampleSession_step)) (fun _ => sampleOs)
        fun j => BitVec.ofNat 64 j
    exact ⟨_, hbatch⟩
  · obtain ⟨s', r, m, n, -, hbatch, -⟩ := htrie sampleTrie_fresh (fun _ => 0) samplePut threadA
      (fun _ _ => ⟨0, true, true, fun _ => 0⟩) fun j => BitVec.ofNat 64 j
    exact ⟨_, hbatch⟩
  · obtain ⟨s', r, m, n, -, hbatch, -⟩ := hindex sampleIndex_fresh [] threadA
      (fun _ _ => ⟨0, true, true, fun _ => 0⟩) (fun _ => 0) fun j => BitVec.ofNat 64 j
    exact ⟨_, hbatch⟩

end RgMemory
