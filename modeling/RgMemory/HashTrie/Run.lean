import RgMemory.HashTrie.Model
import RgMemory.Slots.Run

/-!
# The hash trie is linearizable

The keys of the lock-free trie are byte strings: `trieKeys` says how a node holds its key in either
mode, and `hashTrieCode_lawful` that every entry point probes for the key of its call. The 64-bit
entry points are the generic ones on the eight little-endian bytes (`u64TrieProbe_eq`).
-/

namespace RgMemory

open Bytes Concurrent

/-! ## Keys of nodes -/

section

variable {mem : Mem} {nocopy : Bool}

/-- The key of a node. -/
def trieKeyOf (mem : Mem) (b : TrieBody) : List Byte :=
  match b.tail with
  | .inline key => key
  | .pointer addr => slice mem addr b.keyLen.toNat

/-- Bodies that Put writes: the digest and the length are those of the key, and the tail is that of
the mode. -/
structure GenuineBody (mem : Mem) (nocopy : Bool) (b : TrieBody) : Prop where
  hash : b.hash = rgmHashWyhash (ptr (trieKeyOf mem b)) (trieKeyOf mem b).length
  keyLen : b.keyLen.toNat = (trieKeyOf mem b).length
  tail : match b.tail with
    | .inline _ => nocopy = false
    | .pointer _ => nocopy = true

/-- The room that a node takes. -/
def trieNodeSize (b : TrieBody) : Nat :=
  match b.tail with
  | .inline key => hashNodeSize + key.length
  | .pointer _ => hashNodeSize + 8

def trieKeys (mem : Mem) (nocopy : Bool) : SlotKeys TrieBody (List Byte) where
  keyOf := trieKeyOf mem
  hfull k := rgmHashWyhash (ptr k) k.length
  reseed k := rgmHashReseedBytes (ptr k) k.length
  Genuine := GenuineBody mem nocopy
  size := trieNodeSize

/-- The accessor gives the bytes of the key. -/
theorem keyExt_genuine {b : TrieBody} (h : GenuineBody mem nocopy b) (node : Nat) :
    ∃ p m, rgmHashNodeKeyExt mem nocopy node b = some (p, m) ∧
      slice m 0 (trieKeyOf mem b).length = trieKeyOf mem b := by
  have htail := h.tail
  have hlen := h.keyLen
  unfold rgmHashNodeKeyExt rgmHashNodeKey trieKeyOf at *
  cases hb : b.tail with
  | inline key =>
    rw [hb] at htail
    dsimp only at htail
    subst htail
    refine ⟨_, _, rfl, ?_⟩
    exact slice_eq_list.mpr fun i _ => by rw [Nat.zero_add]
  | pointer addr =>
    rw [hb] at htail hlen
    dsimp only at htail hlen
    subst htail
    refine ⟨_, _, rfl, ?_⟩
    dsimp only
    rw [← hlen]
    exact slice_congr fun i _ => by rw [Nat.zero_add]

/-- A node of a copying trie takes the room of its key. -/
theorem trieNodeSize_copied {b : TrieBody} (h : GenuineBody mem false b) :
    (trieKeys mem false).size b = hashNodeSize + ((trieKeys mem false).keyOf b).length := by
  have htail := h.tail
  show trieNodeSize b = hashNodeSize + (trieKeyOf mem b).length
  unfold trieNodeSize trieKeyOf
  cases hb : b.tail with
  | inline key => rfl
  | pointer addr =>
    rw [hb] at htail
    cases htail

/-- At a genuine node the comparison decides equality of the keys. -/
theorem bytesTrieProbe_test (key : TrieKey mem nocopy) (hlen : key.bytes.length < 2 ^ 32)
    (node : Nat) {b : TrieBody} (h : GenuineBody mem nocopy b) :
    (bytesTrieProbe key).test node b = some (decide (trieKeyOf mem b = key.bytes)) := by
  have hkl : b.keyLen = BitVec.ofNat 32 key.bytes.length ↔
      (trieKeyOf mem b).length = key.bytes.length := by
    rw [← h.keyLen, BitVec.toNat_eq, BitVec.toNat_ofNat, Nat.mod_eq_of_lt hlen]
  obtain ⟨p, m, hext, hslice⟩ := keyExt_genuine h node
  simp only [bytesTrieProbe, hext, Option.map_some, hkl]
  by_cases hcand : b.hash = rgmHashWyhash (ptr key.bytes) key.bytes.length ∧
      (trieKeyOf mem b).length = key.bytes.length
  · rw [if_pos hcand]
    obtain ⟨-, hlength⟩ := hcand
    by_cases h0 : key.bytes.length = 0
    · have hempty : trieKeyOf mem b = key.bytes := by
        rw [List.eq_nil_of_length_eq_zero h0, List.eq_nil_of_length_eq_zero (hlength.trans h0)]
      rw [if_pos h0, decide_eq_true hempty]
    · rw [if_neg h0, Option.some.injEq, Bool.eq_iff_iff, decide_eq_true_iff, rgmHashKeysEqual_iff]
      rw [← hslice, hlength, slice_eq_list]
      simp only [Nat.zero_add]
  · rw [if_neg hcand, decide_eq_false]
    exact fun heq => hcand ⟨heq ▸ h.hash, heq ▸ rfl⟩

/-! ## Probes -/

theorem TrieKey.length_lt {key : TrieKey mem nocopy} (h : key.refused = false) :
    key.bytes.length < 2 ^ 32 := by
  simp only [TrieKey.refused, Bool.or_eq_false_iff, decide_eq_false_iff_not] at h
  omega

/-- The body of a new node is genuine and has the key of the call. -/
theorem bytesTrieProbe_body (key : TrieKey mem nocopy) (hlen : key.bytes.length < 2 ^ 32) :
    trieKeyOf mem (bytesTrieProbe key).body = key.bytes ∧
      GenuineBody mem nocopy (bytesTrieProbe key).body := by
  have hkl : (BitVec.ofNat 32 key.bytes.length).toNat = key.bytes.length := by
    rw [BitVec.toNat_ofNat, Nat.mod_eq_of_lt hlen]
  have hkey : trieKeyOf mem (bytesTrieProbe key).body = key.bytes := by
    unfold bytesTrieProbe trieKeyOf
    cases nocopy with
    | false => rfl
    | true =>
      show slice mem key.addr (BitVec.ofNat 32 key.bytes.length).toNat = key.bytes
      rw [hkl]
      exact key.stable rfl
  refine ⟨hkey, ?_, ?_, ?_⟩
  · rw [hkey]
    rfl
  · rw [hkey]
    exact hkl
  · unfold bytesTrieProbe
    cases nocopy <;> rfl

theorem bytesTrieProbe_lawful (key : TrieKey mem nocopy) (hlen : key.bytes.length < 2 ^ 32) :
    (bytesTrieProbe key).Lawful (trieKeys mem nocopy) := by
  obtain ⟨hkey, hgenuine⟩ := bytesTrieProbe_body key hlen
  have hkey' : (trieKeys mem nocopy).keyOf (bytesTrieProbe key).body = key.bytes := hkey
  refine ⟨?_, ?_, fun a b hb => ?_, hgenuine, ?_, ?_⟩
  · rw [hkey']
    rfl
  · rw [hkey']
    rfl
  · rw [hkey']
    exact bytesTrieProbe_test key hlen a hb
  · unfold bytesTrieProbe trieKeys trieNodeSize
    cases nocopy <;> rfl
  · have hsize : (bytesTrieProbe key).size ≤ 64 + key.bytes.length := by
      unfold bytesTrieProbe hashNodeSize
      cases nocopy with
      | false => exact Nat.add_le_add_right (by decide) _
      | true => exact Nat.le_add_right ..
    omega

/-- The 64-bit entry points do what the generic ones do on the eight bytes of the key. -/
theorem u64TrieProbe_eq (mem : Mem) (addr : Nat) (key : BitVec 64) :
    u64TrieProbe key = bytesTrieProbe (⟨addr, leBytes key, by simp⟩ : TrieKey mem false) := by
  have hprobe := u64Probe_eq key
  have hhash : rgmHashU64 key = rgmHashWyhash (ptr (leBytes key)) (leBytes key).length :=
    congrArg Probe.hfull hprobe
  have hreseed : rgmHashReseedU64 key =
      rgmHashReseedBytes (ptr (leBytes key)) (leBytes key).length := congrArg Probe.reseed hprobe
  have hsame : ∀ p, (rgmHashLoadU64 p 0 == key) = ((leBytes key).length = 0 ||
      rgmHashKeysEqual p (ptr (leBytes key)) (leBytes key).length) :=
    congrFun (congrArg Probe.sameKey hprobe)
  have hlen : (leBytes key).length = 8 := leBytes_length key
  unfold u64TrieProbe bytesTrieProbe
  dsimp only
  rw [hhash, hreseed]
  simp only [hsame, hlen]
  rfl

end

/-- Every entry point probes for the key of its call. -/
theorem hashTrieCode_lawful (mem : Mem) (nocopy : Bool) :
    (hashTrieCode mem nocopy).Lawful (trieKeys mem nocopy) := by
  refine ⟨fun op pr hpr => ?_, fun a b v hb => ?_⟩
  · have hu64 : ∀ key : BitVec 64, nocopy = false →
        (u64TrieProbe key).Lawful (trieKeys mem nocopy) := by
      rintro key rfl
      rw [u64TrieProbe_eq mem 0]
      exact bytesTrieProbe_lawful _ (by rw [leBytes_length]; decide)
    change (HashTrieOp.op op).probe = some pr at hpr
    unfold HashTrieOp.op at hpr
    cases op with
    | put key value =>
      dsimp only at hpr
      split at hpr
      · cases hpr
      · next hok =>
        cases hpr
        exact bytesTrieProbe_lawful key (TrieKey.length_lt (Bool.eq_false_iff.mpr hok))
    | putU64 key value =>
      dsimp only at hpr
      split at hpr
      · cases hpr
      · next hcopy =>
        cases hpr
        exact hu64 key (Bool.eq_false_iff.mpr hcopy)
    | get key out =>
      dsimp only at hpr
      split at hpr
      · cases hpr
      · next hok =>
        cases hpr
        exact bytesTrieProbe_lawful key (TrieKey.length_lt (Bool.eq_false_iff.mpr hok))
    | getU64 key out =>
      dsimp only at hpr
      split at hpr
      · cases hpr
      · next hcopy =>
        cases hpr
        exact hu64 key (Bool.eq_false_iff.mpr hcopy)
    | forEach fn => cases fn <;> cases hpr
  · obtain ⟨p, m, hext, -⟩ := keyExt_genuine hb a
    exact ⟨⟨p, slice m 0 b.keyLen.toNat, b.keyLen, v⟩, by simp [hashTrieCode, hext]⟩

/-! ## Linearizability -/

section

variable {mem : Mem}

/-- The calls on a trie, as operations of a finite map. -/
def HashTrieOp.toMap {nocopy : Bool} : HashTrieOp mem nocopy → MapOp (List Byte) TrieReport
  | .put key value =>
    if key.refused then .settled (.answer .errInvalid none) else .put key.bytes value
  | .putU64 key value =>
    if nocopy then .settled (.answer .errInvalid none) else .put (leBytes key) value
  | .get key out =>
    if key.refused then .settled (.answer .errInvalid none) else .get key.bytes out
  | .getU64 key out =>
    if nocopy then .settled (.answer .errInvalid none) else .get (leBytes key) out
  | .forEach none => .settled (.visited 0 [])
  | .forEach (some _) => .forEach

theorem HashTrieOp.toMap_eq {nocopy : Bool} (op : HashTrieOp mem nocopy) :
    ((hashTrieCode mem nocopy).op op).toMap (trieKeys mem nocopy) = op.toMap := by
  have hbytes : ∀ key : TrieKey mem nocopy, key.refused = false →
      (trieKeys mem nocopy).keyOf (bytesTrieProbe key).body = key.bytes := fun key hok =>
    (bytesTrieProbe_body key (TrieKey.length_lt hok)).1
  have hu64 : ∀ key, (trieKeys mem nocopy).keyOf (u64TrieProbe key).body = leBytes key :=
    fun _ => rfl
  cases op with
  | put key value =>
    cases hok : key.refused with
    | true => simp [hashTrieCode, HashTrieOp.op, HashTrieOp.toMap, SlotOp.toMap, hok]
    | false => simp [hashTrieCode, HashTrieOp.op, HashTrieOp.toMap, SlotOp.toMap, hok, hbytes key hok]
  | putU64 key value =>
    cases nocopy <;> simp [hashTrieCode, HashTrieOp.op, HashTrieOp.toMap, SlotOp.toMap, hu64]
  | get key out =>
    cases hok : key.refused with
    | true => simp [hashTrieCode, HashTrieOp.op, HashTrieOp.toMap, SlotOp.toMap, hok]
    | false => simp [hashTrieCode, HashTrieOp.op, HashTrieOp.toMap, SlotOp.toMap, hok, hbytes key hok]
  | getU64 key out =>
    cases nocopy <;> simp [hashTrieCode, HashTrieOp.op, HashTrieOp.toMap, SlotOp.toMap, hu64]
  | forEach fn => cases fn <;> rfl

/-- The results of the calls on a copying trie, in terms of a map from byte keys to values. An absent
key is answered as invalid arguments are. -/
def HashTrieSpec (m : List Byte → Option (BitVec 64)) (op : HashTrieOp mem false)
    (r : SlotResult TrieReport) (m' : List Byte → Option (BitVec 64)) : Prop :=
  mapSpec .errInvalid m op.toMap r m'

/-- **The hash trie is linearizable.** Threads with an arena each call Put and Get on a copying trie,
through either entry point, and their steps interleave in any order. The order in which the calls get
their results (a Put at its successful CAS or its value store, or when its arena is exhausted, a Get
at its value load or its load of an empty slot) is a sequential run of a finite map and respects
real time. So a Get that is called after a Put of its key returned OK finds the key, and a Put that
answers that there is no memory was refused its node by the arena of its own thread. -/
theorem hash_trie_linearizable {page : Nat} (hpage : IsPageSize page) {τ : Type} [DecidableEq τ]
    {s : Slots TrieBody τ} (hs : s.Fresh page)
    (actions : List (Action τ OsReply (HashTrieOp mem false))) :
    let c := (Config.start s).run (slotMachine page (hashTrieCode mem false) τ) actions
    Linearization HashTrieSpec (fun _ => none) c.history c.log ∧
      (∀ a b put get k v out r, Event.call a put ∈ c.history → put.toMap = .put k v →
        [Event.ret a (.answer .ok none), Event.call b get].Sublist c.history →
        get.toMap = .get k out → Event.ret b r ∈ c.history →
        ∃ v, r = .answer .ok (if out then some v else none)) ∧
      ∀ a put k v, Event.call a put ∈ c.history → put.toMap = .put k v →
        Event.ret a (.answer .errNoMemory none) ∈ c.history →
        RefusedBy page (hashTrieCode mem false) s actions a put (hashNodeSize + k.length) := by
  intro c
  have hfollows := slot_follows hpage (hashTrieCode_lawful mem false) hs actions
  refine ⟨hfollows.linearization.imp fun m op r m' hspec => ?_, ?_, ?_⟩
  · rw [HashTrieSpec, ← HashTrieOp.toMap_eq]
    exact hspec
  · intro a b put get k v out r hput hputs hsub hgets hret
    rw [← HashTrieOp.toMap_eq] at hputs hgets
    exact slot_found hfollows hput hputs hsub hgets hret
  · intro a put k v hput hputs hret
    rw [← HashTrieOp.toMap_eq] at hputs
    obtain ⟨body, rfl, hgenuine, hrefused⟩ :=
      slot_refused hpage (hashTrieCode_lawful mem false) hs hput hputs hret
    rwa [trieNodeSize_copied hgenuine] at hrefused

end

/-- Two threads, each with an arena of 64 KiB. -/
def sampleTrie : Slots TrieBody (Fin 2) where
  top _ := none
  heap _ := none
  arenas := sampleArenas

theorem sampleTrie_fresh : sampleTrie.Fresh 4096 :=
  ⟨fun _ => rfl, fun _ => rfl, sampleArenas_ok _ rfl⟩

def sampleTrieKey : TrieKey (fun _ => 0) false :=
  ⟨64, leBytes 7, fun h => absurd h Bool.false_ne_true⟩

/-- Both threads put the key 7, and both have created a node when the first CAS succeeds; then the
first thread gets the key. -/
def sampleTrieActions : List (Action (Fin 2) OsReply (HashTrieOp (fun _ => 0) false)) :=
  let a : Action (Fin 2) OsReply _ := .step threadA ⟨0, true, true, fun _ => 0⟩
  let b : Action (Fin 2) OsReply _ := .step threadB ⟨0, true, true, fun _ => 0⟩
  [.call threadA (.putU64 7 1), a, a, a, .call threadB (.put sampleTrieKey 2), b, b, b, a,
    .ret threadA, b, b, b, .ret threadB, .call threadA (.getU64 7 true), a, a, a, a, .ret threadA]

theorem sampleTrie_history :
    ((Config.start sampleTrie).run (slotMachine 4096 (hashTrieCode (fun _ => 0) false) (Fin 2))
      sampleTrieActions).history =
      [.call 0 (.putU64 7 1), .call 1 (.put sampleTrieKey 2), .ret 0 (.answer .ok none),
        .ret 1 (.answer .ok none), .call 2 (.getU64 7 true),
        .ret 2 (.answer .ok (some 2))] := by
  rfl

/-- The loser of the race has stored its value, and the Get that follows both finds it. -/
theorem sampleTrie_linearizable :
    let c := (Config.start sampleTrie).run
      (slotMachine 4096 (hashTrieCode (fun _ => 0) false) (Fin 2)) sampleTrieActions
    Linearization HashTrieSpec (fun _ => none) c.history c.log ∧
      Event.ret 2 (.answer .ok (some 2)) ∈ c.history := by
  intro c
  refine ⟨(hash_trie_linearizable ⟨12, by decide, rfl⟩ sampleTrie_fresh sampleTrieActions).1, ?_⟩
  have hhistory : c.history = _ := sampleTrie_history
  rw [hhistory]
  simp

end RgMemory
