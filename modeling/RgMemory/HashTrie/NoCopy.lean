import RgMemory.HashTrie.Sweep
import RgMemory.Slots.Twins

/-!
# NOCOPY tries behave like copying tries

One thread calls Put, Get and ForEach on a trie. A copying trie has the bytes of a key behind its
node; a NOCOPY trie has the pointer that the first Put of the key gave, and reads the client's memory
whenever it compares or reports the key. The client may write to its memory between two calls, but
not to a buffer that it has passed to Put.

`TrieAt` is the state of one trie after some calls. The two tries are twins
(`Slots.Twins`): matching nodes have the same key, one inline and one in the buffer of its first
insertion. `nocopy_like_copy` compares the answers.
-/

namespace RgMemory

open Bytes Links Concurrent

/-! ## Calls of a client -/

/-- What a callback reads of a report: the bytes of the key, the length and the value. -/
abbrev TrieView := List Byte × BitVec 32 × BitVec 64

def TrieReport.view (r : TrieReport) : TrieView := (r.bytes, r.keyLen, r.value)

inductive TrieCallOp
  | put (addr len : Nat) (value : BitVec 64)
  | get (addr len : Nat) (out : Bool)
  | forEach (fn : Option (List TrieView → Bool))

/-- A call, and the client's memory while it runs. -/
structure TrieCall where
  mem : Mem
  op : TrieCallOp

namespace TrieCall

/-- The key that a client passes. -/
def key (mem : Mem) (nocopy : Bool) (addr len : Nat) : TrieKey mem nocopy :=
  ⟨addr, slice mem addr len, fun _ => by rw [slice_length]⟩

/-- The call on a trie of either mode. -/
def on (c : TrieCall) (nocopy : Bool) : HashTrieOp c.mem nocopy :=
  match c.op with
  | .put addr len value => .put (key c.mem nocopy addr len) value
  | .get addr len out => .get (key c.mem nocopy addr len) out
  | .forEach fn => .forEach (fn.map fun f reports => f (reports.map TrieReport.view))

/-- The buffer of a Put that is not refused, when it has these bytes. -/
def inserts (c : TrieCall) (bytes : List Byte) : Option Nat :=
  match c.op with
  | .put addr len _ =>
    if (key c.mem true addr len).refused = false ∧ slice c.mem addr len = bytes then some addr
    else none
  | _ => none

/-- The buffer of a Put is in this memory as it was. -/
def Keeps (c : TrieCall) (mem : Mem) : Prop :=
  ∀ addr len value, c.op = .put addr len value → slice mem addr len = slice c.mem addr len

end TrieCall

/-- The buffer that the first Put of the key passed. -/
def firstBuffer (calls : List TrieCall) (bytes : List Byte) : Option Nat :=
  calls.findSome? fun c => c.inserts bytes

/-- The answers to a sequence of calls, each for at most `fuel` steps. -/
def trieRun (page : Nat) (nocopy : Bool) (fuel : Nat) :
    (Nat → Nat → OsReply) → List TrieCall → Slots TrieBody Unit →
      Option (List (SlotResult TrieReport))
  | _, [], _ => some []
  | os, c :: calls, s =>
    (slotCall page (hashTrieCode c.mem nocopy) () (c.on nocopy) fuel (os 0) .enter s).bind fun x =>
      (trieRun page nocopy fuel (fun i => os (i + 1)) calls x.1).map (x.2 :: ·)

section

variable {page : Nat} {nocopy : Bool} {past calls : List TrieCall} {c : TrieCall}
  {bytes : List Byte} {addr len : Nat}

theorem firstBuffer_concat (past : List TrieCall) (c : TrieCall) (bytes : List Byte) :
    firstBuffer (past ++ [c]) bytes = (firstBuffer past bytes).or (c.inserts bytes) := by
  simp [firstBuffer, List.findSome?_append]

theorem TrieCall.inserts_eq_some (h : c.inserts bytes = some addr) :
    ∃ len value, c.op = .put addr len value ∧ slice c.mem addr len = bytes := by
  unfold TrieCall.inserts at h
  split at h
  · next addr' len value hop =>
    split at h
    · next hcond =>
      cases h
      exact ⟨len, value, hop, hcond.2⟩
    · cases h
  · cases h

/-- The first buffer of a key has its bytes as long as buffers are kept. -/
theorem firstBuffer_slice (h : firstBuffer past bytes = some addr) {mem : Mem}
    (hkept : ∀ c ∈ past, c.Keeps mem) :
    slice mem addr bytes.length = bytes := by
  obtain ⟨c, hc, hinserts⟩ := List.exists_of_findSome?_eq_some h
  obtain ⟨len, value, hop, hslice⟩ := TrieCall.inserts_eq_some hinserts
  have hlen : bytes.length = len := by rw [← hslice, slice_length]
  rw [hlen, hkept c hc addr len value hop, hslice]

/-! ## One trie -/

/-- The state of a trie after some calls: its bodies are those that Puts made, and it is sound and
holds a map whatever the memory, as long as the buffers are kept. -/
structure TrieAt (page : Nat) (nocopy : Bool) (past : List TrieCall)
    (m : List Byte → Option (BitVec 64)) (s : Slots TrieBody Unit) : Prop where
  bodies : ∀ a n, s.heap a = some n → ∃ c ∈ past, ∃ addr len value, c.op = .put addr len value ∧
    (TrieCall.key c.mem nocopy addr len).refused = false ∧
    n.body = (bytesTrieProbe (TrieCall.key c.mem nocopy addr len)).body
  sound : ∀ mem, (∀ c ∈ past, c.Keeps mem) → s.Sound (trieKeys mem nocopy) page
  holds : ∀ mem, (∀ c ∈ past, c.Keeps mem) → s.Holds (trieKeys mem nocopy) m

variable {m : List Byte → Option (BitVec 64)} {s s' : Slots TrieBody Unit} {mem mem' : Mem}

/-- A body that a Put made has its key in every memory where the buffer is kept. -/
theorem body_key {addr len : Nat} {value : BitVec 64} (hop : c.op = .put addr len value)
    (hok : (TrieCall.key c.mem nocopy addr len).refused = false) (hkept : c.Keeps mem) :
    trieKeyOf mem (bytesTrieProbe (TrieCall.key c.mem nocopy addr len)).body = slice c.mem addr len ∧
      GenuineBody mem nocopy (bytesTrieProbe (TrieCall.key c.mem nocopy addr len)).body := by
  have hlen := TrieKey.length_lt hok
  -- the body depends on the address and the bytes only
  let key : TrieKey mem nocopy := ⟨addr, slice c.mem addr len, fun _ => by
    rw [slice_length]
    exact hkept addr len value hop⟩
  exact bytesTrieProbe_body key hlen

/-- The memory matters to a trie only in the buffers that its nodes point to. -/
theorem sound_of_memory (h : s.Sound (trieKeys mem nocopy) page)
    (hbody : ∀ a n, s.heap a = some n → trieKeyOf mem' n.body = trieKeyOf mem n.body ∧
      GenuineBody mem' nocopy n.body) : s.Sound (trieKeys mem' nocopy) page := by
  refine ⟨h.arenas, h.placed.congr fun x a hx => ?_, fun a n hn => (hbody a n hn).2, h.owned,
    h.disjoint⟩
  obtain ⟨n, hn, -⟩ := h.linked_node ⟨x, hx⟩
  simp only [Slots.key, hn, Option.map_some]
  exact congrArg some (hbody a n hn).1

theorem holds_of_memory (h : s.Holds (trieKeys mem nocopy) m)
    (hbody : ∀ a n, s.heap a = some n → trieKeyOf mem' n.body = trieKeyOf mem n.body) :
    s.Holds (trieKeys mem' nocopy) m := by
  intro k v
  rw [h k v]
  refine exists_congr fun a => exists_congr fun n => and_congr_right fun _ =>
    and_congr_right fun hn => ?_
  show trieKeyOf mem n.body = k ∧ _ ↔ trieKeyOf mem' n.body = k ∧ _
  rw [hbody a n hn]

theorem TrieAt.start (hs : s.Fresh page) : TrieAt page nocopy [] (fun _ => none) s :=
  ⟨fun a n hn => absurd ((hs.heap a).symm.trans hn) (by simp), fun _ _ => hs.sound.1,
    fun _ _ => hs.sound.2⟩

/-- A call that puts something is a Put that is not refused. -/
theorem TrieCall.op_put {pr : SlotProbe TrieBody} {v : BitVec 64}
    (h : (hashTrieCode c.mem nocopy).op (c.on nocopy) = .put pr v) :
    ∃ addr len, c.op = .put addr len v ∧ (key c.mem nocopy addr len).refused = false ∧
      pr = bytesTrieProbe (key c.mem nocopy addr len) := by
  change (c.on nocopy).op = _ at h
  unfold TrieCall.on at h
  split at h
  · next addr len value hop =>
    simp only [HashTrieOp.op] at h
    split at h
    · cases h
    · next hok =>
      cases h
      exact ⟨addr, len, hop, Bool.eq_false_iff.mpr hok, rfl⟩
  · simp only [HashTrieOp.op] at h
    split at h <;> cases h
  · next fn hop => cases fn <;> cases h

theorem TrieAt.call (hpage : IsPageSize page) (h : TrieAt page nocopy past m s)
    (hkept : ∀ d ∈ past, d.Keeps c.mem) {n : Nat} {os : Nat → OsReply} {r : SlotResult TrieReport}
    (hcall : slotCall page (hashTrieCode c.mem nocopy) () (c.on nocopy) n os .enter s =
      some (s', r)) :
    ∃ m', TrieAt page nocopy (past ++ [c]) m' s' ∧ mapSpec .errInvalid m (c.on nocopy).toMap r m' := by
  have hcode := hashTrieCode_lawful c.mem nocopy
  have hs := h.sound c.mem hkept
  have hm := h.holds c.mem hkept
  have hrelies := (slot_simulation hpage hcode).start s m () (c.on nocopy) ⟨hs, hm⟩
  obtain ⟨hs', m', hspec, hm'⟩ := slotCall_spec hpage hcode hs hm hrelies hcall
  have hbodies : ∀ a n', s'.heap a = some n' → ∃ d ∈ past ++ [c], ∃ addr len value,
      d.op = .put addr len value ∧ (TrieCall.key d.mem nocopy addr len).refused = false ∧
      n'.body = (bytesTrieProbe (TrieCall.key d.mem nocopy addr len)).body := by
    intro a n' hn'
    rcases slotCall_bodies hpage hcode hs hrelies hm hcall hn' with ⟨n, hn, hb⟩ | ⟨pr, v, hput, hb⟩
    · obtain ⟨d, hd, hmade⟩ := h.bodies a n hn
      rw [hb] at hmade
      exact ⟨d, List.mem_append_left _ hd, hmade⟩
    · obtain ⟨addr, len, hop, hok, rfl⟩ := TrieCall.op_put hput
      exact ⟨c, List.mem_append_right _ (List.mem_singleton_self _), addr, len, v, hop, hok, hb⟩
  have hself : ∀ d ∈ past ++ [c], d.Keeps c.mem := by
    intro d hd
    rcases List.mem_append.mp hd with hd | hd
    · exact hkept d hd
    · cases List.mem_singleton.mp hd
      exact fun _ _ _ _ => rfl
  have hbody : ∀ mem, (∀ d ∈ past ++ [c], d.Keeps mem) → ∀ a n, s'.heap a = some n →
      trieKeyOf mem n.body = trieKeyOf c.mem n.body ∧ GenuineBody mem nocopy n.body := by
    intro mem hmem a n hn
    obtain ⟨d, hd, addr, len, value, hop, hok, hb⟩ := hbodies a n hn
    obtain ⟨hkey, hgenuine⟩ := body_key hop hok (hmem d hd)
    rw [hb, hkey, (body_key hop hok (hself d hd)).1]
    exact ⟨rfl, hgenuine⟩
  refine ⟨m', ⟨hbodies, fun mem hmem => sound_of_memory hs' (hbody mem hmem), fun mem hmem =>
    holds_of_memory hm' fun a n hn => (hbody mem hmem a n hn).1⟩, ?_⟩
  rw [← HashTrieOp.toMap_eq]
  exact hspec

/-- The nodes of a trie lie in the arena. -/
theorem nodes_of_sound (h : s.Sound (trieKeys mem nocopy) page) :
    ∃ nodes : List Nat, ∀ x a, s.read x = some a → a ∈ nodes := by
  refine ⟨List.range ((s.arenas ()).base + (s.arenas ()).pos), fun x a hx => ?_⟩
  obtain ⟨n, hn, -⟩ := h.linked_node ⟨x, hx⟩
  obtain ⟨t, ⟨-, hlt⟩, -⟩ := h.owned a n hn
  exact List.mem_range.mpr hlt

/-- Every sequence of calls ends. -/
theorem trieRun_ends (hpage : IsPageSize page) (h : TrieAt page nocopy past m s)
    (hpast : ∀ d ∈ past, ∀ c ∈ calls, d.Keeps c.mem)
    (hcalls : calls.Pairwise fun c d => c.Keeps d.mem) (os : Nat → Nat → OsReply) :
    ∃ N, ∀ fuel ≥ N, ∃ rs, trieRun page nocopy fuel os calls s = some rs := by
  induction calls generalizing past m s os with
  | nil => exact ⟨0, fun fuel _ => ⟨[], rfl⟩⟩
  | cons c calls ih =>
    have hkept : ∀ d ∈ past, d.Keeps c.mem := fun d hd => hpast d hd c List.mem_cons_self
    have hs := h.sound c.mem hkept
    obtain ⟨nodes, hnodes⟩ := nodes_of_sound hs
    obtain ⟨n, x, hx⟩ := slotCall_ends hpage (hashTrieCode_lawful c.mem nocopy) hs hnodes ()
      (c.on nocopy) (os 0)
    obtain ⟨m', h', -⟩ := h.call hpage hkept hx
    obtain ⟨hnext, hrest⟩ := List.pairwise_cons.mp hcalls
    have hpast' : ∀ d ∈ past ++ [c], ∀ e ∈ calls, d.Keeps e.mem := by
      intro d hd e he
      rcases List.mem_append.mp hd with hd | hd
      · exact hpast d hd e (List.mem_cons_of_mem _ he)
      · cases List.mem_singleton.mp hd
        exact hnext e he
    obtain ⟨N, hN⟩ := ih h' hpast' hrest fun i => os (i + 1)
    refine ⟨max n N, fun fuel hfuel => ?_⟩
    obtain ⟨rs, hrs⟩ := hN fuel (le_of_max_le_right hfuel)
    refine ⟨x.2 :: rs, ?_⟩
    rw [trieRun, slotCall_le (le_of_max_le_left hfuel) hx, Option.bind_some, hrs, Option.map_some]

/-! ## Two tries -/

/-- Nodes of one key: a copy of it in one trie, its first buffer in the other. -/
def BodyTwin (calls : List TrieCall) (b b' : TrieBody) : Prop :=
  ∃ key addr, key.length < 2 ^ 32 ∧ firstBuffer calls key = some addr ∧
    b = ⟨rgmHashWyhash (ptr key) key.length, BitVec.ofNat 32 key.length, .inline key⟩ ∧
    b' = ⟨rgmHashWyhash (ptr key) key.length, BitVec.ofNat 32 key.length, .pointer addr⟩

/-- The same contents, length and value; the second report has the first buffer of the key. -/
structure SameReport (calls : List TrieCall) (r r' : TrieReport) : Prop where
  bytes : r.bytes = r'.bytes
  keyLen : r.keyLen = r'.keyLen
  value : r.value = r'.value
  buffer : firstBuffer calls r'.bytes = some r'.key

theorem BodyTwin.concat {b b' : TrieBody} (h : BodyTwin past b b') (c : TrieCall) :
    BodyTwin (past ++ [c]) b b' := by
  obtain ⟨key, addr, hlen, hfirst, hb, hb'⟩ := h
  refine ⟨key, addr, hlen, ?_, hb, hb'⟩
  rw [firstBuffer_concat, hfirst, Option.some_or]

/-- Both bodies are genuine and have the key. -/
theorem BodyTwin.keys {b b' : TrieBody} (h : BodyTwin calls b b')
    (hkept : ∀ c ∈ calls, c.Keeps mem) :
    ∃ key, (trieKeyOf mem b = key ∧ GenuineBody mem false b) ∧
      (trieKeyOf mem b' = key ∧ GenuineBody mem true b') := by
  obtain ⟨key, addr, hlen, hfirst, rfl, rfl⟩ := h
  refine ⟨key, ?_, ?_⟩
  · exact bytesTrieProbe_body (⟨addr, key, by simp⟩ : TrieKey mem false) hlen
  · exact bytesTrieProbe_body
      (⟨addr, key, fun _ => firstBuffer_slice hfirst hkept⟩ : TrieKey mem true) hlen

/-- A buffer is in the memory of its own call. -/
theorem keeps_concat (hkept : ∀ d ∈ past, d.Keeps c.mem) : ∀ d ∈ past ++ [c], d.Keeps c.mem := by
  intro d hd
  rcases List.mem_append.mp hd with hd | hd
  · exact hkept d hd
  · cases List.mem_singleton.mp hd
    exact fun _ _ _ _ => rfl

theorem probeTwin (hkept : ∀ d ∈ calls, d.Keeps c.mem) (addr len : Nat)
    (hlen : len < 2 ^ 32) :
    ProbeTwin (BodyTwin calls) (bytesTrieProbe (TrieCall.key c.mem false addr len))
      (bytesTrieProbe (TrieCall.key c.mem true addr len)) := by
  refine ⟨rfl, rfl, fun a a' b b' hb => ?_⟩
  obtain ⟨key, ⟨hkey, hgenuine⟩, hkey', hgenuine'⟩ := hb.keys hkept
  have hshort : (slice c.mem addr len).length < 2 ^ 32 := by rwa [slice_length]
  rw [bytesTrieProbe_test _ hshort a hgenuine, bytesTrieProbe_test _ hshort a' hgenuine', hkey, hkey']
  rfl

theorem report_twin (hkept : ∀ d ∈ calls, d.Keeps mem) (a a' : Nat) {b b' : TrieBody}
    (hb : BodyTwin calls b b') (v : BitVec 64) :
    ∃ r r', (hashTrieCode mem false).report a b v = some r ∧
      (hashTrieCode mem true).report a' b' v = some r' ∧ SameReport calls r r' := by
  obtain ⟨key, addr, hlen, hfirst, rfl, rfl⟩ := hb
  have hnat : (BitVec.ofNat 32 key.length).toNat = key.length := by
    rw [BitVec.toNat_ofNat, Nat.mod_eq_of_lt hlen]
  have hbuffer : slice (fun i => mem (addr + i)) 0 key.length = key := by
    refine Eq.trans (slice_congr fun i _ => ?_) (firstBuffer_slice hfirst hkept)
    rw [Nat.zero_add]
  refine ⟨⟨a + hashNodeSize, slice (ptr key) 0 (BitVec.ofNat 32 key.length).toNat, _, v⟩,
    ⟨addr, slice (fun i => mem (addr + i)) 0 (BitVec.ofNat 32 key.length).toNat, _, v⟩, rfl, rfl,
    ?_, rfl, rfl, ?_⟩
  · rw [hnat, slice_ptr, hbuffer]
  · rw [hnat, hbuffer]
    exact hfirst

/-- The same call on two tries whose nodes match. -/
theorem trie_callTwin (hkept : ∀ d ∈ past, d.Keeps c.mem)
    (hnew : ∀ key, m key = none → firstBuffer past key = none) :
    CallTwin (BodyTwin (past ++ [c])) (SameReport (past ++ [c])) (trieKeys c.mem false)
      (hashTrieCode c.mem false) (hashTrieCode c.mem true) (c.on false) (c.on true) m := by
  have hself := keeps_concat hkept
  have hlen : ∀ {addr len}, (TrieCall.key c.mem false addr len).refused = false → len < 2 ^ 32 := by
    intro addr len hok
    have hlt := TrieKey.length_lt hok
    rwa [TrieCall.key, slice_length] at hlt
  refine ⟨?_, rfl, fun a a' b b' v hb => report_twin hself a a' hb v, ?_⟩
  · change OpTwin _ _ (c.on false).op (c.on true).op
    unfold TrieCall.on
    cases c.op with
    | put addr len value =>
      cases hok : (TrieCall.key c.mem false addr len).refused with
      | true =>
        have hok' : (TrieCall.key c.mem true addr len).refused = true := hok
        simp only [HashTrieOp.op, hok, hok', if_true]
        exact .refused (.answer _ _)
      | false =>
        have hok' : (TrieCall.key c.mem true addr len).refused = false := hok
        simp only [HashTrieOp.op, hok, hok', Bool.false_eq_true, if_false]
        exact .put _ (probeTwin hself addr len (hlen hok))
    | get addr len out =>
      cases hok : (TrieCall.key c.mem false addr len).refused with
      | true =>
        have hok' : (TrieCall.key c.mem true addr len).refused = true := hok
        simp only [HashTrieOp.op, hok, hok', if_true]
        exact .refused (.answer _ _)
      | false =>
        have hok' : (TrieCall.key c.mem true addr len).refused = false := hok
        simp only [HashTrieOp.op, hok, hok', Bool.false_eq_true, if_false]
        exact .get _ (probeTwin hself addr len (hlen hok))
    | forEach fn =>
      cases fn with
      | none => exact .refused (.visited 0 .nil)
      | some f =>
        refine .forEach fun l l' hll => congrArg f ?_
        rw [← List.forall₂_eq_eq_eq, List.forall₂_map_left_iff, List.forall₂_map_right_iff]
        refine hll.imp fun r r' hr => ?_
        rw [TrieReport.view, TrieReport.view, hr.bytes, hr.keyLen, hr.value]
  · intro pr pr' v hput hput' hnone
    obtain ⟨addr, len, hop, hok, rfl⟩ := TrieCall.op_put hput
    obtain ⟨addr', len', hop', hok', rfl⟩ := TrieCall.op_put hput'
    cases hop.symm.trans hop'
    change m (slice c.mem addr len) = none at hnone
    refine ⟨slice c.mem addr len, addr, TrieKey.length_lt hok, ?_, rfl, rfl⟩
    -- the key is not in the map, so no Put has passed a buffer of it yet
    rw [firstBuffer_concat, hnew _ hnone, Option.none_or, TrieCall.inserts, hop]
    exact if_pos ⟨hok', rfl⟩

/-- A key that is not in the map has not been passed by a Put. -/
theorem unknown_concat (hnew : ∀ key, m key = none → firstBuffer past key = none)
    {m' : List Byte → Option (BitVec 64)} {r : SlotResult TrieReport}
    (hspec : mapSpec .errInvalid m (c.on false).toMap r m')
    (hr : r ≠ .answer .errNoMemory none) :
    ∀ key, m' key = none → firstBuffer (past ++ [c]) key = none := by
  intro bytes hnone
  have hsame : m' = m → (∀ addr, c.inserts bytes ≠ some addr) →
      firstBuffer (past ++ [c]) bytes = none := by
    rintro rfl hno
    rw [firstBuffer_concat, hnew bytes hnone, Option.none_or]
    exact Option.eq_none_iff_forall_ne_some.mpr hno
  unfold TrieCall.on at hspec
  cases hop : c.op with
  | put addr len value =>
    rw [hop] at hspec
    cases hok : (TrieCall.key c.mem false addr len).refused with
    | true =>
      simp only [HashTrieOp.toMap, hok, if_true] at hspec
      refine hsame hspec.2 fun addr' => ?_
      have hok' : (TrieCall.key c.mem true addr len).refused = true := hok
      simp [TrieCall.inserts, hop, hok']
    | false =>
      simp only [HashTrieOp.toMap, hok, Bool.false_eq_true, if_false] at hspec
      rcases hspec with ⟨-, rfl⟩ | ⟨hno, -⟩
      · by_cases heq : bytes = slice c.mem addr len
        · subst heq
          simp [TrieCall.key] at hnone
        · change Function.update m (slice c.mem addr len) _ bytes = none at hnone
          rw [Function.update_of_ne heq] at hnone
          rw [firstBuffer_concat, hnew bytes hnone, Option.none_or, TrieCall.inserts, hop]
          exact if_neg fun h => heq h.2.symm
      · exact absurd hno hr
  | get addr len out =>
    rw [hop] at hspec
    refine hsame ?_ fun addr' => by simp [TrieCall.inserts, hop]
    simp only [HashTrieOp.toMap] at hspec
    split at hspec <;> exact hspec.2
  | forEach fn =>
    rw [hop] at hspec
    refine hsame ?_ fun addr' => by simp [TrieCall.inserts, hop]
    cases fn with
    | none => exact hspec.2
    | some f => exact hspec

/-- No answer says that an arena was exhausted. -/
def NeverExhausted (rs : List (SlotResult TrieReport)) : Prop := .answer .errNoMemory none ∉ rs

/-- Tries that are twins answer alike. -/
theorem twins_answer {page' : Nat} (hpage : IsPageSize page) (hpage' : IsPageSize page')
    {R : Nat → Nat → Prop} {s s' : Slots TrieBody Unit} {m' : List Byte → Option (BitVec 64)}
    (h : TrieAt page false past m s) (h' : TrieAt page' true past m' s')
    (htwins : s.Twins (BodyTwin past) R s')
    (hnew : ∀ key, m key = none → firstBuffer past key = none)
    (hpast : ∀ d ∈ past, ∀ c ∈ calls, d.Keeps c.mem)
    (hcalls : calls.Pairwise fun c d => c.Keeps d.mem) {fuel : Nat} {os os' : Nat → Nat → OsReply}
    {rs rs' : List (SlotResult TrieReport)} (hrun : trieRun page false fuel os calls s = some rs)
    (hrun' : trieRun page' true fuel os' calls s' = some rs') (hrs : NeverExhausted rs)
    (hrs' : NeverExhausted rs') {i : Nat} {r r' : SlotResult TrieReport} (hr : rs[i]? = some r)
    (hr' : rs'[i]? = some r') :
    ResultTwin (SameReport (past ++ calls.take (i + 1))) r r' := by
  induction calls generalizing past m m' R s s' os os' rs rs' i with
  | nil =>
    cases hrun
    cases hr
  | cons c calls ih =>
    obtain ⟨⟨s₁, a⟩, hcall, hrest⟩ := Option.bind_eq_some_iff.mp hrun
    obtain ⟨⟨s₁', a'⟩, hcall', hrest'⟩ := Option.bind_eq_some_iff.mp hrun'
    obtain ⟨as, has, rfl⟩ := Option.map_eq_some_iff.mp hrest
    obtain ⟨as', has', rfl⟩ := Option.map_eq_some_iff.mp hrest'
    obtain ⟨ha, hrs⟩ := not_or.mp (mt List.mem_cons.mpr hrs)
    obtain ⟨ha', hrs'⟩ := not_or.mp (mt List.mem_cons.mpr hrs')
    have hkept : ∀ d ∈ past, d.Keeps c.mem := fun d hd => hpast d hd c List.mem_cons_self
    obtain ⟨hnext, hlater⟩ := List.pairwise_cons.mp hcalls
    obtain ⟨m₁, h₁, hspec⟩ := h.call hpage hkept hcall
    obtain ⟨m₁', h₁', -⟩ := h'.call hpage' hkept hcall'
    have hcode := hashTrieCode_lawful c.mem false
    have hcode' := hashTrieCode_lawful c.mem true
    have hs := h.sound c.mem hkept
    have hm := h.holds c.mem hkept
    have hs' := h'.sound c.mem hkept
    have hm' := h'.holds c.mem hkept
    have hbefore : s.Twins (BodyTwin (past ++ [c])) R s' := htwins.mono fun _ _ hb => hb.concat c
    have hallows : ((hashTrieCode c.mem false).op (c.on false)).Allows .enter := by
      unfold SlotOp.Allows
      split
      · exact .inl rfl
      · trivial
    obtain ⟨S, hS, hsame⟩ := hbefore.call hpage hpage' hcode hcode' (trie_callTwin hkept hnew) .enter
      hs hm hs' hm' ((slot_simulation hpage hcode).start s m () _ ⟨hs, hm⟩)
      ((slot_simulation hpage' hcode').start s' m' () _ ⟨hs', hm'⟩) hallows hcall hcall'
      (Ne.symm ha) (Ne.symm ha')
    cases i with
    | zero =>
      cases hr
      cases hr'
      exact hsame
    | succ i =>
      have hpast' : ∀ d ∈ past ++ [c], ∀ e ∈ calls, d.Keeps e.mem := by
        intro d hd e he
        rcases List.mem_append.mp hd with hd | hd
        · exact hpast d hd e (List.mem_cons_of_mem _ he)
        · cases List.mem_singleton.mp hd
          exact hnext e he
      have hlast := ih h₁ h₁' hS (unknown_concat hnew hspec (Ne.symm ha)) hpast' hlater has has' hrs
        hrs' hr hr'
      rwa [List.append_assoc] at hlast

theorem trieRun_length {page : Nat} {nocopy : Bool} {fuel : Nat} {os : Nat → Nat → OsReply}
    {s : Slots TrieBody Unit} {rs : List (SlotResult TrieReport)}
    (h : trieRun page nocopy fuel os calls s = some rs) : rs.length = calls.length := by
  induction calls generalizing os s rs with
  | nil =>
    cases h
    rfl
  | cons c calls ih =>
    obtain ⟨x, -, hrest⟩ := Option.bind_eq_some_iff.mp h
    obtain ⟨as, has, rfl⟩ := Option.map_eq_some_iff.mp hrest
    rw [List.length_cons, List.length_cons, ih has]

/-- More fuel gives the same answers. -/
theorem trieRun_le {page : Nat} {nocopy : Bool} {n k : Nat} (hle : n ≤ k)
    {os : Nat → Nat → OsReply} {s : Slots TrieBody Unit} {rs : List (SlotResult TrieReport)}
    (h : trieRun page nocopy n os calls s = some rs) :
    trieRun page nocopy k os calls s = some rs := by
  induction calls generalizing os s rs with
  | nil => exact h
  | cons c calls ih =>
    obtain ⟨x, hx, hrest⟩ := Option.bind_eq_some_iff.mp h
    obtain ⟨as, has, rfl⟩ := Option.map_eq_some_iff.mp hrest
    rw [trieRun, slotCall_le hle hx, Option.bind_some, ih has, Option.map_some]

/-- **NOCOPY tries behave like copying tries.** One thread runs the same calls on a fresh copying
trie and on a fresh NOCOPY one, and no buffer that it passes to Put changes later. All calls end.
Unless an arena is exhausted, both tries give the same return codes and values, and a ForEach visits
in both the same contents, lengths and values in the same order; the NOCOPY trie reports for each key
the buffer that the first Put of the key passed. -/
theorem nocopy_like_copy {page page' : Nat} (hpage : IsPageSize page) (hpage' : IsPageSize page')
    {s s' : Slots TrieBody Unit} (hs : s.Fresh page) (hs' : s'.Fresh page') {calls : List TrieCall}
    (hkept : calls.Pairwise fun c d => c.Keeps d.mem) (os os' : Nat → Nat → OsReply) :
    ∃ N, ∀ fuel ≥ N, ∃ rs rs', trieRun page false fuel os calls s = some rs ∧
      trieRun page' true fuel os' calls s' = some rs' ∧
      rs.length = calls.length ∧ rs'.length = calls.length ∧
      (NeverExhausted rs → NeverExhausted rs' → ∀ i r r', rs[i]? = some r → rs'[i]? = some r' →
        ResultTwin (SameReport (calls.take (i + 1))) r r') := by
  have hstart : TrieAt page false [] (fun _ => none) s := .start hs
  have hstart' : TrieAt page' true [] (fun _ => none) s' := .start hs'
  have hempty : s.Twins (BodyTwin []) (fun _ _ => False) s' := by
    refine ⟨fun i => ?_, nofun, nofun, nofun⟩
    rw [hs.top i, hs'.top i]
    exact .none
  obtain ⟨N, hN⟩ := trieRun_ends hpage hstart nofun hkept os
  obtain ⟨N', hN'⟩ := trieRun_ends hpage' hstart' nofun hkept os'
  refine ⟨max N N', fun fuel hfuel => ?_⟩
  obtain ⟨rs, hrun⟩ := hN fuel (le_of_max_le_left hfuel)
  obtain ⟨rs', hrun'⟩ := hN' fuel (le_of_max_le_right hfuel)
  refine ⟨rs, rs', hrun, hrun', trieRun_length hrun, trieRun_length hrun', ?_⟩
  intro hrs hrs' i r r' hr hr'
  exact twins_answer hpage hpage' hstart hstart' hempty (fun _ _ => rfl) nofun hkept hrun hrun' hrs
    hrs' hr hr'

end

/-! ## A run -/

/-- A trie of one thread, with an arena of 64 KiB. -/
def sampleSolo : Slots TrieBody Unit where
  top _ := none
  heap _ := none
  arenas _ := sampleArenas threadA

theorem sampleSolo_fresh : sampleSolo.Fresh 4096 := by
  have hok := sampleArenas_ok sampleTrie rfl
  refine ⟨fun _ => rfl, fun _ => rfl, fun _ => hok.ok threadA, fun _ => hok.live threadA, ?_⟩
  intro t t' hne
  exact absurd (Subsingleton.elim t t') hne

/-- The bytes 55 and 26 lie at the addresses 64 and 80. -/
def sampleMem : Mem := fun i =>
  if i = 64 ∨ i = 80 then 55 else if i = 65 ∨ i = 81 then 26 else 0

/-- The key is put, overwritten from another buffer, read, and visited by a callback that stops. -/
def sampleCalls : List TrieCall :=
  [⟨sampleMem, .put 64 2 7⟩, ⟨sampleMem, .put 80 2 8⟩, ⟨sampleMem, .get 80 2 true⟩,
    ⟨sampleMem, .forEach (some fun _ => true)⟩]

def soloOs : Nat → Nat → OsReply := fun _ _ => ⟨0, true, true, fun _ => 0⟩

theorem sampleCalls_copied : trieRun 4096 false 8 soloOs sampleCalls sampleSolo =
    some [.answer .ok none, .answer .ok none, .answer .ok (some 8),
      .visited 1 [⟨65592, [55, 26], 2, 8⟩]] := by
  rfl

theorem sampleCalls_nocopy : trieRun 4096 true 8 soloOs sampleCalls sampleSolo =
    some [.answer .ok none, .answer .ok none, .answer .ok (some 8),
      .visited 1 [⟨64, [55, 26], 2, 8⟩]] := by
  rfl

/-- The NOCOPY trie visits the key with the first buffer, and all else is alike. -/
theorem sampleCalls_alike : ∃ fuel rs rs',
    trieRun 4096 false fuel soloOs sampleCalls sampleSolo = some rs ∧
    trieRun 4096 true fuel soloOs sampleCalls sampleSolo = some rs' ∧
    rs'[3]? = some (.visited 1 [⟨64, [55, 26], 2, 8⟩]) ∧
    ∀ i r r', rs[i]? = some r → rs'[i]? = some r' →
      ResultTwin (SameReport (sampleCalls.take (i + 1))) r r' := by
  have hpage : IsPageSize 4096 := ⟨12, by decide, rfl⟩
  have hkept : sampleCalls.Pairwise fun c d => c.Keeps d.mem := by
    simp [sampleCalls, TrieCall.Keeps]
  obtain ⟨N, hN⟩ := nocopy_like_copy hpage hpage sampleSolo_fresh sampleSolo_fresh hkept
    soloOs soloOs
  obtain ⟨rs, rs', hrun, hrun', -, -, halike⟩ := hN (max N 8) (le_max_left N 8)
  cases hrun.symm.trans (trieRun_le (le_max_right N 8) sampleCalls_copied)
  cases hrun'.symm.trans (trieRun_le (le_max_right N 8) sampleCalls_nocopy)
  refine ⟨max N 8, _, _, hrun, hrun', rfl, halike ?_ ?_⟩
  · simp [NeverExhausted]
  · simp [NeverExhausted]

end RgMemory
