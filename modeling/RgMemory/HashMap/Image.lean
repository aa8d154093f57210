import Mathlib.Logic.Relation
import RgMemory.HashMap.InUse

/-!
# Using an opened map

The bytes that `rgHashMapOpen` accepts may come from anywhere, and what it checks of them is what a
reader needs: nodes inside the arena, each above its parent. It does not check that nodes are apart
from each other and from the index copy. A map that is opened on such an image is written to as any
other: a client writes values, an upsert fills an empty link, a save copies the index. Where nodes
overlap one of these stores can land in another node.

`use_safe` is about runs in which no store changes what is read of another node. Then every call
returns, having dereferenced nothing but nodes between the sentinel line and the position, and no
write to the value of one key shows at another. Images whose nodes are apart have only such runs
(`apart_use_clear`); `overlapping_image` is one that is accepted and has another.
-/

namespace RgMemory

open Bytes Trie

/-! ## Runs -/

/-- An image has the bytes that are read of the nodes that the map leads to, but for the node `a`. -/
def HashMap.Spares (map : HashMap) (s : ArenaState) (a : BitVec 32) (img' : Mem) : Prop :=
  ∀ b, map.Leads s b → b ≠ a → ∀ y, HashMapNode.Reads s.img b y → img' y = s.img y

/-- An opened map, its arena, and the pointers to values that calls returned, each with the bytes of
its key. -/
structure Holding where
  map : HashMap
  arena : ArenaState
  given : List (List Byte × Nat)

namespace Holding

inductive Call
  | put (os : OsReply) (key : KeyArg)
  | putU64 (os : OsReply) (key : BitVec 64)
  | get (key : KeyArg)
  | forEach
  | save (os : OsReply)
  | write (p : Nat) (v : BitVec 64)

/-- A call that returns, or a write through a pointer that one returned. -/
inductive Step (page : Nat) : Holding → Call → Holding → Prop
  | put {w : Holding} {os : OsReply} {key : KeyArg} {p : Nat} {map' : HashMap} {s' : ArenaState}
      (hput : rgHashMapPut page os w.map w.arena key = .ok (p, map', s')) :
      Step page w (.put os key) ⟨map', s', (key.bytes, p) :: w.given⟩
  | putU64 {w : Holding} {os : OsReply} {key : BitVec 64} {p : Nat} {map' : HashMap}
      {s' : ArenaState} (hput : rgHashMapPutU64 page os w.map w.arena key = .ok (p, map', s')) :
      Step page w (.putU64 os key) ⟨map', s', (leBytes key, p) :: w.given⟩
  | get {w : Holding} {key : KeyArg} {p : Nat} (hget : rgHashMapGet w.map w.arena key = .ok p) :
      Step page w (.get key) ⟨w.map, w.arena, (key.bytes, p) :: w.given⟩
  | forEach {w : Holding} : Step page w .forEach w
  | save {w : Holding} {os : OsReply} {e : Status} {s' : ArenaState}
      (hsave : rgHashMapSave page os w.map w.arena = (e, s')) :
      Step page w (.save os) ⟨w.map, s', w.given⟩
  | write {w : Holding} {key : List Byte} {p : Nat} {v : BitVec 64} (hgiven : (key, p) ∈ w.given)
      (hp : p ≠ 0) :
      Step page w (.write p v) ⟨w.map, w.arena.setMem (store64 w.arena.mem p v), w.given⟩

/-- If an upsert of the key fills a link of a node, with the offset of the node that it creates, the
store changes nothing that is read of another node. -/
def LinkClear (page : Nat) (w : Holding) (os : OsReply) (key : List Byte) : Prop :=
  ∀ a i x s1, rgmHashMapLookup w.map w.arena (bytesProbe key) = .ok (.miss (.child a i)) →
    rgmHashMapNodeCreate page os w.arena (bytesProbe key).hfull key = (some x, s1) →
      w.map.Spares w.arena a (store32 w.arena.img (a.toNat + 4 * i) x)

/-- The call changes nothing that is read of another node: an upsert fills a link, a save copies the
index, a write goes to a value. -/
def Clear (page : Nat) (w : Holding) : Call → Prop
  | .put os key => key.refused = false → w.LinkClear page os key.bytes
  | .putU64 os key => w.LinkClear page os (leBytes key)
  | .get _ => True
  | .forEach => True
  | .save _ => ∀ a, w.map.Leads w.arena a →
      IndexSpares w.map w.arena.img (PersistHeader.indexOffset w.arena.img).toNat a
  | .write p v => ∀ a, w.map.Leads w.arena a → w.arena.valuePtr a = p →
      w.map.Spares w.arena a (store64 w.arena.img (a.toNat + 24) v)

/-- What every state should offer. No call leaves the arena's nodes: a walk or an iteration that
does ends in an error. Each pointer that was returned is still that of a cell in the arena, and a
write through it shows at no other key. -/
structure Safe (page : Nat) (w : Holding) : Prop where
  get : ∀ key, ∃ p, rgHashMapGet w.map w.arena key = .ok p
  put : ∀ os key, ∃ answer, rgHashMapPut page os w.map w.arena key = .ok answer
  putU64 : ∀ os key, ∃ answer, rgHashMapPutU64 page os w.map w.arena key = .ok answer
  forEach : ∀ (σ : Type) (fn : σ → List Byte → BitVec 64 → Bool × σ) (user : σ), ∃ N answer,
    ∀ fuel ≥ N, rgHashMapForEach fn fuel w.map w.arena user = .ok answer
  cell : ∀ key p, (key, p) ∈ w.given → p ≠ 0 →
    w.arena.base + rgmCacheLine ≤ p ∧ p + 8 ≤ w.arena.base + w.arena.pos
  write : ∀ key p v, (key, p) ∈ w.given → p ≠ 0 → w.Clear page (.write p v) → ∀ other : KeyArg,
    other.bytes ≠ key →
      rgHashMapGet w.map (w.arena.setMem (store64 w.arena.mem p v)) other =
        rgHashMapGet w.map w.arena other ∧
      rgmHashMapValue w.map (w.arena.setMem (store64 w.arena.mem p v)) other =
        rgmHashMapValue w.map w.arena other

/-- What a step leaves: nodes keep their bodies and the index copy its place, and at most one node
is new. It lies above the old position. -/
structure ForestGrown (s s' : ArenaState) (forest forest' : Fin 4096 → Trie 4 (BitVec 32)) :
    Prop where
  pos_le : s.pos ≤ s'.pos
  indexOffset : PersistHeader.indexOffset s'.img = PersistHeader.indexOffset s.img
  body : ∀ a ∈ listAll forest, NodeBody s.img s'.img a
  fresh : ∃ x, ∀ a ∈ listAll forest', a ∈ listAll forest ∨ a = x ∧ s.pos ≤ x.toNat

/-- Nothing new. -/
theorem ForestGrown.of_body {s s' : ArenaState} {forest : Fin 4096 → Trie 4 (BitVec 32)}
    (hpos : s.pos ≤ s'.pos)
    (hoff : PersistHeader.indexOffset s'.img = PersistHeader.indexOffset s.img)
    (hbody : ∀ a ∈ listAll forest, NodeBody s.img s'.img a) : ForestGrown s s' forest forest :=
  ⟨hpos, hoff, hbody, 0, fun _ ha => .inl ha⟩

theorem ForestGrown.refl (s : ArenaState) (forest : Fin 4096 → Trie 4 (BitVec 32)) :
    ForestGrown s s forest forest :=
  .of_body (Nat.le_refl _) rfl fun _ _ => ⟨rfl, rfl, rfl⟩

/-- The map can be walked, and every pointer that was returned is that of a node with its key. -/
structure Sound (page : Nat) (w : Holding) (forest : Fin 4096 → Trie 4 (BitVec 32)) : Prop where
  inUse : w.map.InUse page w.arena forest
  given : ∀ key p, (key, p) ∈ w.given → p ≠ 0 →
    ∃ a ∈ listAll forest, p = w.arena.valuePtr a ∧ HashMapNode.keyBytes w.arena.img a = key

section

variable {page : Nat} {w : Holding} {forest : Fin 4096 → Trie 4 (BitVec 32)}

/-- What a clear write changes: the value of its own node. -/
theorem Sound.write (h : w.Sound page forest) {key : List Byte} {p : Nat} {v : BitVec 64}
    (hgiven : (key, p) ∈ w.given) (hp : p ≠ 0) (hclear : w.Clear page (.write p v)) :
    ∃ a ∈ listAll forest, p = w.arena.valuePtr a ∧ HashMapNode.keyBytes w.arena.img a = key ∧
      w.map.InUse page (w.arena.setMem (store64 w.arena.mem p v)) forest ∧
      SameHeader w.arena.img (w.arena.setMem (store64 w.arena.mem p v)).img ∧
      ∀ b ∈ listAll forest,
        NodeBody w.arena.img (w.arena.setMem (store64 w.arena.mem p v)).img b ∧
          (b ≠ a → HashMapNode.value (w.arena.setMem (store64 w.arena.mem p v)).img b =
            HashMapNode.value w.arena.img b) := by
  obtain ⟨a, ha, rfl, hkey⟩ := h.given key p hgiven hp
  have hspares := hclear a (h.inUse.leads_iff.mpr ha) rfl
  exact ⟨a, ha, rfl, hkey, h.inUse.write ha fun b hb => hspares b (h.inUse.leads_iff.mpr hb)⟩

theorem Sound.safe (h : w.Sound page forest) (hpage : IsPageSize page) : w.Safe page := by
  have hput : ∀ os key, ∃ answer, rgHashMapPut page os w.map w.arena key = .ok answer := by
    intro os key
    obtain ⟨answer, hanswer, -⟩ := h.inUse.put_cases hpage os key
    exact ⟨answer, hanswer⟩
  refine ⟨fun key => ⟨_, h.inUse.get_eq key⟩, hput, fun os key => ?_, fun σ fn user => ?_,
    fun key p hgiven hp => ?_, fun key p v hgiven hp hclear other hother => ?_⟩
  · rw [rgHashMapPutU64_eq]
    exact hput os _
  · exact ⟨6 * (listAll forest).length, _, fun fuel hfuel =>
      rgHashMapForEach_eq h.inUse.toReadable hfuel user⟩
  · obtain ⟨a, ha, rfl, -⟩ := h.given key p hgiven hp
    obtain ⟨hlow, hhigh⟩ := h.inUse.inside a ha
    have hsize : HashMapNode.size = 40 := rfl
    unfold ArenaState.valuePtr
    omega
  · obtain ⟨a, ha, rfl, hkey, hinUse, -, hnodes⟩ := h.write hgiven hp hclear
    have hbody := fun b hb => (hnodes b hb).1
    refine ⟨h.inUse.get_congr hinUse.toRising rfl hbody other,
      h.inUse.value_congr hinUse.toRising hbody fun b hb hbkey => (hnodes b hb).2 ?_⟩
    rintro rfl
    exact hother (hbkey.symm.trans hkey)

/-- The link of a clear upsert, in terms of the forest. -/
theorem Sound.seatClear (h : w.Sound page forest) {os : OsReply} {key : List Byte}
    (hlen : key.length < 2 ^ 32) (habsent : foundOf w.arena.img forest key = none)
    (hclear : w.LinkClear page os key) {x : BitVec 32} {s1 : ArenaState}
    (hcreate : rgmHashMapNodeCreate page os w.arena (bytesProbe key).hfull key = (some x, s1)) :
    SeatClear w.arena.img forest (bytesProbe key) x := by
  intro n i hseat b hb hne y hy
  refine hclear n i x s1 ?_ hcreate b (h.inUse.leads_iff.mpr hb) hne y hy
  rw [h.inUse.lookup_eq hlen, habsent, hseat]
  rfl

/-- Pointers that were returned before a step are pointers to nodes with their keys after it. -/
theorem Sound.keep (h : w.Sound page forest) {map' : HashMap} {s' : ArenaState}
    {forest' : Fin 4096 → Trie 4 (BitVec 32)} (hinUse : map'.InUse page s' forest')
    (hbase : s'.base = w.arena.base) (hmem : ∀ a ∈ listAll forest, a ∈ listAll forest')
    (hbody : ∀ a ∈ listAll forest, NodeBody w.arena.img s'.img a) :
    Sound page ⟨map', s', w.given⟩ forest' := by
  refine ⟨hinUse, fun key p hgiven hp => ?_⟩
  obtain ⟨a, ha, rfl, hkey⟩ := h.given key p hgiven hp
  refine ⟨a, hmem a ha, ?_, (hbody a ha).keyBytes.trans hkey⟩
  show w.arena.valuePtr a = s'.valuePtr a
  rw [ArenaState.valuePtr, ArenaState.valuePtr, hbase]

/-- One pointer more. -/
theorem Sound.give (h : w.Sound page forest) {key : List Byte} {p : Nat}
    (hnew : p ≠ 0 → ∃ a ∈ listAll forest, p = w.arena.valuePtr a ∧
      HashMapNode.keyBytes w.arena.img a = key) :
    Sound page ⟨w.map, w.arena, (key, p) :: w.given⟩ forest := by
  refine ⟨h.inUse, fun k q hgiven hq => ?_⟩
  rcases List.mem_cons.mp hgiven with heq | hold
  · cases heq
    exact hnew hq
  · exact h.given k q hold hq

theorem Sound.put (h : w.Sound page forest) (hpage : IsPageSize page) {os : OsReply}
    {key : KeyArg} (hclear : key.refused = false → w.LinkClear page os key.bytes) {p : Nat}
    {map' : HashMap} {s' : ArenaState}
    (hput : rgHashMapPut page os w.map w.arena key = .ok (p, map', s')) :
    ∃ forest', Sound page ⟨map', s', (key.bytes, p) :: w.given⟩ forest' ∧
      ForestGrown w.arena s' forest forest' := by
  obtain ⟨answer, hanswer, hcases⟩ := h.inUse.put_cases hpage os key
  cases hput.symm.trans hanswer
  rcases hcases with ⟨-, heq⟩ | ⟨hr, hcases⟩
  · cases heq
    exact ⟨forest, h.give fun hp => absurd rfl hp, .refl ..⟩
  have hlen := KeyArg.length_lt hr
  have hsent := h.inUse.sentinel
  cases hcases with
  | @hit a ha hkey => exact ⟨forest, h.give fun _ => ⟨a, ha, rfl, hkey⟩, .refl ..⟩
  | full hok hkept hpos =>
    have hbody := fun a ha => (hkept.agree (h.inUse.inside a ha)).toNodeBody
    have hkeep := h.keep (h.inUse.kept hok hkept hpos) hkept.base (fun _ ha => ha) hbody
    have hsame : SameHeader w.arena.img s'.img := .of_line fun y hy => hkept.img (by omega)
    exact ⟨forest, hkeep.give fun hp => absurd rfl hp, .of_body hpos hsame.indexOffset hbody⟩
  | @created x _ s1 _ habsent hcreate hok hkept hx hpub =>
    obtain ⟨hins, hsame, forest', hinUse, hmem⟩ :=
      h.inUse.created (h.seatClear hlen habsent (hclear hr) hcreate) hok hkept hx hpub
    have hkeep := h.keep hinUse hins.base (fun a ha => (hmem a).mpr (.inr ha)) hins.published.body
    refine ⟨forest', hkeep.give fun _ => ⟨x, (hmem x).mpr (.inl rfl), rfl, hins.fresh.keyBytes⟩,
      hins.pos_le, hsame.indexOffset, hins.published.body, x, fun a ha => ?_⟩
    rcases (hmem a).mp ha with rfl | hold
    · exact .inr ⟨rfl, hins.fresh.above⟩
    · exact .inl hold

/-- A clear call keeps the map walkable and the pointers good. -/
theorem Sound.step (h : w.Sound page forest) (hpage : IsPageSize page) {c : Call} {w' : Holding}
    (hclear : w.Clear page c) (hstep : Step page w c w') :
    ∃ forest', w'.Sound page forest' ∧ ForestGrown w.arena w'.arena forest forest' := by
  cases hstep with
  | put hput => exact h.put hpage hclear hput
  | @putU64 os key p map' s' hput =>
    rw [rgHashMapPutU64_eq] at hput
    have hlink : KeyArg.refused ⟨false, leBytes key⟩ = false → w.LinkClear page os (leBytes key) :=
      fun _ => hclear
    exact h.put hpage hlink hput
  | @get key p hget =>
    refine ⟨forest, h.give fun hp => ?_, .refl ..⟩
    rw [h.inUse.get_eq] at hget
    cases hr : key.refused with
    | true =>
      rw [if_pos hr] at hget
      exact absurd (Except.ok.inj hget).symm hp
    | false =>
      rw [hr, if_neg (by decide)] at hget
      cases hfound : foundOf w.arena.img forest key.bytes with
      | none =>
        rw [hfound] at hget
        exact absurd (Except.ok.inj hget).symm hp
      | some a =>
        rw [hfound] at hget
        obtain ⟨ha, hkey⟩ := mem_of_foundOf (KeyArg.length_lt hr) hfound
        exact ⟨a, ha, (Except.ok.inj hget).symm, hkey⟩
  | forEach => exact ⟨forest, h, .refl ..⟩
  | @save os e s' hsave =>
    obtain ⟨s1, hsave1, hinUse, hbase, hpos, hoff, hagree⟩ :=
      h.inUse.save os fun a ha => hclear a (h.inUse.leads_iff.mpr ha)
    cases hsave.symm.trans hsave1
    have hbody := fun a ha => (hagree a ha).toNodeBody
    exact ⟨forest, h.keep hinUse hbase (fun _ ha => ha) hbody,
      .of_body (Nat.le_of_eq hpos.symm) hoff hbody⟩
  | @write key p v hgiven hp =>
    obtain ⟨a, -, -, -, hinUse, hsame, hnodes⟩ := h.write hgiven hp hclear
    have hbody := fun b hb => (hnodes b hb).1
    exact ⟨forest, h.keep hinUse rfl (fun _ ha => ha) hbody,
      .of_body (Nat.le_refl _) hsame.indexOffset hbody⟩

end

/-- A run of calls that change nothing in another node. -/
def ClearRun (page : Nat) : Holding → Holding → Prop :=
  Relation.ReflTransGen fun w w' => ∃ c, w.Clear page c ∧ Step page w c w'

theorem Sound.run {page : Nat} (hpage : IsPageSize page) {w w' : Holding}
    {forest : Fin 4096 → Trie 4 (BitVec 32)} (h : w.Sound page forest)
    (hrun : ClearRun page w w') : ∃ forest', w'.Sound page forest' := by
  induction hrun with
  | refl => exact ⟨forest, h⟩
  | tail _ hstep ih =>
    obtain ⟨forest', h'⟩ := ih
    obtain ⟨c, hclear, hstep⟩ := hstep
    obtain ⟨forest'', h'', -⟩ := h'.step hpage hclear hstep
    exact ⟨forest'', h''⟩

end Holding

/-! ### Nodes that are apart -/

/-- The nodes of a map share no byte with each other, nor with the index copy. -/
structure HashMap.Disjoint (map : HashMap) (s : ArenaState) : Prop where
  nodes : ∀ a b, map.Leads s a → map.Leads s b → a ≠ b → NodesApart s.img a b
  index : ∀ a, map.Leads s a → Apart (PersistHeader.indexOffset s.img).toNat rgmHashMapIndexBytes
    a.toNat (HashMapNode.extent s.img a)

/-- A store inside a node spares all others. -/
theorem HashMap.Disjoint.spares {map : HashMap} {s : ArenaState} (h : map.Disjoint s)
    {a : BitVec 32} (ha : map.Leads s a) {k n v : Nat} (hlow : a.toNat ≤ k)
    (hhigh : k + n ≤ a.toNat + HashMapNode.extent s.img a) :
    map.Spares s a (storeLE n s.img k v) := by
  rintro b hb hne y ⟨hy, hy', -⟩
  refine storeLE_out _ ?_
  have hapart := h.nodes b a hb ha hne
  unfold NodesApart Apart at hapart
  unfold Out
  omega

namespace Holding

section

variable {page : Nat} {w w' : Holding} {forest : Fin 4096 → Trie 4 (BitVec 32)}

/-- Where nodes are apart every call is clear. -/
theorem Sound.clear (h : w.Sound page forest) (hdisjoint : w.map.Disjoint w.arena) {c : Call}
    (hstep : Step page w c w') : w.Clear page c := by
  have hlink : ∀ os (key : List Byte), key.length < 2 ^ 32 → w.LinkClear page os key := by
    intro os key hlen a i x s1 hlookup _
    rw [h.inUse.lookup_eq hlen] at hlookup
    cases hfound : foundOf w.arena.img forest key with
    | some b =>
      rw [hfound] at hlookup
      cases hlookup
    | none =>
      rw [hfound] at hlookup
      cases hseat : seatOf forest (bytesProbe key) with
      | none =>
        rw [hseat] at hlookup
        cases hlookup
      | some link =>
        obtain ⟨n, j⟩ := link
        rw [hseat] at hlookup
        cases hlookup
        have hi := i.isLt
        have hsize : 40 ≤ HashMapNode.extent w.arena.img a := Nat.le_add_right ..
        have ha : a ∈ listAll forest := mem_listAll.mpr ⟨_, seat_mem hseat⟩
        exact hdisjoint.spares (h.inUse.leads_iff.mpr ha) (by omega) (by omega)
  cases hstep with
  | put hput => exact fun hr => hlink _ _ (KeyArg.length_lt hr)
  | @putU64 os key p map' s' hput =>
    refine hlink os (leBytes key) ?_
    rw [leBytes_length]
    decide
  | get hget => trivial
  | forEach => trivial
  | save hsave => exact fun a ha => .of_apart (hdisjoint.index a ha)
  | write hgiven hp =>
    intro a ha _
    have hsize : 40 ≤ HashMapNode.extent w.arena.img a := Nat.le_add_right ..
    exact hdisjoint.spares ha (by omega) (by omega)

/-- And a step leaves them apart. -/
theorem Sound.disjoint (h : w.Sound page forest) (hdisjoint : w.map.Disjoint w.arena)
    {forest' : Fin 4096 → Trie 4 (BitVec 32)} (h' : w'.Sound page forest')
    (hgrown : ForestGrown w.arena w'.arena forest forest') : w'.map.Disjoint w'.arena := by
  obtain ⟨x, hfresh⟩ := hgrown.fresh
  have hcovered := h.inUse.covered
  have hold : ∀ a ∈ listAll forest,
      HashMapNode.extent w'.arena.img a = HashMapNode.extent w.arena.img a ∧
        a.toNat + HashMapNode.extent w.arena.img a ≤ w.arena.pos := by
    intro a ha
    have hin := (h.inUse.inside a ha).2
    refine ⟨(hgrown.body a ha).extent, ?_⟩
    unfold HashMapNode.extent
    omega
  constructor
  · intro a b ha hb hne
    rcases hfresh a (h'.inUse.leads_iff.mp ha) with ha | ⟨rfl, habove⟩
    · obtain ⟨hea, hbelow⟩ := hold a ha
      rcases hfresh b (h'.inUse.leads_iff.mp hb) with hb | ⟨rfl, habove⟩
      · have hapart :=
          hdisjoint.nodes a b (h.inUse.leads_iff.mpr ha) (h.inUse.leads_iff.mpr hb) hne
        unfold NodesApart at hapart ⊢
        rwa [hea, (hold b hb).1]
      · refine .inl ?_
        omega
    · rcases hfresh b (h'.inUse.leads_iff.mp hb) with hb | ⟨rfl, -⟩
      · obtain ⟨heb, hbelow⟩ := hold b hb
        refine .inr ?_
        omega
      · exact absurd rfl hne
  · intro a ha
    rw [hgrown.indexOffset]
    rcases hfresh a (h'.inUse.leads_iff.mp ha) with ha | ⟨rfl, habove⟩
    · rw [(hold a ha).1]
      exact hdisjoint.index a (h.inUse.leads_iff.mpr ha)
    · exact .inl (by omega)

end

end Holding

/-! ### From an open on -/

/-- A map that was just opened: no pointer was returned yet. -/
theorem Holding.Sound.opened {page : Nat} (hline : 64 ∣ page) {s0 s : ArenaState}
    (hok : s0.Ok page) {map0 map : HashMap} (hopen : rgHashMapOpen map0 s0 = (.ok, map, s)) :
    ∃ forest, Holding.Sound page ⟨map, s, []⟩ forest := by
  obtain ⟨forest, h⟩ := (rgHashMapOpen_ok_iff map0 s0).mp (congrArg Prod.fst hopen)
  rw [rgHashMapOpen_eq h] at hopen
  cases hopen
  exact ⟨forest, h.inUse hline hok, fun _ _ hgiven => absurd hgiven List.not_mem_nil⟩

/-- **Using an opened map is safe when no store changes another node.** For every arena that an open
accepts and every run of upserts, lookups, iterations, saves and writes through returned pointers in
which no call changes what is read of another node: in the state that is reached every call returns
without having left the nodes' part of the arena, returned pointers still point into it, and a write
through one that is clear shows at no other key. -/
theorem use_safe {page : Nat} (hpage : IsPageSize page) (hline : 64 ∣ page) {s0 s : ArenaState}
    (hok : s0.Ok page) {map0 map : HashMap} (hopen : rgHashMapOpen map0 s0 = (.ok, map, s))
    {w : Holding} (hrun : Holding.ClearRun page ⟨map, s, []⟩ w) : w.Safe page := by
  obtain ⟨forest, hsound⟩ := Holding.Sound.opened hline hok hopen
  obtain ⟨forest', hsound'⟩ := hsound.run hpage hrun
  exact hsound'.safe hpage

/-- **Images whose nodes are apart are used clearly.** If the nodes of an opened image share no byte
with each other or with the index copy, no call of any run changes another node. -/
theorem apart_use_clear {page : Nat} (hpage : IsPageSize page) (hline : 64 ∣ page)
    {s0 s : ArenaState} (hok : s0.Ok page) {map0 map : HashMap}
    (hopen : rgHashMapOpen map0 s0 = (.ok, map, s)) (hdisjoint : map.Disjoint s) {w : Holding}
    (hrun : Relation.ReflTransGen (fun w w' => ∃ c, Holding.Step page w c w') ⟨map, s, []⟩ w) :
    Holding.ClearRun page ⟨map, s, []⟩ w ∧ ∀ c w', Holding.Step page w c w' → w.Clear page c := by
  obtain ⟨forest0, hsound⟩ := Holding.Sound.opened hline hok hopen
  have hall : Holding.ClearRun page ⟨map, s, []⟩ w ∧
      ∃ forest, w.Sound page forest ∧ w.map.Disjoint w.arena := by
    induction hrun with
    | refl => exact ⟨.refl, forest0, hsound, hdisjoint⟩
    | tail _ hstep ih =>
      obtain ⟨hclears, forest, h, hd⟩ := ih
      obtain ⟨c, hstep⟩ := hstep
      have hclear := h.clear hd hstep
      obtain ⟨forest', h', hgrown⟩ := h.step hpage hclear hstep
      exact ⟨hclears.tail ⟨c, hclear, hstep⟩, forest', h', h.disjoint hd h' hgrown⟩
  obtain ⟨hclears, forest, h, hd⟩ := hall
  exact ⟨hclears, fun c w' hstep => h.clear hd hstep⟩

/-! ## Nodes that overlap -/

/-- The roots of two keys: the node of the empty key at 64, and at 88 a node that no key matches. -/
def overlappingMap : HashMap :=
  ⟨true, Function.update (Function.update (fun _ => 0) (rgmHashMapRoot (bytesProbe []).hfull) 64)
    (rgmHashMapRoot (bytesProbe [108]).hfull) 88⟩

/-- Both nodes have 40 bytes, so the value of the first is two links of the second. -/
def overlappingImage : Mem :=
  let m := rgmHashMapWriteHeader (fun _ => 0) 0 32768 4096
  let m := store64 m (64 + 16) (bytesProbe []).hfull
  copy m 4096 overlappingMap.indexPtr rgmHashMapIndexBytes

/-- The bytes of a file, mapped at an address. -/
def mappedFile (img : Mem) (base size : Nat) : ArenaState :=
  ⟨⟨base, size, size, size, .file⟩, fun x => img (x - base), fun _ => true⟩

theorem mappedFile_img (img : Mem) (base size : Nat) : (mappedFile img base size).img = img :=
  funext fun y => congrArg img (Nat.add_sub_cancel_left base y)

theorem mappedFile_setPos (img : Mem) (base size : Nat) :
    (mappedFile img base size).setPos size = mappedFile img base size := rfl

def overlappingFile : ArenaState := mappedFile overlappingImage 65536 32768

/-- The two nodes, without children. -/
def overlappingForest : Fin 4096 → Trie 4 (BitVec 32) :=
  forestAdd (forestAdd (fun _ => nil) (bytesProbe []) 64) (bytesProbe [108]) 88

theorem overlappingFile_ok : overlappingFile.Ok 4096 :=
  ⟨by decide, fun h => absurd h (by decide), by decide, by decide, by decide, .inl (by decide),
    fun _ _ _ => rfl⟩

theorem overlappingImage_header : (PersistHeader.highWater overlappingImage).toNat = 32768 ∧
    savedIndex overlappingImage = overlappingMap.top := by
  have hoff : (PersistHeader.indexOffset overlappingImage).toNat = 4096 := by decide
  refine ⟨by decide, ?_⟩
  rw [savedIndex, hoff]
  exact indexCopy_copy ..

theorem overlappingForest_perm : (listAll overlappingForest).Perm [88, 64] := by
  refine (listAll_update_perm (toList_add_perm ..)).trans (.cons _ ?_)
  refine (listAll_update_perm (toList_add_perm ..)).trans (.cons _ ?_)
  rw [listAll_nil]

theorem overlappingImage_accepted :
    Accepted overlappingImage 32768 overlappingMap.top overlappingForest := by
  have hroots : rgmHashMapRoot (bytesProbe [108]).hfull ≠ rgmHashMapRoot (bytesProbe []).hfull := by
    decide
  have hlinks : ∀ a : BitVec 32, a = 64 ∨ a = 88 →
      ∀ i : Fin 4, hashMapLinks overlappingImage a i = none := by
    rintro a (rfl | rfl)
    · decide
    · decide
  have hnodes : ∀ a : BitVec 32, a = 64 ∨ a = 88 →
      rgmHashMapNodeOk overlappingImage 32768 0 a = true := by
    rintro a (rfl | rfl)
    · decide
    · decide
  have hsecond : overlappingForest (rgmHashMapRoot (bytesProbe [108]).hfull) =
      node 88 fun _ => nil := by
    rw [overlappingForest, forestAdd, Function.update_self, forestAdd, Function.update_of_ne hroots]
    rfl
  have hfirst : overlappingForest (rgmHashMapRoot (bytesProbe []).hfull) =
      node 64 fun _ => nil := by
    rw [overlappingForest, forestAdd, Function.update_of_ne hroots.symm, forestAdd,
      Function.update_self]
    rfl
  have hnil : ∀ j, j ≠ rgmHashMapRoot (bytesProbe [108]).hfull →
      j ≠ rgmHashMapRoot (bytesProbe []).hfull → overlappingForest j = nil := by
    intro j h2 h1
    rw [overlappingForest, forestAdd, Function.update_of_ne h2, forestAdd,
      Function.update_of_ne h1]
  have htop : overlappingMap.top = Function.update (Function.update (fun _ => 0)
      (rgmHashMapRoot (bytesProbe []).hfull) 64) (rgmHashMapRoot (bytesProbe [108]).hfull) 88 := rfl
  refine ⟨fun j => ?_, fun j => ?_, ?_⟩
  · by_cases h2 : j = rgmHashMapRoot (bytesProbe [108]).hfull
    · rw [h2, hsecond, htop, Function.update_self]
      exact ⟨rfl, hlinks 88 (.inr rfl)⟩
    · by_cases h1 : j = rgmHashMapRoot (bytesProbe []).hfull
      · rw [h1, hfirst, htop, Function.update_of_ne hroots.symm, Function.update_self]
        exact ⟨rfl, hlinks 64 (.inl rfl)⟩
      · rw [hnil j h2 h1, htop, Function.update_of_ne h2, Function.update_of_ne h1]
        rfl
  · by_cases h2 : j = rgmHashMapRoot (bytesProbe [108]).hfull
    · rw [h2, hsecond]
      exact ⟨hnodes 88 (.inr rfl), fun _ => trivial⟩
    · by_cases h1 : j = rgmHashMapRoot (bytesProbe []).hfull
      · rw [h1, hfirst]
        exact ⟨hnodes 64 (.inl rfl), fun _ => trivial⟩
      · rw [hnil j h2 h1]
        trivial
  · rw [overlappingForest_perm.length_eq]
    decide

/-- A file of these bytes, of any size that has room for them, can be opened. -/
theorem overlapping_openable {size : Nat} (hheader : HeaderOk overlappingImage size size) :
    Openable (mappedFile overlappingImage 65536 size) overlappingForest := by
  obtain ⟨hwater, hindex⟩ := overlappingImage_header
  have hcovered := hheader.covered
  have hcap := hheader.cap
  refine ⟨(by decide : 65536 ≠ 0), ?_, ?_, ?_⟩
  · show PersistHeader.size ≤ size
    have hsize : PersistHeader.size = 32 := rfl
    have hbytes : rgmHashMapIndexBytes = 16384 := rfl
    omega
  · rw [mappedFile_img]
    exact hheader
  · rw [mappedFile_img, hwater, hindex]
    exact overlappingImage_accepted

theorem overlapping_open {size : Nat} (hheader : HeaderOk overlappingImage size size) :
    rgHashMapOpen ⟨false, fun _ => 0⟩ (mappedFile overlappingImage 65536 size) =
      (.ok, overlappingMap, (mappedFile overlappingImage 65536 size).setPos 32768) := by
  obtain ⟨hwater, hindex⟩ := overlappingImage_header
  rw [rgHashMapOpen_eq (overlapping_openable hheader), ArenaState.opened, mappedFile_img, hwater,
    hindex]
  rfl

theorem overlappingFile_open :
    rgHashMapOpen ⟨false, fun _ => 0⟩ overlappingFile = (.ok, overlappingMap, overlappingFile) := by
  have hopen := @overlapping_open 32768 (rgmHashMapHeaderOk_iff.mp (by decide))
  rwa [mappedFile_setPos] at hopen

/-- The state after a lookup of the empty key and a write through the pointer that it returned. -/
def overwritten : Holding :=
  ⟨overlappingMap, overlappingFile.setMem (store64 overlappingFile.mem 65624 0xffffffffffffffff),
    [([], 65624)]⟩

/-- A lookup leads nowhere before the write, and outside the arena after it. -/
theorem overlapping_image :
    overlappingFile.Ok 4096 ∧
      rgHashMapOpen ⟨false, fun _ => 0⟩ overlappingFile = (.ok, overlappingMap, overlappingFile) ∧
      Relation.ReflTransGen (fun w w' => ∃ c, Holding.Step 4096 w c w')
        ⟨overlappingMap, overlappingFile, []⟩ overwritten ∧
      rgHashMapGet overlappingMap overlappingFile ⟨false, [108]⟩ = .ok 0 ∧
      rgHashMapGet overwritten.map overwritten.arena ⟨false, [108]⟩ = .error .fault ∧
      ¬ overwritten.Safe 4096 := by
  have hget : rgHashMapGet overlappingMap overlappingFile ⟨false, []⟩ = .ok 65624 := by
    decide
  have hfault : rgHashMapGet overwritten.map overwritten.arena ⟨false, [108]⟩ = .error .fault := by
    decide
  refine ⟨overlappingFile_ok, overlappingFile_open, ?_, by decide, hfault, fun hsafe => ?_⟩
  · refine .tail (.single ⟨.get ⟨false, []⟩, .get hget⟩) ⟨.write 65624 0xffffffffffffffff, ?_⟩
    exact .write (List.mem_singleton.mpr rfl) (by decide)
  · obtain ⟨p, hp⟩ := hsafe.get ⟨false, [108]⟩
    rw [hfault] at hp
    cases hp

/-! ### A run that is clear

The same bytes in a larger file, where an upsert finds room. A write of zero to the value of the
empty key lands in the links of the other node and changes nothing; an upsert fills a link of the
first node that the other one does not have, and a write goes to the value of the new key. -/

def roomyFile : ArenaState := mappedFile overlappingImage 65536 65536

/-- The opened file, after a lookup of the empty key. -/
def roomyHeld : Holding := ⟨overlappingMap, roomyFile.setPos 32768, [([], 65624)]⟩

def roomyWritten : Holding :=
  ⟨roomyHeld.map, roomyHeld.arena.setMem (store64 roomyHeld.arena.mem 65624 0), roomyHeld.given⟩

def roomyAdded : Nat × HashMap × ArenaState :=
  match rgHashMapPut 4096 sampleOs roomyWritten.map roomyWritten.arena ⟨false, [64, 149]⟩ with
  | .ok answer => answer
  | .error _ => (0, roomyWritten.map, roomyWritten.arena)

def roomyPut : Holding :=
  ⟨roomyAdded.2.1, roomyAdded.2.2, ([64, 149], roomyAdded.1) :: roomyWritten.given⟩

def roomyUsed : Holding :=
  ⟨roomyPut.map, roomyPut.arena.setMem (store64 roomyPut.arena.mem roomyAdded.1 7), roomyPut.given⟩

theorem roomyFile_ok : roomyFile.Ok 4096 :=
  ⟨by decide, fun h => absurd h (by decide), by decide, by decide, by decide, .inl (by decide),
    fun _ _ _ => rfl⟩

theorem roomyFile_open : rgHashMapOpen ⟨false, fun _ => 0⟩ roomyFile =
    (.ok, overlappingMap, roomyFile.setPos 32768) :=
  overlapping_open (rgmHashMapHeaderOk_iff.mp (by decide))

/-- The links of the second node are zero, and stay so. -/
theorem overlappingImage_store : store64 overlappingImage 88 0 = overlappingImage := by
  have hzero : ∀ k, k < 8 → overlappingImage (88 + k) = 0 := by decide
  funext y
  rw [store64, storeLE]
  split
  · next hin =>
    obtain ⟨k, rfl⟩ := Nat.exists_eq_add_of_le hin.1
    rw [hzero k (by omega)]
    simp
  · rfl

theorem roomyHeld_img : roomyHeld.arena.img = overlappingImage := by
  show (roomyFile.setPos 32768).img = overlappingImage
  rw [setPos_img, roomyFile, mappedFile_img]

theorem roomyWritten_img : roomyWritten.arena.img = overlappingImage := by
  have hptr : roomyHeld.arena.valuePtr 64 = 65624 := rfl
  show (roomyHeld.arena.setMem (store64 roomyHeld.arena.mem 65624 0)).img = overlappingImage
  rw [← hptr, store_value_img, roomyHeld_img]
  exact overlappingImage_store

theorem roomyHeld_clear : roomyHeld.Clear 4096 (.write 65624 0) := by
  intro a _ hptr b _ _ y _
  have ha : a.toNat + 24 = 88 := by
    have hbase : roomyHeld.arena.base = 65536 := rfl
    unfold ArenaState.valuePtr at hptr
    omega
  rw [ha, roomyHeld_img, overlappingImage_store]

theorem roomyWritten_clear : roomyWritten.Clear 4096 (.put sampleOs ⟨false, [64, 149]⟩) := by
  intro _ a i x s1 hmiss _ b hb hne y hy
  have hseat : (match rgmHashMapLookup roomyWritten.map roomyWritten.arena (bytesProbe [64, 149])
      with | .ok (.miss (.child a i)) => some (a, i) | _ => none) = some (64, 3) := by
    decide
  rw [hmiss] at hseat
  cases hseat
  have hsecond : b = 88 := by
    have hunf : ∀ i, Unfolds (hashMapLinks roomyWritten.arena.img) (overlappingForest i)
        (slotLink (overlappingMap.top i)) := by
      rw [roomyWritten_img]
      exact overlappingImage_accepted.unfolds
    have hmem := overlappingForest_perm.mem_iff.mp ((HashMap.leads_iff hunf).mp hb)
    rcases List.mem_cons.mp hmem with h | h
    · exact h
    · exact absurd (List.mem_singleton.mp h) hne
  subst hsecond
  have hlow := hy.1
  exact storeLE_out _ (.inr (Nat.le_trans (by decide) hlow))

theorem roomyWritten_run :
    Holding.ClearRun 4096 ⟨overlappingMap, roomyFile.setPos 32768, []⟩ roomyWritten := by
  have hget : rgHashMapGet overlappingMap (roomyFile.setPos 32768) ⟨false, []⟩ = .ok 65624 := by
    decide
  have hheld : Holding.ClearRun 4096 ⟨overlappingMap, roomyFile.setPos 32768, []⟩ roomyHeld :=
    .single ⟨.get ⟨false, []⟩, trivial, .get hget⟩
  exact hheld.tail ⟨.write 65624 0, roomyHeld_clear, .write (List.mem_singleton.mpr rfl) (by decide)⟩

theorem roomyWritten_sound : ∃ forest, roomyWritten.Sound 4096 forest := by
  obtain ⟨forest, h⟩ := Holding.Sound.opened (by decide) roomyFile_ok roomyFile_open
  exact h.run samplePage roomyWritten_run

theorem roomyWritten_put : rgHashMapPut 4096 sampleOs roomyWritten.map roomyWritten.arena
    ⟨false, [64, 149]⟩ = .ok roomyAdded := by
  obtain ⟨forest, h⟩ := roomyWritten_sound
  obtain ⟨answer, hput, -⟩ := h.inUse.put_cases samplePage sampleOs ⟨false, [64, 149]⟩
  rw [roomyAdded, hput]

/-- The new node lies above the others. -/
theorem roomyPut_clear : roomyPut.Clear 4096 (.write roomyAdded.1 7) := by
  intro a ha hptr b hb hne y hy
  have hat : a.toNat = 32768 := by
    have hbase : roomyPut.arena.base = 65536 := by decide
    have hcell : roomyAdded.1 = 98328 := by decide
    rw [ArenaState.valuePtr, hbase, hcell] at hptr
    omega
  obtain ⟨forest, h⟩ := roomyWritten_sound
  have hstep : Holding.Step 4096 roomyWritten (.put sampleOs ⟨false, [64, 149]⟩) roomyPut :=
    .put roomyWritten_put
  obtain ⟨forest', h', hgrown⟩ := h.step samplePage roomyWritten_clear hstep
  have hbelow : ∀ c ∈ listAll forest,
      c.toNat + HashMapNode.extent roomyPut.arena.img c ≤ 32768 := by
    intro c hc
    have hin := (h.inUse.inside c hc).2
    rw [(hgrown.body c hc).extent, HashMapNode.extent, ← Nat.add_assoc]
    exact hin
  obtain ⟨x, hfresh⟩ := hgrown.fresh
  have hax : a = x := by
    rcases hfresh a (h'.inUse.leads_iff.mp ha) with hold | ⟨heq, -⟩
    · have hsize : 40 ≤ HashMapNode.extent roomyPut.arena.img a := Nat.le_add_right ..
      have hend := hbelow a hold
      omega
    · exact heq
  rcases hfresh b (h'.inUse.leads_iff.mp hb) with hold | ⟨heq, -⟩
  · have hend := hbelow b hold
    have hread := hy.2.1
    exact storeLE_out _ (.inl (by omega))
  · exact absurd (heq.trans hax.symm) hne

/-- The run ends safely, with the value that was written last. -/
theorem overlapping_use_safe : roomyUsed.Safe 4096 ∧
    rgmHashMapValue roomyUsed.map roomyUsed.arena ⟨false, [64, 149]⟩ = .ok (some 7) := by
  have hput : Holding.ClearRun 4096 ⟨overlappingMap, roomyFile.setPos 32768, []⟩ roomyPut :=
    roomyWritten_run.tail ⟨.put sampleOs ⟨false, [64, 149]⟩, roomyWritten_clear,
      .put roomyWritten_put⟩
  have hgiven : ([64, 149], roomyAdded.1) ∈ roomyPut.given := List.mem_cons_self
  exact ⟨use_safe samplePage (by decide) roomyFile_ok roomyFile_open
    (hput.tail ⟨.write roomyAdded.1 7, roomyPut_clear, .write hgiven (by decide)⟩),
    by decide⟩

end RgMemory
