import RgMemory.Lib.Visit
import RgMemory.HashMap.Put

/-!
# A map on an arena

`HashMap.Placed` is what upserts and writes to values keep, wherever the map was initialised: the
relation of `HashMap.Rep`, and links that lead from lower to higher offsets. It says nothing of the
bytes outside the nodes, which need not be the map's.

It is what the answers depend on. `Placed.get_eq` and `Placed.value_eq` say what a lookup finds, and
`Placed.put_cases` what an upsert can do.
-/

namespace RgMemory

open Bytes Trie

/-- The arguments that are refused whatever the map. -/
def KeyArg.refused (key : KeyArg) : Bool :=
  (key.null && key.bytes.length ≠ 0) || key.bytes.length > 2 ^ 32 - 1

theorem KeyArg.length_lt {key : KeyArg} (h : key.refused = false) : key.bytes.length < 2 ^ 32 := by
  unfold KeyArg.refused at h
  simp only [Bool.or_eq_false_iff, decide_eq_false_iff_not] at h
  omega

/-- What a lookup says of a key: nothing, or the value in its cell. -/
def rgmHashMapValue (map : HashMap) (s : ArenaState) (key : KeyArg) :
    Except Stop (Option (BitVec 64)) :=
  match rgHashMapGet map s key with
  | .error e => .error e
  | .ok p => .ok (if p = 0 then none else some (load64 s.mem p))

namespace HashMap.Rep

variable {page : Nat} {map : HashMap} {s : ArenaState} {forest : Fin 4096 → Trie 4 (BitVec 32)}

theorem isLive (h : map.Rep s forest) (hlive : 0 < s.base) :
    rgmMapIsLive map s.toArena = true := by
  have hne : s.base ≠ 0 := Nat.ne_of_gt hlive
  unfold rgmMapIsLive
  rw [h.bound]
  simpa using hne

theorem refuses_eq (h : map.Rep s forest) (hlive : 0 < s.base) (key : KeyArg) :
    rgmHashMapRefuses map s.toArena key = key.refused := by
  rw [rgmHashMapRefuses, h.isLive hlive]
  rfl

/-- `Get` answers the node of the key. -/
theorem get_eq (h : map.Rep s forest) (hs : s.Ok page) (hlive : 0 < s.base) (key : KeyArg) :
    rgHashMapGet map s key = .ok (if key.refused then 0 else
      match nodeOf s.img forest key.bytes with
      | some a => s.valuePtr a
      | none => 0) := by
  rw [rgHashMapGet, h.refuses_eq hlive]
  cases hr : key.refused with
  | true => rfl
  | false => exact rgmHashMapGet_eq hs h (KeyArg.length_lt hr)

/-- The value of a key, by its node. -/
theorem value_eq (h : map.Rep s forest) (hs : s.Ok page) (hlive : 0 < s.base) (key : KeyArg) :
    rgmHashMapValue map s key = .ok (if key.refused then none else
      (nodeOf s.img forest key.bytes).map (HashMapNode.value s.img)) := by
  rw [rgmHashMapValue, h.get_eq hs hlive key]
  cases hr : key.refused with
  | true => simp
  | false =>
    cases nodeOf s.img forest key.bytes with
    | none => simp
    | some a =>
      have hp : s.valuePtr a ≠ 0 := Nat.succ_ne_zero _
      simp [hp, load_valuePtr]

end HashMap.Rep

/-- A link leads to a higher offset. -/
def Rises (a b : BitVec 32) : Prop := a.toNat < b.toNat

/-- A map that `Put` built on an arena. -/
structure HashMap.Placed (page : Nat) (map : HashMap) (s : ArenaState)
    (forest : Fin 4096 → Trie 4 (BitVec 32)) : Prop where
  ok : s.Ok page
  live : 0 < s.base
  aligned : 64 ∣ s.base
  rep : map.Rep s forest
  rising : ∀ i, Descends Rises 0 (forest i)

namespace HashMap.Placed

variable {page : Nat} {map : HashMap} {s : ArenaState} {forest : Fin 4096 → Trie 4 (BitVec 32)}

theorem pos_lt (h : map.Placed page s forest) : s.pos < 2 ^ 64 := by
  have := h.ok.fits
  have := h.ok.pos_le
  have := h.ok.committed_le
  have := h.live
  omega

theorem isLive (h : map.Placed page s forest) : rgmMapIsLive map s.toArena = true :=
  h.rep.isLive h.live

theorem used_eq (h : map.Placed page s forest) : rgArenaUsed s.toArena = s.pos :=
  if_pos (decide_eq_true (Nat.ne_of_gt h.live))

theorem refuses_eq (h : map.Placed page s forest) (key : KeyArg) :
    rgmHashMapRefuses map s.toArena key = key.refused :=
  h.rep.refuses_eq h.live key

/-! ## Lookups -/

theorem get_eq (h : map.Placed page s forest) (key : KeyArg) :
    rgHashMapGet map s key = .ok (if key.refused then 0 else
      match nodeOf s.img forest key.bytes with
      | some a => s.valuePtr a
      | none => 0) :=
  h.rep.get_eq h.ok h.live key

theorem value_eq (h : map.Placed page s forest) (key : KeyArg) :
    rgmHashMapValue map s key = .ok (if key.refused then none else
      (nodeOf s.img forest key.bytes).map (HashMapNode.value s.img)) :=
  h.rep.value_eq h.ok h.live key

/-- Maps with the same nodes have the same values. -/
theorem value_congr (h : map.Placed page s forest) {map' : HashMap} {s' : ArenaState}
    (h' : map'.Placed page s' forest)
    (hagree : ∀ a ∈ listAll forest, NodeAgree s.img s'.img a)
    (hvalue : ∀ a ∈ listAll forest, HashMapNode.value s'.img a = HashMapNode.value s.img a)
    (key : KeyArg) : rgmHashMapValue map' s' key = rgmHashMapValue map s key := by
  rw [h.value_eq, h'.value_eq, nodeOf_congr fun a ha => (hagree a ha).toNodeBody]
  cases hfound : nodeOf s.img forest key.bytes with
  | none => simp only [Option.map_none]
  | some a =>
    have hv := hvalue a (mem_listAll.mpr ⟨_, (find_mem hfound).1⟩)
    simp only [Option.map_some, hv]

/-- A pointer that `Get` answers is the one to the value of the node of its key. -/
theorem get_node (h : map.Placed page s forest) {key : KeyArg} {p : Nat}
    (hget : rgHashMapGet map s key = .ok p) (hp : p ≠ 0) :
    key.refused = false ∧ ∃ a, nodeOf s.img forest key.bytes = some a ∧ a ∈ listAll forest ∧
      p = s.valuePtr a := by
  rw [h.get_eq key] at hget
  cases hr : key.refused with
  | true =>
    rw [hr] at hget
    exact absurd (Except.ok.inj hget).symm hp
  | false =>
    rw [hr] at hget
    cases hfound : nodeOf s.img forest key.bytes with
    | none =>
      rw [hfound] at hget
      exact absurd (Except.ok.inj hget).symm hp
    | some a =>
      rw [hfound] at hget
      exact ⟨rfl, a, rfl, mem_listAll.mpr ⟨_, (find_mem hfound).1⟩, (Except.ok.inj hget).symm⟩

/-- `Get` finds a key exactly when there is a node for it. -/
theorem get_ne_zero_iff (h : map.Placed page s forest) (key : KeyArg) :
    rgHashMapGet map s key ≠ .ok 0 ↔
      key.refused = false ∧ nodeOf s.img forest key.bytes ≠ none := by
  rw [h.get_eq key]
  cases key.refused with
  | true => simp
  | false =>
    cases nodeOf s.img forest key.bytes with
    | none => simp
    | some a =>
      have hp : s.valuePtr a ≠ 0 := Nat.succ_ne_zero _
      simp [hp]

/-! ## What keeps a map placed -/

/-- A change that spares the nodes. -/
theorem congr (h : map.Placed page s forest) {s' : ArenaState} (hok : s'.Ok page)
    (hlive : 0 < s'.base) (haligned : 64 ∣ s'.base) (hpos : s.pos ≤ s'.pos)
    (hagree : ∀ a ∈ listAll forest, NodeAgree s.img s'.img a) : map.Placed page s' forest :=
  ⟨hok, hlive, haligned, h.rep.congr hpos hagree, h.rising⟩

/-- What is below the position of a refused upsert stays. -/
theorem kept (h : map.Placed page s forest) {s' : ArenaState} (hok : s'.Ok page)
    (hkept : Kept s s') (hpos : s.pos ≤ s'.pos) : map.Placed page s' forest :=
  h.congr hok (hkept.base ▸ h.live) (hkept.base ▸ h.aligned) hpos fun _ ha =>
    hkept.nodeAgree h.rep ha

/-- An upsert that adds a key: the fresh node lies above all others. -/
theorem inserted (h : map.Placed page s forest) {map' : HashMap} {s' : ArenaState}
    {key : List Byte} {x : BitVec 32} (hins : Inserted page map map' s s' forest key x) :
    map'.Placed page s' (forestAdd forest (bytesProbe key) x) := by
  have hbase := hins.base
  have habove := hins.fresh.above
  have hsent := h.rep.sentinel
  refine ⟨hins.ok, hbase ▸ h.live, hbase ▸ h.aligned, h.rep.insert hins.fresh hins.published,
    fun i => ?_⟩
  have hrise : ∀ a ∈ listAll forest, Rises a x := fun a ha => by
    have hin := (h.rep.inside a ha).2
    have hn : HashMapNode.size = 40 := rfl
    unfold Rises
    omega
  have hzero : Rises 0 x := by
    have hz : (0 : BitVec 32).toNat = 0 := rfl
    unfold Rises
    omega
  by_cases hi : i = rgmHashMapRoot (bytesProbe key).hfull
  · subst hi
    rw [forestAdd, Function.update_self]
    exact (h.rising _).add hzero fun a ha => hrise a (mem_listAll.mpr ⟨_, ha⟩)
  · rw [forestAdd, Function.update_of_ne hi]
    exact h.rising i

/-- A write to the value of a node leaves all nodes as they were, but for that value. -/
theorem store_agree (h : map.Placed page s forest) {a : BitVec 32} (ha : a ∈ listAll forest)
    (v : BitVec 64) :
    ∀ b ∈ listAll forest, NodeAgree s.img (s.setMem (store64 s.mem (s.valuePtr a) v)).img b :=
  h.rep.store_agree ha v

/-- A write through a value pointer. -/
theorem write (h : map.Placed page s forest) {a : BitVec 32} (ha : a ∈ listAll forest)
    (v : BitVec 64) : map.Placed page (s.setMem (store64 s.mem (s.valuePtr a) v)) forest :=
  h.congr (h.ok.withMem _) h.live h.aligned (Nat.le_refl _) (h.store_agree ha v)

/-! ## Upserts -/

/-- An upsert refuses its arguments, or has one of three outcomes. -/
theorem put_cases (h : map.Placed page s forest) (hpage : IsPageSize page) (os : OsReply)
    (key : KeyArg) : ∃ answer, rgHashMapPut page os map s key = .ok answer ∧
      (key.refused = true ∧ answer = (0, map, s) ∨
        key.refused = false ∧ PutOutcome page map s forest key.bytes answer) := by
  rw [rgHashMapPut, h.refuses_eq]
  cases hr : key.refused with
  | true => exact ⟨_, rfl, .inl ⟨rfl, rfl⟩⟩
  | false =>
    obtain ⟨answer, hput, hcases⟩ :=
      rgmHashMapPut_cases hpage os h.ok h.aligned h.rep (KeyArg.length_lt hr)
    exact ⟨answer, hput, .inr ⟨rfl, hcases⟩⟩

/-- The only key that can be found since an upsert is its own. -/
theorem put_new (h : map.Placed page s forest) (hpage : IsPageSize page) {os : OsReply}
    {key : KeyArg} {p : Nat} {map' : HashMap} {s' : ArenaState}
    (hput : rgHashMapPut page os map s key = .ok (p, map', s')) {other : KeyArg}
    (hnone : rgHashMapGet map s other = .ok 0) (hsome : rgHashMapGet map' s' other ≠ .ok 0) :
    other.bytes = key.bytes := by
  obtain ⟨answer, heq, hcases⟩ := h.put_cases hpage os key
  cases hput.symm.trans heq
  rcases hcases with ⟨-, heq⟩ | ⟨-, hcases⟩
  · cases heq
    exact absurd hnone hsome
  cases hcases with
  | hit found => exact absurd hnone hsome
  | @refused s' absent ok kept pos =>
    obtain ⟨hr, hfound⟩ := ((h.kept ok kept pos).get_ne_zero_iff other).mp hsome
    rw [nodeOf_congr fun a ha => (kept.nodeAgree h.rep ha).toNodeBody] at hfound
    exact absurd hnone ((h.get_ne_zero_iff other).mpr ⟨hr, hfound⟩)
  | @inserted x map' s' absent ins =>
    obtain ⟨hr, hfound⟩ := ((h.inserted ins).get_ne_zero_iff other).mp hsome
    rw [HashMap.Rep.nodeOf_insert ins.fresh ins.published absent] at hfound
    by_contra hne
    rw [if_neg hne] at hfound
    exact (h.get_ne_zero_iff other).mpr ⟨hr, hfound⟩ hnone

/-- No key is found or missed because of a write to a value. -/
theorem write_get (h : map.Placed page s forest) {a : BitVec 32} (ha : a ∈ listAll forest)
    (v : BitVec 64) (key : KeyArg) :
    rgHashMapGet map (s.setMem (store64 s.mem (s.valuePtr a) v)) key = rgHashMapGet map s key := by
  rw [(h.write ha v).get_eq, h.get_eq,
    nodeOf_congr fun b hb => (h.store_agree ha v b hb).toNodeBody]
  rfl

end HashMap.Placed

end RgMemory
