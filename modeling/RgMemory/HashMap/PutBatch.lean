import RgMemory.HashMap.Batch
import RgMemory.HashMap.Placed
import RgMemory.Lib.Windows

/-!
# Batched insert into a hash map

`rgHashMapPutBatchU64` warms the paths of 32 keys with the walk of the lanes, stores nothing in it,
and puts the 32 entries one after the other.

`HashMap.Stores` is a map with the finite map that it holds. A single Put of a 64-bit key updates the
finite map, or fails and leaves it (`HashMap.Stores.putEntry`); a walk before a window ends
(`HashMap.Stores.warm`). So the loop in windows is the loop over the entries.
-/

namespace RgMemory

open Bytes Trie Windows

/-- `RGM_HASH_PUT_WINDOW`. -/
def rgmHashPutWindow : BitVec 32 := 32

/-- The body of the loop over a window: put a key and store its value. -/
def rgmHashMapPutEntry (page : Nat) (os : OsReply) (key value : BitVec 64)
    (x : HashMap × ArenaState) : Except Stop ((HashMap × ArenaState) × Option Status) :=
  match rgHashMapPutU64 page os x.1 x.2 key with
  | .error e => .error e
  | .ok (slot, map, s) =>
    if slot = 0 then .ok ((map, s), some .errNoMemory)
    else .ok ((map, s.setMem (store64 s.mem slot value)), none)

/-- The walk before a window, over the `n` keys from `done` on. -/
def rgmHashMapPutWarm (keys : Nat → BitVec 64) (fuel : Nat) (done n : BitVec 32)
    (x : HashMap × ArenaState) : Except Stop Unit :=
  (rgmHashMapBatchWalk x.1 x.2 (fun j => keys (done.toNat + j)) n.toNat fuel none none).map
    fun _ => ()

/-- Put `count` entries. A null array is `none`; the operating system has an answer for each entry. -/
def rgHashMapPutBatchU64 (page fuel : Nat) (os : Nat → OsReply) (map : HashMap) (s : ArenaState)
    (keys values : Option (Nat → BitVec 64)) (count : BitVec 32) :
    Except Stop ((HashMap × ArenaState) × Status) :=
  if !rgmMapIsLive map s.toArena then .ok ((map, s), .errInvalid)
  else
    match keys, values with
    | some keys, some values =>
      match windows (fun i => rgmHashMapPutEntry page (os i) (keys i) (values i)) Stop.diverge
          (rgmHashMapPutWarm keys fuel) rgmHashPutWindow count fuel fuel 0 (map, s) with
      | .error e => .error e
      | .ok (x, r) => .ok (x, r.getD .ok)
    | _, _ => .ok ((map, s), .errInvalid)

/-! ## The finite map -/

/-- A map on its arena, and what it stores. -/
structure HashMap.Stores (page : Nat) (map : HashMap) (s : ArenaState)
    (m : List Byte → Option (BitVec 64)) : Prop where
  ok : s.Ok page
  live : 0 < s.base
  aligned : 64 ∣ s.base
  rep : ∃ forest, map.Rep s forest ∧
    ∀ key, m key = (nodeOf s.img forest key).map (HashMapNode.value s.img)

/-- The lookups answer from a finite map. -/
def HashMap.Answers (map : HashMap) (s : ArenaState) (m : List Byte → Option (BitVec 64)) : Prop :=
  ∀ key : KeyArg, rgmHashMapValue map s key =
    .ok (if key.refused then none else m key.bytes)

namespace HashMap.Stores

variable {page : Nat} {map : HashMap} {s : ArenaState} {m : List Byte → Option (BitVec 64)}

theorem answers (h : map.Stores page s m) : map.Answers s m := by
  obtain ⟨forest, hrep, hm⟩ := h.rep
  intro key
  rw [hrep.value_eq h.ok h.live, hm]

/-- A write to the value of the node of a key. -/
theorem write (hok : s.Ok page) (hlive : 0 < s.base) (haligned : 64 ∣ s.base)
    {forest : Fin 4096 → Trie 4 (BitVec 32)} (hrep : map.Rep s forest) {key : List Byte}
    {a : BitVec 32} (hfound : nodeOf s.img forest key = some a)
    (hm : ∀ k, k ≠ key → m k = (nodeOf s.img forest k).map (HashMapNode.value s.img))
    (value : BitVec 64) :
    map.Stores page (s.setMem (store64 s.mem (s.valuePtr a) value))
      (Function.update m key (some value)) := by
  obtain ⟨ha, hkey⟩ := mem_of_nodeOf hfound
  have hagree := hrep.store_agree ha value
  refine ⟨hok.withMem _, hlive, haligned, forest, hrep.congr (Nat.le_refl _) hagree, fun k => ?_⟩
  rw [nodeOf_congr fun b hb => (hagree b hb).toNodeBody]
  by_cases hk : k = key
  · subst hk
    rw [Function.update_self, hfound, Option.map_some, store_value_self]
  · rw [Function.update_of_ne hk, hm k hk]
    cases hother : nodeOf s.img forest k with
    | none => simp only [Option.map_none]
    | some b =>
      obtain ⟨hb, hbkey⟩ := mem_of_nodeOf hother
      have hne : a ≠ b := by
        rintro rfl
        exact hk (hbkey.symm.trans hkey)
      rw [Option.map_some, Option.map_some,
        (store_value_apart s value (hrep.apart_of_ne ha hb hne)).2]

variable (hpage : IsPageSize page)

include hpage in
/-- An entry is put, or fails for want of memory and changes no entry. -/
theorem putEntry (h : map.Stores page s m) (os : OsReply) (key value : BitVec 64) :
    ∃ map' s' r, rgmHashMapPutEntry page os key value (map, s) = .ok ((map', s'), r) ∧
      (r = none ∧ map'.Stores page s' (Function.update m (leBytes key) (some value)) ∨
        r = some .errNoMemory ∧ map'.Stores page s' m) := by
  obtain ⟨forest, hrep, hm⟩ := h.rep
  have hlen : (leBytes key).length < 2 ^ 32 := by
    rw [leBytes_length]
    decide
  have hnot : rgmHashMapRefuses map s.toArena ⟨false, leBytes key⟩ = false := by
    rw [hrep.refuses_eq h.live, KeyArg.refused, leBytes_length]
    rfl
  obtain ⟨answer, hput, hcases⟩ := rgmHashMapPut_cases hpage os h.ok h.aligned hrep hlen
  have hputU64 : rgHashMapPutU64 page os map s key = .ok answer := by
    rw [rgHashMapPutU64_eq, rgHashMapPut, hnot]
    exact hput
  rw [rgmHashMapPutEntry, hputU64]
  cases hcases with
  | @hit a found =>
    have hslot : s.valuePtr a ≠ 0 := Nat.succ_ne_zero _
    dsimp only
    rw [if_neg hslot]
    exact ⟨_, _, _, rfl, .inl ⟨rfl, write h.ok h.live h.aligned hrep found (fun k _ => hm k) value⟩⟩
  | @refused s' absent ok kept pos =>
    dsimp only
    rw [if_pos rfl]
    have hagree : ∀ a ∈ listAll forest, NodeAgree s.img s'.img a :=
      fun a ha => kept.nodeAgree hrep ha
    refine ⟨_, _, _, rfl, .inr ⟨rfl, ok, kept.base ▸ h.live, kept.base ▸ h.aligned, forest,
      hrep.congr pos hagree, fun k => ?_⟩⟩
    rw [nodeOf_congr fun a ha => (hagree a ha).toNodeBody, hm k]
    cases hfound : nodeOf s.img forest k with
    | none => simp only [Option.map_none]
    | some a =>
      have hin := (hrep.inside a (mem_of_nodeOf hfound).1).2
      have hsize : HashMapNode.size = 40 := rfl
      refine congrArg some (load64_congr fun i hi => kept.img ?_).symm
      omega
  | @inserted x map' s' absent ins =>
    have hslot : s'.valuePtr x ≠ 0 := Nat.succ_ne_zero _
    dsimp only
    rw [if_neg hslot]
    have hnode := HashMap.Rep.nodeOf_insert ins.fresh ins.published absent
    refine ⟨_, _, _, rfl, .inl ⟨rfl, write ins.ok (ins.base ▸ h.live) (ins.base ▸ h.aligned)
      (hrep.insert ins.fresh ins.published) ((hnode _).trans (if_pos rfl)) (fun k hk => ?_) value⟩⟩
    rw [hnode, if_neg hk, hm k]
    cases hfound : nodeOf s.img forest k with
    | none => simp only [Option.map_none]
    | some a =>
      exact congrArg some (ins.value_eq hrep.stored (mem_of_nodeOf hfound).1).symm

/-- The walk before a window ends. -/
theorem warm (h : map.Stores page s m) (keys : Nat → BitVec 64) (done n : BitVec 32) :
    Settles (fun fuel => rgmHashMapPutWarm keys fuel done n (map, s)) () := by
  obtain ⟨forest, hrep, -⟩ := h.rep
  have hread : map.Readable s forest := ⟨hrep.isLive h.live, hrep.unfolds, hrep.inside⟩
  refine ⟨n.toNat * ((listAll forest).length + 1), fun fuel hfuel => ?_⟩
  dsimp only [rgmHashMapPutWarm]
  rw [rgmHashMapBatchWalk_eq _ hread (depthLe_listAll forest) none none hfuel]
  rfl

include hpage in
/-- **A batched insert puts the entries one after the other**, up to the first for which there is no
memory: it leaves the same map and the same arena, and the finite map has the entries before it. -/
theorem putBatch (h : map.Stores page s m) (os : Nat → OsReply) (keys values : Nat → BitVec 64)
    (count : BitVec 32) :
    ∃ map' s' r, ∃ n ≤ count.toNat,
      Settles (fun fuel => rgHashMapPutBatchU64 page fuel os map s (some keys) (some values) count)
        ((map', s'), r.getD .ok) ∧
      inOrder (fun i => rgmHashMapPutEntry page (os i) (keys i) (values i))
        (List.range count.toNat) (map, s) = .ok ((map', s'), r) ∧
      (r = none ∧ n = count.toNat ∨ r = some .errNoMemory ∧ n < count.toNat) ∧
      map'.Stores page s' (stored (fun j => leBytes (keys j)) values m n) := by
  let P : Nat → HashMap × ArenaState → Prop := fun i x =>
    HashMap.Stores page x.1 x.2 (stored (fun j => leBytes (keys j)) values m i)
  let Q : Nat → Status → HashMap × ArenaState → Prop := fun i e x => e = .errNoMemory ∧ P i x
  have hput : ∀ i < count.toNat, ∀ x, P i x →
      ∃ y, Settles (fun _ => rgmHashMapPutEntry page (os i) (keys i) (values i) x) y ∧
        Entered P Q i y := by
    rintro i - ⟨map, s⟩ hx
    obtain ⟨map', s', r, heq, hcases⟩ := hx.putEntry hpage (os i) (keys i) (values i)
    refine ⟨((map', s'), r), ⟨0, fun _ _ => heq⟩, ?_⟩
    rcases hcases with ⟨rfl, hstores⟩ | ⟨rfl, hstores⟩
    · exact hstores
    · exact ⟨rfl, hstores⟩
  obtain ⟨⟨⟨map', s'⟩, r⟩, hafter, hserial, N, hN⟩ := windows_spec
    (fun _ i => rgmHashMapPutEntry page (os i) (keys i) (values i)) (rgmHashMapPutWarm keys) P Q
    Stop.diverge (show 0 < rgmHashPutWindow by decide)
    (fun done n x hx => HashMap.Stores.warm hx keys done n) hput (s := (map, s)) h
  obtain ⟨M, hM⟩ := hserial
  have hbatch : Settles (fun fuel =>
      rgHashMapPutBatchU64 page fuel os map s (some keys) (some values) count)
      ((map', s'), r.getD .ok) := by
    obtain ⟨forest, hrep, -⟩ := h.rep
    refine ⟨N, fun fuel hfuel => ?_⟩
    have hlive : (!rgmMapIsLive map s.toArena) = false := by rw [hrep.isLive h.live]; rfl
    have hwindows := hN fuel hfuel
    dsimp only at hwindows
    dsimp only [rgHashMapPutBatchU64]
    rw [hlive, if_neg Bool.false_ne_true, hwindows]
  cases r with
  | none =>
    exact ⟨map', s', none, count.toNat, Nat.le_refl _, hbatch, hM M (Nat.le_refl _),
      .inl ⟨rfl, rfl⟩, hafter⟩
  | some e =>
    obtain ⟨n, hn, rfl, hstores⟩ := hafter
    exact ⟨map', s', some .errNoMemory, n, Nat.le_of_lt hn, hbatch, hM M (Nat.le_refl _),
      .inr ⟨rfl, hn⟩, hstores⟩

end HashMap.Stores

end RgMemory
