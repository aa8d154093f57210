import Mathlib.Logic.Relation
import RgMemory.HashMap.Save

/-!
# Saving and reopening, any number of times

A session is a map on an arena of its own; between sessions its bytes are saved, mapped anew
somewhere else and opened. The law is `save_open_round_trip`: in every session that is reached, what
a save leaves can be opened, gives for every key what the saved map gave, and what is added later
lies above everything that was saved.
-/

namespace RgMemory

open Bytes Trie

/-- A map and its arena. -/
structure Session where
  map : HashMap
  arena : ArenaState

namespace Session

/-- A session that starts with `Init` on a fresh arena. -/
structure Fresh (page : Nat) (w : Session) : Prop where
  init : ∃ os map0 s0, s0.Ok page ∧ 0 < s0.base ∧ s0.pos = 0 ∧
    rgHashMapInit page os map0 s0 = (.ok, w.map, w.arena)

/-- What a client does to the map: an upsert, or a write through a value pointer. -/
inductive Use (page : Nat) : Session → Session → Prop
  | put {w : Session} {os : OsReply} {key : KeyArg} {p : Nat} {map' : HashMap} {s' : ArenaState}
      (hput : rgHashMapPut page os w.map w.arena key = .ok (p, map', s')) : Use page w ⟨map', s'⟩
  | putU64 {w : Session} {os : OsReply} {key : BitVec 64} {p : Nat} {map' : HashMap}
      {s' : ArenaState} (hput : rgHashMapPutU64 page os w.map w.arena key = .ok (p, map', s')) :
      Use page w ⟨map', s'⟩
  | write {w : Session} {key : KeyArg} {p : Nat} {v : BitVec 64}
      (hget : rgHashMapGet w.map w.arena key = .ok p) (hp : p ≠ 0) :
      Use page w ⟨w.map, w.arena.setMem (store64 w.arena.mem p v)⟩

/-- A step: a use of the map, a successful save, or a successful save with an open of the bytes that
it left. -/
inductive Step (page : Nat) : Session → Session → Prop
  | use {w w' : Session} (huse : Use page w w') : Step page w w'
  | save {w : Session} {os : OsReply} {s' : ArenaState}
      (hsave : rgHashMapSave page os w.map w.arena = (.ok, s')) : Step page w ⟨w.map, s'⟩
  | reopen {w : Session} {os : OsReply} {map0 map' : HashMap} {s1 s2 s3 : ArenaState}
      (hsave : rgHashMapSave page os w.map w.arena = (.ok, s1))
      (hdepth : w.map.DepthLe w.arena rgmHashMapValidateMaxDepth) (hmap : Mapped page s1 s2)
      (hopen : rgHashMapOpen map0 s2 = (.ok, map', s3)) : Step page w ⟨map', s3⟩

end Session

/-! ## The calls on a built map -/

namespace HashMap.Built

variable {page : Nat} {map : HashMap} {s : ArenaState} {forest : Fin 4096 → Trie 4 (BitVec 32)}

section

variable (hpage : IsPageSize page) (os : OsReply)

include hpage in
/-- An upsert keeps a map built; the node of a new key lies above the position. -/
theorem put (h : map.Built page s forest) (key : KeyArg) :
    ∃ p map' s', rgHashMapPut page os map s key = .ok (p, map', s') ∧
      (∃ forest', map'.Built page s' forest') ∧
      (rgHashMapGet map s key = .ok 0 → p ≠ 0 →
        s.base + s.pos + 24 ≤ p ∧ p + 16 + key.bytes.length = s'.base + s'.pos) := by
  obtain ⟨answer, hput, hcases⟩ := h.placed.put_cases hpage os key
  rw [hput]
  rcases hcases with ⟨-, rfl⟩ | ⟨hr, hcases⟩
  · exact ⟨0, map, s, rfl, ⟨forest, h⟩, fun _ hp => absurd rfl hp⟩
  cases hcases with
  | @hit a found =>
    refine ⟨_, _, _, rfl, ⟨forest, h⟩, fun hget _ => ?_⟩
    rw [h.placed.get_eq key, hr, found] at hget
    exact absurd (Except.ok.inj hget) (Nat.succ_ne_zero _)
  | @refused s' absent ok kept pos =>
    exact ⟨_, _, _, rfl, ⟨forest, h.kept ok kept pos⟩, fun _ hp => absurd rfl hp⟩
  | @inserted x map' s' absent ins =>
    refine ⟨_, _, _, rfl, ⟨_, h.inserted ins⟩, fun _ _ => ?_⟩
    have habove := ins.fresh.above
    have hbelow := ins.fresh.below
    have hbase := ins.base
    have hsize : HashMapNode.size = 40 := rfl
    unfold ArenaState.valuePtr
    omega

end

/-- A write through a value pointer keeps a map built. -/
theorem write (h : map.Built page s forest) {a : BitVec 32} (ha : a ∈ listAll forest)
    (v : BitVec 64) : map.Built page (s.setMem (store64 s.mem (s.valuePtr a) v)) forest := by
  have hlow := (h.rep.inside a ha).1
  exact h.congr (h.ok.withMem _) h.live h.aligned (Nat.le_refl _)
    (fun y hy => store_value_out s v (.inl (by omega))) (h.placed.store_agree ha v)

end HashMap.Built

/-! ## Runs -/

/-- `Init` on a fresh arena gives up its first cache line. -/
theorem rgHashMapInit_fresh {page : Nat} (hpage : IsPageSize page) (hline : 64 ∣ page)
    {os : OsReply} {map0 map : HashMap} {s0 s : ArenaState} (hok : s0.Ok page)
    (hlive : 0 < s0.base) (hpos : s0.pos = 0)
    (hinit : rgHashMapInit page os map0 s0 = (.ok, map, s)) :
    map.Built page s fun _ => nil := by
  have hl : rgmArenaIsLive s0.toArena = true := decide_eq_true (Nat.ne_of_gt hlive)
  have hused : rgArenaUsed s0.toArena = 0 := (if_pos hl).trans hpos
  have hbase64 : 64 ∣ s0.base := Nat.dvd_trans hline hok.base_page
  unfold rgHashMapInit at hinit
  rw [if_neg (Nat.ne_of_gt hlive), hused] at hinit
  dsimp only at hinit
  rw [if_pos rfl] at hinit
  rcases rgArenaAllocAligned_cases hpage os hok (by decide : rgmCacheLine < 2 ^ 64)
    (by decide : rgmCacheLine < 2 ^ 64) with hnull | ⟨p, s1, hgot, hg⟩
  · rw [hnull] at hinit
    cases hinit
  · rw [hgot] at hinit
    have habove := hg.above
    have hnear : p < s0.base + s0.pos + 64 := hg.near
    have hend := hg.pos
    have hbase := hg.grown.base
    have halign : 64 ∣ p := hg.aligned
    have hp : p ≠ 0 := by omega
    have hcl : rgmCacheLine = 64 := rfl
    simp only [hp, if_false, Prod.mk.injEq, true_and] at hinit
    obtain ⟨rfl, rfl⟩ := hinit
    -- the block is the first line of the arena
    have hpb : p = s1.base := by
      obtain ⟨q, hq⟩ := halign
      obtain ⟨r, hr⟩ := hbase64
      omega
    have hpos1 : s1.pos = 64 := by omega
    refine ⟨hg.ok.withMem _, hbase ▸ hlive, hbase ▸ hbase64, Nat.le_of_eq hpos1.symm,
      HashMap.Rep.empty (by show 0 < s1.pos; omega), fun _ => trivial, fun hmagic => ?_⟩
    have hzero : PersistHeader.magic
        (s1.setMem (copy s1.mem p (fun _ => 0) rgmCacheLine)).img = load64 (fun _ => 0) 0 := by
      refine load64_congr fun k hk => ?_
      show copy s1.mem p (fun _ => 0) rgmCacheLine (s1.base + (0 + k)) = 0
      rw [hpb, copy_in _ _ (by omega)]
    have habs : load64 (fun _ => 0) 0 = rgmHashMapMagic := hzero.symm.trans hmagic
    exact absurd habs (by decide)

namespace Session

variable {page : Nat}

theorem Fresh.built (hpage : IsPageSize page) (hline : 64 ∣ page) {w : Session}
    (h : w.Fresh page) : w.map.Built page w.arena fun _ => nil := by
  obtain ⟨os, map0, s0, hok, hlive, hpos, hinit⟩ := h.init
  exact rgHashMapInit_fresh hpage hline hok hlive hpos hinit

/-- What a use does to a map that is placed: nothing, an allocation that came to nothing, a new key,
or a write to the value of a node. -/
inductive Did (page : Nat) (w : Session) (forest : Fin 4096 → Trie 4 (BitVec 32)) : Session → Prop
  | same : Did page w forest w
  | kept {s' : ArenaState} (ok : s'.Ok page) (kept : Kept w.arena s') (pos : w.arena.pos ≤ s'.pos) :
      Did page w forest ⟨w.map, s'⟩
  | inserted {key : List Byte} {x : BitVec 32} {map' : HashMap} {s' : ArenaState}
      (len : key.length < 2 ^ 32) (absent : nodeOf w.arena.img forest key = none)
      (ins : Inserted page w.map map' w.arena s' forest key x) : Did page w forest ⟨map', s'⟩
  | wrote {a : BitVec 32} (mem : a ∈ listAll forest) (v : BitVec 64) :
      Did page w forest ⟨w.map, w.arena.setMem (store64 w.arena.mem (w.arena.valuePtr a) v)⟩

theorem Did.of_put (hpage : IsPageSize page) {w : Session}
    {forest : Fin 4096 → Trie 4 (BitVec 32)} (h : w.map.Placed page w.arena forest) {os : OsReply}
    {key : KeyArg} {p : Nat} {map' : HashMap} {s' : ArenaState}
    (hput : rgHashMapPut page os w.map w.arena key = .ok (p, map', s')) :
    Did page w forest ⟨map', s'⟩ := by
  obtain ⟨answer, heq, hcases⟩ := h.put_cases hpage os key
  cases hput.symm.trans heq
  rcases hcases with ⟨-, heq⟩ | ⟨hr, hcases⟩
  · cases heq
    exact .same
  · cases hcases with
    | hit found => exact .same
    | refused absent ok kept pos => exact .kept ok kept pos
    | inserted absent ins => exact .inserted (KeyArg.length_lt hr) absent ins

theorem Use.did (hpage : IsPageSize page) {w w' : Session}
    {forest : Fin 4096 → Trie 4 (BitVec 32)} (h : w.map.Placed page w.arena forest)
    (huse : Use page w w') : Did page w forest w' := by
  cases huse with
  | put hput => exact .of_put hpage h hput
  | putU64 hput =>
    rw [rgHashMapPutU64_eq] at hput
    exact .of_put hpage h hput
  | write hget hp =>
    obtain ⟨-, a, -, ha, rfl⟩ := h.get_node hget hp
    exact .wrote ha _

/-- Every use keeps the map built, and each of its nodes where the walk for its key ends. -/
theorem Use.built (hpage : IsPageSize page) {w w' : Session}
    {forest : Fin 4096 → Trie 4 (BitVec 32)} (h : w.map.Built page w.arena forest)
    (hseated : Seated w.arena.img forest) (huse : Use page w w') :
    ∃ forest', w'.map.Built page w'.arena forest' ∧ Seated w'.arena.img forest' := by
  cases huse.did hpage h.placed with
  | same => exact ⟨forest, h, hseated⟩
  | kept ok kept pos =>
    exact ⟨forest, h.kept ok kept pos,
      hseated.congr fun a ha => (kept.nodeAgree h.rep ha).toNodeBody⟩
  | inserted _ absent ins => exact ⟨_, h.inserted ins, hseated.inserted absent ins⟩
  | wrote ha v =>
    exact ⟨forest, h.write ha v,
      hseated.congr fun b hb => (h.placed.store_agree ha v b hb).toNodeBody⟩

/-- So does every step. -/
theorem Step.built (hpage : IsPageSize page) (hline : 64 ∣ page) {w w' : Session}
    {forest : Fin 4096 → Trie 4 (BitVec 32)} (h : w.map.Built page w.arena forest)
    (hseated : Seated w.arena.img forest) (hstep : Step page w w') :
    ∃ forest', w'.map.Built page w'.arena forest' ∧ Seated w'.arena.img forest' := by
  cases hstep with
  | use huse => exact huse.built hpage h hseated
  | @save os s' hsave =>
    have hsaved := h.saved hpage hsave
    exact ⟨forest, hsaved.built, hsaved.seated hseated⟩
  | @reopen os map0 map' s1 s2 s3 hsave hdepth hmap hopen =>
    have hsaved := h.saved hpage hsave
    obtain ⟨hreopen, hbuilt⟩ := hsaved.reopened hline (h.rep.depthLe_iff.mp hdepth) hmap map0
    cases hopen.symm.trans hreopen
    have hmapped := (hsaved.mapped hmap).2.2.2
    refine ⟨forest, hbuilt, ?_⟩
    rw [setPos_img]
    exact (hsaved.seated hseated).congr fun a ha => (hmapped a ha).toNodeBody

theorem built_of_run (hpage : IsPageSize page) (hline : 64 ∣ page) {w0 w : Session}
    (hfresh : w0.Fresh page) (hrun : Relation.ReflTransGen (Step page) w0 w) :
    ∃ forest, w.map.Built page w.arena forest ∧ Seated w.arena.img forest := by
  induction hrun with
  | refl => exact ⟨_, hfresh.built hpage hline, .nil _⟩
  | tail _ hstep ih =>
    obtain ⟨forest, h, hseated⟩ := ih
    exact hstep.built hpage hline h hseated

end Session

/-- **The round trip of a save and an open**, in every session that a run reaches. What a save
leaves is accepted wherever it is mapped; the position is restored, and every key is found or missed
as before, with its value. What an upsert adds lies above the position; the header, the nodes of the
map and the index copy lie below it. -/
theorem save_open_round_trip {page : Nat} (hpage : IsPageSize page) (hline : 64 ∣ page)
    {w0 w : Session} (hfresh : w0.Fresh page)
    (hrun : Relation.ReflTransGen (Session.Step page) w0 w) :
    (∀ os s1, rgHashMapSave page os w.map w.arena = (.ok, s1) →
        w.map.DepthLe w.arena rgmHashMapValidateMaxDepth → ∀ s2, Mapped page s1 s2 → ∀ map0,
        ∃ map' s3, rgHashMapOpen map0 s2 = (.ok, map', s3) ∧ s3.pos = s1.pos ∧
          ∀ key, ∃ v, rgmHashMapValue map' s3 key = .ok v ∧
            rgmHashMapValue w.map s1 key = .ok v ∧ rgmHashMapValue w.map w.arena key = .ok v) ∧
      (∀ os key, ∃ p map' s', rgHashMapPut page os w.map w.arena key = .ok (p, map', s') ∧
        (rgHashMapGet w.map w.arena key = .ok 0 → p ≠ 0 →
          w.arena.base + w.arena.pos + 24 ≤ p ∧
            p + 16 + key.bytes.length = s'.base + s'.pos)) ∧
      PersistHeader.size ≤ w.arena.pos ∧
      (∀ a, w.map.Leads w.arena a →
        a.toNat + HashMapNode.extent w.arena.img a ≤ w.arena.pos) ∧
      (PersistHeader.magic w.arena.img = rgmHashMapMagic →
        rgmCacheLine ≤ (PersistHeader.indexOffset w.arena.img).toNat ∧
          (PersistHeader.indexOffset w.arena.img).toNat + rgmHashMapIndexBytes ≤
            (PersistHeader.highWater w.arena.img).toNat ∧
          (PersistHeader.highWater w.arena.img).toNat ≤ w.arena.pos) := by
  obtain ⟨forest, h, -⟩ := Session.built_of_run hpage hline hfresh hrun
  refine ⟨fun os s1 hsave hdepth s2 hmap map0 => ?_, fun os key => ?_, ?_, fun a ha => ?_,
    fun hmagic => ?_⟩
  · have hsaved := h.saved hpage hsave
    obtain ⟨hreopen, hbuilt⟩ := hsaved.reopened hline (h.rep.depthLe_iff.mp hdepth) hmap map0
    refine ⟨_, _, hreopen, setPos_pos .., fun key => ?_⟩
    have hin : ∀ a ∈ listAll forest, ∀ y, a.toNat ≤ y →
        y < a.toNat + HashMapNode.extent s1.img a → (s2.setPos s1.pos).img y = s1.img y := by
      intro a ha y _ hy
      have hhigh := (hsaved.built.rep.inside a ha).2
      refine hmap.bytes y ?_
      unfold HashMapNode.extent at hy
      omega
    have hvalue := hsaved.built.placed.value_congr hbuilt.placed
      (fun a ha => .of_bytes fun y hy hy' _ => hin a ha y hy hy')
      (fun a ha => load64_congr fun k hk => by
        have hsize : 40 ≤ HashMapNode.extent s1.img a := Nat.le_add_right ..
        exact hin a ha _ (by omega) (by omega)) key
    have hvalue' := h.placed.value_congr hsaved.built.placed hsaved.agree hsaved.value key
    have hv := h.placed.value_eq key
    exact ⟨_, hvalue.trans (hvalue'.trans hv), hvalue'.trans hv, hv⟩
  · obtain ⟨p, map', s', hput, -, hnew⟩ := h.put hpage os key
    exact ⟨p, map', s', hput, hnew⟩
  · exact Nat.le_trans (by decide) h.sentinel
  · have hin := (h.rep.inside a ((HashMap.leads_iff h.rep.unfolds).mp ha)).2
    unfold HashMapNode.extent
    omega
  · have hregion := h.region hmagic
    exact ⟨hregion.above, hregion.covered, hregion.below⟩

/-- A session on the sample arena. -/
def sampleSession : Session :=
  match rgHashMapInit 4096 sampleOs ⟨false, fun _ => 0⟩ sampleArena with
  | (_, map, s) => ⟨map, s⟩

/-- An upsert there: the pointer that it answers and the session after it. -/
def sampleUpsert (w : Session) (key : List Byte) : Nat × Session :=
  match rgHashMapPut 4096 sampleOs w.map w.arena ⟨false, key⟩ with
  | .ok (p, map, s) => (p, ⟨map, s⟩)
  | .error _ => (0, w)

def sampleSession' : Session := (sampleUpsert sampleSession [107]).2

/-- A second key with the root of the first, and a third with another. -/
def sampleSecond : Nat × Session := sampleUpsert sampleSession' [41, 8]

def sampleThird : Nat × Session := sampleUpsert sampleSecond.2 [5]

/-- The session of three keys, after a write to the value of the second. -/
def sampleFilled : Session :=
  ⟨sampleThird.2.map,
    sampleThird.2.arena.setMem (store64 sampleThird.2.arena.mem sampleSecond.1 7)⟩

theorem sampleSession_init : rgHashMapInit 4096 sampleOs ⟨false, fun _ => 0⟩ sampleArena =
    (.ok, sampleSession.map, sampleSession.arena) :=
  Prod.ext (by decide) rfl

theorem sampleSession_fresh : sampleSession.Fresh 4096 :=
  ⟨sampleOs, _, sampleArena, sampleArena_ok, by decide, rfl, sampleSession_init⟩

theorem samplePage : IsPageSize 4096 := ⟨12, by decide, rfl⟩

theorem sampleUpsert_eq {w : Session} {forest : Fin 4096 → Trie 4 (BitVec 32)}
    (h : w.map.Placed 4096 w.arena forest) (key : List Byte) :
    rgHashMapPut 4096 sampleOs w.map w.arena ⟨false, key⟩ =
      .ok ((sampleUpsert w key).1, (sampleUpsert w key).2.map, (sampleUpsert w key).2.arena) := by
  obtain ⟨⟨p, map', s'⟩, hput, -⟩ := h.put_cases samplePage sampleOs ⟨false, key⟩
  rw [sampleUpsert, hput]

theorem sampleUpsert_use {w : Session} {forest : Fin 4096 → Trie 4 (BitVec 32)}
    (h : w.map.Placed 4096 w.arena forest) (key : List Byte) :
    Session.Use 4096 w (sampleUpsert w key).2 := .put (sampleUpsert_eq h key)

theorem sampleSession_use : Session.Use 4096 sampleSession sampleSession' :=
  sampleUpsert_use (sampleSession_fresh.built samplePage (by decide)).placed _

theorem sampleSession_step : Session.Step 4096 sampleSession sampleSession' :=
  .use sampleSession_use

theorem sampleSession_built :
    ∃ forest, sampleSession'.map.Built 4096 sampleSession'.arena forest := by
  obtain ⟨forest, h, -⟩ :=
    Session.built_of_run samplePage (by decide) sampleSession_fresh (.single sampleSession_step)
  exact ⟨forest, h⟩

theorem sampleSession_depth :
    sampleSession'.map.DepthLe sampleSession'.arena rgmHashMapValidateMaxDepth := by
  obtain ⟨forest, h⟩ := sampleSession_built
  have hroom : sampleSession'.arena.pos / HashMapNode.size ≤ rgmHashMapValidateMaxDepth := by
    decide
  exact h.rep.depthLe_of_pos hroom

theorem sampleSession_saves : rgHashMapSave 4096 sampleOs sampleSession'.map sampleSession'.arena =
    (.ok, (rgHashMapSave 4096 sampleOs sampleSession'.map sampleSession'.arena).2) :=
  Prod.ext (by decide) rfl

/-- The session's bytes after a save, mapped somewhere else. -/
def sampleFile : ArenaState :=
  (rgHashMapSave 4096 sampleOs sampleSession'.map sampleSession'.arena).2.mappedAt 131072 65536

theorem sampleFile_mapped : Mapped 4096
    (rgHashMapSave 4096 sampleOs sampleSession'.map sampleSession'.arena).2 sampleFile :=
  ArenaState.mapped_mappedAt (by decide) (by decide) (by decide) (by decide)

theorem sampleFilled_run :
    Relation.ReflTransGen (Session.Step 4096) sampleSession sampleFilled := by
  have hbuilt := fun {w : Session} => @Session.built_of_run 4096 samplePage (by decide) _ w
    sampleSession_fresh
  have hfirst : Relation.ReflTransGen (Session.Step 4096) sampleSession sampleSession' :=
    .single sampleSession_step
  obtain ⟨_, h1, -⟩ := hbuilt hfirst
  have hsecond := hfirst.tail (.use (sampleUpsert_use h1.placed [41, 8]))
  obtain ⟨_, h2, -⟩ := hbuilt hsecond
  have hthird := hsecond.tail (.use (sampleUpsert_use h2.placed [5]))
  have hget : rgHashMapGet sampleThird.2.map sampleThird.2.arena ⟨false, [41, 8]⟩ =
      .ok sampleSecond.1 := by decide
  exact hthird.tail (.use (.write hget (by decide)))

theorem sampleFilled_saves : rgHashMapSave 4096 sampleOs sampleFilled.map sampleFilled.arena =
    (.ok, (rgHashMapSave 4096 sampleOs sampleFilled.map sampleFilled.arena).2) :=
  Prod.ext (by decide) rfl

theorem sampleFilled_depth :
    sampleFilled.map.DepthLe sampleFilled.arena rgmHashMapValidateMaxDepth := by
  obtain ⟨forest, h, -⟩ :=
    Session.built_of_run samplePage (by decide) sampleSession_fresh sampleFilled_run
  have hroom : sampleFilled.arena.pos / HashMapNode.size ≤ rgmHashMapValidateMaxDepth := by
    decide
  exact h.rep.depthLe_of_pos hroom

def sampleFilledFile : ArenaState :=
  (rgHashMapSave 4096 sampleOs sampleFilled.map sampleFilled.arena).2.mappedAt 131072 65536

theorem sampleFilledFile_mapped : Mapped 4096
    (rgHashMapSave 4096 sampleOs sampleFilled.map sampleFilled.arena).2 sampleFilledFile :=
  ArenaState.mapped_mappedAt (by decide) (by decide) (by decide) (by decide)

/-- The three keys come back with their values, and no other. -/
theorem sampleSession_round_trip :
    ∃ map' s', rgHashMapOpen ⟨false, fun _ => 0⟩ sampleFilledFile = (.ok, map', s') ∧
      rgmHashMapValue map' s' ⟨false, [107]⟩ = .ok (some 0) ∧
      rgmHashMapValue map' s' ⟨false, [41, 8]⟩ = .ok (some 7) ∧
      rgmHashMapValue map' s' ⟨false, [5]⟩ = .ok (some 0) ∧
      rgmHashMapValue map' s' ⟨false, [6]⟩ = .ok none := by
  obtain ⟨map', s', hopen, -, hvalue⟩ := (save_open_round_trip samplePage (by decide)
    sampleSession_fresh sampleFilled_run).1 sampleOs _ sampleFilled_saves sampleFilled_depth
      sampleFilledFile sampleFilledFile_mapped ⟨false, fun _ => 0⟩
  have hsame : ∀ key, rgmHashMapValue map' s' key =
      rgmHashMapValue sampleFilled.map sampleFilled.arena key := by
    intro key
    obtain ⟨v, hv, -, hbefore⟩ := hvalue key
    exact hv.trans hbefore.symm
  refine ⟨map', s', hopen, ?_, ?_, ?_, ?_⟩
  all_goals
    rw [hsame]
    decide

theorem sampleFile_openable : ∃ forest, Openable sampleFile forest := by
  obtain ⟨forest, h⟩ := sampleSession_built
  have hsaved := h.saved samplePage sampleSession_saves
  exact ⟨forest, (hsaved.openable (h.rep.depthLe_iff.mp sampleSession_depth)
    sampleFile_mapped).1⟩

end RgMemory
