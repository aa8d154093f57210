import RgMemory.HashMap.Run
import RgMemory.HashMap.Session

/-!
# An upsert that fails

A `Put` that answers 0 adds nothing. When the offset of the new node does not fit 32 bits the node
has been allocated by then, and is given back up to its alignment padding: the position moves to the
next cache line, and since it lies on one afterwards it moves no further (`Skipped.trans`). In all
other cases the arena is as it was.

`HashMap.Reached` collects the maps that a client can hold: those of an arena that several maps and
other allocations share, and those that are saved and opened again. The law of the module is
`failed_put_adds_nothing`.
-/

namespace RgMemory

open Bytes Trie

/-- What a failed upsert does to the arena: the bytes below the position stay, and the position moves
at most to the next cache line. -/
structure Skipped (page : Nat) (s s' : ArenaState) : Prop where
  ok : s'.Ok page
  kept : Kept s s'
  pos : s'.pos = s.pos ∨ 64 ∣ s'.base + s'.pos ∧ s.pos ≤ s'.pos ∧ s'.pos < s.pos + 64

namespace Skipped

variable {page : Nat} {s s' s'' : ArenaState}

theorem refl (hs : s.Ok page) : Skipped page s s := ⟨hs, .refl s, .inl rfl⟩

theorem pos_le (h : Skipped page s s') : s.pos ≤ s'.pos := by
  rcases h.pos with heq | ⟨-, hle, -⟩
  · exact Nat.le_of_eq heq.symm
  · exact hle

theorem pos_lt (h : Skipped page s s') : s'.pos < s.pos + 64 := by
  rcases h.pos with heq | ⟨-, -, hlt⟩
  · omega
  · exact hlt

/-- From one cache line a skip leads nowhere, so that two skips together are one. -/
theorem trans (h : Skipped page s s') (h' : Skipped page s' s'') : Skipped page s s'' := by
  have hbase := h.kept.base
  have hbase' := h'.kept.base
  have hle := h.pos_le
  refine ⟨h'.ok, ⟨hbase'.trans hbase, h'.kept.reserved.trans h.kept.reserved, fun x hx hx' => ?_⟩,
    ?_⟩
  · rw [h'.kept.mem x (by omega) (by omega), h.kept.mem x hx hx']
  · rcases h'.pos with heq' | ⟨hline', hle', hlt'⟩
    · rw [heq', hbase']
      exact h.pos
    · rcases h.pos with heq | ⟨hline, -, hlt⟩
      · exact .inr ⟨hline', by omega, by omega⟩
      · -- both ends lie on a line, less than a line apart
        have hsame : s''.pos = s'.pos := by
          rw [hbase'] at hline'
          omega
        exact .inr ⟨hline', by omega, by omega⟩

end Skipped

section

variable {page : Nat} (hpage : IsPageSize page)

include hpage

theorem rgmHashMapNodeCreate_skipped {os : OsReply} {s s' : ArenaState} (hs : s.Ok page)
    {hash : BitVec 64} {key : List Byte} (hlen : key.length < 2 ^ 32)
    (h : rgmHashMapNodeCreate page os s hash key = (none, s')) : Skipped page s s' := by
  have hsize : HashMapNode.size = 40 := rfl
  have htotal : HashMapNode.size + key.length < 2 ^ 64 := by omega
  unfold rgmHashMapNodeCreate at h
  dsimp only at h
  rcases rgArenaAllocAligned_cases hpage os hs htotal (by decide : rgmCacheLine < 2 ^ 64) with
    hnull | ⟨p, s1, hok, hg⟩
  · rw [hnull] at h
    cases h
    exact .refl hs
  have hkept := hg.kept hs
  have hbase := hkept.base
  have habove := hg.above
  have hnear : p < s.base + s.pos + 64 := hg.near
  have hline : 64 ∣ p := hg.aligned
  have hend := hg.pos
  have hlive := hg.live
  have hp : p ≠ 0 := by omega
  rw [hok] at h
  simp only [hp, if_false] at h
  split at h
  · -- the node is given back, its padding is not
    rw [hg.pop] at h
    cases h
    refine ⟨hg.ok.rewound (Nat.sub_le ..), ⟨hkept.base, hkept.reserved, hkept.mem⟩, .inr ?_⟩
    have hback : s1.base + (s1.pos - (HashMapNode.size + key.length)) = p := by omega
    refine ⟨?_, ?_, ?_⟩
    · show 64 ∣ s1.base + (s1.pos - (HashMapNode.size + key.length))
      rwa [hback]
    · show s.pos ≤ s1.pos - (HashMapNode.size + key.length)
      omega
    · show s1.pos - (HashMapNode.size + key.length) < s.pos + 64
      omega
  · cases h

/-- A `Put` that answers 0, whatever the map: the map stays, and the arena is skipped over at
most. -/
theorem rgHashMapPut_failed {os : OsReply} {map map' : HashMap} {s s' : ArenaState}
    (hs : s.Ok page) {key : KeyArg} (h : rgHashMapPut page os map s key = .ok (0, map', s')) :
    map' = map ∧ Skipped page s s' := by
  unfold rgHashMapPut at h
  split at h
  · cases h
    exact ⟨rfl, .refl hs⟩
  next hrefuses =>
  have hlen := length_lt_of_not_refused (Bool.eq_false_iff.mpr hrefuses)
  unfold rgmHashMapPut at h
  split at h
  · cases h
  · -- the pointer to a value is never 0
    next a _ =>
    have hp : s.valuePtr a = 0 := congrArg Prod.fst (Except.ok.inj h)
    exact absurd hp (Nat.succ_ne_zero _)
  next slot _ =>
  split at h
  · next hnone =>
    cases h
    exact ⟨rfl, rgmHashMapNodeCreate_skipped hpage hs hlen hnone⟩
  · next x s1 _ =>
    have hp : (slot.publish map s1 x).2.valuePtr x = 0 := congrArg Prod.fst (Except.ok.inj h)
    exact absurd hp (Nat.succ_ne_zero _)

end

/-- An upsert of either kind that answers 0. -/
def FailedPut (page : Nat) (map : HashMap) (s : ArenaState) (map' : HashMap) (s' : ArenaState) :
    Prop :=
  ∃ os, (∃ key, rgHashMapPut page os map s key = .ok (0, map', s')) ∨
    ∃ key, rgHashMapPutU64 page os map s key = .ok (0, map', s')

theorem FailedPut.skipped {page : Nat} (hpage : IsPageSize page) {map map' : HashMap}
    {s s' : ArenaState} (hs : s.Ok page) (h : FailedPut page map s map' s') :
    map' = map ∧ Skipped page s s' := by
  obtain ⟨os, ⟨key, hput⟩ | ⟨key, hput⟩⟩ := h
  · exact rgHashMapPut_failed hpage hs hput
  · rw [rgHashMapPutU64_eq] at hput
    exact rgHashMapPut_failed hpage hs hput

/-! ## What a client sees afterwards -/

/-- A call that adds nothing: a lookup, or a write through the pointer that a lookup answers. -/
inductive LaterCall
  | get (key : KeyArg)
  | getU64 (key : BitVec 64)
  | write (key : KeyArg) (v : BitVec 64)

def LaterCall.key : LaterCall → KeyArg
  | get key => key
  | getU64 key => ⟨false, leBytes key⟩
  | write key _ => key

def LaterCall.lookup (map : HashMap) (s : ArenaState) : LaterCall → Except Stop Nat
  | get key => rgHashMapGet map s key
  | getU64 key => rgHashMapGetU64 map s key
  | write key _ => rgHashMapGet map s key

def LaterCall.effect (s : ArenaState) (p : Nat) : LaterCall → ArenaState
  | write _ v => if p = 0 then s else s.setMem (store64 s.mem p v)
  | _ => s

/-- The pointers that a sequence of such calls answers, with the values behind them. -/
def HashMap.answers (map : HashMap) (s : ArenaState) :
    List LaterCall → Except Stop (List (Nat × Option (BitVec 64)))
  | [] => .ok []
  | c :: rest =>
    match c.lookup map s with
    | .error e => .error e
    | .ok p =>
      match map.answers (c.effect s p) rest with
      | .error e => .error e
      | .ok later => .ok ((p, if p = 0 then none else some (load64 s.mem p)) :: later)

theorem LaterCall.lookup_eq (map : HashMap) (s : ArenaState) (c : LaterCall) :
    c.lookup map s = rgHashMapGet map s c.key := by
  cases c with
  | get key => rfl
  | getU64 key => exact rgHashMapGetU64_eq ..
  | write key v => rfl

section

variable {page : Nat} {map : HashMap} {s s' : ArenaState}
  {forest : Fin 4096 → Trie 4 (BitVec 32)}

/-- A lookup answers 0, or the pointer to the value of a node of the map. -/
theorem HashMap.Rep.get_cases (h : map.Rep s forest) (hs : s.Ok page) (key : KeyArg) :
    rgHashMapGet map s key = .ok 0 ∨
      ∃ a ∈ listAll forest, rgHashMapGet map s key = .ok (s.valuePtr a) := by
  unfold rgHashMapGet
  split
  · exact .inl rfl
  next hrefuses =>
  have hlen := length_lt_of_not_refused (Bool.eq_false_iff.mpr hrefuses)
  rw [rgmHashMapGet_eq hs h hlen]
  cases hfound : nodeOf s.img forest key.bytes with
  | none => exact .inl rfl
  | some a => exact .inr ⟨a, mem_listAll.mpr ⟨_, (find_mem hfound).1⟩, rfl⟩

/-- A lookup sees nothing but the nodes and the base. -/
theorem HashMap.Rep.get_kept (h : map.Rep s forest) (hs : s.Ok page) (hs' : s'.Ok page)
    (hkept : Kept s s') (hpos : s.pos ≤ s'.pos) (key : KeyArg) :
    rgHashMapGet map s' key = rgHashMapGet map s key := by
  have hagree : ∀ a ∈ listAll forest, NodeAgree s.img s'.img a := fun a ha => hkept.nodeAgree h ha
  have hrefuses : rgmHashMapRefuses map s'.toArena key = rgmHashMapRefuses map s.toArena key := by
    unfold rgmHashMapRefuses rgmMapIsLive
    rw [hkept.base]
  unfold rgHashMapGet
  rw [hrefuses]
  split
  · rfl
  next hr =>
  have hlen := length_lt_of_not_refused (Bool.eq_false_iff.mpr hr)
  rw [rgmHashMapGet_eq hs h hlen, rgmHashMapGet_eq hs' (h.congr hpos hagree) hlen,
    nodeOf_congr fun a ha => (hagree a ha).toNodeBody]
  unfold ArenaState.valuePtr
  rw [hkept.base]

/-- Nor does any sequence of lookups and writes to values, by induction on the calls: the same write
on both sides keeps the bytes below the position alike. -/
theorem HashMap.Rep.answers_kept (h : map.Rep s forest) (hs : s.Ok page) (hs' : s'.Ok page)
    (hkept : Kept s s') (hpos : s.pos ≤ s'.pos) (calls : List LaterCall) :
    map.answers s' calls = map.answers s calls := by
  induction calls generalizing s s' with
  | nil => rfl
  | cons c rest ih =>
    rw [HashMap.answers, HashMap.answers, c.lookup_eq, c.lookup_eq, h.get_kept hs hs' hkept hpos]
    rcases h.get_cases hs c.key with hzero | ⟨a, ha, hget⟩
    · have heffect : ∀ s : ArenaState, c.effect s 0 = s := by
        intro s
        cases c with
        | get key => rfl
        | getU64 key => rfl
        | write key v =>
          unfold LaterCall.effect
          exact if_pos rfl
      rw [hzero]
      simp only [heffect, ih h hs hs' hkept hpos, if_true]
    · have hin := (h.inside a ha).2
      have hsize : HashMapNode.size = 40 := rfl
      have hp : s.valuePtr a ≠ 0 := Nat.succ_ne_zero _
      have hload : load64 s'.mem (s.valuePtr a) = load64 s.mem (s.valuePtr a) :=
        load64_congr fun k hk => hkept.mem _ (by unfold ArenaState.valuePtr; omega)
          (by unfold ArenaState.valuePtr; omega)
      have hrest : map.answers (c.effect s' (s.valuePtr a)) rest =
          map.answers (c.effect s (s.valuePtr a)) rest := by
        cases c with
        | get key => exact ih h hs hs' hkept hpos
        | getU64 key => exact ih h hs hs' hkept hpos
        | write key v =>
          unfold LaterCall.effect
          dsimp only
          rw [if_neg hp, if_neg hp]
          refine ih (h.congr (Nat.le_refl _) (h.store_agree ha v)) (hs.withMem _) (hs'.withMem _)
            ⟨hkept.base, hkept.reserved, fun x hx hx' => ?_⟩ hpos
          show storeLE 8 s'.mem _ _ x = storeLE 8 s.mem _ _ x
          unfold storeLE
          rw [hkept.mem x hx hx']
      rw [hget]
      dsimp only
      rw [hrest, hload]

end

/-! ## The maps of a client -/

/-- A map that a client can hold, with its arena: one of several on an arena that they share with
other allocations, or one that is saved and opened again. -/
inductive HashMap.Reached (page : Nat) : HashMap → ArenaState → Prop
  | shared {ι : Type} [DecidableEq ι] {arena : ArenaState} {maps : ι → HashMap}
      {events : List (MapEvent ι)} {w : World ι} {i : ι} (ok : arena.Ok page)
      (live : 0 < arena.base) (aligned : 64 ∣ arena.base)
      (run : (World.start arena maps).run page events = .ok w)
      (ready : w.client.ready i = true) : Reached page (w.maps i) w.arena
  | session {w0 w : Session} (fresh : w0.Fresh page)
      (run : Relation.ReflTransGen (Session.Step page) w0 w) : Reached page w.map w.arena

/-- Every such map has its forest, and each node is where the walk for its key ends. -/
theorem HashMap.Reached.rep {page : Nat} (hpage : IsPageSize page) (hline : 64 ∣ page)
    {map : HashMap} {s : ArenaState} (h : map.Reached page s) :
    s.Ok page ∧ 0 < s.base ∧ ∃ forest, map.Rep s forest ∧ Seated s.img forest := by
  cases h with
  | @shared ι inst arena maps events w i hok hlive haligned hrun hready =>
    obtain ⟨w', hrun', forests, hsound⟩ :=
      (World.Sound.start hok hlive haligned maps).run hpage events
    cases hrun.symm.trans hrun'
    exact ⟨hsound.ok, hsound.live, forests i, hsound.rep i hready, hsound.seated i⟩
  | session hfresh hrun =>
    obtain ⟨forest, hbuilt, hseated⟩ := Session.built_of_run hpage hline hfresh hrun
    exact ⟨hbuilt.ok, hbuilt.live, forest, hbuilt.rep, hseated⟩

/-- **A failed upsert adds nothing.** For every map that a client can hold: after a `Put` that
answers 0 the index and every byte below the position are as they were, the position is not below
its old value, and every later lookup, with any writes to values in between, answers what it would
have answered without the call. However many upserts fail in a row, of this map or of others on the
arena, the position moves by less than a cache line in all. -/
theorem failed_put_adds_nothing {page : Nat} (hpage : IsPageSize page) (hline : 64 ∣ page)
    {map : HashMap} {s : ArenaState} (hreach : map.Reached page s) :
    (∀ map' s', FailedPut page map s map' s' →
      map' = map ∧ s'.base = s.base ∧ (∀ y, y < s.pos → s'.img y = s.img y) ∧ s.pos ≤ s'.pos ∧
        ∀ calls, map'.answers s' calls = map.answers s calls) ∧
    ∀ s', Relation.ReflTransGen (fun s s' => ∃ map map', FailedPut page map s map' s') s s' →
      s'.pos < s.pos + 64 := by
  obtain ⟨hok, -, forest, hrep, -⟩ := hreach.rep hpage hline
  refine ⟨fun map' s' hfail => ?_, fun s' hfails => ?_⟩
  · obtain ⟨rfl, hskip⟩ := hfail.skipped hpage hok
    exact ⟨rfl, hskip.kept.base, fun y hy => hskip.kept.img hy, hskip.pos_le, fun calls =>
      hrep.answers_kept hok hskip.ok hskip.kept hskip.pos_le calls⟩
  · have hskip : Skipped page s s' := by
      induction hfails with
      | refl => exact .refl hok
      | tail _ hstep ih =>
        obtain ⟨map, map', hfail⟩ := hstep
        exact ih.trans (hfail.skipped hpage ih.ok).2
    exact hskip.pos_lt

/-- An arena of 8 GiB, all of it committed. -/
def wideArena : ArenaState := ⟨⟨65536, 2 ^ 33, 2 ^ 33, 0, .anon⟩, fun _ => 0, fun _ => true⟩

/-- A map on it after an allocation of more than 4 GiB: no further node can be linked. -/
def wideWorld : World Unit :=
  ((World.start wideArena fun _ => ⟨false, fun _ => 0⟩).run 4096
    [.init () sampleOs, .alloc sampleOs 0x100000010]).toOption.getD
      (World.start wideArena fun _ => ⟨false, fun _ => 0⟩)

theorem wideArena_ok : wideArena.Ok 4096 :=
  ⟨by decide, fun h => absurd h (by decide), by decide, by decide, by decide, .inl (by decide),
    fun _ _ _ => rfl⟩

theorem wideWorld_run : (World.start wideArena fun _ => ⟨false, fun _ => 0⟩).run 4096
    [.init () sampleOs, .alloc sampleOs 0x100000010] = .ok wideWorld := by
  obtain ⟨w, hrun, -⟩ := (World.Sound.start wideArena_ok (by decide) (by decide)
    fun _ => ⟨false, fun _ => 0⟩).run samplePage [.init () sampleOs, .alloc sampleOs 0x100000010]
  have hw : wideWorld = w := by
    unfold wideWorld
    rw [hrun]
    rfl
  rw [hrun, hw]

theorem wideWorld_reached : (wideWorld.maps ()).Reached 4096 wideWorld.arena :=
  .shared wideArena_ok (by decide) (by decide) wideWorld_run (by decide)

/-- There an upsert fails: the node is given back, and 48 bytes of padding are not. -/
theorem wideWorld_adds_nothing :
    ∃ map' s', FailedPut 4096 (wideWorld.maps ()) wideWorld.arena map' s' ∧
      map' = wideWorld.maps () ∧ s'.pos < wideWorld.arena.pos + 64 := by
  have hfail : (rgHashMapPut 4096 sampleOs (wideWorld.maps ()) wideWorld.arena
      ⟨false, [107]⟩).toOption.map Prod.fst = some 0 := by decide
  cases hput : rgHashMapPut 4096 sampleOs (wideWorld.maps ()) wideWorld.arena ⟨false, [107]⟩ with
  | error e =>
    rw [hput] at hfail
    cases hfail
  | ok answer =>
    obtain ⟨p, map', s'⟩ := answer
    rw [hput] at hfail
    obtain rfl : p = 0 := Option.some.inj hfail
    have hfailed : FailedPut 4096 (wideWorld.maps ()) wideWorld.arena map' s' :=
      ⟨sampleOs, .inl ⟨⟨false, [107]⟩, hput⟩⟩
    have hlaw := failed_put_adds_nothing samplePage (by decide) wideWorld_reached
    exact ⟨map', s', hfailed, (hlaw.1 map' s' hfailed).1,
      hlaw.2 s' (.single ⟨_, _, hfailed⟩)⟩

end RgMemory
