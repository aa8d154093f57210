import RgMemory.HashMap.Put

/-!
# Maps that share an arena

Any number of hash maps on one arena, used in any order together with other allocations and with
the writes of their client; the arena is never rewound. `Client` is what the client can tell from
the answers it got: which maps it initialised, the cell that each key of each map was given with the
value last written to it, and the other blocks it holds. It is a finite map, and the theorem of the
module (`hash_map_refines_finite_map`) says that the code behaves as that map does: every call
returns, the answers are those of the finite map, and the cells hold its values.

The invariant (`World.Sound`) gives each map the forest of `HashMap.Rep` and keeps the nodes of
different maps, and the other blocks, apart.
-/

namespace RgMemory

open Bytes Trie

variable {ι : Type}

/-- What the client knows: its maps, the cell and value of each key, its other blocks. -/
structure Client (ι : Type) where
  ready : ι → Bool
  cells : ι → List Byte → Option (Nat × BitVec 64)
  blocks : List Block

/-- Hash maps on one arena, and their client. -/
structure World (ι : Type) where
  arena : ArenaState
  maps : ι → HashMap
  client : Client ι

/-- A step: a call on one of the maps, another allocation on the arena, a write of a value through
the pointer that a key was given, or a write to a byte of another block. -/
inductive MapEvent (ι : Type)
  | init (i : ι) (os : OsReply)
  | put (i : ι) (os : OsReply) (key : KeyArg)
  | putU64 (i : ι) (os : OsReply) (key : BitVec 64)
  | get (i : ι) (key : KeyArg)
  | getU64 (i : ι) (key : BitVec 64)
  | store (i : ι) (key : List Byte) (v : BitVec 64)
  | alloc (os : OsReply) (size : BitVec 64)
  | allocAligned (os : OsReply) (size alignment : BitVec 64)
  | allocFast (os : OsReply) (size : BitVec 64)
  | scribble (b : Block) (k : Nat) (v : Byte)

/-- What a step answers. -/
inductive MapAnswer
  | status (st : Status)
  | pointer (p : Nat)
  | done

namespace Client

variable [DecidableEq ι]

/-- Give a key a cell with a value. -/
def setCell (c : Client ι) (i : ι) (key : List Byte) (cell : Nat × BitVec 64) : Client ι :=
  { c with cells := Function.update c.cells i (Function.update (c.cells i) key (some cell)) }

/-- A key whose `Put` returned a pointer gets that cell, with value 0, unless it has one. -/
def notePut (c : Client ι) (i : ι) (key : List Byte) (p : Nat) : Client ι :=
  if p = 0 then c
  else
    match c.cells i key with
    | some _ => c
    | none => c.setCell i key (p, 0)

def noteAlloc (c : Client ι) (size p : Nat) : Client ι :=
  if p = 0 then c else { c with blocks := ⟨p, size⟩ :: c.blocks }

/-- The client's view after a step and its answer. -/
def note (c : Client ι) : MapEvent ι → MapAnswer → Client ι
  | .init i _, .status st =>
    { c with
      ready := Function.update c.ready i (decide (st = .ok))
      cells := Function.update c.cells i fun _ => none }
  | .put i _ key, .pointer p => c.notePut i key.bytes p
  | .putU64 i _ key, .pointer p => c.notePut i (leBytes key) p
  | .store i key v, _ =>
    match c.cells i key with
    | some (p, _) => c.setCell i key (p, v)
    | none => c
  | .alloc _ size, .pointer p => c.noteAlloc size.toNat p
  | .allocAligned _ size _, .pointer p => c.noteAlloc size.toNat p
  | .allocFast _ size, .pointer p => c.noteAlloc size.toNat p
  | _, _ => c

end Client

@[simp] theorem setCell_self [DecidableEq ι] (c : Client ι) (i : ι) (key : List Byte)
    (cell : Nat × BitVec 64) : (c.setCell i key cell).cells i key = some cell := by
  simp [Client.setCell]

theorem setCell_other [DecidableEq ι] {c : Client ι} {i j : ι} {key l : List Byte}
    {cell : Nat × BitVec 64} (h : ¬ (j = i ∧ l = key)) :
    (c.setCell i key cell).cells j l = c.cells j l := by
  unfold Client.setCell
  by_cases hj : j = i
  · subst hj
    simp [Function.update_of_ne fun hl => h ⟨rfl, hl⟩]
  · simp [Function.update_of_ne hj]

namespace World

variable [DecidableEq ι]

/-- An upsert on a map that the client initialised. -/
def upsert (w : World ι) (i : ι) (result : Except Stop (Nat × HashMap × ArenaState)) :
    Except Stop (MapAnswer × ArenaState × (ι → HashMap)) :=
  if w.client.ready i then
    match result with
    | .error e => .error e
    | .ok (p, map, s) => .ok (.pointer p, s, Function.update w.maps i map)
  else .ok (.pointer 0, w.arena, w.maps)

/-- A lookup on a map that the client initialised. -/
def lookup (w : World ι) (i : ι) (result : Except Stop Nat) :
    Except Stop (MapAnswer × ArenaState × (ι → HashMap)) :=
  if w.client.ready i then
    match result with
    | .error e => .error e
    | .ok p => .ok (.pointer p, w.arena, w.maps)
  else .ok (.pointer 0, w.arena, w.maps)

/-- What the code does in a step. -/
def exec (page : Nat) (w : World ι) :
    MapEvent ι → Except Stop (MapAnswer × ArenaState × (ι → HashMap))
  | .init i os =>
    match rgHashMapInit page os (w.maps i) w.arena with
    | (st, map, s) => .ok (.status st, s, Function.update w.maps i map)
  | .put i os key => w.upsert i (rgHashMapPut page os (w.maps i) w.arena key)
  | .putU64 i os key => w.upsert i (rgHashMapPutU64 page os (w.maps i) w.arena key)
  | .get i key => w.lookup i (rgHashMapGet (w.maps i) w.arena key)
  | .getU64 i key => w.lookup i (rgHashMapGetU64 (w.maps i) w.arena key)
  | .store i key v =>
    match w.client.cells i key with
    | some (p, _) => .ok (.done, w.arena.setMem (store64 w.arena.mem p v), w.maps)
    | none => .ok (.done, w.arena, w.maps)
  | .alloc os size =>
    match rgArenaAlloc page os w.arena size.toNat with
    | (p, s) => .ok (.pointer p, s, w.maps)
  | .allocAligned os size al =>
    match rgArenaAllocAligned page os w.arena size.toNat al.toNat with
    | (p, s) => .ok (.pointer p, s, w.maps)
  | .allocFast os size =>
    match rgArenaAllocFast page os w.arena size.toNat with
    | (p, s) => .ok (.pointer p, s, w.maps)
  | .scribble b k v =>
    if b ∈ w.client.blocks ∧ k < b.size then
      .ok (.done, w.arena.setMem fun y => if y = b.addr + k then v else w.arena.mem y, w.maps)
    else .ok (.done, w.arena, w.maps)

/-- A step, with its answer. -/
def step (page : Nat) (w : World ι) (e : MapEvent ι) : Except Stop (MapAnswer × World ι) :=
  match w.exec page e with
  | .error stop => .error stop
  | .ok (answer, s, maps) => .ok (answer, ⟨s, maps, w.client.note e answer⟩)

def run (page : Nat) (w : World ι) : List (MapEvent ι) → Except Stop (World ι)
  | [] => .ok w
  | e :: rest =>
    match w.step page e with
    | .error stop => .error stop
    | .ok (_, w) => w.run page rest

/-- A run starts on some arena, before any map was initialised. -/
def start (arena : ArenaState) (maps : ι → HashMap) : World ι :=
  ⟨arena, maps, ⟨fun _ => false, fun _ _ => none, []⟩⟩

end World

/-! ## The invariant -/

namespace World

/-- The forests behind the maps; their nodes and the client's blocks are apart. -/
structure Sound (page : Nat) (w : World ι) (forests : ι → Fin 4096 → Trie 4 (BitVec 32)) :
    Prop where
  ok : w.arena.Ok page
  live : 0 < w.arena.base
  aligned : 64 ∣ w.arena.base
  rep : ∀ i, w.client.ready i = true → (w.maps i).Rep w.arena (forests i)
  unused : ∀ i, w.client.ready i = false → forests i = fun _ => nil
  cross : ∀ i j, i ≠ j → ∀ a ∈ listAll (forests i), ∀ b ∈ listAll (forests j),
    NodesApart w.arena.img a b
  blocks_below : ∀ b ∈ w.client.blocks, b.addr + b.size ≤ w.arena.base + w.arena.pos
  blocks_apart : ∀ b ∈ w.client.blocks, ∀ i, ∀ a ∈ listAll (forests i),
    Apart b.addr b.size (w.arena.base + a.toNat) (HashMapNode.extent w.arena.img a)
  cells : ∀ i key, w.client.cells i key = (nodeOf w.arena.img (forests i) key).map
    fun a => (w.arena.valuePtr a, HashMapNode.value w.arena.img a)
  seated : ∀ i, Seated w.arena.img (forests i)

namespace Sound

variable {page : Nat} {w : World ι} {forests : ι → Fin 4096 → Trie 4 (BitVec 32)}

theorem ready_of_mem (h : w.Sound page forests) {i : ι} {a : BitVec 32}
    (ha : a ∈ listAll (forests i)) : w.client.ready i = true := by
  cases hr : w.client.ready i with
  | true => rfl
  | false =>
    rw [h.unused i hr, listAll_nil] at ha
    cases ha

theorem rep_of_mem (h : w.Sound page forests) {i : ι} {a : BitVec 32}
    (ha : a ∈ listAll (forests i)) : (w.maps i).Rep w.arena (forests i) :=
  h.rep i (h.ready_of_mem ha)

/-- The nodes of different keys, of one map or of two, share no byte. -/
theorem nodes_apart (h : w.Sound page forests) {i j : ι} {k l : List Byte} {a b : BitVec 32}
    (ha : nodeOf w.arena.img (forests i) k = some a)
    (hb : nodeOf w.arena.img (forests j) l = some b) (hne : i = j → k ≠ l) :
    NodesApart w.arena.img a b := by
  obtain ⟨hma, hka⟩ := mem_of_nodeOf ha
  obtain ⟨hmb, hkb⟩ := mem_of_nodeOf hb
  by_cases hij : i = j
  · subst hij
    refine (h.rep_of_mem hma).apart_of_ne hma hmb fun hab => hne rfl ?_
    rw [← hka, ← hkb, hab]
  · exact h.cross i j hij a hma b hmb

/-- A change of the arena that leaves all nodes alone. -/
theorem frame (h : w.Sound page forests) {s' : ArenaState} (hok : s'.Ok page)
    (hbase : s'.base = w.arena.base) (hpos : w.arena.pos ≤ s'.pos)
    (hagree : ∀ i, ∀ a ∈ listAll (forests i), NodeAgree w.arena.img s'.img a)
    (hvalue : ∀ i, ∀ a ∈ listAll (forests i),
      HashMapNode.value s'.img a = HashMapNode.value w.arena.img a) :
    World.Sound page ⟨s', w.maps, w.client⟩ forests := by
  refine ⟨hok, hbase ▸ h.live, hbase ▸ h.aligned, fun i hr => ?_, h.unused, ?_, ?_, ?_, ?_,
    fun i => (h.seated i).congr fun a ha => (hagree i a ha).toNodeBody⟩
  · exact (h.rep i hr).congr hpos (hagree i)
  · intro i j hij a ha b hb
    unfold NodesApart
    rw [(hagree i a ha).extent, (hagree j b hb).extent]
    exact h.cross i j hij a ha b hb
  · intro b hb
    show b.addr + b.size ≤ s'.base + s'.pos
    have := h.blocks_below b hb
    omega
  · intro b hb i a ha
    show Apart b.addr b.size (s'.base + a.toNat) (HashMapNode.extent s'.img a)
    rw [hbase, (hagree i a ha).extent]
    exact h.blocks_apart b hb i a ha
  · intro i key
    show w.client.cells i key = (nodeOf s'.img (forests i) key).map
      fun a => (s'.valuePtr a, HashMapNode.value s'.img a)
    rw [h.cells i key, nodeOf_congr (fun a ha => (hagree i a ha).toNodeBody)]
    cases hfound : nodeOf w.arena.img (forests i) key with
    | none => rfl
    | some a =>
      have hv := hvalue i a (mem_of_nodeOf hfound).1
      simp [ArenaState.valuePtr, hbase, hv]

/-- A change above the position leaves all nodes alone. -/
theorem frame_kept (h : w.Sound page forests) {s' : ArenaState} (hok : s'.Ok page)
    (hkept : Kept w.arena s') (hpos : w.arena.pos ≤ s'.pos) :
    World.Sound page ⟨s', w.maps, w.client⟩ forests := by
  refine h.frame hok hkept.base hpos (fun i a ha => hkept.nodeAgree (h.rep_of_mem ha) ha)
    fun i a ha => load64_congr fun k hk => hkept.img ?_
  have hin := ((h.rep_of_mem ha).inside a ha).2
  have hsize : HashMapNode.size = 40 := rfl
  omega

/-- The invariant holds at the start. -/
theorem start {arena : ArenaState} (hok : arena.Ok page) (hlive : 0 < arena.base)
    (haligned : 64 ∣ arena.base) (maps : ι → HashMap) :
    (World.start arena maps).Sound page fun _ _ => nil := by
  refine ⟨hok, hlive, haligned, fun i hr => (by cases hr), fun _ _ => rfl, ?_, ?_, ?_,
    fun _ _ => rfl, fun _ => .nil _⟩
  · intro i j _ a ha
    rw [listAll_nil] at ha
    cases ha
  · intro b hb
    cases hb
  · intro b hb
    cases hb

/-! ## Lookups -/

theorem isLive (h : w.Sound page forests) {i : ι} (hready : w.client.ready i = true) :
    rgmMapIsLive (w.maps i) w.arena.toArena = true := by
  have hbase : w.arena.base ≠ 0 := Nat.ne_of_gt h.live
  unfold rgmMapIsLive
  rw [(h.rep i hready).bound]
  simpa using hbase

theorem cells_eq_none (h : w.Sound page forests) {i : ι} {key : List Byte}
    (hlen : 2 ^ 32 ≤ key.length) : w.client.cells i key = none := by
  rw [h.cells i key, Option.map_eq_none_iff]
  cases hfound : nodeOf w.arena.img (forests i) key with
  | none => rfl
  | some a =>
    have hkey := congrArg List.length (mem_of_nodeOf hfound).2
    have hlt := (HashMapNode.keyLen w.arena.img a).isLt
    simp only [HashMapNode.keyBytes, slice_length] at hkey
    omega

/-- `Get` answers what the client knows. -/
theorem get (h : w.Sound page forests) {i : ι} (hready : w.client.ready i = true) {key : KeyArg}
    (hkey : key.null = true → key.bytes = []) :
    rgHashMapGet (w.maps i) w.arena key =
      .ok ((w.client.cells i key.bytes).elim 0 Prod.fst) := by
  unfold rgHashMapGet rgmHashMapRefuses
  have hnull : (key.null && decide (key.bytes.length ≠ 0)) = false := by
    cases hn : key.null with
    | false => rfl
    | true => simp [hkey hn]
  rw [h.isLive hready, hnull]
  by_cases hlen : key.bytes.length < 2 ^ 32
  · have hle : ¬ key.bytes.length > 2 ^ 32 - 1 := by omega
    simp only [hle, decide_false, Bool.not_true, Bool.or_false, Bool.false_eq_true, if_false]
    rw [rgmHashMapGet_eq h.ok (h.rep i hready) hlen, h.cells]
    cases nodeOf w.arena.img (forests i) key.bytes with
    | none => simp only [Option.map_none, Option.elim_none]
    | some a => simp only [Option.map_some, Option.elim_some]
  · have hgt : key.bytes.length > 2 ^ 32 - 1 := by omega
    simp only [hgt, decide_true, Bool.or_true, if_true]
    rw [h.cells_eq_none (by omega)]
    simp only [Option.elim_none]

/-- A lookup returns, also one that is refused. -/
theorem get_returns (h : w.Sound page forests) {i : ι} (hready : w.client.ready i = true)
    (key : KeyArg) : ∃ p, rgHashMapGet (w.maps i) w.arena key = .ok p := by
  by_cases hkey : key.null = true → key.bytes = []
  · exact ⟨_, h.get hready hkey⟩
  · obtain ⟨hnull, hbytes⟩ := Classical.not_imp.mp hkey
    refine ⟨0, if_pos ?_⟩
    simp [rgmHashMapRefuses, hnull, hbytes]

/-! ## Steps -/

/-- Another allocation: the client gets a block apart from all nodes. -/
theorem alloc (h : w.Sound page forests) (hpage : IsPageSize page) (os : OsReply)
    (size al : BitVec 64) :
    World.Sound page ⟨(rgArenaAllocAligned page os w.arena size.toNat al.toNat).2, w.maps,
      w.client.noteAlloc size.toNat
        (rgArenaAllocAligned page os w.arena size.toNat al.toNat).1⟩ forests := by
  rcases rgArenaAllocAligned_cases hpage os h.ok size.isLt al.isLt with hnull | ⟨p, s', hok, hg⟩
  · rw [hnull]
    exact h
  · rw [hok]
    have hkept := hg.kept h.ok
    have habove := hg.above
    have hend := hg.pos
    have hlive := hg.live
    have hbase := hkept.base
    have hnew := h.frame_kept hg.ok hkept (by omega)
    have hnote : w.client.noteAlloc size.toNat p =
        { w.client with blocks := ⟨p, size.toNat⟩ :: w.client.blocks } := if_neg (by omega)
    rw [hnote]
    refine ⟨hnew.ok, hnew.live, hnew.aligned, hnew.rep, hnew.unused, hnew.cross, ?_, ?_,
      hnew.cells, hnew.seated⟩
    · intro b hb
      rcases List.mem_cons.mp hb with rfl | hold
      · exact Nat.le_of_eq hend.symm
      · exact hnew.blocks_below b hold
    · intro b hb i a ha
      rcases List.mem_cons.mp hb with rfl | hold
      · have hin := (h.rep_of_mem ha).inside a ha
        have hext : HashMapNode.extent s'.img a = HashMapNode.extent w.arena.img a :=
          (hkept.nodeAgree (h.rep_of_mem ha) ha).extent
        refine .inr ?_
        show s'.base + a.toNat + HashMapNode.extent s'.img a ≤ p
        rw [hext, hbase]
        have := hin.2
        unfold HashMapNode.extent
        omega
      · exact hnew.blocks_apart b hold i a ha

/-- A write into another block touches no node. -/
theorem scribble (h : w.Sound page forests) {b : Block} (hb : b ∈ w.client.blocks) {k : Nat}
    (hk : k < b.size) (v : Byte) :
    World.Sound page ⟨w.arena.setMem fun y => if y = b.addr + k then v else w.arena.mem y, w.maps,
      w.client⟩ forests := by
  have hbyte : ∀ i, ∀ a ∈ listAll (forests i), ∀ y, a.toNat ≤ y →
      y < a.toNat + HashMapNode.extent w.arena.img a →
      (if w.arena.base + y = b.addr + k then v else w.arena.mem (w.arena.base + y)) =
        w.arena.img y := by
    intro i a ha y hy hy'
    have hapart := h.blocks_apart b hb i a ha
    unfold Apart at hapart
    exact if_neg (by omega)
  refine h.frame (h.ok.withMem _) rfl (Nat.le_refl _) (fun i a ha => ?_) fun i a ha => ?_
  · exact .of_bytes fun y hy hy' _ => hbyte i a ha y hy hy'
  · have hsize : 40 ≤ HashMapNode.extent w.arena.img a := Nat.le_add_right ..
    exact load64_congr fun j hj => hbyte i a ha _ (by omega) (by omega)

variable [DecidableEq ι]

/-- A value written through the pointer that a key was given. -/
theorem store (h : w.Sound page forests) {i : ι} {key : List Byte} {p : Nat}
    {old : BitVec 64} (hcell : w.client.cells i key = some (p, old)) (v : BitVec 64) :
    World.Sound page ⟨w.arena.setMem (store64 w.arena.mem p v), w.maps,
      w.client.setCell i key (p, v)⟩ forests := by
  have hmap := h.cells i key
  rw [hcell] at hmap
  obtain ⟨a, hfound, hpair⟩ := Option.map_eq_some_iff.mp hmap.symm
  obtain ⟨rfl, -⟩ := Prod.mk.inj hpair
  obtain ⟨hmem, _⟩ := mem_of_nodeOf hfound
  have hrep := h.rep_of_mem hmem
  have hagree : ∀ j, ∀ b ∈ listAll (forests j), NodeAgree w.arena.img
      (w.arena.setMem (store64 w.arena.mem (w.arena.valuePtr a) v)).img b := by
    intro j b hb
    by_cases hab : i = j ∧ a = b
    · obtain ⟨rfl, rfl⟩ := hab
      exact store_value_agree w.arena a v
    · refine (store_value_apart w.arena v ?_).1
      by_cases hij : i = j
      · subst hij
        exact hrep.apart_of_ne hmem hb fun heq => hab ⟨rfl, heq⟩
      · exact h.cross i j hij a hmem b hb
  refine ⟨h.ok.withMem _, h.live, h.aligned, fun j hr => (h.rep j hr).congr (Nat.le_refl _)
    (hagree j), h.unused, ?_, h.blocks_below, ?_, ?_,
    fun j => (h.seated j).congr fun b hb => (hagree j b hb).toNodeBody⟩
  · intro j l hjl b hb c hc
    unfold NodesApart
    rw [(hagree j b hb).extent, (hagree l c hc).extent]
    exact h.cross j l hjl b hb c hc
  · intro b hb j c hc
    rw [(hagree j c hc).extent]
    exact h.blocks_apart b hb j c hc
  · intro j l
    have hnode := nodeOf_congr (fun b hb => (hagree j b hb).toNodeBody) l
    rw [hnode]
    by_cases hsame : j = i ∧ l = key
    · obtain ⟨rfl, rfl⟩ := hsame
      rw [setCell_self, hfound, Option.map_some, store_value_self]
      rfl
    · rw [setCell_other hsame, h.cells j l]
      cases hb : nodeOf w.arena.img (forests j) l with
      | none => simp only [Option.map_none]
      | some b =>
        have hapart := h.nodes_apart hfound hb fun hij hl => hsame ⟨hij.symm, hl.symm⟩
        have hval := (store_value_apart w.arena v hapart).2
        simp only [Option.map_some, hval]
        simp only [ArenaState.valuePtr]

/-- An upsert that adds a key, seen from all maps. -/
theorem inserted (h : w.Sound page forests) {i : ι} (hready : w.client.ready i = true)
    {key : List Byte} {map' : HashMap} {s' : ArenaState} {x : BitVec 32}
    (habsent : nodeOf w.arena.img (forests i) key = none)
    (hins : Inserted page (w.maps i) map' w.arena s' (forests i) key x) :
    World.Sound page ⟨s', Function.update w.maps i map', w.client.setCell i key (s'.valuePtr x, 0)⟩
      (Function.update forests i (forestAdd (forests i) (bytesProbe key) x)) := by
  have hrep := h.rep i hready
  have hbase := hins.base
  have hpos := hins.pos_le
  have habove := hins.fresh.above
  -- the nodes of the other maps and the blocks lie apart from the one link that is written
  have hbyte : ∀ j, j ≠ i → ∀ b ∈ listAll (forests j), ∀ y, b.toNat ≤ y →
      y < b.toNat + HashMapNode.extent w.arena.img b → s'.img y = w.arena.img y := by
    intro j hj b hb y hy hy'
    have hin := ((h.rep_of_mem hb).inside b hb).2
    refine hins.frame_apart (by unfold HashMapNode.extent at hy'; omega) fun a ha => ?_
    have hapart := h.cross i j hj.symm a ha b hb
    unfold NodesApart Apart at hapart
    unfold Out
    omega
  have hagree : ∀ j, j ≠ i → ∀ b ∈ listAll (forests j), NodeAgree w.arena.img s'.img b :=
    fun j hj b hb => .of_bytes fun y hy hy' _ => hbyte j hj b hb y hy hy'
  have hbody : ∀ j, ∀ b ∈ listAll (forests j), NodeBody w.arena.img s'.img b := by
    intro j b hb
    by_cases hj : j = i
    · subst hj
      exact hins.published.body b hb
    · exact (hagree j hj b hb).toNodeBody
  have hvalue : ∀ j, ∀ b ∈ listAll (forests j),
      HashMapNode.value s'.img b = HashMapNode.value w.arena.img b := by
    intro j b hb
    by_cases hj : j = i
    · subst hj
      exact hins.value_eq hrep.stored hb
    · have hsize : 40 ≤ HashMapNode.extent w.arena.img b := Nat.le_add_right ..
      exact load64_congr fun k hk => hbyte j hj b hb _ (by omega) (by omega)
  -- a node of the new forests is the fresh one or an old one
  have hmem : ∀ {j b}, b ∈ listAll (Function.update forests i
      (forestAdd (forests i) (bytesProbe key) x) j) → (j = i ∧ b = x) ∨ b ∈ listAll (forests j) := by
    intro j b hb
    by_cases hj : j = i
    · subst hj
      rw [Function.update_self, mem_forestAdd] at hb
      exact hb.imp_left fun hx => ⟨rfl, hx⟩
    · rw [Function.update_of_ne hj] at hb
      exact .inr hb
  have hfresh : ∀ {j b}, b ∈ listAll (forests j) → NodesApart s'.img x b := by
    intro j b hb
    have hin := ((h.rep_of_mem hb).inside b hb).2
    unfold NodesApart
    rw [(hbody j b hb).extent]
    refine .inr ?_
    unfold HashMapNode.extent
    omega
  refine ⟨hins.ok, hbase ▸ h.live, hbase ▸ h.aligned, fun j hr => ?_, fun j hr => ?_, ?_, ?_, ?_,
    ?_, fun j => ?_⟩
  · by_cases hj : j = i
    · subst hj
      simp only [Function.update_self]
      exact hrep.insert hins.fresh hins.published
    · simp only [Function.update_of_ne hj]
      exact (h.rep j hr).congr hpos (hagree j hj)
  · have hj : j ≠ i := by
      rintro rfl
      exact Bool.noConfusion (hready.symm.trans hr)
    rw [Function.update_of_ne hj]
    exact h.unused j hr
  · intro j l hjl a ha b hb
    show NodesApart s'.img a b
    rcases hmem ha with ⟨rfl, rfl⟩ | hold
    · rcases hmem hb with ⟨rfl, _⟩ | hold
      · exact absurd rfl hjl
      · exact hfresh hold
    · rcases hmem hb with ⟨_, rfl⟩ | hold'
      · exact (hfresh hold).symm
      · unfold NodesApart
        rw [(hbody j a hold).extent, (hbody l b hold').extent]
        exact h.cross j l hjl a hold b hold'
  · intro b hb
    show b.addr + b.size ≤ s'.base + s'.pos
    have := h.blocks_below b hb
    omega
  · intro b hb j a ha
    show Apart b.addr b.size (s'.base + a.toNat) (HashMapNode.extent s'.img a)
    rcases hmem ha with ⟨rfl, rfl⟩ | hold
    · have := h.blocks_below b hb
      exact .inl (by omega)
    · rw [hbase, (hbody j a hold).extent]
      exact h.blocks_apart b hb j a hold
  · intro j l
    by_cases hj : j = i
    · subst hj
      simp only [Function.update_self]
      rw [HashMap.Rep.nodeOf_insert hins.fresh hins.published habsent]
      by_cases hl : l = key
      · subst hl
        rw [setCell_self, if_pos rfl, Option.map_some, hins.fresh.value]
      · rw [setCell_other (fun hand => hl hand.2), if_neg hl, h.cells j l]
        cases hb : nodeOf w.arena.img (forests j) l with
        | none => simp only [Option.map_none]
        | some b =>
          simp only [Option.map_some, hvalue j b (mem_of_nodeOf hb).1, ArenaState.valuePtr, hbase]
    · rw [setCell_other (fun hand => hj hand.1), Function.update_of_ne hj, h.cells j l,
        nodeOf_congr (hbody j)]
      cases hb : nodeOf w.arena.img (forests j) l with
      | none => simp only [Option.map_none]
      | some b =>
        simp only [Option.map_some, hvalue j b (mem_of_nodeOf hb).1, ArenaState.valuePtr, hbase]
  · by_cases hj : j = i
    · subst hj
      simp only [Function.update_self]
      exact (h.seated j).inserted habsent hins
    · simp only [Function.update_of_ne hj]
      exact (h.seated j).congr (hbody j)

/-- `Init`, seen from all maps: the map forgets its keys. -/
theorem reset (h : w.Sound page forests) (i : ι) (map' : HashMap) {b : Bool}
    (hrep : b = true → map'.Rep w.arena fun _ => nil) :
    World.Sound page ⟨w.arena, Function.update w.maps i map',
      { w.client with
        ready := Function.update w.client.ready i b
        cells := Function.update w.client.cells i fun _ => none }⟩
      (Function.update forests i fun _ => nil) := by
  have hmem : ∀ {j a}, a ∈ listAll (Function.update forests i (fun _ => nil) j) →
      a ∈ listAll (forests j) := by
    intro j a ha
    by_cases hj : j = i
    · subst hj
      rw [Function.update_self, listAll_nil] at ha
      cases ha
    · rwa [Function.update_of_ne hj] at ha
  refine ⟨h.ok, h.live, h.aligned, fun j hr => ?_, fun j hr => ?_, fun j l hjl a ha b hb => ?_,
    h.blocks_below, fun b hb j a ha => h.blocks_apart b hb j a (hmem ha), fun j l => ?_,
    fun j => ?_⟩
  · by_cases hj : j = i
    · subst hj
      simp only [Function.update_self] at hr ⊢
      exact hrep hr
    · simp only [Function.update_of_ne hj] at hr ⊢
      exact h.rep j hr
  · by_cases hj : j = i
    · subst hj
      exact Function.update_self ..
    · simp only [Function.update_of_ne hj] at hr ⊢
      exact h.unused j hr
  · exact h.cross j l hjl a (hmem ha) b (hmem hb)
  · by_cases hj : j = i
    · subst hj
      simp only [Function.update_self]
      rfl
    · simp only [Function.update_of_ne hj]
      exact h.cells j l
  · by_cases hj : j = i
    · subst hj
      simp only [Function.update_self]
      exact .nil _
    · simp only [Function.update_of_ne hj]
      exact h.seated j

theorem init (h : w.Sound page forests) (hpage : IsPageSize page) (os : OsReply) (i : ι) :
    ∃ st map' s', rgHashMapInit page os (w.maps i) w.arena = (st, map', s') ∧
      World.Sound page ⟨s', Function.update w.maps i map',
        w.client.note (.init i os) (.status st)⟩ (Function.update forests i fun _ => nil) := by
  rcases rgHashMapInit_cases hpage os (w.maps i) h.ok h.live with
    ⟨e, map', hinit, he⟩ | ⟨s', hinit, hok, hkept, hpos, hused⟩
  · exact ⟨e, map', w.arena, hinit, h.reset i map' fun hb => absurd (of_decide_eq_true hb) he⟩
  · exact ⟨.ok, _, s', hinit,
      (h.frame_kept hok hkept hpos).reset i _ fun _ => HashMap.Rep.empty hused⟩

/-- `Put` keeps the invariant, and answers the cell of a key that has one. -/
theorem put (h : w.Sound page forests) (hpage : IsPageSize page) (os : OsReply) {i : ι}
    (hready : w.client.ready i = true) (key : KeyArg) :
    ∃ p map' s', rgHashMapPut page os (w.maps i) w.arena key = .ok (p, map', s') ∧
      (∃ forests', World.Sound page ⟨s', Function.update w.maps i map',
        w.client.notePut i key.bytes p⟩ forests') ∧
      ((key.null = true → key.bytes = []) → ∀ q v, w.client.cells i key.bytes = some (q, v) →
        p = q ∧ map' = w.maps i ∧ s' = w.arena) := by
  have hsame : Function.update w.maps i (w.maps i) = w.maps := Function.update_eq_self ..
  unfold rgHashMapPut
  cases hrefuses : rgmHashMapRefuses (w.maps i) w.arena.toArena key with
  | true =>
    refine ⟨0, w.maps i, w.arena, rfl, ⟨forests, ?_⟩, fun hkey q v hcell => ?_⟩
    · rw [hsame]
      exact h
    · have hget := h.get hready hkey
      unfold rgHashMapGet at hget
      rw [hrefuses, hcell] at hget
      exact ⟨Except.ok.inj hget, rfl, rfl⟩
  | false =>
    have hlen := length_lt_of_not_refused hrefuses
    have hrep := h.rep i hready
    have hcells := h.cells i key.bytes
    obtain ⟨answer, hput, hcases⟩ := rgmHashMapPut_cases hpage os h.ok h.aligned hrep hlen
    simp only [Bool.false_eq_true, if_false, hput]
    cases hcases with
    | @hit a found =>
      rw [found, Option.map_some] at hcells
      have hp : w.arena.valuePtr a ≠ 0 := Nat.succ_ne_zero _
      refine ⟨_, _, _, rfl, ⟨forests, ?_⟩, fun _ q v hcell => ?_⟩
      · simp only [Client.notePut, hp, if_false, hcells]
        rw [hsame]
        exact h
      · rw [hcells] at hcell
        exact ⟨congrArg Prod.fst (Option.some.inj hcell), rfl, rfl⟩
    | @refused s' absent ok kept pos =>
      rw [absent, Option.map_none] at hcells
      refine ⟨_, _, _, rfl, ⟨forests, ?_⟩, fun _ q v hcell => ?_⟩
      · rw [hsame]
        exact h.frame_kept ok kept pos
      · rw [hcells] at hcell
        cases hcell
    | @inserted x map' s' absent ins =>
      rw [absent, Option.map_none] at hcells
      have hp : s'.valuePtr x ≠ 0 := Nat.succ_ne_zero _
      refine ⟨_, _, _, rfl, ⟨Function.update forests i
        (forestAdd (forests i) (bytesProbe key.bytes) x), ?_⟩, fun _ q v hcell => ?_⟩
      · simp only [Client.notePut, hp, if_false, hcells]
        exact h.inserted hready absent ins
      · rw [hcells] at hcell
        cases hcell

/-! ## Runs -/

theorem upsert (h : w.Sound page forests) {i : ι} {key : List Byte} {e : MapEvent ι}
    {result : Except Stop (Nat × HashMap × ArenaState)}
    (hexec : w.exec page e = w.upsert i result)
    (hnote : ∀ p, w.client.note e (.pointer p) = w.client.notePut i key p)
    (hresult : w.client.ready i = true → ∃ p map' s', result = .ok (p, map', s') ∧
      ∃ forests', World.Sound page ⟨s', Function.update w.maps i map',
        w.client.notePut i key p⟩ forests') :
    ∃ answer w', w.step page e = .ok (answer, w') ∧ ∃ forests', w'.Sound page forests' := by
  unfold World.step
  rw [hexec]
  unfold World.upsert
  cases hready : w.client.ready i with
  | false => exact ⟨_, _, rfl, forests, by rw [hnote]; exact h⟩
  | true =>
    obtain ⟨p, map', s', rfl, forests', hsound⟩ := hresult hready
    exact ⟨_, _, rfl, forests', by rw [hnote]; exact hsound⟩

theorem lookup (h : w.Sound page forests) {i : ι} {e : MapEvent ι} {result : Except Stop Nat}
    (hexec : w.exec page e = w.lookup i result)
    (hnote : ∀ p, w.client.note e (.pointer p) = w.client)
    (hresult : w.client.ready i = true → ∃ p, result = .ok p) :
    ∃ answer w', w.step page e = .ok (answer, w') ∧ ∃ forests', w'.Sound page forests' := by
  unfold World.step
  rw [hexec]
  unfold World.lookup
  cases hready : w.client.ready i with
  | false => exact ⟨_, _, rfl, forests, by rw [hnote]; exact h⟩
  | true =>
    obtain ⟨p, rfl⟩ := hresult hready
    exact ⟨_, _, rfl, forests, by rw [hnote]; exact h⟩

/-- The plain allocations are aligned ones. -/
theorem step_alloc (os : OsReply) (size : BitVec 64) :
    w.step page (.alloc os size) = w.step page (.allocAligned os size 16) := by
  unfold World.step World.exec
  dsimp only
  rw [rgArenaAlloc_eq]
  rfl

theorem step_allocFast (os : OsReply) (size : BitVec 64) :
    w.step page (.allocFast os size) = w.step page (.allocAligned os size 16) := by
  unfold World.step World.exec
  dsimp only
  rw [rgArenaAllocFast_eq, rgArenaAlloc_eq]
  rfl

/-- Every step returns and keeps the invariant. -/
theorem step (h : w.Sound page forests) (hpage : IsPageSize page) (e : MapEvent ι) :
    ∃ answer w', w.step page e = .ok (answer, w') ∧ ∃ forests', w'.Sound page forests' := by
  cases e with
  | init i os =>
    obtain ⟨st, map', s', hinit, hsound⟩ := h.init hpage os i
    refine ⟨.status st, _, ?_, _, hsound⟩
    unfold World.step World.exec
    dsimp only
    rw [hinit]
  | put i os key =>
    refine h.upsert rfl (fun _ => rfl) fun hready => ?_
    obtain ⟨p, map', s', hput, hsound, -⟩ := h.put hpage os hready key
    exact ⟨p, map', s', hput, hsound⟩
  | putU64 i os key =>
    refine h.upsert rfl (fun _ => rfl) fun hready => ?_
    obtain ⟨p, map', s', hput, hsound, -⟩ := h.put hpage os hready ⟨false, leBytes key⟩
    exact ⟨p, map', s', (rgHashMapPutU64_eq ..).trans hput, hsound⟩
  | get i key => exact h.lookup rfl (fun _ => rfl) fun hready => h.get_returns hready key
  | getU64 i key =>
    refine h.lookup rfl (fun _ => rfl) fun hready => ?_
    rw [rgHashMapGetU64_eq]
    exact h.get_returns hready ⟨false, leBytes key⟩
  | store i key v =>
    unfold World.step World.exec Client.note
    dsimp only
    cases hcell : w.client.cells i key with
    | none => exact ⟨_, _, rfl, forests, h⟩
    | some cell => exact ⟨_, _, rfl, forests, h.store hcell v⟩
  | alloc os size =>
    rw [step_alloc]
    exact ⟨_, _, rfl, forests, h.alloc hpage os size 16⟩
  | allocAligned os size al => exact ⟨_, _, rfl, forests, h.alloc hpage os size al⟩
  | allocFast os size =>
    rw [step_allocFast]
    exact ⟨_, _, rfl, forests, h.alloc hpage os size 16⟩
  | scribble b k v =>
    unfold World.step World.exec
    dsimp only
    by_cases hb : b ∈ w.client.blocks ∧ k < b.size
    · rw [if_pos hb]
      exact ⟨_, _, rfl, forests, h.scribble hb.1 hb.2 v⟩
    · rw [if_neg hb]
      exact ⟨_, _, rfl, forests, h⟩

/-- Every run returns and keeps the invariant. -/
theorem run (h : w.Sound page forests) (hpage : IsPageSize page) (events : List (MapEvent ι)) :
    ∃ w', w.run page events = .ok w' ∧ ∃ forests', w'.Sound page forests' := by
  induction events generalizing w forests with
  | nil => exact ⟨w, rfl, forests, h⟩
  | cons e rest ih =>
    obtain ⟨answer, w1, hstep, forests1, h1⟩ := h.step hpage e
    obtain ⟨w', hrun, hsound⟩ := ih h1
    refine ⟨w', ?_, hsound⟩
    rw [World.run, hstep]
    exact hrun

end Sound

end World

/-! ## The maps are finite maps -/

/-- After any run that starts on a live arena with a cache-line-aligned base, the client's finite
map tells what the code does: the cells of its keys hold its values and share no byte, `Get`
answers the cell of a key or null, and `Put` answers the cell of a key that has one. -/
theorem hash_map_refines_finite_map [DecidableEq ι] {page : Nat} (hpage : IsPageSize page)
    {arena : ArenaState} (hok : arena.Ok page) (hlive : 0 < arena.base)
    (haligned : 64 ∣ arena.base) (maps : ι → HashMap) (events : List (MapEvent ι)) :
    ∃ w, (World.start arena maps).run page events = .ok w ∧
      (∀ i key p v, w.client.cells i key = some (p, v) → p ≠ 0 ∧ load64 w.arena.mem p = v) ∧
      (∀ i k p v j l q u, w.client.cells i k = some (p, v) → w.client.cells j l = some (q, u) →
        (i, k) ≠ (j, l) → Apart p 8 q 8) ∧
      (∀ i key, w.client.ready i = true → (key.null = true → key.bytes = []) →
        rgHashMapGet (w.maps i) w.arena key =
            .ok ((w.client.cells i key.bytes).elim 0 Prod.fst) ∧
          ∀ os, ∃ p map' s', rgHashMapPut page os (w.maps i) w.arena key = .ok (p, map', s') ∧
            ∀ q v, w.client.cells i key.bytes = some (q, v) →
              p = q ∧ map' = w.maps i ∧ s' = w.arena) ∧
      (∀ i key, rgHashMapGetU64 (w.maps i) w.arena key =
          rgHashMapGet (w.maps i) w.arena ⟨false, leBytes key⟩ ∧
        ∀ os, rgHashMapPutU64 page os (w.maps i) w.arena key =
          rgHashMapPut page os (w.maps i) w.arena ⟨false, leBytes key⟩) := by
  obtain ⟨w, hrun, forests, h⟩ := (World.Sound.start hok hlive haligned maps).run hpage events
  have hcell : ∀ i key p v, w.client.cells i key = some (p, v) →
      ∃ a, nodeOf w.arena.img (forests i) key = some a ∧ p = w.arena.valuePtr a ∧
        v = HashMapNode.value w.arena.img a := by
    intro i key p v hsome
    rw [h.cells i key] at hsome
    obtain ⟨a, hfound, hpair⟩ := Option.map_eq_some_iff.mp hsome
    obtain ⟨rfl, rfl⟩ := Prod.mk.inj hpair
    exact ⟨a, hfound, rfl, rfl⟩
  refine ⟨w, hrun, ?_, ?_, ?_, fun i key => ⟨rgHashMapGetU64_eq .., fun os =>
    rgHashMapPutU64_eq ..⟩⟩
  · intro i key p v hsome
    obtain ⟨a, -, rfl, rfl⟩ := hcell i key p v hsome
    exact ⟨Nat.succ_ne_zero _, load_valuePtr w.arena a⟩
  · intro i k p v j l q u hk hl hne
    obtain ⟨a, ha, rfl, -⟩ := hcell i k p v hk
    obtain ⟨b, hb, rfl, -⟩ := hcell j l q u hl
    have hapart := h.nodes_apart ha hb fun hij hkl => hne (by rw [hij, hkl])
    have hsa : 40 ≤ HashMapNode.extent w.arena.img a := Nat.le_add_right ..
    have hsb : 40 ≤ HashMapNode.extent w.arena.img b := Nat.le_add_right ..
    unfold NodesApart Apart at hapart
    unfold Apart ArenaState.valuePtr
    omega
  · intro i key hready hkey
    refine ⟨h.get hready hkey, fun os => ?_⟩
    obtain ⟨p, map', s', hput, -, hhit⟩ := h.put hpage os hready key
    exact ⟨p, map', s', hput, hhit hkey⟩

/-- Two maps, one key in each, and a write to the cell of the first. -/
def sampleMapEvents : List (MapEvent Bool) :=
  [.init true sampleOs, .put true sampleOs ⟨false, [107]⟩, .store true [107] 7,
    .init false sampleOs, .putU64 false sampleOs 107, .alloc sampleOs 100,
    .get true ⟨false, [107]⟩]

theorem sampleMapEvents_refine :
    ∃ w, (World.start sampleArena fun _ : Bool => ⟨false, fun _ => 0⟩).run 4096 sampleMapEvents =
        .ok w ∧
      w.client.cells true [107] = some (65624, 7) ∧ load64 w.arena.mem 65624 = 7 := by
  have hpage : IsPageSize 4096 := ⟨12, by decide, rfl⟩
  obtain ⟨w, hrun, hcells, -⟩ := hash_map_refines_finite_map hpage sampleArena_ok (by decide)
    (by decide) (fun _ : Bool => ⟨false, fun _ => 0⟩) sampleMapEvents
  have hcell : (match (World.start sampleArena fun _ : Bool => ⟨false, fun _ => 0⟩).run 4096
      sampleMapEvents with
    | .ok w => w.client.cells true [107]
    | .error _ => none) = some (65624, 7) := by decide
  rw [hrun] at hcell
  exact ⟨w, hrun, hcell, (hcells true [107] 65624 7 hcell).2⟩

end RgMemory
