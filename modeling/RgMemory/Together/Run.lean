import RgMemory.Together.Create

/-!
# Containers that share an arena

Hash maps, free lists, dense lists and Bloom filters on one arena, made at any time and used in any
order, with the client's other allocations and its own writes in between. The arena is never
rewound. Each creator takes its buffer from the arena, or is given a block that the client holds and
that no container has.

They do not disturb each other (`containers_undisturbed`): what a container answers and stores is
what it would answer and store alone, called as it was called, and the maps remain the finite maps
of `World`. The argument is that of `Lib.Regions`: a step of `Estate` is a move of components in
regions of one memory (`Estate.Sound.step`).
-/

namespace RgMemory

open Bytes Trie Regions

variable {ι : Type}

/-- Hash maps and containers on one arena. -/
structure Estate (ι : Type) where
  world : World ι
  parts : List Part

/-- A step: of the maps and their client, of a creator, or a call on a container. -/
inductive EstateEvent (ι : Type)
  | map (e : MapEvent ι)
  | create (os : OsReply) (o : PartOrder)
  | createLazy (os : OsReply) (old : FreeList) (blockSize : BitVec 64) (maxBlocks : BitVec 32)
  | createFromMemory (b : Block) (o : PartOrder)
  | call (i : Nat) (e : PartEvent)

/-- What the step was, for the containers. -/
def EstateEvent.label (r : Nat) : EstateEvent ι → Label PartEvent Nat
  | .call i e => .call i e r
  | _ => .other

namespace Estate

/-- The byte is in the buffer of a container. -/
def owned (s : Estate ι) (x : Nat) : Bool :=
  s.parts.any fun p => decide (p.buffer.addr ≤ x ∧ x < p.buffer.addr + p.buffer.size)

/-- The client holds the bytes of the block, and no container has any of them. -/
def spare (s : Estate ι) (b : Block) : Bool :=
  (s.world.client.blocks.any fun c =>
    decide (c.addr ≤ b.addr ∧ b.addr + b.size ≤ c.addr + c.size)) &&
  s.parts.all fun p =>
    decide (p.buffer.addr + p.buffer.size ≤ b.addr ∨ b.addr + b.size ≤ p.buffer.addr)

/-- The client does not write into the buffers of its containers. -/
def refuses (s : Estate ι) : MapEvent ι → Bool
  | .scribble b k _ => s.owned (b.addr + k)
  | _ => false

/-- After a creator: what it made is there, and its buffer is a block of the client. -/
def install (s : Estate ι) : Status × ArenaState × Part → Estate ι
  | (st, arena, part) =>
    if st = .ok then
      ⟨⟨arena, s.world.maps,
        { s.world.client with blocks := part.buffer :: s.world.client.blocks }⟩,
        s.parts ++ [part]⟩
    else ⟨⟨arena, s.world.maps, s.world.client⟩, s.parts⟩

variable [DecidableEq ι]

/-- One step, with the answer of a container; `none` when a call does not return. -/
def step (page : Nat) (s : Estate ι) : EstateEvent ι → Option (Nat × Estate ι)
  | .map e =>
    if s.refuses e then some (0, s)
    else
      match s.world.step page e with
      | .error _ => none
      | .ok (_, world) => some (0, ⟨world, s.parts⟩)
  | .create os o => some (0, s.install (o.create page os s.world.arena))
  | .createLazy os old blockSize maxBlocks =>
    some (0, s.install (createLazy page os s.world.arena old blockSize maxBlocks))
  | .createFromMemory b o =>
    if s.spare b then
      match o.createFromMemory s.world.arena.mem b with
      | (st, m, part) => some (0, s.install (st, s.world.arena.setMem m, part))
    else some (0, s)
  | .call i e =>
    match s.parts[i]? with
    | none => some (0, s)
    | some part =>
      match Part.calls.call part s.world.arena.mem e with
      | none => none
      | some (r, part, m) =>
        some (r, ⟨⟨s.world.arena.setMem m, s.world.maps, s.world.client⟩, s.parts.set i part⟩)

/-- A run, with what its steps were. -/
def run (page : Nat) (s : Estate ι) :
    List (EstateEvent ι) → Option (List (Label PartEvent Nat) × Estate ι)
  | [] => some ([], s)
  | e :: rest =>
    match s.step page e with
    | none => none
    | some (r, s) => (s.run page rest).map fun out => (e.label r :: out.1, out.2)

end Estate

/-- A run starts on an arena with no map and no container. -/
def Estate.start (arena : ArenaState) (maps : ι → HashMap) : Estate ι := ⟨.start arena maps, []⟩

/-- The containers on the memory. -/
def Estate.commons (s : Estate ι) : Commons Nat Byte Part := ⟨s.parts, s.world.arena.mem⟩

/-- The maps are sound, and the containers good, with buffers of their own that the client holds as
blocks. -/
structure Estate.Sound (page : Nat) (s : Estate ι)
    (forests : ι → Fin 4096 → Trie 4 (BitVec 32)) : Prop where
  world : s.world.Sound page forests
  above : s.world.Above
  housed : Housed Part.calls Part.Good s.commons
  held : ∀ p ∈ s.parts, p.buffer ∈ s.world.client.blocks

namespace Estate.Sound

variable {page : Nat} {s : Estate ι} {forests : ι → Fin 4096 → Trie 4 (BitVec 32)}

theorem start {arena : ArenaState} (hok : arena.Ok page) (hlive : 0 < arena.base)
    (haligned : 64 ∣ arena.base) (maps : ι → HashMap) :
    (Estate.start arena maps).Sound page fun _ _ => nil where
  world := .start hok hlive haligned maps
  above := fun b hb => by cases hb
  housed := .nil _ _ _
  held := fun p hp => by cases hp

/-- What a step leaves: a move of the containers, and the invariant. -/
def Steps (page : Nat) (s : Estate ι) (l : Label PartEvent Nat) (s' : Estate ι) : Prop :=
  Move Part.calls Part.Good s.commons l s'.commons ∧ ∃ forests', s'.Sound page forests'

/-- A step that writes to no buffer. -/
theorem write (h : s.Sound page forests) {w : World ι}
    {forests' : ι → Fin 4096 → Trie 4 (BitVec 32)} (hw : w.Sound page forests')
    (habove : w.Above) (hblocks : ∀ b ∈ s.world.client.blocks, b ∈ w.client.blocks)
    (hmem : ∀ p ∈ s.parts, Set.EqOn w.arena.mem s.world.arena.mem p.buffer.bytes) :
    Steps page s .other ⟨w, s.parts⟩ := by
  have hmove : Move Part.calls Part.Good s.commons .other ⟨s.parts, w.arena.mem⟩ :=
    .write fun p hp => Part.calls_region p ▸ hmem p hp
  exact ⟨hmove, forests', hw, habove, h.housed.move Part.calls_local hmove,
    fun p hp => hblocks _ (h.held p hp)⟩

/-- A step that adds a container in a buffer that no one has. -/
theorem add (h : s.Sound page forests) (hpage : IsPageSize page) {w : World ι} {part : Part}
    {forests' : ι → Fin 4096 → Trie 4 (BitVec 32)} (hw : w.Sound page forests')
    (habove : w.Above) (hblocks : w.client.blocks = part.buffer :: s.world.client.blocks)
    (hmem : ∀ p ∈ s.parts, Set.EqOn w.arena.mem s.world.arena.mem p.buffer.bytes)
    (hfresh : part.Fresh page w.arena.mem)
    (hfree : ∀ p ∈ s.parts, Disjoint p.buffer.bytes part.buffer.bytes) :
    Steps page s .other ⟨w, s.parts ++ [part]⟩ := by
  have hmove : Move Part.calls Part.Good s.commons .other ⟨s.parts ++ [part], w.arena.mem⟩ := by
    refine .add (fun p hp => ?_) (Part.good_of_fresh hpage hfresh) fun p hp => ?_
    · rw [Part.calls_region]
      exact hmem p hp
    · rw [Part.calls_region, Part.calls_region]
      exact hfree p hp
  refine ⟨hmove, forests', hw, habove, h.housed.move Part.calls_local hmove, fun p hp => ?_⟩
  rw [hblocks]
  rcases List.mem_append.mp hp with hold | hnew
  · exact List.mem_cons_of_mem _ (h.held p hold)
  · rw [List.mem_singleton.mp hnew]
    exact List.mem_cons_self

/-- Blocks that end before another begins have no byte in common. -/
theorem disjoint_bytes {b c : Block} (h : Apart b.addr b.size c.addr c.size) :
    Disjoint b.bytes c.bytes := by
  refine Set.disjoint_left.mpr fun x hb hc => ?_
  have hb := mem_bytes.mp hb
  have hc := mem_bytes.mp hc
  unfold Apart at h
  omega

/-! ## Creators -/

/-- A creator that takes its buffer from the arena. -/
theorem install (h : s.Sound page forests) (hpage : IsPageSize page) {os : OsReply}
    {out : Status × ArenaState × Part} (hout : PartMade page os s.world.arena out) :
    Steps page s .other (s.install out) := by
  cases hout with
  | refused error =>
    show Steps page s .other (if _ then _ else _)
    rw [if_neg error]
    exact h.write h.world h.above (fun _ hb => hb) fun p _ => Set.eqOn_refl _ _
  | @made s' part built fresh =>
    obtain ⟨al, s1, m, halloc, hne, hlt, rfl, hm⟩ := built
    have hsize : (BitVec.ofNat 64 part.buffer.size).toNat = part.buffer.size := by
      rw [BitVec.toNat_ofNat, Nat.mod_eq_of_lt hlt]
    -- the world after the allocation, and then after the writes into what was allocated
    have hworld := h.world.alloc hpage os (BitVec.ofNat 64 part.buffer.size) al
    have hnext := h.world.alloc_next hpage h.above (.alloc os 0) os
      (BitVec.ofNat 64 part.buffer.size) al
    rw [hsize, halloc] at hworld hnext
    have hnote : s.world.client.noteAlloc part.buffer.size part.buffer.addr =
        { s.world.client with blocks := part.buffer :: s.world.client.blocks } := if_neg hne
    dsimp only at hworld hnext
    rw [hnote] at hworld hnext
    have hwithin := hworld.within (b := part.buffer) List.mem_cons_self hm
    have hapart : ∀ p ∈ s.parts, Disjoint p.buffer.bytes part.buffer.bytes := by
      intro p hp
      have hold := h.world.blocks_below _ (h.held p hp)
      rcases rgArenaAllocAligned_cases hpage os h.world.ok hlt al.isLt with
        hnull | ⟨q, s2, hok, hg⟩
      · rw [hnull] at halloc
        exact absurd (congrArg Prod.fst halloc).symm hne
      · rw [hok] at halloc
        have hq : q = part.buffer.addr := congrArg Prod.fst halloc
        have habove := hg.above
        exact disjoint_bytes (.inl (by omega))
    show Steps page s .other (if _ then _ else _)
    rw [if_pos rfl]
    refine h.add hpage hwithin hnext.above rfl (fun p hp x hx => ?_) fresh hapart
    have hkept := hnext.mem _ (h.held p hp) x hx fun hx => hx
    exact (hm fun hx' => Set.disjoint_left.mp (hapart p hp) hx hx').trans hkept

/-- A spare block lies in a block of the client, apart from every buffer. -/
theorem spare_spec {b : Block} (hspare : s.spare b = true) :
    (∃ c ∈ s.world.client.blocks, c.addr ≤ b.addr ∧ b.addr + b.size ≤ c.addr + c.size) ∧
      ∀ p ∈ s.parts, Apart p.buffer.addr p.buffer.size b.addr b.size := by
  unfold Estate.spare at hspare
  rw [Bool.and_eq_true, List.any_eq_true, List.all_eq_true] at hspare
  obtain ⟨⟨c, hc, hin⟩, hfree⟩ := hspare
  refine ⟨⟨c, hc, of_decide_eq_true hin⟩, fun p hp => ?_⟩
  have hbeside := of_decide_eq_true (hfree p hp)
  exact hbeside

/-- A spare block ends inside the address space. -/
theorem spare_fits (h : s.Sound page forests) {b : Block} (hspare : s.spare b = true) :
    b.addr + b.size ≤ 2 ^ 64 := by
  obtain ⟨⟨c, hc, -, hhi⟩, -⟩ := spare_spec hspare
  have hbelow := h.world.blocks_below c hc
  have hfits := h.world.ok.fits
  have hpos := h.world.ok.pos_le
  have hcommitted := h.world.ok.committed_le
  omega

/-- A creator that is given a block of the client. -/
theorem installFromMemory (h : s.Sound page forests) (hpage : IsPageSize page) {b : Block}
    (hspare : s.spare b = true) {st : Status} {m : Mem} {part : Part}
    (hout : PartPlaced page s.world.arena.mem b (st, m, part)) :
    Steps page s .other (s.install (st, s.world.arena.setMem m, part)) := by
  obtain ⟨⟨c, hc, hlo, hhi⟩, hfree⟩ := spare_spec hspare
  cases hout with
  | refused error =>
    show Steps page s .other (if _ then _ else _)
    rw [if_neg error]
    exact h.write h.world h.above (fun _ hb => hb) fun p _ => Set.eqOn_refl _ _
  | made start size out fresh =>
    have hworld := (h.world.part hc (b := part.buffer) (by omega) (by omega)).within
      (b := part.buffer) List.mem_cons_self out
    have hapart : ∀ p ∈ s.parts, Disjoint p.buffer.bytes part.buffer.bytes := by
      intro p hp
      exact disjoint_bytes ((hfree p hp).mono (Nat.le_refl _) (Nat.le_refl _) (by omega) (by omega))
    have habove := h.above c hc
    show Steps page s .other (if _ then _ else _)
    rw [if_pos rfl]
    refine h.add hpage hworld (fun d hd => ?_) rfl (fun p hp x hx => ?_) fresh hapart
    · rcases List.mem_cons.mp hd with rfl | hold
      · show s.world.arena.base ≤ part.buffer.addr
        omega
      · exact h.above d hold
    · exact out fun hx' => Set.disjoint_left.mp (hapart p hp) hx hx'

/-! ## Steps and runs -/

/-- A call on a container writes inside its buffer. -/
theorem call (h : s.Sound page forests) {i : Nat} {part : Part} (hi : s.parts[i]? = some part)
    (e : PartEvent) :
    ∃ r part' m, Part.calls.call part s.world.arena.mem e = some (r, part', m) ∧
      Steps page s (.call i e r)
        ⟨⟨s.world.arena.setMem m, s.world.maps, s.world.client⟩, s.parts.set i part'⟩ := by
  have hpart := List.mem_of_getElem? hi
  obtain ⟨r, part', m, hcall, -, hregion, hout, -⟩ :=
    Part.calls_local.call (h.housed.good part hpart) e
  have hmove : Move Part.calls Part.Good s.commons (.call i e r) ⟨s.parts.set i part', m⟩ :=
    .call hi hcall
  rw [Part.calls_region] at hout
  refine ⟨r, part', m, hcall, hmove, forests, h.world.within (h.held part hpart) hout, h.above,
    h.housed.move Part.calls_local hmove, fun p hp => ?_⟩
  rcases List.mem_or_eq_of_mem_set hp with hold | rfl
  · exact h.held p hold
  · rw [Part.call_buffer (h.housed.good part hpart) hcall]
    exact h.held part hpart

variable [DecidableEq ι]

/-- A step of the maps and their client writes to no buffer. -/
theorem map (h : s.Sound page forests) (hpage : IsPageSize page) (e : MapEvent ι)
    (hkeeps : s.refuses e = false) :
    ∃ answer w, s.world.step page e = .ok (answer, w) ∧ Steps page s .other ⟨w, s.parts⟩ := by
  obtain ⟨answer, w, hstep, forests', hw⟩ := h.world.step hpage e
  have hnext := h.world.step_next hpage h.above hstep
  refine ⟨answer, w, hstep, h.write hw hnext.above hnext.blocks fun p hp x hx => ?_⟩
  refine hnext.mem _ (h.held p hp) x hx fun hscribble => ?_
  cases e with
  | scribble b k v =>
    obtain rfl : b.addr + k = x := hscribble
    have howned : s.owned (b.addr + k) = true :=
      List.any_eq_true.mpr ⟨p, hp, decide_eq_true (mem_bytes.mp hx)⟩
    exact Bool.noConfusion (howned.symm.trans hkeeps)
  | _ => exact hscribble

/-- Every step returns, is a move of the containers, and keeps the invariant. -/
theorem step (h : s.Sound page forests) (hpage : IsPageSize page) (e : EstateEvent ι) :
    ∃ r s', s.step page e = some (r, s') ∧ Steps page s (e.label r) s' := by
  have hnothing : Steps page s .other s :=
    h.write h.world h.above (fun _ hb => hb) fun p _ => Set.eqOn_refl _ _
  cases e with
  | map e =>
    cases hkeeps : s.refuses e with
    | true => exact ⟨0, s, if_pos hkeeps, hnothing⟩
    | false =>
      obtain ⟨answer, w, hstep, hsteps⟩ := h.map hpage e hkeeps
      refine ⟨0, ⟨w, s.parts⟩, ?_, hsteps⟩
      unfold Estate.step
      dsimp only
      rw [hkeeps, if_neg Bool.false_ne_true, hstep]
  | create os o => exact ⟨0, _, rfl, h.install hpage (create_created hpage h.world.ok o)⟩
  | createLazy os old blockSize maxBlocks =>
    exact ⟨0, _, rfl, h.install hpage (createLazy_created hpage h.world.ok old blockSize maxBlocks)⟩
  | createFromMemory b o =>
    cases hspare : s.spare b with
    | false => exact ⟨0, s, if_neg (by rw [hspare]; exact Bool.false_ne_true), hnothing⟩
    | true =>
      have hplaced : PartPlaced page s.world.arena.mem b
          (o.createFromMemory s.world.arena.mem b) :=
        createFromMemory_placed (h.spare_fits hspare) o
      exact ⟨0, _, if_pos hspare, h.installFromMemory hpage hspare hplaced⟩
  | call i e =>
    cases hi : s.parts[i]? with
    | none =>
      refine ⟨0, s, ?_, .absent hi, forests, h⟩
      unfold Estate.step
      dsimp only
      rw [hi]
    | some part =>
      obtain ⟨r, part', m, hcall, hsteps⟩ := h.call hi e
      refine ⟨r, _, ?_, hsteps⟩
      unfold Estate.step
      dsimp only
      rw [hi]
      dsimp only
      rw [hcall]

/-- A whole run returns, is a series of moves, and keeps the invariant. -/
theorem run (h : s.Sound page forests) (hpage : IsPageSize page)
    (events : List (EstateEvent ι)) :
    ∃ log s', s.run page events = some (log, s') ∧
      Moves Part.calls Part.Good s.commons log s'.commons ∧ ∃ forests', s'.Sound page forests' := by
  induction events generalizing s forests with
  | nil => exact ⟨[], s, rfl, .nil, forests, h⟩
  | cons e rest ih =>
    obtain ⟨r, s1, hstep, hmove, forests1, h1⟩ := h.step hpage e
    obtain ⟨log, s', hrun, hmoves, hsound⟩ := ih h1
    refine ⟨e.label r :: log, s', ?_, .cons hmove hmoves, hsound⟩
    rw [Estate.run, hstep]
    dsimp only
    rw [hrun]
    rfl

/-! ## What holds of every state reached -/

omit [DecidableEq ι] in
/-- What a creator adds is what it made. -/
theorem install_fresh {out : Status × ArenaState × Part}
    (hout : out.1 = .ok → out.2.2.Fresh page out.2.1.mem) {i : Nat} {p : Part}
    (hi : (s.install out).parts[i]? = some p) (hnew : s.parts[i]? = none) :
    p.Fresh page (s.install out).world.arena.mem := by
  obtain ⟨st, arena, part⟩ := out
  by_cases hst : st = .ok
  · have hgo : s.install (st, arena, part) = ⟨⟨arena, s.world.maps,
        { s.world.client with blocks := part.buffer :: s.world.client.blocks }⟩,
        s.parts ++ [part]⟩ := if_pos hst
    rw [hgo] at hi ⊢
    rcases Housed.getElem?_add hi with hold | ⟨-, rfl⟩
    · rw [hnew] at hold
      cases hold
    · exact hout hst
  · have hgo : s.install (st, arena, part) =
        ⟨⟨arena, s.world.maps, s.world.client⟩, s.parts⟩ := if_neg hst
    rw [hgo] at hi
    rw [hnew] at hi
    cases hi

omit [DecidableEq ι] in
theorem fresh_of_made {os : OsReply} {a : ArenaState} {out : Status × ArenaState × Part}
    (hout : PartMade page os a out) (hok : out.1 = .ok) : out.2.2.Fresh page out.2.1.mem := by
  cases hout with
  | refused error => exact absurd hok error
  | made built fresh => exact fresh

omit [DecidableEq ι] in
theorem fresh_of_placed {m : Mem} {b : Block} {out : Status × Mem × Part}
    (hout : PartPlaced page m b out) (hok : out.1 = .ok) : out.2.2.Fresh page out.2.1 := by
  cases hout with
  | refused error => exact absurd hok error
  | made start size out fresh => exact fresh

/-- A container that a step adds is a fresh one. -/
theorem step_fresh (h : s.Sound page forests) (hpage : IsPageSize page) {e : EstateEvent ι}
    {r : Nat} {s' : Estate ι} (hstep : s.step page e = some (r, s')) {i : Nat} {p : Part}
    (hi : s'.parts[i]? = some p) (hnew : s.parts[i]? = none) :
    p.Fresh page s'.world.arena.mem := by
  have hsame : s'.parts = s.parts → p.Fresh page s'.world.arena.mem := by
    intro heq
    rw [heq, hnew] at hi
    cases hi
  cases e with
  | map e =>
    refine hsame ?_
    unfold Estate.step at hstep
    dsimp only at hstep
    split at hstep
    · cases hstep
      rfl
    · split at hstep
      · cases hstep
      · cases hstep
        rfl
  | create os o =>
    cases hstep
    exact install_fresh (fresh_of_made (create_created hpage h.world.ok o)) hi hnew
  | createLazy os old blockSize maxBlocks =>
    cases hstep
    exact install_fresh
      (fresh_of_made (createLazy_created hpage h.world.ok old blockSize maxBlocks)) hi hnew
  | createFromMemory b o =>
    cases hspare : s.spare b with
    | false =>
      have hgo : s.step page (.createFromMemory b o) = some (0, s) :=
        if_neg (by rw [hspare]; exact Bool.false_ne_true)
      rw [hgo] at hstep
      cases hstep
      exact hsame rfl
    | true =>
      have hgo : s.step page (.createFromMemory b o) =
          some (0, s.install ((o.createFromMemory s.world.arena.mem b).1,
            s.world.arena.setMem (o.createFromMemory s.world.arena.mem b).2.1,
            (o.createFromMemory s.world.arena.mem b).2.2)) := if_pos hspare
      rw [hgo] at hstep
      cases hstep
      exact install_fresh
        (fresh_of_placed (createFromMemory_placed (h.spare_fits hspare) o)) hi hnew
  | call j e =>
    unfold Estate.step at hstep
    dsimp only at hstep
    split at hstep
    · cases hstep
      exact hsame rfl
    · split at hstep
      · cases hstep
      · cases hstep
        have hlen := List.getElem?_eq_none_iff.mp hnew
        rw [List.getElem?_eq_none (by rw [List.length_set]; exact hlen)] at hi
        cases hi

omit [DecidableEq ι] in
/-- A cell holds the value that the client knows, outside every buffer. -/
theorem cell (h : s.Sound page forests) {i : ι} {key : List Byte} {p : Nat} {v : BitVec 64}
    (hcell : s.world.client.cells i key = some (p, v)) :
    load64 s.world.arena.mem p = v ∧
      ∀ part ∈ s.parts, ∀ k, k < 8 → p + k ∉ part.buffer.bytes := by
  rw [h.world.cells i key] at hcell
  obtain ⟨a, hfound, hpair⟩ := Option.map_eq_some_iff.mp hcell
  obtain ⟨rfl, rfl⟩ := Prod.mk.inj hpair
  refine ⟨load_valuePtr s.world.arena a, fun part hpart k hk => not_mem_bytes.mpr ?_⟩
  have hapart := h.world.blocks_apart _ (h.held part hpart) i a (mem_of_nodeOf hfound).1
  have hsize : 40 ≤ HashMapNode.extent s.world.arena.img a := Nat.le_add_right ..
  unfold Apart at hapart
  unfold Out ArenaState.valuePtr
  omega

omit [DecidableEq ι] in
theorem buffers_disjoint (h : s.Sound page forests) {i j : Nat} {p q : Part}
    (hi : s.parts[i]? = some p) (hj : s.parts[j]? = some q) (hij : i ≠ j) :
    Disjoint p.buffer.bytes q.buffer.bytes := by
  have happart := h.housed.apart hi hj hij
  rwa [Part.calls_region, Part.calls_region] at happart

end Estate.Sound

/-- **Containers on one arena do not disturb each other.** From any state reached, whatever happens
next, each container ends with the answers, the control block and the bytes that its own calls alone
would have given, from the state it was in; a container that a step adds is a fresh one; the buffers
share no byte with each other or with the cell of a key; and the maps are the finite maps that they
are without the containers. -/
theorem containers_undisturbed [DecidableEq ι] {page : Nat} (hpage : IsPageSize page)
    {arena : ArenaState} (hok : arena.Ok page) (hlive : 0 < arena.base)
    (haligned : 64 ∣ arena.base) (maps : ι → HashMap) (before after : List (EstateEvent ι)) :
    ∃ log0 s log s', (Estate.start arena maps).run page before = some (log0, s) ∧
      s.run page after = some (log, s') ∧
      (∀ (i : Nat) (p : Part), s.parts[i]? = some p → ∃ p' m,
        Part.calls.run p s.world.arena.mem (Label.called i log) =
            some (Label.answered i log, p', m) ∧
          s'.parts[i]? = some p' ∧ p'.buffer.bytes = p.buffer.bytes ∧
          Set.EqOn s'.world.arena.mem m p'.buffer.bytes) ∧
      (∀ e r s1 (i : Nat) (p : Part), s.step page e = some (r, s1) → s1.parts[i]? = some p →
        s.parts[i]? = none → p.Fresh page s1.world.arena.mem) ∧
      (∀ (i j : Nat) (p q : Part), s.parts[i]? = some p → s.parts[j]? = some q → i ≠ j →
        Disjoint p.buffer.bytes q.buffer.bytes) ∧
      (∀ i key p v, s.world.client.cells i key = some (p, v) →
        load64 s.world.arena.mem p = v ∧
          ∀ part ∈ s.parts, ∀ k, k < 8 → p + k ∉ part.buffer.bytes) ∧
      (∀ i key, s.world.client.ready i = true → (key.null = true → key.bytes = []) →
        rgHashMapGet (s.world.maps i) s.world.arena key =
          .ok ((s.world.client.cells i key.bytes).elim 0 Prod.fst)) := by
  obtain ⟨log0, s, hrun0, -, forests0, h0⟩ :=
    (Estate.Sound.start hok hlive haligned maps).run hpage before
  obtain ⟨log, s', hrun, hmoves, -⟩ := h0.run hpage after
  refine ⟨log0, s, log, s', hrun0, hrun, fun i p hp => ?_,
    fun e r s1 i p hstep hi hnew => h0.step_fresh hpage hstep hi hnew,
    fun i j p q hi hj hij => h0.buffers_disjoint hi hj hij, fun i key p v hcell => h0.cell hcell,
    fun i key hready hkey => h0.world.get hready hkey⟩
  have hmirror : Mirrors Part.calls s.commons i p s.world.arena.mem := ⟨hp, Set.eqOn_refl _ _⟩
  obtain ⟨p', m, halone, ⟨hp', hmem⟩, hregion⟩ :=
    hmirror.alone h0.housed Part.calls_local hmoves
  rw [Part.calls_region] at hmem
  rw [Part.calls_region, Part.calls_region] at hregion
  exact ⟨p', m, halone, hp', hregion, hmem.symm⟩

/-- A free list, a map with a key, and a Bloom filter in a block of the client. -/
def sampleBefore : List (EstateEvent Bool) :=
  [.create sampleOs (.freeList ⟨0, 0, 0, 0, 0, 0⟩ 16 4), .map (.init true sampleOs),
    .map (.put true sampleOs ⟨false, [107]⟩), .map (.alloc sampleOs 128),
    .createFromMemory ⟨65648, 64⟩ (.bloom ⟨0, 0, 0, 0⟩ 100 2)]

/-- Calls on all three in turn. -/
def sampleAfter : List (EstateEvent Bool) :=
  [.call 0 (.inl (.inl (.call .alloc))), .map (.store true [107] 7),
    .call 1 (.inr (.add (.u64 41) false)), .call 0 (.inl (.inl (.call .allocFast))),
    .call 1 (.inr (.test (.u64 41))), .call 0 (.inl (.inl (.call .alloc)))]

def sampleEstate : Estate Bool := .start sampleArena fun _ => ⟨false, fun _ => 0⟩

theorem sampleEstate_answers :
    ((sampleEstate.run 4096 sampleBefore).bind fun o => (o.2.run 4096 sampleAfter).map fun q =>
      (o.2.parts.length, Label.answered 0 q.1, Label.answered 1 q.1)) =
      some (2, [65536, 65552, 65568], [0, 1]) := by decide +kernel

/-- The three allocations are answered as they would be with nothing in between. -/
theorem sampleEstate_undisturbed : ∃ s calls p p' m, s.parts[0]? = some p ∧
    Part.calls.run p s.world.arena.mem calls = some ([65536, 65552, 65568], p', m) ∧
    ∃ log0, sampleEstate.run 4096 sampleBefore = some (log0, s) := by
  have hpage : IsPageSize 4096 := ⟨12, by decide, rfl⟩
  obtain ⟨log0, s, log, s', hrun0, hrun, halone, -⟩ := containers_undisturbed hpage sampleArena_ok
    (by decide) (by decide) (fun _ : Bool => ⟨false, fun _ => 0⟩) sampleBefore sampleAfter
  have hanswers := sampleEstate_answers
  rw [show sampleEstate.run 4096 sampleBefore = some (log0, s) from hrun0, Option.bind_some] at hanswers
  dsimp only at hanswers
  rw [hrun, Option.map_some] at hanswers
  obtain ⟨hlen, hanswered⟩ := Prod.mk.inj (Option.some.inj hanswers)
  obtain ⟨hanswered, -⟩ := Prod.mk.inj hanswered
  have hp : s.parts[0]? = some s.parts[0] := List.getElem?_eq_getElem (by omega)
  obtain ⟨p', m, hcalls, -⟩ := halone 0 _ hp
  rw [hanswered] at hcalls
  exact ⟨s, _, _, p', m, hp, hcalls, log0, hrun0⟩

end RgMemory
