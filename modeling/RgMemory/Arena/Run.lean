import RgMemory.Arena.Alloc

/-!
# Runs of an arena

An arena in use: a sequence of calls, each answered by the operating system as it likes, mixed with
the writes its client makes. `ArenaRun` carries the arena together with the blocks handed out and
not yet rewound past; a rewind drops the blocks that no longer end below the position.

The invariant is `ArenaRun.Sound`. Every call but a creation keeps what lies below the position
(`Kept`), so one lemma (`keep_sound`) covers the calls that rewind or shrink and one
(`grant_sound`) those that allocate. `run_sound` carries the invariant through a run, and
`call_keeps_bytes` says what a call leaves alone.
-/

namespace RgMemory

open Bytes

/-- Bytes handed out to the client. -/
structure Block where
  addr : Nat
  size : Nat
  deriving DecidableEq

/-- A call of the arena API on an anonymous arena. The arguments are arbitrary words. -/
inductive ArenaCall
  | create (arenaSize : BitVec 64)
  | alloc (size : BitVec 64)
  | allocAligned (size alignment : BitVec 64)
  | allocFast (size : BitVec 64)
  | pop (size : BitVec 64)
  | popAligned (size alignment : BitVec 64)
  | save
  | restore (save : BitVec 64)
  | clear
  | shrink
  | shrinkKeep (slack : BitVec 64)

/-- The arena, and the blocks of it that the client holds. -/
structure ArenaRun where
  state : ArenaState
  live : List Block

namespace ArenaRun

/-- After a call: the blocks that end above the position have been rewound past. -/
def keep (r : ArenaRun) (s : ArenaState) : ArenaRun where
  state := s
  live := r.live.filter fun b => b.addr + b.size ≤ s.base + s.pos

/-- After an allocation: the answer, when it is not null, is a block of the requested size. -/
def grant (r : ArenaRun) (size : Nat) (answer : Nat × ArenaState) : ArenaRun where
  state := answer.2
  live :=
    if answer.1 = 0 then (r.keep answer.2).live
    else ⟨answer.1, size⟩ :: (r.keep answer.2).live

/-- After a creation: a fresh arena has no blocks. -/
def renew (r : ArenaRun) (answer : Status × ArenaState) : ArenaRun where
  state := answer.2
  live := if answer.1 = .ok then [] else r.live

/-- One call. `rgArenaSave` only reads. -/
def call (page : Nat) (os : OsReply) (r : ArenaRun) : ArenaCall → ArenaRun
  | .create n => r.renew (rgArenaCreate page os r.state n.toNat)
  | .alloc n => r.grant n.toNat (rgArenaAlloc page os r.state n.toNat)
  | .allocAligned n a => r.grant n.toNat (rgArenaAllocAligned page os r.state n.toNat a.toNat)
  | .allocFast n => r.grant n.toNat (rgArenaAllocFast page os r.state n.toNat)
  | .pop n => r.keep (rgArenaPop r.state n.toNat)
  | .popAligned n a => r.keep (rgArenaPopAligned r.state n.toNat a.toNat)
  | .save => r
  | .restore p => r.keep (rgArenaRestore r.state p.toNat)
  | .clear => r.keep (rgArenaClear r.state)
  | .shrink => r.keep (rgArenaShrink page os r.state)
  | .shrinkKeep n => r.keep (rgArenaShrinkKeep page os r.state n.toNat)

/-- The client writes a byte of a block it holds. -/
def write (r : ArenaRun) (b : Block) (i : Nat) (v : Byte) : ArenaRun :=
  if b ∈ r.live ∧ i < b.size then
    { r with state := { r.state with
      mem := fun x => if x = b.addr + i then v else r.state.mem x } }
  else r

end ArenaRun

/-- A step of a run: a library call, with the answers it gets, or a client write. -/
inductive ArenaEvent
  | call (os : OsReply) (c : ArenaCall)
  | write (b : Block) (i : Nat) (v : Byte)

/-- What the operating system promises: a reservation starts at a page boundary and ends inside the
address space. -/
def OsReply.Honest (page : Nat) (os : OsReply) : ArenaCall → Prop
  | .create n => os.reserveBase ≠ 0 →
      page ∣ os.reserveBase ∧ os.reserveBase + rgmAlignUp n.toNat page ≤ 2 ^ 64
  | _ => True

def ArenaEvent.Honest (page : Nat) : ArenaEvent → Prop
  | .call os c => os.Honest page c
  | .write .. => True

def ArenaRun.step (page : Nat) (r : ArenaRun) : ArenaEvent → ArenaRun
  | .call os c => r.call page os c
  | .write b i v => r.write b i v

/-- A run starts from a zero-initialised control block, over whatever memory there is. -/
def ArenaRun.start (mem : Mem) (access : Nat → Bool) : ArenaRun :=
  ⟨⟨⟨0, 0, 0, 0, .anon⟩, mem, access⟩, []⟩

def ArenaRun.run (page : Nat) (r : ArenaRun) (events : List ArenaEvent) : ArenaRun :=
  events.foldl (ArenaRun.step page) r

/-! ## What a call keeps -/

/-- The reservation is the same one and the bytes below the position are untouched. -/
structure Kept (s s' : ArenaState) : Prop where
  base : s'.base = s.base
  reserved : s'.reserved = s.reserved
  mem : ∀ x, s.base ≤ x → x < s.base + s.pos → s'.mem x = s.mem x

theorem Kept.refl (s : ArenaState) : Kept s s := ⟨rfl, rfl, fun _ _ _ => rfl⟩

section

variable {page : Nat} {s s' : ArenaState}

theorem Granted.kept {p size align : Nat} (hs : s.Ok page) (h : Granted page s s' p size align) :
    Kept s s' := by
  have hpos := hs.pos_le
  exact ⟨h.grown.base, h.grown.reserved, fun x hx hx' =>
    h.grown.mem x (by unfold Out; omega)⟩

/-- Moving the position down is all that a rewind does. -/
theorem ArenaState.Ok.rewound (hs : s.Ok page) {n : Nat} (hn : n ≤ s.pos) :
    { s with pos := n }.Ok page :=
  ⟨hs.base_page, hs.inert, hs.fits, Nat.le_trans hn hs.pos_le, hs.committed_le,
    hs.committed_page, hs.opened⟩

/-- A call that keeps what lies below the position and leaves the arena well formed. -/
def Safe (page : Nat) (s s' : ArenaState) : Prop := s'.Ok page ∧ Kept s s'

theorem safe_refl (hs : s.Ok page) : Safe page s s := ⟨hs, .refl s⟩

theorem safe_rewound (hs : s.Ok page) {n : Nat} (hn : n ≤ s.pos) :
    Safe page s { s with pos := n } :=
  ⟨hs.rewound hn, rfl, rfl, fun _ _ _ => rfl⟩

theorem rgArenaPop_safe (hs : s.Ok page) (size : Nat) : Safe page s (rgArenaPop s size) := by
  unfold rgArenaPop
  split
  · exact safe_refl hs
  · split
    · exact safe_refl hs
    · exact safe_rewound hs (Nat.sub_le _ _)

theorem rgArenaRestore_safe (hs : s.Ok page) (save : Nat) :
    Safe page s (rgArenaRestore s save) := by
  unfold rgArenaRestore
  split
  · exact safe_refl hs
  · split
    · exact safe_refl hs
    · split
      · exact safe_refl hs
      · next hle => exact safe_rewound hs (by omega)

theorem rgArenaClear_safe (hs : s.Ok page) : Safe page s (rgArenaClear s) := by
  unfold rgArenaClear
  split
  · exact safe_refl hs
  · exact safe_rewound hs (Nat.zero_le _)

/-- Discarding and closing the pages from a page boundary above the position on. -/
theorem rgmShrinkTo_safe (os : OsReply) (hs : s.Ok page) {target : Nat} (hpos : s.pos ≤ target)
    (hlt : target < s.committed) (hdvd : page ∣ target) :
    Safe page s (rgmShrinkTo os s target) := by
  have hcom := hs.committed_le
  have hmem : ∀ x, s.base ≤ x → x < s.base + s.pos →
      copy s.mem (s.base + target) (fun i => os.fill (s.base + target + i)) (s.committed - target) x =
        s.mem x := by
    refine fun x _ hx => copy_out _ _ ?_
    unfold Out
    omega
  unfold rgmShrinkTo rgmVmDiscard rgmVmProtectNone
  -- the second call can fail after the first took effect
  cases os.protectOk with
  | false =>
    exact ⟨⟨hs.base_page, hs.inert, hs.fits, hs.pos_le, hs.committed_le, hs.committed_page,
      hs.opened⟩, rfl, rfl, hmem⟩
  | true =>
    refine ⟨⟨hs.base_page, hs.inert, hs.fits, hpos, Nat.le_trans (Nat.le_of_lt hlt) hcom,
      .inl hdvd, fun x hx hx' => ?_⟩, rfl, rfl, hmem⟩
    change s.base ≤ x at hx
    change x < s.base + target at hx'
    have hbelow : decide (s.base + target ≤ x ∧
        x < s.base + target + (s.committed - target)) = false :=
      decide_eq_false (by omega)
    have hopen := hs.opened x hx (by omega)
    simp only [if_true, hbelow, hopen, Bool.not_false, Bool.and_self]

theorem rgmArenaShrinkKeep_safe (hpage : IsPageSize page) (os : OsReply) (hs : s.Ok page)
    (slack : Nat) : Safe page s (rgmArenaShrinkKeep page os s slack) := by
  obtain ⟨k, hk, rfl⟩ := hpage
  unfold rgmArenaShrinkKeep
  split
  · exact safe_refl hs
  · split
    · exact safe_refl hs
    · dsimp only
      split
      · exact safe_refl hs
      · split
        · exact safe_refl hs
        · split
          · exact safe_refl hs
          · next hkeep hlt =>
            exact rgmShrinkTo_safe os hs (by omega) (by omega) (rgmAlignUp_dvd _ hk)

end

/-! ## The invariant -/

/-- A well-formed arena of whole pages, whose live blocks lie below the position and apart from each
other. -/
structure ArenaRun.Sound (page : Nat) (r : ArenaRun) : Prop where
  ok : r.state.Ok page
  pages : page ∣ r.state.reserved
  inside : ∀ b ∈ r.live, 0 < b.size ∧ r.state.base ≤ b.addr ∧
    b.addr + b.size ≤ r.state.base + r.state.pos
  disjoint : r.live.Pairwise fun b c => Apart b.addr b.size c.addr c.size

namespace ArenaRun

variable {page : Nat} {r : ArenaRun}

theorem mem_keep {s : ArenaState} {b : Block} :
    b ∈ (r.keep s).live ↔ b ∈ r.live ∧ b.addr + b.size ≤ s.base + s.pos := by
  unfold keep
  rw [List.mem_filter, decide_eq_true_iff]

theorem keep_sound (hr : r.Sound page) {s : ArenaState} (hs : Safe page r.state s) :
    (r.keep s).Sound page := by
  obtain ⟨hok, hkept⟩ := hs
  refine ⟨hok, ?_, fun b hb => ?_, hr.disjoint.filter _⟩
  · show page ∣ s.reserved
    rw [hkept.reserved]
    exact hr.pages
  · obtain ⟨hlive, hend⟩ := mem_keep.mp hb
    obtain ⟨hsize, hlow, _⟩ := hr.inside b hlive
    refine ⟨hsize, ?_, hend⟩
    show s.base ≤ b.addr
    rwa [hkept.base]

/-- A granted block starts where everything handed out before it ends. -/
theorem grant_sound (hr : r.Sound page) {size align p : Nat} {s : ArenaState}
    (h : Granted page r.state s p size align) : (r.grant size (p, s)).Sound page := by
  have hkept : Kept r.state s := h.kept hr.ok
  have hbase := hkept.base
  have hp : p ≠ 0 := by
    have := h.live
    have := h.above
    omega
  have hlive : (r.grant size (p, s)).live = ⟨p, size⟩ :: (r.keep s).live := if_neg hp
  have hkeep := keep_sound hr ⟨h.ok, hkept⟩
  refine ⟨h.ok, hkeep.pages, fun b hb => ?_, ?_⟩
  · rw [hlive] at hb
    rcases List.mem_cons.mp hb with rfl | hold
    · have hpos := h.pos
      have habove := h.above
      exact ⟨h.size_pos, by show s.base ≤ p; omega, Nat.le_of_eq hpos.symm⟩
    · exact hkeep.inside b hold
  · rw [hlive]
    refine List.pairwise_cons.mpr ⟨fun c hc => .inr ?_, hkeep.disjoint⟩
    exact Nat.le_trans (hr.inside c (mem_keep.mp hc).1).2.2 h.above

/-- An allocation is refused, or granted. -/
theorem allocAligned_sound (hpage : IsPageSize page) (os : OsReply) (hr : r.Sound page)
    (size al : BitVec 64) :
    (r.grant size.toNat (rgArenaAllocAligned page os r.state size.toNat al.toNat)).Sound page := by
  rcases rgArenaAllocAligned_cases hpage os hr.ok size.isLt al.isLt with hnull | ⟨p, s, hok, hg⟩
  · rw [hnull]
    exact keep_sound hr (safe_refl hr.ok)
  · rw [hok]
    exact grant_sound hr hg

theorem create_sound (hpage : IsPageSize page) (os : OsReply) (hr : r.Sound page) (n : BitVec 64)
    (hos : os.Honest page (.create n)) :
    (r.renew (rgArenaCreate page os r.state n.toNat)).Sound page := by
  obtain ⟨k, hk, rfl⟩ := hpage
  unfold rgArenaCreate
  split
  · exact ⟨hr.ok, hr.pages, hr.inside, hr.disjoint⟩
  · split
    · exact ⟨hr.ok, hr.pages, hr.inside, hr.disjoint⟩
    · next _ hbase =>
      obtain ⟨hdvd, hfits⟩ := hos hbase
      refine ⟨⟨hdvd, fun h0 => absurd h0 hbase, hfits, Nat.le_refl 0, Nat.zero_le _,
        .inl (Nat.dvd_zero _), fun x hx hx' => absurd hx' (Nat.not_lt.mpr hx)⟩,
        rgmAlignUp_dvd _ hk, ?_, .nil⟩
      exact fun b hb => absurd hb (List.not_mem_nil (a := b))

theorem call_sound (hpage : IsPageSize page) (os : OsReply) (hr : r.Sound page) (c : ArenaCall)
    (hos : os.Honest page c) : (r.call page os c).Sound page := by
  cases c with
  | create n => exact create_sound hpage os hr n hos
  | alloc n =>
    show (r.grant n.toNat (rgArenaAlloc page os r.state n.toNat)).Sound page
    rw [rgArenaAlloc_eq]
    exact allocAligned_sound hpage os hr n 16
  | allocAligned n a => exact allocAligned_sound hpage os hr n a
  | allocFast n =>
    show (r.grant n.toNat (rgArenaAllocFast page os r.state n.toNat)).Sound page
    rw [rgArenaAllocFast_eq, rgArenaAlloc_eq]
    exact allocAligned_sound hpage os hr n 16
  | pop n => exact keep_sound hr (rgArenaPop_safe hr.ok _)
  | popAligned n a => exact keep_sound hr (rgArenaPop_safe hr.ok _)
  | save => exact hr
  | restore p => exact keep_sound hr (rgArenaRestore_safe hr.ok _)
  | clear => exact keep_sound hr (rgArenaClear_safe hr.ok)
  | shrink => exact keep_sound hr (rgmArenaShrinkKeep_safe hpage os hr.ok _)
  | shrinkKeep n => exact keep_sound hr (rgmArenaShrinkKeep_safe hpage os hr.ok _)

theorem write_sound (hr : r.Sound page) (b : Block) (i : Nat) (v : Byte) :
    (r.write b i v).Sound page := by
  unfold write
  split
  · have hok := hr.ok
    exact ⟨⟨hok.base_page, hok.inert, hok.fits, hok.pos_le, hok.committed_le,
      hok.committed_page, hok.opened⟩, hr.pages, hr.inside, hr.disjoint⟩
  · exact hr

theorem step_sound (hpage : IsPageSize page) (hr : r.Sound page) (e : ArenaEvent)
    (he : e.Honest page) : (r.step page e).Sound page := by
  cases e with
  | call os c => exact call_sound hpage os hr c he
  | write b i v => exact write_sound hr b i v

theorem start_sound (mem : Mem) (access : Nat → Bool) : (start mem access).Sound page := by
  refine ⟨⟨Nat.dvd_zero _, fun _ => rfl, Nat.zero_le _, Nat.le_refl 0, Nat.le_refl 0,
    .inl (Nat.dvd_zero _), fun x hx hx' => absurd hx' (Nat.not_lt.mpr hx)⟩, Nat.dvd_zero _, ?_, .nil⟩
  exact fun b hb => absurd hb (List.not_mem_nil (a := b))

/-- The invariant holds along every run with an honest operating system. -/
theorem run_sound (hpage : IsPageSize page) (hr : r.Sound page) (events : List ArenaEvent)
    (hos : ∀ e ∈ events, e.Honest page) : (r.run page events).Sound page := by
  unfold run
  exact List.foldlRecOn events (step page) hr fun r hr e he => step_sound hpage hr e (hos e he)

theorem allocAligned_kept (hpage : IsPageSize page) (os : OsReply) {s : ArenaState}
    (hs : s.Ok page) (size al : BitVec 64) :
    Kept s (rgArenaAllocAligned page os s size.toNat al.toNat).2 := by
  rcases rgArenaAllocAligned_cases hpage os hs size.isLt al.isLt with hnull | ⟨p, s', hok, hg⟩
  · rw [hnull]
    exact .refl s
  · rw [hok]
    exact hg.kept hs

/-- A call keeps the arena below the position, unless it creates the arena anew. -/
theorem call_kept (hpage : IsPageSize page) (os : OsReply) (hr : r.Sound page) (c : ArenaCall) :
    (r.call page os c).live = [] ∨ Kept r.state (r.call page os c).state := by
  have hs := hr.ok
  cases c with
  | create n =>
    show (r.renew (rgArenaCreate page os r.state n.toNat)).live = [] ∨
      Kept r.state (rgArenaCreate page os r.state n.toNat).2
    unfold rgArenaCreate
    split
    · exact .inr (.refl _)
    · split
      · exact .inr (.refl _)
      · exact .inl rfl
  | alloc n =>
    show _ ∨ Kept r.state (rgArenaAlloc page os r.state n.toNat).2
    rw [rgArenaAlloc_eq]
    exact .inr (allocAligned_kept hpage os hs n 16)
  | allocAligned n a => exact .inr (allocAligned_kept hpage os hs n a)
  | allocFast n =>
    show _ ∨ Kept r.state (rgArenaAllocFast page os r.state n.toNat).2
    rw [rgArenaAllocFast_eq, rgArenaAlloc_eq]
    exact .inr (allocAligned_kept hpage os hs n 16)
  | pop n => exact .inr (rgArenaPop_safe hs _).2
  | popAligned n a => exact .inr (rgArenaPop_safe hs _).2
  | save => exact .inr (.refl _)
  | restore p => exact .inr (rgArenaRestore_safe hs _).2
  | clear => exact .inr (rgArenaClear_safe hs).2
  | shrink => exact .inr (rgmArenaShrinkKeep_safe hpage os hs _).2
  | shrinkKeep n => exact .inr (rgmArenaShrinkKeep_safe hpage os hs _).2

/-- A block that a call does not rewind past keeps its bytes through it. -/
theorem call_keeps_bytes (hpage : IsPageSize page) (os : OsReply) (hr : r.Sound page)
    (c : ArenaCall) {b : Block} (hb : b ∈ r.live) (hb' : b ∈ (r.call page os c).live) :
    slice (r.call page os c).state.mem b.addr b.size = slice r.state.mem b.addr b.size := by
  rcases call_kept hpage os hr c with hnone | hkept
  · rw [hnone] at hb'
    exact absurd hb' List.not_mem_nil
  · have hin := hr.inside b hb
    exact slice_congr fun i hi => hkept.mem _ (by omega) (by omega)

end ArenaRun

/-- **Every run keeps its allocations intact.** After any sequence of calls and client writes the
counters are ordered, whole pages are committed and can be accessed, the live blocks lie below the
position and apart from each other, and the next call changes no byte of those that stay live. -/
theorem arena_run_intact {page : Nat} (hpage : IsPageSize page) (mem : Mem) (access : Nat → Bool)
    (events : List ArenaEvent) (hos : ∀ e ∈ events, e.Honest page) :
    let r := (ArenaRun.start mem access).run page events
    (r.state.pos ≤ r.state.committed ∧ r.state.committed ≤ r.state.reserved) ∧
      page ∣ r.state.committed ∧
      (∀ x, r.state.base ≤ x → x < r.state.base + r.state.committed → r.state.access x = true) ∧
      (∀ b ∈ r.live, 0 < b.size ∧ r.state.base ≤ b.addr ∧
        b.addr + b.size ≤ r.state.base + r.state.pos) ∧
      (r.live.Pairwise fun b c => Apart b.addr b.size c.addr c.size) ∧
      (∀ os c, ∀ b ∈ r.live, b ∈ (r.call page os c).live →
        slice (r.call page os c).state.mem b.addr b.size = slice r.state.mem b.addr b.size) := by
  intro r
  have hr : r.Sound page :=
    ArenaRun.run_sound hpage (ArenaRun.start_sound mem access) events hos
  refine ⟨⟨hr.ok.pos_le, hr.ok.committed_le⟩, ?_, hr.ok.opened, hr.inside, hr.disjoint, ?_⟩
  · rcases hr.ok.committed_page with hdvd | heq
    · exact hdvd
    · rw [heq]
      exact hr.pages
  · exact fun os c b hb hb' => ArenaRun.call_keeps_bytes hpage os hr c hb hb'

/-- An operating system that grants one reservation and every commit, and refuses to decommit. -/
def sampleOs : OsReply := ⟨65536, true, false, fun _ => 0⟩

/-- Two allocations, a rewind past the second, a shrink that fails half way. -/
def sampleEvents : List ArenaEvent :=
  [.call sampleOs (.create 200000), .call sampleOs (.alloc 100),
    .call sampleOs (.allocAligned 90000 4096), .call sampleOs (.restore 100),
    .call sampleOs .shrink]

theorem sampleEvents_honest : ∀ e ∈ sampleEvents, e.Honest 4096 := by
  intro e he
  simp only [sampleEvents, List.mem_cons, List.not_mem_nil, or_false] at he
  rcases he with rfl | rfl | rfl | rfl | rfl
  · exact fun _ => ⟨by decide, by decide⟩
  all_goals trivial

theorem sampleEvents_intact :
    let r := (ArenaRun.start (fun _ => 0) fun _ => false).run 4096 sampleEvents
    r.live = [⟨65536, 100⟩] ∧ 4096 ∣ r.state.committed :=
  ⟨by decide,
    (arena_run_intact ⟨12, by decide, rfl⟩ _ _ sampleEvents sampleEvents_honest).2.1⟩

/-- A live arena of 64 KiB, all of it committed. -/
def sampleArena : ArenaState := ⟨⟨65536, 65536, 65536, 0, .anon⟩, fun _ => 0, fun _ => true⟩

theorem sampleArena_ok : sampleArena.Ok 4096 :=
  ⟨by decide, fun h => absurd h (by decide), by decide, by decide, by decide, .inl (by decide),
    fun _ _ _ => rfl⟩

end RgMemory
