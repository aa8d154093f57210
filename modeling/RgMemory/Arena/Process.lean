import Mathlib.Logic.Relation
import RgMemory.Arena.Inside
import RgMemory.Arena.Shared

/-!
# The arenas of a process

A process holds any number of arenas, reserved or over files, and the operating system answers each
of its calls as it likes. `Process.Step` has one constructor for each kind of call. What is done in an
arena, be it by an allocation, a container or the client, is a `work` step: it stays inside the
reservation (`Inside`), which `Arena.Inside` proves of the calls.

`Accounted` is the invariant of a run. Every mapping that the process did not start with belongs to
exactly one live arena, and no descriptor is left open.
-/

namespace RgMemory

open Bytes Files

/-- A process: its host, and the control blocks of its arenas. -/
structure Process (ν α : Type) where
  host : Host ν
  arena : α → Arena

/-- The calls of a process on one of its arenas. -/
inductive ProcessCall (ν : Type)
  | create (os : OsReply) (arenaSize : BitVec 64)
  | createShared (os : FileReply) (path : Option ν) (arenaSize : BitVec 64)
  | createSharedTemp (os : FileReply) (path : Option ν) (arenaSize : BitVec 64)
  | openShared (os : FileReply) (path : Option ν) (readOnly : Bool)
  | flush
  | destroy
  | work (r : Region) (s : ArenaState)

namespace Process

section

variable {ν α : Type} [DecidableEq ν] [DecidableEq α] (page : Nat) (p : Process ν α) (a : α)

/-- An arena, in the address space of the process. -/
def view : ArenaState := ⟨p.arena a, p.host.load, p.host.access⟩

def set (hb : Host ν × Arena) : Process ν α := ⟨hb.1, Function.update p.arena a hb.2⟩

/-- The arena becomes `s`, whose bytes go to the mapping `r`. -/
def absorb (r : Region) (s : ArenaState) : Process ν α :=
  p.set a ({ p.host.write r s.mem with access := s.access }, s.toArena)

/-- `rgArenaCreate` maps private memory. -/
def reserve (os : OsReply) (arenaSize : Nat) : Status × Process ν α :=
  match rgArenaCreate page os (p.view a) arenaSize with
  | (.ok, s) =>
    let r : Region := ⟨s.base, s.reserved, none, true⟩
    (.ok, { p with host := p.host.addRegion r }.absorb a r s)
  | (e, _) => (e, p)

/-- The answer of a call on a file is the status, the host and the control block. -/
def answered (answer : Status × Host ν × Arena) : Status × Process ν α := (answer.1, p.set a answer.2)

def call : ProcessCall ν → Status × Process ν α
  | .create os n => p.reserve page a os n.toNat
  | .createShared os path n => p.answered a (rgArenaCreateShared page os p.host (p.arena a) path n.toNat)
  | .createSharedTemp os path n =>
    p.answered a (rgArenaCreateSharedTemp page os p.host (p.arena a) path n.toNat)
  | .openShared os path readOnly => p.answered a (rgArenaOpenShared os p.host (p.arena a) path readOnly)
  | .flush => (.ok, p.set a (rgArenaFlush p.host (p.arena a), p.arena a))
  | .destroy => (.ok, p.set a (rgArenaDestroy p.host (p.arena a)))
  | .work r s => (.ok, p.absorb a r s)

/-- What a call may assume: a creation has an inert control block, the operating system keeps its
word, and work stays inside a mapping that can be written. -/
def Allowed : ProcessCall ν → Prop
  | .create os n => (p.arena a).base = 0 ∧
      (os.reserveBase ≠ 0 → FreeRange page p.host os.reserveBase (rgmAlignUp n.toNat page))
  | .createShared os _ n | .createSharedTemp os _ n => (p.arena a).base = 0 ∧ os.FdFree p.host ∧
      (os.mapBase ≠ 0 → FreeRange page p.host os.mapBase (rgmAlignUp n.toNat page))
  | .openShared os path _ => (p.arena a).base = 0 ∧ os.FdFree p.host ∧
      (os.mapBase ≠ 0 → ∀ q i, path = some q → p.host.names q = some i →
        FreeRange page p.host os.mapBase (p.host.files i).size)
  | .flush => True
  | .destroy => True
  | .work r s => r ∈ p.host.regions ∧ Over (p.arena a) r ∧ Inside (p.view a) s ∧ s.Ok page ∧
      (r.writable = false → s.mem = (p.view a).mem)

end

/-- A process without arenas. -/
def start {ν α : Type} (h : Host ν) : Process ν α := ⟨h, fun _ => ⟨0, 0, 0, 0, .anon⟩⟩

/-- A step: a call that is allowed. -/
inductive Step {ν α : Type} [DecidableEq ν] [DecidableEq α] (page : Nat) :
    Process ν α → Process ν α → Prop
  | call {p : Process ν α} (a : α) {c : ProcessCall ν} (allowed : p.Allowed page a c) :
      Step page p (p.call page a c).2

/-! ## The invariant -/

/-- Of the mappings, each is there since the start or belongs to a live arena, and no two overlap. -/
structure Accounted {ν α : Type} (page : Nat) (h0 : Host ν) (p : Process ν α) : Prop where
  wf : p.host.Wf
  fds : p.host.fds = h0.fds
  ok : ∀ a, (p.view a).Ok page
  full : ∀ a, (p.arena a).backing = .file → (p.arena a).committed = (p.arena a).reserved
  mapping : ∀ a, 0 < (p.arena a).base →
    0 < (p.arena a).reserved ∧ ∃ r ∈ p.host.regions, Over (p.arena a) r
  apart : ∀ a b, a ≠ b → 0 < (p.arena a).base → 0 < (p.arena b).base →
    Apart (p.arena a).base (p.arena a).reserved (p.arena b).base (p.arena b).reserved
  clear : ∀ a, 0 < (p.arena a).base → ∀ r ∈ h0.regions,
    Apart (p.arena a).base (p.arena a).reserved r.base r.len
  old : ∀ r ∈ h0.regions, r ∈ p.host.regions
  owner : ∀ r ∈ p.host.regions,
    r ∈ h0.regions ∨ ∃ a, 0 < (p.arena a).base ∧ Over (p.arena a) r

namespace Accounted

variable {ν α : Type} {page : Nat} {h0 h' : Host ν} {p : Process ν α} {a : α}

theorem start (hwf : h0.Wf) : (start h0 : Process ν α).Accounted page h0 where
  wf := hwf
  fds := rfl
  ok _ := ⟨Nat.dvd_zero _, fun _ => rfl, Nat.zero_le _, Nat.le_refl _, Nat.le_refl _, .inr rfl,
    fun x _ hx => absurd hx (Nat.not_lt_zero x)⟩
  full _ _ := rfl
  mapping _ hlive := absurd hlive (Nat.lt_irrefl 0)
  apart _ _ _ hlive := absurd hlive (Nat.lt_irrefl 0)
  clear _ hlive := absurd hlive (Nat.lt_irrefl 0)
  old _ hr := hr
  owner _ hr := .inl hr

section

variable [DecidableEq α]

/-- A step at one arena, by what becomes of its control block and of the mappings. -/
theorem step (h : p.Accounted page h0) {c : Arena} (hwf : h'.Wf) (hfds : h'.fds = p.host.fds)
    (hok : (⟨c, h'.load, h'.access⟩ : ArenaState).Ok page)
    (hfull : c.backing = .file → c.committed = c.reserved)
    (haccess : ∀ b, b ≠ a → 0 < (p.arena b).base → ∀ x, (p.arena b).base ≤ x →
      x < (p.arena b).base + (p.arena b).reserved → h'.access x = p.host.access x)
    (hmapping : 0 < c.base → 0 < c.reserved ∧ ∃ r ∈ h'.regions, Over c r)
    (hapart : 0 < c.base → ∀ b, b ≠ a → 0 < (p.arena b).base →
      Apart c.base c.reserved (p.arena b).base (p.arena b).reserved)
    (hclear : 0 < c.base → ∀ r ∈ h0.regions, Apart c.base c.reserved r.base r.len)
    (hkeep : ∀ r ∈ p.host.regions,
      (r ∈ h0.regions ∨ ∃ b, b ≠ a ∧ 0 < (p.arena b).base ∧ Over (p.arena b) r) → r ∈ h'.regions)
    (howner : ∀ r ∈ h'.regions, 0 < c.base ∧ Over c r ∨
      r ∈ h0.regions ∨ ∃ b, b ≠ a ∧ 0 < (p.arena b).base ∧ Over (p.arena b) r) :
    (p.set a (h', c)).Accounted page h0 := by
  have hself : (p.set a (h', c)).arena a = c := Function.update_self ..
  have hother : ∀ {b}, b ≠ a → (p.set a (h', c)).arena b = p.arena b := fun hb =>
    Function.update_of_ne hb ..
  refine ⟨hwf, hfds.trans h.fds, fun b => ?ok, fun b => ?full, fun b => ?mapping,
    fun b b' => ?apart, fun b => ?clear, fun r hr => ?old, fun r hr => ?owner⟩
  case ok =>
    by_cases hb : b = a
    · subst hb
      rw [view, hself]
      exact hok
    · have hb' := h.ok b
      rw [view, hother hb]
      refine ⟨hb'.base_page, hb'.inert, hb'.fits, hb'.pos_le, hb'.committed_le, hb'.committed_page,
        fun x hx hx' => ?_⟩
      have hle := hb'.committed_le
      by_cases hlive : 0 < (p.arena b).base
      · change h'.access x = true
        rw [haccess b hb hlive x hx (Nat.lt_of_lt_of_le hx' (Nat.add_le_add_left hle _))]
        exact hb'.opened x hx hx'
      · -- an inert arena has no pages
        have hbase : (p.view b).base = 0 := Nat.eq_zero_of_not_pos hlive
        have hzero := hb'.inert hbase
        change x < (p.view b).base + (p.view b).committed at hx'
        omega
  case full =>
    by_cases hb : b = a
    · subst hb
      rw [hself]
      exact hfull
    · rw [hother hb]
      exact h.full b
  case mapping =>
    by_cases hb : b = a
    · subst hb
      rw [hself]
      exact hmapping
    · rw [hother hb]
      intro hlive
      obtain ⟨hpos, r, hr, hover⟩ := h.mapping b hlive
      exact ⟨hpos, r, hkeep r hr (.inr ⟨b, hb, hlive, hover⟩), hover⟩
  case apart =>
    intro hne
    by_cases hb : b = a
    · subst hb
      rw [hself, hother (Ne.symm hne)]
      exact fun hlive => hapart hlive b' (Ne.symm hne)
    · by_cases hb' : b' = a
      · subst hb'
        rw [hself, hother hb]
        exact fun hlive hlive' => (hapart hlive' b hb hlive).symm
      · rw [hother hb, hother hb']
        exact h.apart b b' hne
  case clear =>
    by_cases hb : b = a
    · subst hb
      rw [hself]
      exact hclear
    · rw [hother hb]
      exact h.clear b
  case old => exact hkeep r (h.old r hr) (.inl hr)
  case owner =>
    rcases howner r hr with hc | hold | ⟨b, hb, hover⟩
    · exact .inr ⟨a, by rwa [hself]⟩
    · exact .inl hold
    · exact .inr ⟨b, by rwa [hother hb]⟩

/-- The arena stays where it is, and so do all mappings. -/
theorem stay (h : p.Accounted page h0) {c : Arena} (hwf : h'.Wf) (hfds : h'.fds = p.host.fds)
    (hregions : h'.regions = p.host.regions)
    (hok : (⟨c, h'.load, h'.access⟩ : ArenaState).Ok page)
    (hbase : c.base = (p.arena a).base) (hreserved : c.reserved = (p.arena a).reserved)
    (hbacking : c.backing = (p.arena a).backing)
    (hfull : c.backing = .file → c.committed = c.reserved)
    (haccess : ∀ x, Out (p.arena a).base (p.arena a).reserved x →
      h'.access x = p.host.access x) :
    (p.set a (h', c)).Accounted page h0 := by
  have hover : ∀ r, Over (p.arena a) r → Over c r := fun r hr =>
    ⟨hr.base.trans hbase.symm, hr.len.trans hreserved.symm, hr.file.trans (by rw [hbacking]),
      fun hanon => hr.anon (hbacking ▸ hanon)⟩
  refine h.step hwf hfds hok hfull ?access ?mapping ?apart ?clear ?keep ?owner
  case access =>
    intro b hb hlive x hx hx'
    refine haccess x ?_
    by_cases ha : 0 < (p.arena a).base
    · have hapart := h.apart a b (Ne.symm hb) ha hlive
      unfold Apart at hapart
      unfold Out
      omega
    · have hzero : (p.arena a).reserved = 0 := (h.ok a).inert (Nat.eq_zero_of_not_pos ha)
      unfold Out
      omega
  case mapping =>
    rw [hbase, hreserved, hregions]
    intro hlive
    obtain ⟨hpos, r, hr, hr'⟩ := h.mapping a hlive
    exact ⟨hpos, r, hr, hover r hr'⟩
  case apart =>
    rw [hbase, hreserved]
    exact fun hlive b hb => h.apart a b (Ne.symm hb) hlive
  case clear =>
    rw [hbase, hreserved]
    exact h.clear a
  case keep =>
    intro r hr _
    rwa [hregions]
  case owner =>
    intro r hr
    rw [hregions] at hr
    rcases h.owner r hr with hold | ⟨b, hlive, hb⟩
    · exact .inr (.inl hold)
    · by_cases hba : b = a
      · subst hba
        exact .inl ⟨hbase ▸ hlive, hover r hb⟩
      · exact .inr (.inr ⟨b, hba, hlive, hb⟩)

/-- An inert arena gets a mapping. -/
theorem mapped (h : p.Accounted page h0) {c : Arena} {r : Region} (hinert : (p.arena a).base = 0)
    (hwf : h'.Wf) (hfds : h'.fds = p.host.fds) (hregions : h'.regions = r :: p.host.regions)
    (hok : (⟨c, h'.load, h'.access⟩ : ArenaState).Ok page) (hover : Over c r)
    (hfull : c.backing = .file → c.committed = c.reserved)
    (hfree : FreeRange page p.host r.base r.len) (hlive : 0 < c.base)
    (haccess : ∀ x, ¬ r.Has x → h'.access x = p.host.access x) :
    (p.set a (h', c)).Accounted page h0 := by
  have hne : ∀ {b}, 0 < (p.arena b).base → b ≠ a := by
    rintro b hb rfl
    exact absurd hinert (Nat.ne_of_gt hb)
  have hapart : ∀ b, 0 < (p.arena b).base →
      Apart c.base c.reserved (p.arena b).base (p.arena b).reserved := by
    intro b hb
    obtain ⟨-, r', hr', hover'⟩ := h.mapping b hb
    have := hfree.clear r' hr'
    rwa [hover.base, hover.len, hover'.base, hover'.len] at this
  refine h.step hwf hfds hok hfull ?access ?mapping ?apart ?clear ?keep ?owner
  case access =>
    intro b _ hb x hx hx'
    refine haccess x fun hhas => ?_
    have := hapart b hb
    unfold Apart at this
    unfold Region.Has at hhas
    rw [hover.base, hover.len] at hhas
    omega
  case mapping =>
    intro _
    exact ⟨hover.len ▸ hfree.len_pos, r, hregions ▸ List.mem_cons_self, hover⟩
  case apart => exact fun _ b _ => hapart b
  case clear =>
    intro _ r' hr'
    rw [← hover.base, ← hover.len]
    exact hfree.clear r' (h.old r' hr')
  case keep =>
    intro r' hr' _
    rw [hregions]
    exact List.mem_cons_of_mem _ hr'
  case owner =>
    intro r' hr'
    rw [hregions] at hr'
    rcases List.mem_cons.mp hr' with rfl | hr'
    · exact .inl ⟨hlive, hover⟩
    · rcases h.owner r' hr' with hold | ⟨b, hb, hover'⟩
      · exact .inr (.inl hold)
      · exact .inr (.inr ⟨b, hne hb, hb, hover'⟩)

/-- An arena gives up its mapping. -/
theorem unmapped (h : p.Accounted page h0) (hlive : 0 < (p.arena a).base) :
    (p.set a (p.host.unmap (p.arena a).base (p.arena a).reserved, ⟨0, 0, 0, 0, .anon⟩)).Accounted
      page h0 := by
  have hin : ∀ r, r ∈ (p.host.unmap (p.arena a).base (p.arena a).reserved).regions ↔
      r ∈ p.host.regions ∧ (r.base + r.len ≤ (p.arena a).base ∨
        (p.arena a).base + (p.arena a).reserved ≤ r.base) := by
    intro r
    unfold Host.unmap
    simp only [List.mem_filter, decide_eq_true_eq]
  refine h.step (h.wf.unmap ..) rfl ?ok (fun hb => by cases hb) ?access (fun hz => ?_) (fun hz => ?_)
    (fun hz => ?_) ?keep ?owner
  case ok =>
    exact ⟨Nat.dvd_zero _, fun _ => rfl, Nat.zero_le _, Nat.le_refl _, Nat.le_refl _, .inr rfl,
      fun x _ hx => absurd hx (Nat.not_lt_zero x)⟩
  case access =>
    intro b hb hlive' x hx hx'
    have hapart := h.apart a b (Ne.symm hb) hlive hlive'
    have hout : ¬ ((p.arena a).base ≤ x ∧ x < (p.arena a).base + (p.arena a).reserved) := by
      unfold Apart at hapart
      omega
    show (!decide _ && p.host.access x) = p.host.access x
    rw [decide_eq_false hout]
    rfl
  case keep =>
    intro r hr hkept
    refine (hin r).mpr ⟨hr, ?_⟩
    rcases hkept with hold | ⟨b, hb, hlive', hover⟩
    · have := h.clear a hlive r hold
      unfold Apart at this
      omega
    · have := h.apart a b (Ne.symm hb) hlive hlive'
      rw [hover.base, hover.len]
      unfold Apart at this
      omega
  case owner =>
    intro r hr
    obtain ⟨hr, hapart⟩ := (hin r).mp hr
    rcases h.owner r hr with hold | ⟨b, hlive', hover⟩
    · exact .inr (.inl hold)
    · refine .inr (.inr ⟨b, ?_, hlive', hover⟩)
      -- the mapping of the arena itself is gone
      rintro rfl
      have hpos := (h.mapping b hlive).1
      rw [hover.base, hover.len] at hapart
      omega
  all_goals exact absurd hz (Nat.lt_irrefl 0)

theorem file (h : p.Accounted page h0) [DecidableEq ν] (hinert : (p.arena a).base = 0)
    {path : Option ν} {answer : Status × Host ν × Arena}
    (ho : FileOutcome page p.host (p.arena a) path answer) :
    (p.answered a answer).2.Accounted page h0 := by
  cases ho with
  | @failed e h' ne_ok renamed _ =>
    have hok := h.ok a
    exact h.stay (renamed.wf h.wf) renamed.fds renamed.regions
      ⟨hok.base_page, hok.inert, hok.fits, hok.pos_le, hok.committed_le, hok.committed_page,
        renamed.access ▸ hok.opened⟩ rfl rfl rfl (h.full a) fun x _ => by rw [renamed.access]
  | @mapped h' r i pos renamed file found exists_file live free pos_le =>
    refine h.mapped (r := r) hinert ((renamed.wf h.wf).addRegion ?_ ?_) renamed.fds ?_ ?_ ?_
      (fun _ => rfl) free live ?_
    · intro j hj
      rw [file] at hj
      exact Option.some.inj hj ▸ exists_file
    · rw [renamed.regions]
      exact free.clear
    · rw [← renamed.regions]
      rfl
    · refine ⟨free.page_dvd, fun hz => absurd hz (Nat.ne_of_gt live), free.fits, pos_le,
        Nat.le_refl _, .inr rfl, fun x hx hx' => ?_⟩
      show (decide (r.Has x) || h'.access x) = true
      rw [decide_eq_true (show r.Has x from ⟨hx, hx'⟩)]
      rfl
    · exact ⟨rfl, rfl, by rw [file]; exact ⟨nofun, nofun⟩, nofun⟩
    · intro x hx
      show (decide (r.Has x) || h'.access x) = p.host.access x
      rw [decide_eq_false hx, renamed.access]
      rfl

theorem reserve (h : p.Accounted page h0) (os : OsReply) (n : BitVec 64)
    (hinert : (p.arena a).base = 0)
    (hfree : os.reserveBase ≠ 0 → FreeRange page p.host os.reserveBase (rgmAlignUp n.toNat page)) :
    (p.reserve page a os n.toNat).2.Accounted page h0 := by
  unfold Process.reserve rgArenaCreate
  by_cases hn : n.toNat = 0
  · simp only [hn, if_true]
    exact h
  by_cases hbase : os.reserveBase = 0
  · simp only [hn, hbase, if_true, if_false]
    exact h
  have hfree := hfree hbase
  simp only [hn, hbase, if_false]
  refine h.mapped (r := ⟨os.reserveBase, rgmAlignUp n.toNat page, none, true⟩) hinert ?_ ?_ ?_ ?_
    ⟨rfl, rfl, ⟨fun _ => rfl, fun _ => rfl⟩, fun _ => rfl⟩ nofun hfree (Nat.pos_of_ne_zero hbase) fun x hx => ?_
  · have hadd : (p.host.addRegion ⟨os.reserveBase, rgmAlignUp n.toNat page, none, true⟩).Wf :=
      h.wf.addRegion (fun _ hi => by cases hi) hfree.clear
    exact (hadd.write _ _).congr rfl rfl rfl (Nat.le_refl _)
  · exact Host.write_fds ..
  · exact Host.write_regions ..
  · refine ⟨hfree.page_dvd, fun hz => absurd hz hbase, hfree.fits, Nat.le_refl _, Nat.zero_le _,
      .inl (Nat.dvd_zero _), fun x hx hx' => ?_⟩
    exact absurd hx' (Nat.not_lt.mpr hx)
  · have hout : ¬ (os.reserveBase ≤ x ∧ x < os.reserveBase + rgmAlignUp n.toNat page) := hx
    show (!decide _ && p.host.access x) = p.host.access x
    rw [decide_eq_false hout]
    rfl

theorem flush (h : p.Accounted page h0) :
    (p.set a (rgArenaFlush p.host (p.arena a), p.arena a)).Accounted page h0 := by
  have hok := h.ok a
  have hview : ∀ m, (⟨p.arena a, m, p.host.access⟩ : ArenaState).Ok page := fun m =>
    ⟨hok.base_page, hok.inert, hok.fits, hok.pos_le, hok.committed_le, hok.committed_page,
      hok.opened⟩
  unfold rgArenaFlush
  split
  · exact h.stay h.wf rfl rfl (hview _) rfl rfl rfl (h.full a) fun _ _ => rfl
  · exact h.stay (h.wf.sync ..) rfl rfl (hview _) rfl rfl rfl (h.full a) fun _ _ => rfl

theorem destroy (h : p.Accounted page h0) :
    (p.set a (rgArenaDestroy p.host (p.arena a))).Accounted page h0 := by
  unfold rgArenaDestroy
  by_cases hbase : (p.arena a).base = 0
  · have hinert : rgmArenaIsLive (p.arena a) = false := decide_eq_false (not_not.mpr hbase)
    rw [hinert]
    exact h.stay h.wf rfl rfl (h.ok a) rfl rfl rfl (h.full a) fun _ _ => rfl
  · have hlive : rgmArenaIsLive (p.arena a) = true := decide_eq_true hbase
    rw [hlive, if_neg (by decide)]
    exact h.unmapped (Nat.pos_of_ne_zero hbase)

theorem work (h : p.Accounted page h0) {r : Region} {s : ArenaState}
    (hinside : Inside (p.view a) s) (hok : s.Ok page) : (p.absorb a r s).Accounted page h0 := by
  refine h.stay ((h.wf.write r s.mem).congr rfl rfl rfl (Nat.le_refl _)) (Host.write_fds ..)
    (Host.write_regions ..) ?_ hinside.base hinside.reserved hinside.backing ?_ hinside.access
  · exact ⟨hok.base_page, hok.inert, hok.fits, hok.pos_le, hok.committed_le, hok.committed_page,
      hok.opened⟩
  · intro hfile
    have hfile : (p.arena a).backing = .file := hinside.backing ▸ hfile
    exact hinside.full hfile (h.full a hfile)

variable [DecidableEq ν]

/-- Every call keeps the invariant. -/
theorem call (h : p.Accounted page h0) {c : ProcessCall ν} (hc : p.Allowed page a c) :
    (p.call page a c).2.Accounted page h0 := by
  cases c with
  | create os n => exact h.reserve os n hc.1 hc.2
  | createShared os path n =>
    exact h.file hc.1 (rgArenaCreateShared_outcome h.wf hc.2.1 path n.toNat hc.2.2)
  | createSharedTemp os path n =>
    exact h.file hc.1 (rgArenaCreateSharedTemp_outcome h.wf hc.2.1 path n.toNat hc.2.2)
  | openShared os path readOnly =>
    exact h.file hc.1 (rgArenaOpenShared_outcome h.wf hc.2.1 path readOnly hc.2.2)
  | flush => exact h.flush
  | destroy => exact h.destroy
  | work r s => exact h.work hc.2.2.1 hc.2.2.2.1

/-- So does a run. -/
theorem run (h : p.Accounted page h0) {p' : Process ν α}
    (hrun : Relation.ReflTransGen (Step page) p p') : p'.Accounted page h0 := by
  induction hrun with
  | refl => exact h
  | tail _ hstep ih =>
    cases hstep with
    | call a allowed => exact ih.call allowed

end

end Accounted

end Process

end RgMemory
