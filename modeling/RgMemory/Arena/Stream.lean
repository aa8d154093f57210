import Mathlib.Data.Nat.Count
import RgMemory.Arena.Commit

/-!
# Streaming through an arena

`rgArenaDecommitFront` gives the front pages of an arena back and leaves a hole there. It is for
filter-compaction: a client walks a source arena from the front, copies what survives into a
destination arena, and releases the source behind its cursor, so that the two together hold about as
much memory as the source did.

`Stream` is a client that does so, with every choice left open: what it keeps, how large the records
are, when it releases and up to where, and what the operating system answers. `Stream.run` is `none`
when an access traps. The invariant (`Stream.Sound`) says that the source is as it was from the
cursor on and can be accessed exactly from the last page that was released, whatever the destination
does meanwhile.
-/

namespace RgMemory

open Bytes Align

/-- Release the pages that lie entirely below `upToOffset`. What `madvise` and `mprotect` answer is
ignored. -/
def rgArenaDecommitFront (page : Nat) (os : OsReply) (s : ArenaState) (upToOffset : Nat) :
    ArenaState :=
  if !rgmArenaIsLive s.toArena then s
  else if s.backing = .file then s
  else
    let mask := u64Not (u64Sub page 1)
    let last := upToOffset &&& mask
    let last := if last > s.committed then s.committed &&& mask else last
    if last = 0 then s
    else (rgmVmProtectNone os (rgmVmDiscard os s s.base last) s.base last).2

/-- `n` rounded down to whole pages. -/
def pageFloor (page n : Nat) : Nat := n - n % page

theorem pageFloor_le (page n : Nat) : pageFloor page n ≤ n := Nat.sub_le ..

theorem lt_pageFloor_add {page : Nat} (hpage : 0 < page) (n : Nat) :
    n < pageFloor page n + page := by
  have hmod := Nat.mod_lt n hpage
  unfold pageFloor
  omega

theorem dvd_pageFloor (page n : Nat) : page ∣ pageFloor page n := Nat.dvd_sub_mod n

/-- The largest whole number of pages. -/
theorem le_pageFloor {page m n : Nat} (hdvd : page ∣ m) (hle : m ≤ n) : m ≤ pageFloor page n := by
  obtain ⟨j, rfl⟩ := hdvd
  rcases Nat.eq_zero_or_pos page with rfl | hpage
  · rw [Nat.zero_mul]
    exact Nat.zero_le _
  · have hdiv : j ≤ n / page := by
      rw [Nat.le_div_iff_mul_le hpage, Nat.mul_comm]
      exact hle
    have hmul := Nat.mul_le_mul_left page hdiv
    have hsplit := Nat.div_add_mod n page
    unfold pageFloor
    omega

theorem pageFloor_mono (page : Nat) {m n : Nat} (hle : m ≤ n) :
    pageFloor page m ≤ pageFloor page n :=
  le_pageFloor (dvd_pageFloor page m) (Nat.le_trans (pageFloor_le page m) hle)

theorem pageFloor_max (page m n : Nat) :
    pageFloor page (max m n) = max (pageFloor page m) (pageFloor page n) := by
  rcases Nat.le_total m n with hle | hle
  · rw [Nat.max_eq_right hle, Nat.max_eq_right (pageFloor_mono page hle)]
  · rw [Nat.max_eq_left hle, Nat.max_eq_left (pageFloor_mono page hle)]

/-! ## The front of an arena -/

/-- The first `n` bytes of an arena after a release of them. -/
structure FrontFreed (os : OsReply) (s s' : ArenaState) (n : Nat) : Prop where
  arena : s'.toArena = s.toArena
  mem : ∀ x, Out s.base n x → s'.mem x = s.mem x
  access : ∀ x, s'.access x =
    ((!os.protectOk || !decide (s.base ≤ x ∧ x < s.base + n)) && s.access x)

/-- Exactly the whole pages below the offset, and below the committed size, are released. -/
theorem rgArenaDecommitFront_freed {page : Nat} (hpage : IsPageSize page) (os : OsReply)
    {s : ArenaState} (hlive : 0 < s.base) (hanon : s.backing = .anon)
    (hword : s.committed < 2 ^ 64) (upTo : BitVec 64) :
    FrontFreed os s (rgArenaDecommitFront page os s upTo.toNat)
      (pageFloor page (min upTo.toNat s.committed)) := by
  obtain ⟨k, hk, rfl⟩ := hpage
  have hmask : ∀ n, n < 2 ^ 64 → n &&& u64Not (u64Sub (2 ^ k) 1) = pageFloor (2 ^ k) n := by
    intro n hn
    rw [u64Sub_of_le (Nat.two_pow_pos k) (pow_lt_word hk), u64Not]
    exact land_sub_mask hn (Nat.le_of_lt hk)
  have hlast : (if pageFloor (2 ^ k) upTo.toNat > s.committed then pageFloor (2 ^ k) s.committed
      else pageFloor (2 ^ k) upTo.toNat) = pageFloor (2 ^ k) (min upTo.toNat s.committed) := by
    have hle := pageFloor_le (2 ^ k) upTo.toNat
    rcases Nat.le_total upTo.toNat s.committed with hup | hup
    · rw [Nat.min_eq_left hup, if_neg (by omega)]
    · rw [Nat.min_eq_right hup]
      split
      · rfl
      · next hge =>
        exact Nat.le_antisymm (le_pageFloor (dvd_pageFloor _ _) (by omega)) (pageFloor_mono _ hup)
  have hgo : ¬ (!rgmArenaIsLive s.toArena) = true := by
    simp only [rgmArenaIsLive, ne_eq, Nat.ne_of_gt hlive, not_false_eq_true, decide_true,
      Bool.not_true, Bool.false_eq_true]
  have hfile : ¬ s.backing = .file := by
    rw [hanon]
    exact fun h => by cases h
  unfold rgArenaDecommitFront
  rw [if_neg hgo, if_neg hfile]
  dsimp only
  rw [hmask _ upTo.isLt, hmask _ hword, hlast]
  by_cases hzero : pageFloor (2 ^ k) (min upTo.toNat s.committed) = 0
  · rw [if_pos hzero, hzero]
    refine ⟨rfl, fun _ _ => rfl, fun x => ?_⟩
    have hnone : decide (s.base ≤ x ∧ x < s.base + 0) = false := decide_eq_false (by omega)
    rw [hnone, Bool.not_false, Bool.or_true, Bool.true_and]
  · rw [if_neg hzero]
    unfold rgmVmProtectNone
    cases hok : os.protectOk with
    | false =>
      rw [if_neg Bool.false_ne_true]
      refine ⟨rfl, fun x hx => ?_, fun x => ?_⟩
      · exact copy_out s.mem (fun i => os.fill (s.base + i)) hx
      · rw [hok]
        rfl
    | true =>
      rw [if_pos rfl]
      refine ⟨rfl, fun x hx => ?_, fun x => ?_⟩
      · exact copy_out s.mem (fun i => os.fill (s.base + i)) hx
      · rw [hok]
        rfl

/-! ## The client -/

/-- Two arenas in one memory, how far the client has read the source and how far it has released it,
and the records that it kept: their place in the source and in the destination. -/
structure Stream where
  src : Arena
  dst : Arena
  mem : Mem
  access : Nat → Bool
  cursor : Nat
  released : Nat
  kept : List (Nat × Block)

/-- What the client does: keep the next `n` bytes, pass over them, or release what is consumed. -/
inductive StreamEvent
  | keep (os : OsReply) (n : BitVec 64)
  | skip (n : BitVec 64)
  | release (os : OsReply) (upTo : BitVec 64)

namespace Stream

def source (s : Stream) : ArenaState := ⟨s.src, s.mem, s.access⟩

def target (s : Stream) : ArenaState := ⟨s.dst, s.mem, s.access⟩

/-- Every byte of the range can be accessed. -/
def opened (access : Nat → Bool) (a n : Nat) : Bool := (List.range n).all fun i => access (a + i)

/-- The next `n` bytes lie below the position of the source. -/
def next (s : Stream) (n : Nat) : Bool := decide (s.cursor + n ≤ s.src.pos)

/-- Copy the next `n` bytes into a new block. When there is none, the cursor stays. -/
def copyNext (page : Nat) (s : Stream) (os : OsReply) (n : Nat) : Option Stream :=
  match rgArenaAlloc page os s.target n with
  | (p, t) =>
    if p = 0 then some { s with dst := t.toArena, mem := t.mem, access := t.access }
    else if opened t.access (s.src.base + s.cursor) n && opened t.access p n then
      some { s with
        dst := t.toArena
        mem := copy t.mem p (fun i => t.mem (s.src.base + s.cursor + i)) n
        access := t.access
        cursor := s.cursor + n
        kept := s.kept ++ [(s.cursor, ⟨p, n⟩)] }
    else none

/-- One step, `none` when an access traps. The client stays below the position, and releases only
what it has consumed. -/
def step (page : Nat) (s : Stream) : StreamEvent → Option Stream
  | .keep os n => if s.next n.toNat then s.copyNext page os n.toNat else some s
  | .skip n =>
    if s.next n.toNat then
      if opened s.access (s.src.base + s.cursor) n.toNat then
        some { s with cursor := s.cursor + n.toNat }
      else none
    else some s
  | .release os upTo =>
    if upTo.toNat ≤ s.cursor then
      let a := rgArenaDecommitFront page os s.source upTo.toNat
      some { s with
        src := a.toArena
        mem := a.mem
        access := a.access
        released := if os.protectOk then max s.released upTo.toNat else s.released }
    else some s

def run (page : Nat) (s : Stream) (events : List StreamEvent) : Option Stream :=
  events.foldlM (step page) s

/-- The bytes that were kept. -/
def survived (kept : List (Nat × Block)) : Nat := (kept.map fun r => r.2.size).sum

theorem survived_concat (kept : List (Nat × Block)) (r : Nat × Block) :
    survived (kept ++ [r]) = survived kept + r.2.size := by
  rw [survived, List.map_append, List.sum_append, List.map_singleton, List.sum_singleton]
  rfl

/-- The bytes of the source that can be accessed. -/
def held (s : Stream) : Nat := Nat.count (fun x => s.access (s.src.base + x) = true) s.src.committed

/-- The start: two live arenas apart from each other, nothing read yet. -/
structure Start (page : Nat) (s : Stream) : Prop where
  source : s.source.Ok page
  target : s.target.Ok page
  source_live : 0 < s.src.base
  source_anon : s.src.backing = .anon
  target_live : 0 < s.dst.base
  pages : page ∣ s.dst.reserved
  thrifty : Thrifty s.dst.pos s.target
  apart : Apart s.src.base s.src.reserved s.dst.base s.dst.reserved
  fresh : s.cursor = 0 ∧ s.released = 0 ∧ s.kept = []

/-- The invariant, with the state that the client started from. -/
structure Sound (page : Nat) (s0 s : Stream) : Prop where
  src : s.src = s0.src
  target : s.target.Ok page
  base : s.dst.base = s0.dst.base
  reserved : s.dst.reserved = s0.dst.reserved
  cursor_le : s.cursor ≤ s.src.pos
  released_le : s.released ≤ s.cursor
  ahead : ∀ x, s.cursor ≤ x → x < s.src.committed →
    s.mem (s.src.base + x) = s0.mem (s.src.base + x)
  access : ∀ x, x < s.src.committed →
    s.access (s.src.base + x) = decide (pageFloor page s.released ≤ x)
  old : ∀ x, x < s0.dst.pos → s.mem (s.dst.base + x) = s0.mem (s.dst.base + x)
  pos_ge : s0.dst.pos ≤ s.dst.pos
  copies : ∀ r ∈ s.kept, s.dst.base + s0.dst.pos ≤ r.2.addr ∧
    r.2.addr + r.2.size ≤ s.dst.base + s.dst.pos ∧ r.1 + r.2.size ≤ s.cursor ∧
    ∀ i, i < r.2.size → s.mem (r.2.addr + i) = s0.mem (s.src.base + r.1 + i)
  order : s.kept.Pairwise fun r q => r.1 + r.2.size ≤ q.1 ∧ r.2.addr + r.2.size ≤ q.2.addr
  room : s.dst.pos ≤ s0.dst.pos + survived s.kept + 15 * s.kept.length
  survived_le : survived s.kept ≤ s.cursor
  thrifty : Thrifty s.dst.pos s.target

theorem Start.sound {page : Nat} {s : Stream} (h : s.Start page) : Sound page s s := by
  obtain ⟨hcursor, hreleased, hkept⟩ := h.fresh
  refine ⟨rfl, h.target, rfl, rfl, ?_, ?_, fun _ _ _ => rfl, fun x hx => ?_, fun _ _ => rfl,
    Nat.le_refl _, ?_, ?_, ?_, ?_, h.thrifty⟩
  · rw [hcursor]
    exact Nat.zero_le _
  · rw [hreleased]
    exact Nat.zero_le _
  · have hopen := h.source.opened (s.src.base + x) (Nat.le_add_right _ _)
      (Nat.add_lt_add_left hx _)
    rw [hreleased, pageFloor, Nat.zero_sub]
    exact hopen.trans (decide_eq_true (Nat.zero_le x)).symm
  · rw [hkept]
    exact fun r hr => by cases hr
  · rw [hkept]
    exact .nil
  · rw [hkept]
    exact Nat.le_refl _
  · rw [hkept]
    exact Nat.zero_le _

/-- Where the two arenas lie, which no step changes. -/
structure Fixed (page : Nat) (s0 : Stream) : Prop where
  src_pos : s0.src.pos ≤ s0.src.committed
  src_committed : s0.src.committed ≤ s0.src.reserved
  src_word : s0.src.committed < 2 ^ 64
  src_live : 0 < s0.src.base
  src_anon : s0.src.backing = .anon
  dst_live : 0 < s0.dst.base
  dst_pages : page ∣ s0.dst.reserved
  apart : Apart s0.src.base s0.src.reserved s0.dst.base s0.dst.reserved

theorem Start.fixed {page : Nat} {s : Stream} (h : s.Start page) : Fixed page s := by
  have hfits := h.source.fits
  have hlive := h.source_live
  have hcommitted := h.source.committed_le
  refine ⟨h.source.pos_le, hcommitted, ?_, hlive, h.source_anon, h.target_live, h.pages, h.apart⟩
  change s.src.base + s.src.reserved ≤ 2 ^ 64 at hfits
  change s.src.committed ≤ s.src.reserved at hcommitted
  omega

namespace Sound

variable {page : Nat} {s0 s : Stream}

/-- The source can be read from the cursor on. -/
theorem opened_next (h : Sound page s0 s) (hfix : Fixed page s0) {n : Nat}
    (hn : s.next n = true) : opened s.access (s.src.base + s.cursor) n = true := by
  have hlast := of_decide_eq_true hn
  have hpos := hfix.src_pos
  have hreleased := h.released_le
  have hfloor := pageFloor_le page s.released
  refine List.all_eq_true.mpr fun i hi => ?_
  have hi := List.mem_range.mp hi
  rw [Nat.add_assoc, h.access _ (by rw [h.src] at hlast ⊢; omega)]
  exact decide_eq_true (by omega)

/-- Passing over a record. -/
theorem skip (h : Sound page s0 s) {n : Nat} (hn : s.next n = true) :
    Sound page s0 { s with cursor := s.cursor + n } := by
  have hlast := of_decide_eq_true hn
  have hreleased := h.released_le
  refine ⟨h.src, h.target, h.base, h.reserved, hlast, Nat.le_add_right_of_le hreleased,
    fun x hx hx' => h.ahead x (Nat.le_of_add_right_le hx) hx', h.access, h.old, h.pos_ge,
    fun r hr => ?_, h.order, h.room, Nat.le_add_right_of_le h.survived_le, h.thrifty⟩
  obtain ⟨hlo, hhi, hoff, hbytes⟩ := h.copies r hr
  exact ⟨hlo, hhi, Nat.le_add_right_of_le hoff, hbytes⟩

/-- A byte of the source is outside the destination. -/
theorem src_out (hfix : Fixed page s0) (h : Sound page s0 s) {x : Nat}
    (hx : x < s.src.committed) : Out s.dst.base s.dst.reserved (s.src.base + x) := by
  have hapart := hfix.apart
  have hcommitted := hfix.src_committed
  rw [h.src] at hx ⊢
  rw [h.base, h.reserved]
  unfold Apart at hapart
  unfold Out
  omega

/-- Releasing what has been consumed. -/
theorem release (h : Sound page s0 s) (hpage : IsPageSize page) (hfix : Fixed page s0)
    (os : OsReply) {upTo : BitVec 64} (hup : upTo.toNat ≤ s.cursor) :
    Sound page s0 { s with
      src := (rgArenaDecommitFront page os s.source upTo.toNat).toArena
      mem := (rgArenaDecommitFront page os s.source upTo.toNat).mem
      access := (rgArenaDecommitFront page os s.source upTo.toNat).access
      released := if os.protectOk then max s.released upTo.toNat else s.released } := by
  have hsrc := h.src
  have hpos := hfix.src_pos
  have hcursor := h.cursor_le
  have hcommitted := hfix.src_committed
  have hfreed := rgArenaDecommitFront_freed hpage os (s := s.source)
    (by show 0 < s.src.base; rw [hsrc]; exact hfix.src_live)
    (by show s.src.backing = _; rw [hsrc]; exact hfix.src_anon)
    (by show s.src.committed < _; rw [hsrc]; exact hfix.src_word) upTo
  have hmin : min upTo.toNat s.source.committed = upTo.toNat := by
    refine Nat.min_eq_left ?_
    show upTo.toNat ≤ s.src.committed
    rw [hsrc] at hcursor ⊢
    omega
  rw [hmin] at hfreed
  have hfloor := pageFloor_le page upTo.toNat
  have harena : (rgArenaDecommitFront page os s.source upTo.toNat).toArena = s.src := hfreed.arena
  -- the destination does not see it
  have hout : ∀ x, s.dst.base ≤ x → x < s.dst.base + s.dst.reserved →
      Out s.src.base (pageFloor page upTo.toNat) x := by
    intro x hx hx'
    have hapart := hfix.apart
    rw [h.base] at hx hx'
    rw [h.reserved] at hx'
    rw [hsrc] at hcursor ⊢
    unfold Apart at hapart
    unfold Out
    omega
  have hmem : ∀ x, Out s.src.base (pageFloor page upTo.toNat) x →
      (rgArenaDecommitFront page os s.source upTo.toNat).mem x = s.mem x := hfreed.mem
  have haccess : ∀ x, (rgArenaDecommitFront page os s.source upTo.toNat).access x =
      ((!os.protectOk || !decide (s.src.base ≤ x ∧ x < s.src.base + pageFloor page upTo.toNat)) &&
        s.access x) := hfreed.access
  have htarget := h.target
  have hdpos := h.target.pos_le
  have hdcom := h.target.committed_le
  change s.dst.pos ≤ s.dst.committed at hdpos
  change s.dst.committed ≤ s.dst.reserved at hdcom
  refine ⟨harena.trans hsrc, ?_, h.base, h.reserved, ?_, ?_, fun x hx hx' => ?_,
    fun x hx => ?_, fun x hx => ?_, h.pos_ge, fun r hr => ?_, h.order, h.room,
    h.survived_le, h.thrifty⟩
  · refine ⟨htarget.base_page, htarget.inert, htarget.fits, htarget.pos_le, htarget.committed_le,
      htarget.committed_page, fun x hx hx' => ?_⟩
    change s.dst.base ≤ x at hx
    change x < s.dst.base + s.dst.committed at hx'
    show (rgArenaDecommitFront page os s.source upTo.toNat).access x = true
    have hnone : decide (s.src.base ≤ x ∧ x < s.src.base + pageFloor page upTo.toNat) = false := by
      have hfar := hout x hx (by omega)
      unfold Out at hfar
      exact decide_eq_false (by omega)
    rw [haccess, hnone, Bool.not_false, Bool.or_true, Bool.true_and]
    exact htarget.opened x hx hx'
  · show s.cursor ≤ (rgArenaDecommitFront page os s.source upTo.toNat).pos
    rw [harena]
    exact hcursor
  · show (if os.protectOk then max s.released upTo.toNat else s.released) ≤ s.cursor
    split
    · exact Nat.max_le.mpr ⟨h.released_le, hup⟩
    · exact h.released_le
  · change s.cursor ≤ x at hx
    change x < (rgArenaDecommitFront page os s.source upTo.toNat).committed at hx'
    show (rgArenaDecommitFront page os s.source upTo.toNat).mem
      ((rgArenaDecommitFront page os s.source upTo.toNat).base + x) =
        s0.mem ((rgArenaDecommitFront page os s.source upTo.toNat).base + x)
    rw [harena] at hx' ⊢
    rw [hmem _ (by unfold Out; omega)]
    exact h.ahead x hx hx'
  · change x < (rgArenaDecommitFront page os s.source upTo.toNat).committed at hx
    show (rgArenaDecommitFront page os s.source upTo.toNat).access
      ((rgArenaDecommitFront page os s.source upTo.toNat).base + x) =
        decide (pageFloor page (if os.protectOk then max s.released upTo.toNat else s.released) ≤ x)
    rw [harena] at hx ⊢
    rw [haccess, h.access x hx]
    cases os.protectOk with
    | false => rfl
    | true =>
      rw [if_pos rfl, pageFloor_max]
      simp only [Bool.not_true, Bool.false_or, Nat.max_le]
      by_cases hin : x < pageFloor page upTo.toNat
      · have hhole : decide (s.src.base ≤ s.src.base + x ∧
            s.src.base + x < s.src.base + pageFloor page upTo.toNat) = true :=
          decide_eq_true (by omega)
        rw [hhole, Bool.not_true, Bool.false_and]
        exact (decide_eq_false (by omega)).symm
      · have hnone : decide (s.src.base ≤ s.src.base + x ∧
            s.src.base + x < s.src.base + pageFloor page upTo.toNat) = false :=
          decide_eq_false (by omega)
        rw [hnone, Bool.not_false, Bool.true_and]
        exact decide_eq_decide.mpr ⟨fun hr => ⟨hr, by omega⟩, fun hr => hr.1⟩
  · have hpos_ge := h.pos_ge
    exact (hmem _ (hout _ (Nat.le_add_right ..) (by omega))).trans (h.old x hx)
  · obtain ⟨hlo, hhi, hoff, hbytes⟩ := h.copies r hr
    refine ⟨hlo, hhi, hoff, fun i hi => ?_⟩
    show (rgArenaDecommitFront page os s.source upTo.toNat).mem (r.2.addr + i) =
      s0.mem ((rgArenaDecommitFront page os s.source upTo.toNat).base + r.1 + i)
    rw [harena, hmem _ (hout _ (by omega) (by omega))]
    exact hbytes i hi

/-- Keeping a record, given its block: the destination grows above everything that it held, so
neither the source nor an earlier copy is touched. -/
theorem copied (h : Sound page s0 s) (hfix : Fixed page s0) {t : ArenaState} {p n : Nat}
    (hn : s.next n = true) (hg : Granted page s.target t p n 16)
    (hthrifty : t.committed = s.dst.committed ∨ Thrifty t.pos t) :
    Sound page s0 { s with
      dst := t.toArena
      mem := copy t.mem p (fun i => t.mem (s.src.base + s.cursor + i)) n
      access := t.access
      cursor := s.cursor + n
      kept := s.kept ++ [(s.cursor, ⟨p, n⟩)] } := by
  have hlast := of_decide_eq_true hn
  have hsrc := h.src
  have hbase : t.base = s.dst.base := hg.grown.base
  have hreserved : t.reserved = s.dst.reserved := hg.grown.reserved
  have habove : s.dst.base + s.dst.pos ≤ p := hg.above
  have hnear : p < s.dst.base + s.dst.pos + 16 := hg.near
  have hend := hg.pos
  have htpos := hg.ok.pos_le
  have htcom := hg.ok.committed_le
  have hspos : s.dst.pos ≤ s.dst.committed := h.target.pos_le
  have hscom : s.dst.committed ≤ s.dst.reserved := h.target.committed_le
  have hposge := h.pos_ge
  have hsrcpos := hfix.src_pos
  have hreleased := h.released_le
  have hroom := h.room
  -- the source, whole, and the destination below its position
  have hfar : ∀ x, x < s.src.committed →
      Out (s.dst.base + s.dst.committed) (s.dst.reserved - s.dst.committed) (s.src.base + x) ∧
        Out p n (s.src.base + x) := by
    intro x hx
    have hout := src_out hfix h hx
    unfold Out at hout ⊢
    omega
  have hbelow : ∀ x, x < s.dst.base + s.dst.pos →
      copy t.mem p (fun i => t.mem (s.src.base + s.cursor + i)) n x = s.mem x := by
    intro x hx
    rw [copy_out _ _ (by unfold Out; omega)]
    exact hg.grown.mem x (by unfold Out; exact .inl (by show x < s.dst.base + s.dst.committed; omega))
  have hsame : ∀ x, x < s.src.committed →
      copy t.mem p (fun i => t.mem (s.src.base + s.cursor + i)) n (s.src.base + x) =
        s.mem (s.src.base + x) :=
    fun x hx => (copy_out _ _ (hfar x hx).2).trans (hg.grown.mem _ (hfar x hx).1)
  have hfilled : ∀ i, i < n →
      copy t.mem p (fun i => t.mem (s.src.base + s.cursor + i)) n (p + i) =
        s.mem (s.src.base + (s.cursor + i)) := by
    intro i hi
    rw [copy_in _ _ hi, Nat.add_assoc]
    refine hg.grown.mem _ (hfar _ ?_).1
    rw [hsrc] at hlast ⊢
    omega
  generalize copy t.mem p (fun i => t.mem (s.src.base + s.cursor + i)) n = m at *
  refine ⟨hsrc, ?_, hbase.trans h.base, hreserved.trans h.reserved, hlast,
    Nat.le_add_right_of_le hreleased, fun x hx hx' => ?_, fun x hx => ?_, fun x hx => ?_, ?_,
    fun r hr => ?_, ?_, ?_, ?_, ?_⟩
  · exact ⟨hg.ok.base_page, hg.ok.inert, hg.ok.fits, hg.ok.pos_le, hg.ok.committed_le,
      hg.ok.committed_page, hg.ok.opened⟩
  · change x < s.src.committed at hx'
    exact (hsame x hx').trans (h.ahead x (Nat.le_of_add_right_le hx) hx')
  · change x < s.src.committed at hx
    exact (hg.grown.access _ (hfar x hx).1).trans (h.access x hx)
  · show m (t.base + x) = s0.mem (t.base + x)
    rw [hbase, hbelow _ (by omega)]
    exact h.old x hx
  · show s0.dst.pos ≤ t.pos
    omega
  · show t.base + s0.dst.pos ≤ r.2.addr ∧ r.2.addr + r.2.size ≤ t.base + t.pos ∧
      r.1 + r.2.size ≤ s.cursor + n ∧ _
    rcases List.mem_append.mp hr with hold | hnew
    · obtain ⟨hlo, hhi, hoff, hbytes⟩ := h.copies r hold
      refine ⟨by omega, by omega, by omega, fun i hi => ?_⟩
      exact (hbelow _ (by omega)).trans (hbytes i hi)
    · obtain rfl := List.mem_singleton.mp hnew
      refine ⟨by show t.base + s0.dst.pos ≤ p; omega, by show p + n ≤ _; omega, Nat.le_refl _,
        fun i hi => ?_⟩
      change i < n at hi
      have hin : s.cursor + i < s.src.committed := by
        rw [hsrc] at hlast ⊢
        omega
      show m (p + i) = s0.mem (s.src.base + s.cursor + i)
      rw [hfilled i hi, h.ahead _ (Nat.le_add_right ..) hin, Nat.add_assoc]
  · refine List.pairwise_append.mpr ⟨h.order, List.pairwise_singleton .., fun r hr q hq => ?_⟩
    obtain rfl := List.mem_singleton.mp hq
    obtain ⟨-, hhi, hoff, -⟩ := h.copies r hr
    exact ⟨hoff, Nat.le_trans hhi habove⟩
  · show t.pos ≤ s0.dst.pos + survived (s.kept ++ [_]) + 15 * (s.kept ++ [_]).length
    rw [survived_concat, List.length_append, List.length_singleton]
    show t.pos ≤ s0.dst.pos + (survived s.kept + n) + _
    omega
  · show survived (s.kept ++ [_]) ≤ s.cursor + n
    rw [survived_concat]
    exact Nat.add_le_add_right h.survived_le n
  · have hold := h.thrifty
    show Thrifty t.pos _
    rcases hthrifty with hsame | hnew
    · unfold Thrifty at hold ⊢
      change s.dst.committed < _ at hold
      show t.committed < _
      omega
    · exact hnew

/-- A record is kept, or there is no block for it; no access traps. -/
theorem keep (h : Sound page s0 s) (hpage : IsPageSize page) (hsmall : page ≤ rgmCommitMinChunk)
    (hfix : Fixed page s0) (os : OsReply) (n : BitVec 64) (hn : s.next n.toNat = true) :
    ∃ s', s.copyNext page os n.toNat = some s' ∧ Sound page s0 s' := by
  have hres : page ∣ s.dst.reserved := h.reserved ▸ hfix.dst_pages
  have hcom : page ∣ s.dst.committed := by
    rcases h.target.committed_page with hdvd | hfull
    · exact hdvd
    · exact (show s.dst.committed = s.dst.reserved from hfull) ▸ hres
  have hword : s.dst.reserved < 2 ^ 64 := by
    have hfits := h.target.fits
    have hlive := hfix.dst_live
    rw [← h.base] at hlive
    change s.dst.base + s.dst.reserved ≤ 2 ^ 64 at hfits
    omega
  have hthrifty := rgArenaAllocAligned_thrifty hpage hsmall os (s := s.target) hcom hres hword
    n.toNat 16
  unfold copyNext
  rw [rgArenaAlloc_eq]
  rcases rgArenaAllocAligned_cases hpage os h.target n.isLt (by decide : 16 < 2 ^ 64) with
    hnull | ⟨p, t, hok, hg⟩
  · rw [hnull]
    exact ⟨_, if_pos rfl, h⟩
  · rw [hok] at hthrifty ⊢
    have habove : s.dst.base + s.dst.pos ≤ p := hg.above
    have hlive : 0 < s.dst.base := hg.live
    have hread : opened t.access (s.src.base + s.cursor) n.toNat = true := by
      refine List.all_eq_true.mpr fun i hi => ?_
      have hlast := of_decide_eq_true hn
      have hpos := hfix.src_pos
      have hin : s.cursor + i < s.src.committed := by
        have hi := List.mem_range.mp hi
        rw [h.src] at hlast ⊢
        omega
      have hout := src_out hfix h hin
      have hscom : s.dst.committed ≤ s.dst.reserved := h.target.committed_le
      have hsame := hg.grown.access (s.src.base + s.cursor + i)
        (by
          show Out (s.dst.base + s.dst.committed) (s.dst.reserved - s.dst.committed) _
          unfold Out at hout ⊢
          omega)
      exact hsame.trans (List.all_eq_true.mp (h.opened_next hfix hn) i hi)
    have hwrite : opened t.access p n.toNat = true := by
      refine List.all_eq_true.mpr fun i hi => hg.ok.opened _ ?_ ?_
      · rw [show t.base = s.dst.base from hg.grown.base]
        omega
      · have hend := hg.pos
        have htpos := hg.ok.pos_le
        have hi := List.mem_range.mp hi
        omega
    dsimp only
    rw [if_neg (by omega), hread, hwrite, if_pos (by decide)]
    exact ⟨_, rfl, copied h hfix hn hg hthrifty⟩

/-- One step: it returns, and keeps the invariant. -/
theorem step (h : Sound page s0 s) (hpage : IsPageSize page) (hsmall : page ≤ rgmCommitMinChunk)
    (hfix : Fixed page s0) (e : StreamEvent) :
    ∃ s', s.step page e = some s' ∧ Sound page s0 s' := by
  cases e with
  | keep os n =>
    by_cases hn : s.next n.toNat = true
    · obtain ⟨s', hs', hsound⟩ := h.keep hpage hsmall hfix os n hn
      exact ⟨s', (if_pos hn).trans hs', hsound⟩
    · exact ⟨s, if_neg hn, h⟩
  | skip n =>
    by_cases hn : s.next n.toNat = true
    · refine ⟨_, ?_, h.skip hn⟩
      rw [Stream.step, if_pos hn, if_pos (h.opened_next hfix hn)]
    · exact ⟨s, if_neg hn, h⟩
  | release os upTo =>
    by_cases hup : upTo.toNat ≤ s.cursor
    · exact ⟨_, if_pos hup, h.release hpage hfix os hup⟩
    · exact ⟨s, if_neg hup, h⟩

/-- A whole run, by induction on its events. -/
theorem run (h : Sound page s0 s) (hpage : IsPageSize page) (hsmall : page ≤ rgmCommitMinChunk)
    (hfix : Fixed page s0) (events : List StreamEvent) :
    ∃ s', s.run page events = some s' ∧ Sound page s0 s' := by
  induction events generalizing s with
  | nil => exact ⟨s, rfl, h⟩
  | cons e rest ih =>
    obtain ⟨s', hs', hsound⟩ := h.step hpage hsmall hfix e
    obtain ⟨s'', hs'', hsound'⟩ := ih hsound
    refine ⟨s'', ?_, hsound'⟩
    rw [Stream.run, List.foldlM_cons, hs']
    exact hs''

/-- What of the source can be accessed: everything but the whole pages below the last release. -/
theorem held (h : Sound page s0 s) :
    s.held = s.src.committed - pageFloor page s.released := by
  have hcount : ∀ n, n ≤ s.src.committed →
      Nat.count (fun x => s.access (s.src.base + x) = true) n =
        n - pageFloor page s.released := by
    intro n
    induction n with
    | zero =>
      intro _
      rw [Nat.count_zero, Nat.zero_sub]
    | succ n ih =>
      intro hn
      rw [Nat.count_succ, ih (by omega), h.access n (by omega)]
      by_cases hin : pageFloor page s.released ≤ n
      · rw [if_pos (decide_eq_true hin)]
        omega
      · rw [if_neg (by rw [decide_eq_false hin]; exact Bool.false_ne_true)]
        omega
  exact hcount _ (Nat.le_refl _)

end Sound

/-- **Streaming compaction.** Two live arenas apart in one memory, and any run of a client that reads
the first from the front, copies what it keeps into the second, and releases what it has consumed,
whatever the operating system answers. The first is anonymous; the second reserves whole pages, and
at the start it has committed less than one commit step above its position.

No access traps; the control block of the source does not change, and of its committed bytes exactly
those from the last released page on can be accessed. From the cursor on the source reads as it did
at the start, the kept records hold what the source held there, in its order and apart from each other
and from what the second arena held before. The two arenas together take what the source has not
released, up to a page, and in the second what it held before and what was kept, up to the padding of
the records and one commit step. -/
theorem streaming_compaction {page : Nat} (hpage : IsPageSize page)
    (hsmall : page ≤ rgmCommitMinChunk) {s0 : Stream} (hstart : s0.Start page)
    (events : List StreamEvent) :
    ∃ s, s0.run page events = some s ∧
      s.src = s0.src ∧ s.dst.base = s0.dst.base ∧ s.target.Ok page ∧
      s.released ≤ s.cursor ∧ s.cursor ≤ s.src.pos ∧
      (∀ x, s.cursor ≤ x → x < s.src.committed →
        s.mem (s.src.base + x) = s0.mem (s.src.base + x)) ∧
      (∀ x, x < s.src.committed →
        (s.access (s.src.base + x) = true ↔ s.released - s.released % page ≤ x)) ∧
      (∀ x, x < s0.dst.pos → s.mem (s.dst.base + x) = s0.mem (s.dst.base + x)) ∧
      (∀ r ∈ s.kept, s.dst.base + s0.dst.pos ≤ r.2.addr ∧
        r.2.addr + r.2.size ≤ s.dst.base + s.dst.pos ∧ r.1 + r.2.size ≤ s.cursor ∧
        slice s.mem r.2.addr r.2.size = slice s0.mem (s.src.base + r.1) r.2.size) ∧
      (s.kept.Pairwise fun r q =>
        r.1 + r.2.size ≤ q.1 ∧ r.2.addr + r.2.size ≤ q.2.addr) ∧
      survived s.kept ≤ s.cursor ∧
      s.held + s.dst.committed < (s.src.committed - s.released) + page +
        (s0.dst.pos + survived s.kept + 15 * s.kept.length + 64 * 1024 * 1024) := by
  have hfix := hstart.fixed
  obtain ⟨s, hrun, h⟩ := hstart.sound.run hpage hsmall hfix events
  refine ⟨s, hrun, h.src, h.base, h.target, h.released_le, h.cursor_le, h.ahead, fun x hx => ?_,
    h.old, fun r hr => ?_, h.order, h.survived_le, ?_⟩
  · rw [h.access x hx]
    exact decide_eq_true_iff
  · obtain ⟨hlo, hhi, hoff, hbytes⟩ := h.copies r hr
    exact ⟨hlo, hhi, hoff, slice_congr hbytes⟩
  · have hheld := h.held
    have hthrifty : s.dst.committed < s.dst.pos + rgmCommitMaxStep := h.thrifty
    have hstep : rgmCommitMaxStep = 64 * 1024 * 1024 := rfl
    have hroom := h.room
    have hpos : 0 < page := by
      obtain ⟨k, -, rfl⟩ := hpage
      exact Nat.two_pow_pos k
    have hfloor := lt_pageFloor_add hpos s.released
    omega

/-- A source of two pages and an empty destination. -/
def sample : Stream where
  src := ⟨4096, 8192, 8192, 5000, .anon⟩
  dst := ⟨65536, 65536, 0, 0, .anon⟩
  mem x := BitVec.ofNat 8 (x / 8)
  access x := decide (4096 ≤ x ∧ x < 12288)
  cursor := 0
  released := 0
  kept := []

/-- Keep a record of 20 bytes, pass over the rest of the first page and a little more, release it,
and keep another record. -/
def sampleStream : List StreamEvent :=
  let os : OsReply := ⟨0, true, true, fun _ => 0⟩
  [.keep os 20, .skip 4100, .release os 4110, .keep os 8]

theorem sample_start : sample.Start 4096 where
  source := ⟨by decide, by decide, by decide, by decide, by decide, by decide, fun x hx hx' =>
    decide_eq_true ⟨hx, hx'⟩⟩
  target := ⟨by decide, by decide, by decide, by decide, by decide, by decide, fun x hx hx' => by
    change 65536 ≤ x at hx
    change x < 65536 + 0 at hx'
    omega⟩
  source_live := by decide
  source_anon := rfl
  target_live := by decide
  pages := by decide
  thrifty := by unfold Thrifty; decide
  apart := by unfold Apart; decide
  fresh := ⟨rfl, rfl, rfl⟩

theorem sample_page : IsPageSize 4096 := ⟨12, by decide, rfl⟩

theorem sample_compaction :
    ∃ s, sample.run 4096 sampleStream = some s ∧
      slice s.mem 65568 8 = slice sample.mem (4096 + 4120) 8 ∧ s.access 4096 = false ∧
      s.access 8192 = true := by
  obtain ⟨s, hrun, hsrc, hbase, -, -, -, -, haccess, -, hkept, -⟩ :=
    streaming_compaction sample_page (by decide) sample_start sampleStream
  have hlist : (sample.run 4096 sampleStream).map (fun s => (s.kept, s.released)) =
      some ([(0, ⟨65536, 20⟩), (4120, ⟨65568, 8⟩)], 4110) := by decide +kernel
  rw [hrun] at hlist
  obtain ⟨hk, hr⟩ := Prod.mk.inj (Option.some.inj hlist)
  have hcommitted : s.src.committed = 8192 := congrArg Arena.committed hsrc
  have hb : s.src.base = 4096 := congrArg Arena.base hsrc
  refine ⟨s, hrun, ?_, ?_, ?_⟩
  · have hbytes := (hkept (4120, ⟨65568, 8⟩) (by rw [hk]; exact .tail _ (.head _))).2.2.2
    rwa [hb] at hbytes
  · have hzero := haccess 0 (by omega)
    rw [hb, hr] at hzero
    exact Bool.eq_false_iff.mpr fun h => absurd (hzero.mp h) (by decide)
  · have hpage := haccess 4096 (by omega)
    rw [hb, hr] at hpage
    exact hpage.mpr (by decide)

end Stream

end RgMemory
