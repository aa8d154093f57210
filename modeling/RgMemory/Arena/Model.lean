import RgMemory.Lib.Align
import RgMemory.Lib.Bytes

/-!
# The arena allocator

`rg_arena.c`, function by function. An arena is a bump pointer over one reserved range of addresses;
`committed` bytes of it are backed by pages, `pos` bytes of it are handed out. All arithmetic is
that of `uint64_t`, so each sum that can wrap is written with `u64`.

The operating system is an oracle: a call carries an `OsReply` that says what `mmap`, `mprotect` and
`madvise` answer during it. A commit or a decommit touches the addresses of its range and no others,
which is the part of their contract that the library relies on; within the range the new contents
are the oracle's.

The release build is modelled, where `RGM_ASSERT` and `RGM_FAIL` do nothing. The POSIX branch is the
one embedded: it makes two calls to decommit, so that the second can fail after the first took
effect. A null `Arena*` behaves as the zero-initialised arena does.
-/

namespace RgMemory

open Bytes

/-- The `RGM_ERROR_*` codes of `rg_memory.h`. -/
inductive Status
  | ok
  | errInvalid
  | errOverflow
  | errNoMemory
  | errTooSmall
  | errIo
  | errFormat
  | errNotFound
  deriving DecidableEq, Repr

/-- The kind of memory behind an arena, the field `m_backing`. -/
inductive Backing
  | anon
  | file
  deriving DecidableEq, Repr

/-- The control block of an arena. `base = 0` marks it uninitialised. -/
structure Arena where
  base : Nat
  reserved : Nat
  committed : Nat
  pos : Nat
  backing : Backing

/-- An arena together with the address space it lives in: the byte at each address, and whether the
page that holds it can be accessed. -/
structure ArenaState extends Arena where
  mem : Mem
  access : Nat → Bool

/-- What the operating system answers during one call. `reserveBase` is the result of the reserving
`mmap` (0 when it fails); `fill` is what committed or discarded pages read as afterwards. -/
structure OsReply where
  reserveBase : Nat
  commitOk : Bool
  protectOk : Bool
  fill : Mem

/-- The bytes of the arena, by offset from its base. -/
def ArenaState.img (s : ArenaState) : Mem := fun i => s.mem (s.base + i)

/-- The arena over other memory contents. -/
abbrev ArenaState.setMem (s : ArenaState) (m : Mem) : ArenaState := { s with mem := m }

/-! ## Helpers -/

def rgmArenaDefaultAlign : Nat := 16
def rgmCommitMinChunk : Nat := 64 * 1024
def rgmCommitMaxStep : Nat := 64 * 1024 * 1024
def rgmArenaInvalidSavePoint : Nat := 2 ^ 64 - 1

/-- Round `value` up to a multiple of `align`, a power of two. -/
def rgmAlignUp (value align : Nat) : Nat :=
  u64 (value + u64Sub align 1) &&& u64Not (u64Sub align 1)

/-- The padding that aligns `addr`. -/
def rgmAlignPadding (addr align : Nat) : Nat := u64 (u64Not addr + 1) &&& u64Sub align 1

def rgmArenaIsLive (a : Arena) : Bool := a.base ≠ 0

/-! ## Virtual memory -/

/-- Commit `bytes` from `addr` on: on success the pages of the range can be accessed. -/
def rgmVmCommit (os : OsReply) (s : ArenaState) (addr bytes : Nat) : Bool × ArenaState :=
  if os.commitOk then
    (true, { s with
      mem := copy s.mem addr (fun i => os.fill (addr + i)) bytes
      access := fun x => decide (addr ≤ x ∧ x < addr + bytes) || s.access x })
  else (false, s)

/-- `madvise(DONTNEED)`: the contents of the range are discarded. -/
def rgmVmDiscard (os : OsReply) (s : ArenaState) (addr bytes : Nat) : ArenaState :=
  { s with mem := copy s.mem addr (fun i => os.fill (addr + i)) bytes }

/-- `mprotect(PROT_NONE)`: on success the pages of the range cannot be accessed. -/
def rgmVmProtectNone (os : OsReply) (s : ArenaState) (addr bytes : Nat) : Bool × ArenaState :=
  if os.protectOk then
    (true, { s with access := fun x => !decide (addr ≤ x ∧ x < addr + bytes) && s.access x })
  else (false, s)

section

-- the page size that `sysconf` reports, one number for the whole run
variable (page : Nat)

/-! ## Creation -/

/-- `rgArenaCreate`, which is `rgArenaCreateEx` without flags. The reservation starts inaccessible. -/
def rgArenaCreate (os : OsReply) (s : ArenaState) (arenaSize : Nat) : Status × ArenaState :=
  if arenaSize = 0 then (.errInvalid, s)
  else
    let request := rgmAlignUp arenaSize page
    if os.reserveBase = 0 then (.errNoMemory, s)
    else
      (.ok, { s with
        base := os.reserveBase
        reserved := request
        committed := 0
        pos := 0
        backing := .anon
        mem := copy s.mem os.reserveBase (fun i => os.fill (os.reserveBase + i)) request
        access := fun x =>
          !decide (os.reserveBase ≤ x ∧ x < os.reserveBase + request) && s.access x })

/-! ## Allocation -/

/-- The step of `rgm_arena_ensure_committed` before rounding: the doubled size, capped, then raised
to the request and to the minimum chunk. -/
def raised (double cap required chunk : Nat) : Nat :=
  let target := if double > cap then cap else double
  let target := if target < required then required else target
  if target < chunk then chunk else target

/-- The new committed size that `rgm_arena_ensure_committed` aims for: the raised step rounded up to
pages and clamped to the reservation. -/
def rgmCommitTarget (a : Arena) (required : Nat) : Nat :=
  let target := raised (u64 (a.committed * 2)) (u64 (a.committed + rgmCommitMaxStep)) required
    rgmCommitMinChunk
  let target := rgmAlignUp target page
  if target > a.reserved then a.reserved else target

/-- The commit itself, up to the new committed size `target`. -/
def rgmCommitTo (os : OsReply) (s : ArenaState) (target : Nat) : Bool × ArenaState :=
  match rgmVmCommit os s (s.base + s.committed) (u64Sub target s.committed) with
  | (false, s) => (false, s)
  | (true, s) => (true, { s with committed := target })

/-- Ensure that the pages covering `[0, required)` are committed. -/
def rgmArenaEnsureCommitted (os : OsReply) (s : ArenaState) (required : Nat) : Bool × ArenaState :=
  if required ≤ s.committed then (true, s)
  else if required > s.reserved then (false, s)
  else rgmCommitTo os s (rgmCommitTarget page s.toArena required)

/-- The slow path of every allocation. Callers pass a power of two of at least 8. -/
def rgmArenaAllocInternal (os : OsReply) (s : ArenaState) (size align : Nat) : Nat × ArenaState :=
  if size = 0 then (0, s)
  else
    let padding := rgmAlignPadding (u64 (s.base + s.pos)) align
    let userOff := u64 (s.pos + padding)
    let newPos := u64 (userOff + size)
    if newPos < userOff ∨ newPos > s.reserved then (0, s)
    else
      match rgmArenaEnsureCommitted page os s newPos with
      | (false, s) => (0, s)
      | (true, s) => (s.base + userOff, { s with pos := newPos })

/-- The bump that the three entry points repeat: it succeeds when the allocation fits below
`committed`, and leaves everything else to `slow`. -/
def rgmArenaAllocBump (s : ArenaState) (size align : Nat) (slow : Nat × ArenaState) :
    Nat × ArenaState :=
  let pad := rgmAlignPadding (u64 (s.base + s.pos)) align
  let userOff := u64 (s.pos + pad)
  let newPos := u64 (userOff + size)
  if newPos ≥ userOff ∧ newPos ≤ s.committed then
    (s.base + userOff, { s with pos := newPos })
  else slow

/-- Default-aligned allocation. -/
def rgArenaAlloc (os : OsReply) (s : ArenaState) (size : Nat) : Nat × ArenaState :=
  if !rgmArenaIsLive s.toArena ∨ size = 0 then (0, s)
  else
    rgmArenaAllocBump s size rgmArenaDefaultAlign
      (rgmArenaAllocInternal page os s size rgmArenaDefaultAlign)

/-- Allocation with a caller-chosen alignment; 0 means the default, other values must be powers of
two. The test comes before small values are raised to 8. -/
def rgArenaAllocAligned (os : OsReply) (s : ArenaState) (size alignment : Nat) : Nat × ArenaState :=
  if !rgmArenaIsLive s.toArena ∨ size = 0 then (0, s)
  else if alignment &&& u64Sub alignment 1 ≠ 0 then (0, s)
  else
    let align := if alignment < 8 then 8 else alignment
    rgmArenaAllocBump s size align (rgmArenaAllocInternal page os s size align)

/-- The header-inline copy of `rgArenaAlloc`. Its padding is written as `0 - target`. -/
def rgArenaAllocFast (os : OsReply) (s : ArenaState) (size : Nat) : Nat × ArenaState :=
  if rgmArenaIsLive s.toArena ∧ size ≠ 0 then
    let pad := u64Sub 0 (u64 (s.base + s.pos)) &&& 15
    let userOff := u64 (s.pos + pad)
    let newPos := u64 (userOff + size)
    if newPos ≥ userOff ∧ newPos ≤ s.committed then
      (s.base + userOff, { s with pos := newPos })
    else rgArenaAlloc page os s size
  else rgArenaAlloc page os s size

end

/-! ## Rewinding -/

/-- Rewind the bump pointer by `size` bytes. -/
def rgArenaPop (s : ArenaState) (size : Nat) : ArenaState :=
  if !rgmArenaIsLive s.toArena then s
  else if size > s.pos then s
  else { s with pos := s.pos - size }

/-- `rgArenaPop`, with an assertion on the alignment in debug builds. -/
def rgArenaPopAligned (s : ArenaState) (size _alignment : Nat) : ArenaState := rgArenaPop s size

/-- The current position, as a save point. -/
def rgArenaSave (a : Arena) : Nat := if rgmArenaIsLive a then a.pos else rgmArenaInvalidSavePoint

/-- Rewind to a save point; one that lies ahead is ignored. -/
def rgArenaRestore (s : ArenaState) (save : Nat) : ArenaState :=
  if save = rgmArenaInvalidSavePoint then s
  else if !rgmArenaIsLive s.toArena then s
  else if save > s.pos then s
  else { s with pos := save }

/-- Reset the bump pointer; committed pages stay. -/
def rgArenaClear (s : ArenaState) : ArenaState :=
  if !rgmArenaIsLive s.toArena then s else { s with pos := 0 }

/-! ## Queries -/

def rgArenaIsValid (a : Arena) : Bool := rgmArenaIsLive a
def rgArenaUsed (a : Arena) : Nat := if rgmArenaIsLive a then a.pos else 0
def rgArenaCapacity (a : Arena) : Nat := if rgmArenaIsLive a then a.reserved else 0

/-! ## Shrinking -/

/-- The decommit itself, down to the new committed size `target`. The contents go first; when the
protection call fails after that, the arena keeps its committed size. -/
def rgmShrinkTo (os : OsReply) (s : ArenaState) (target : Nat) : ArenaState :=
  let decommitBase := s.base + target
  let decommitLen := s.committed - target
  let s := rgmVmDiscard os s decommitBase decommitLen
  match rgmVmProtectNone os s decommitBase decommitLen with
  | (false, s) => s
  | (true, s) => { s with committed := target }

/-- Decommit what lies above the position plus `slack`. The two overflow guards retain everything. -/
def rgmArenaShrinkKeep (page : Nat) (os : OsReply) (s : ArenaState) (slack : Nat) : ArenaState :=
  if !rgmArenaIsLive s.toArena then s
  else if s.backing = .file then s
  else
    let keep := s.pos
    if slack > u64Sub (2 ^ 64 - 1) keep then s
    else
      let newCommitted := rgmAlignUp (u64 (keep + slack)) page
      if newCommitted < keep then s
      else if newCommitted ≥ s.committed then s
      else rgmShrinkTo os s newCommitted

def rgArenaShrink (page : Nat) (os : OsReply) (s : ArenaState) : ArenaState :=
  rgmArenaShrinkKeep page os s 0

def rgArenaShrinkKeep (page : Nat) (os : OsReply) (s : ArenaState) (slack : Nat) : ArenaState :=
  rgmArenaShrinkKeep page os s slack

end RgMemory
