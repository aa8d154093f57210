import RgMemory.Arena.Run
import RgMemory.Lib.Files

/-!
# Arenas backed by files

The rest of `rg_arena.c`: `rgm_vm_map_file`, which maps a file, the three entry points that put an
arena over it, the flush and the destruction. The POSIX branch is the one embedded, and any of its
calls may fail at any time (`FileReply`). Permission bits and symbolic links are not modelled, nor the
limit of a 32-bit address space; a null path is `none`.

`rgmVmMapFile_cases` says what a call adds up to. No descriptor stays open. A call that fails leaves
no mapping, and no file that it made has a name; a temporary file never keeps one.
-/

namespace RgMemory

open Bytes Files

/-- What the operating system answers during one call on a file: the descriptor of `open`, whether
`fstat` and `ftruncate` succeed, and the result of `mmap` (0 when it fails). -/
structure FileReply where
  fd : Option Nat
  statOk : Bool
  truncOk : Bool
  mapBase : Nat

/-- `rgm_vm_result`; a base of 0 is a failure. -/
structure VmResult where
  base : Nat
  reserved : Nat
  committed : Nat

section

variable {ν : Type} [DecidableEq ν]

/-- The size of the file behind a descriptor: what `fstat` says, or what `ftruncate` makes it. -/
def rgmVmFileSize (os : FileReply) (h : Host ν) (fd bytes : Nat) (openExisting : Bool) :
    Option Nat × Host ν :=
  if openExisting then
    if !os.statOk || h.length fd = 0 then (none, h) else (some (h.length fd), h)
  else
    match h.resize os.truncOk fd bytes with
    | (false, h) => (none, h)
    | (true, h) => (some bytes, h)

/-- A failure after the `open`; a file that was to stay loses its name. -/
def rgmVmDropFile (h : Host ν) (path : ν) (fd : Nat) (drop : Bool) : VmResult × Host ν :=
  let h := h.close fd
  (⟨0, 0, 0⟩, if drop then h.unlink path else h)

/-- What follows the `open`. -/
def rgmVmMapOpened (os : FileReply) (h : Host ν) (path : ν) (fd bytes : Nat)
    (openExisting readOnly drop : Bool) : VmResult × Host ν :=
  match rgmVmFileSize os h fd bytes openExisting with
  | (none, h) => rgmVmDropFile h path fd drop
  | (some size, h) =>
    match h.mapFile os.mapBase fd size (!readOnly) with
    | (base, h) =>
      if base = 0 then rgmVmDropFile h path fd drop else (⟨base, size, size⟩, h.close fd)

/-- Map a file: create it with `bytes` bytes, or open it as it is. A temporary file must be new, and
loses its name at once. -/
def rgmVmMapFile (os : FileReply) (h : Host ν) (path : ν) (bytes : Nat)
    (openExisting readOnly deleteOnClose : Bool) : VmResult × Host ν :=
  let temp := deleteOnClose && !openExisting
  let create := temp || (!readOnly && !openExisting)
  let trunc := !temp && !readOnly && !openExisting
  match h.openFile os.fd path create temp trunc with
  | (none, h) => (⟨0, 0, 0⟩, h)
  | (some fd, h) =>
    let h := if temp then h.unlink path else h
    rgmVmMapOpened os h path fd bytes openExisting readOnly (!openExisting && !deleteOnClose)

/-- Put an arena over the result of a mapping. -/
def rgmArenaOver (a : Arena) (pos : Nat) : VmResult × Host ν → Status × Host ν × Arena
  | (r, h) =>
    if r.base = 0 then (.errIo, h, a)
    else (.ok, h, ⟨r.base, r.reserved, r.committed, pos, .file⟩)

section

variable (page : Nat) (os : FileReply) (h : Host ν) (a : Arena)

/-- Create an arena over a new file, which stays. -/
def rgArenaCreateShared (path : Option ν) (arenaSize : Nat) : Status × Host ν × Arena :=
  match path with
  | none => (.errInvalid, h, a)
  | some path =>
    if arenaSize = 0 then (.errInvalid, h, a)
    else rgmArenaOver a 0 (rgmVmMapFile os h path (rgmAlignUp arenaSize page) false false false)

/-- Create an arena over a temporary file. -/
def rgArenaCreateSharedTemp (path : Option ν) (arenaSize : Nat) : Status × Host ν × Arena :=
  match path with
  | none => (.errInvalid, h, a)
  | some path =>
    if arenaSize = 0 then (.errInvalid, h, a)
    else rgmArenaOver a 0 (rgmVmMapFile os h path (rgmAlignUp arenaSize page) false false true)

/-- Open an arena over a file; all of it counts as used. -/
def rgArenaOpenShared (path : Option ν) (readOnly : Bool) : Status × Host ν × Arena :=
  match path with
  | none => (.errInvalid, h, a)
  | some path =>
    match rgmVmMapFile os h path 0 true readOnly false with
    | (r, h) => rgmArenaOver a r.reserved (r, h)

end

/-- Write the pages of a file-backed arena to the disk. The source has no answer either; that `msync`
fails is not modelled. -/
def rgArenaFlush (h : Host ν) (a : Arena) : Host ν :=
  if !rgmArenaIsLive a ∨ a.backing ≠ .file then h else h.sync a.base a.committed

/-- Release the address range of an arena, which is inert then. -/
def rgArenaDestroy (h : Host ν) (a : Arena) : Host ν × Arena :=
  if !rgmArenaIsLive a then (h, a) else (h.unmap a.base a.reserved, ⟨0, 0, 0, 0, .anon⟩)

/-! ## What a mapping adds up to -/

/-- The descriptor that `open` gives was free. -/
def FileReply.FdFree (os : FileReply) (h : Host ν) : Prop := ∀ fd, os.fd = some fd → h.fds fd = none

/-- A file of zeros. -/
def zeroFile (size : Nat) : File := ⟨size, fun _ => 0, fun _ => true⟩

/-- The file is open. -/
def opened (h : Host ν) (fd i : Nat) : Host ν := { h with fds := Function.update h.fds fd (some i) }

/-- What a creation leaves: nothing, a file without a name, or a file in its mapping. One that is not
to be kept is new. -/
inductive CreateOutcome (os : FileReply) (h : Host ν) (path : ν) (bytes : Nat) (keep : Bool) :
    VmResult × Host ν → Prop
  | refused : CreateOutcome os h path bytes keep (⟨0, 0, 0⟩, h)
  | dropped {i n : Nat} (target : h.Target path i n) (fresh : keep = false → h.names path = none)
      (size : Nat) : CreateOutcome os h path bytes keep
        (⟨0, 0, 0⟩, h.setFile path none i n (zeroFile size))
  | mapped {i n : Nat} (target : h.Target path i n) (fresh : keep = false → h.names path = none)
      (base : os.mapBase ≠ 0) : CreateOutcome os h path bytes keep
        (⟨os.mapBase, bytes, bytes⟩,
          (h.setFile path (if keep then some i else none) i n (zeroFile bytes)).addRegion
            ⟨os.mapBase, bytes, some i, true⟩)

/-- The file that `open` makes or truncates. -/
theorem openFile_create (h : Host ν) (fd : Nat) (path : ν) (excl : Bool)
    (hexcl : excl = true → h.names path = none) :
    ∃ i n, h.Target path i n ∧ h.openFile (some fd) path true excl (!excl) =
      (some fd, opened (h.setFile path (some i) i n (zeroFile 0)) fd i) := by
  cases hname : h.names path with
  | none =>
    refine ⟨h.next, h.next + 1, .new hname, ?_⟩
    unfold Host.openFile
    rw [hname]
    rfl
  | some i =>
    have hkeep : excl = false := by
      cases excl with
      | false => rfl
      | true => exact absurd (hexcl rfl) (hname ▸ Option.some_ne_none i)
    subst hkeep
    refine ⟨i, h.next, .old hname, ?_⟩
    have hnames : Function.update h.names path (some i) = h.names := by
      rw [← hname, Function.update_eq_self]
    unfold Host.openFile opened Host.setFile
    rw [hname, hnames]
    rfl

/-- `ftruncate` of an open file of zeros. -/
theorem resize_opened (h : Host ν) (path : ν) (name : Option Nat) (ok : Bool) (i n fd bytes : Nat) :
    (opened (h.setFile path name i n (zeroFile 0)) fd i).resize ok fd bytes =
      if ok then (true, opened (h.setFile path name i n (zeroFile bytes)) fd i)
      else (false, opened (h.setFile path name i n (zeroFile 0)) fd i) := by
  have hfd : (opened (h.setFile path name i n (zeroFile 0)) fd i).fds fd = some i :=
    Function.update_self ..
  have hfile : (opened (h.setFile path name i n (zeroFile 0)) fd i).files i = zeroFile 0 :=
    Function.update_self ..
  unfold Host.resize
  rw [hfd]
  cases ok with
  | false => rfl
  | true =>
    have hzero : (fun y => if y < (zeroFile 0).size ∧ y < bytes then (zeroFile 0).bytes y else 0) =
        (zeroFile bytes).bytes := by
      funext y
      exact if_neg fun hy => Nat.not_lt_zero y hy.1
    simp only [hfile, hzero, if_true]
    unfold opened Host.setFile zeroFile
    simp only [Function.update_idem]

theorem opened_unlink (h : Host ν) (path : ν) (name : Option Nat) (i n fd : Nat) (f : File) :
    (opened (h.setFile path name i n f) fd i).unlink path =
      opened (h.setFile path none i n f) fd i := by
  unfold Host.unlink opened Host.setFile
  simp only [Function.update_idem]

omit [DecidableEq ν] in
/-- A descriptor that was free is free again. -/
theorem opened_close (h : Host ν) {fd i : Nat} (hfd : h.fds fd = none) :
    (opened h fd i).close fd = h := by
  have hfds : Function.update (Function.update h.fds fd (some i)) fd none = h.fds := by
    rw [Function.update_idem, ← hfd, Function.update_eq_self]
  unfold Host.close opened
  simp only [hfds]

theorem setFile_unlink (h : Host ν) (path : ν) (name : Option Nat) (i n : Nat) (f : File) :
    (h.setFile path name i n f).unlink path = h.setFile path none i n f := by
  unfold Host.unlink Host.setFile
  simp only [Function.update_idem]

theorem opened_drop (h : Host ν) (path : ν) (name : Option Nat) (i n fd : Nat) (f : File)
    {drop : Bool} (hfd : h.fds fd = none) (hname : drop = false → name = none) :
    rgmVmDropFile (opened (h.setFile path name i n f) fd i) path fd drop =
      (⟨0, 0, 0⟩, h.setFile path none i n f) := by
  unfold rgmVmDropFile
  rw [opened_close (h.setFile path name i n f) hfd]
  cases drop with
  | false =>
    rw [hname rfl]
    rfl
  | true =>
    dsimp only
    rw [if_pos rfl, setFile_unlink]

/-- A new file is mapped, or left without a name. -/
theorem rgmVmMapOpened_create (os : FileReply) {h : Host ν} (path : ν) {name : Option Nat}
    {i n fd : Nat} (bytes : Nat) {drop : Bool} (hfd : h.fds fd = none)
    (hname : drop = false → name = none) :
    (∃ size, rgmVmMapOpened os (opened (h.setFile path name i n (zeroFile 0)) fd i) path fd bytes false
        false drop = (⟨0, 0, 0⟩, h.setFile path none i n (zeroFile size))) ∨
      os.mapBase ≠ 0 ∧
        rgmVmMapOpened os (opened (h.setFile path name i n (zeroFile 0)) fd i) path fd bytes false
          false drop = (⟨os.mapBase, bytes, bytes⟩,
            (h.setFile path name i n (zeroFile bytes)).addRegion
              ⟨os.mapBase, bytes, some i, true⟩) := by
  unfold rgmVmMapOpened rgmVmFileSize
  rw [if_neg Bool.false_ne_true, resize_opened]
  cases os.truncOk with
  | false => exact .inl ⟨0, opened_drop h path name i n fd _ hfd hname⟩
  | true =>
    have hmap : (opened (h.setFile path name i n (zeroFile bytes)) fd i).fds fd = some i :=
      Function.update_self ..
    simp only [if_true, Host.mapFile, hmap]
    by_cases hbase : os.mapBase = 0
    · simp only [hbase, if_true]
      exact .inl ⟨bytes, opened_drop h path name i n fd _ hfd hname⟩
    · simp only [hbase, if_false]
      refine .inr ⟨hbase, Prod.ext rfl ?_⟩
      exact opened_close ((h.setFile path name i n (zeroFile bytes)).addRegion
        ⟨os.mapBase, bytes, some i, true⟩) hfd

/-- A creation refuses, or goes on with an empty file. -/
theorem rgmVmMapFile_opens (os : FileReply) (h : Host ν) (path : ν) (bytes : Nat) (keep : Bool) :
    rgmVmMapFile os h path bytes false false (!keep) = (⟨0, 0, 0⟩, h) ∨
      ∃ fd i n, os.fd = some fd ∧ h.Target path i n ∧ (keep = false → h.names path = none) ∧
        rgmVmMapFile os h path bytes false false (!keep) =
          rgmVmMapOpened os
            (opened (h.setFile path (if keep then some i else none) i n (zeroFile 0)) fd i) path fd
            bytes false false keep := by
  unfold rgmVmMapFile
  cases hos : os.fd with
  | none => exact .inl rfl
  | some fd =>
    cases keep with
    | true =>
      obtain ⟨i, n, htarget, hopen⟩ := openFile_create h fd path false nofun
      replace hopen : h.openFile (some fd) path true false true = _ := hopen
      refine .inr ⟨fd, i, n, rfl, htarget, nofun, ?_⟩
      simp only [Bool.not_true, Bool.not_false, Bool.and_true, Bool.or_true, hopen]
      rfl
    | false =>
      by_cases hname : h.names path = none
      · obtain ⟨i, n, htarget, hopen⟩ := openFile_create h fd path true fun _ => hname
        replace hopen : h.openFile (some fd) path true true false = _ := hopen
        refine .inr ⟨fd, i, n, rfl, htarget, fun _ => hname, ?_⟩
        simp only [Bool.not_false, Bool.and_true, Bool.true_or, Bool.not_true, hopen, if_true,
          opened_unlink]
        rfl
      · refine .inl ?_
        obtain ⟨j, hj⟩ := Option.ne_none_iff_exists'.mp hname
        have hrefuse : h.openFile (some fd) path true true false = (none, h) := by
          unfold Host.openFile
          rw [hj]
          rfl
        simp only [Bool.not_false, Bool.and_true, Bool.true_or, Bool.not_true, hrefuse]

/-- A creation leaves its file in a mapping, or nothing that has a name. -/
theorem rgmVmMapFile_create {os : FileReply} {h : Host ν} (hfd : os.FdFree h) (path : ν)
    (bytes : Nat) (keep : Bool) :
    CreateOutcome os h path bytes keep (rgmVmMapFile os h path bytes false false (!keep)) := by
  rcases rgmVmMapFile_opens os h path bytes keep with heq | ⟨fd, i, n, hos, htarget, hfresh, heq⟩
  · rw [heq]
    exact .refused
  · have hname : keep = false → (if keep then some i else none) = none := by
      rintro rfl
      rfl
    rw [heq]
    rcases rgmVmMapOpened_create os path bytes (hfd fd hos) hname with
      ⟨size, hdrop⟩ | ⟨hbase, hmapped⟩
    · rw [hdrop]
      exact .dropped htarget hfresh size
    · rw [hmapped]
      exact .mapped htarget hfresh hbase

/-- What opening a file leaves: all as it was, or the file in a mapping. -/
theorem rgmVmMapFile_open {os : FileReply} {h : Host ν} (hfd : os.FdFree h) (path : ν)
    (readOnly : Bool) :
    rgmVmMapFile os h path 0 true readOnly false = (⟨0, 0, 0⟩, h) ∨
      ∃ i, h.names path = some i ∧ (h.files i).size ≠ 0 ∧ os.mapBase ≠ 0 ∧
        rgmVmMapFile os h path 0 true readOnly false =
          (⟨os.mapBase, (h.files i).size, (h.files i).size⟩,
            h.addRegion ⟨os.mapBase, (h.files i).size, some i, !readOnly⟩) := by
  unfold rgmVmMapFile
  simp only [Bool.not_true, Bool.and_false, Bool.or_false]
  cases hos : os.fd with
  | none => exact .inl rfl
  | some fd =>
    have hfree := hfd fd hos
    cases hname : h.names path with
    | none =>
      have hopen : h.openFile (some fd) path false false false = (none, h) := by
        unfold Host.openFile
        rw [hname]
        rfl
      rw [hopen]
      exact .inl rfl
    | some i =>
      have hopen : h.openFile (some fd) path false false false = (some fd, opened h fd i) := by
        unfold Host.openFile
        rw [hname]
        rfl
      have hdrop : rgmVmDropFile (opened h fd i) path fd false = (⟨0, 0, 0⟩, h) := by
        unfold rgmVmDropFile
        rw [opened_close h hfree]
        rfl
      have hfds : (opened h fd i).fds fd = some i := Function.update_self ..
      have hlength : (opened h fd i).length fd = (h.files i).size := by
        unfold Host.length
        rw [hfds]
        rfl
      rw [hopen]
      simp only [Bool.false_eq_true, if_false, Bool.false_and]
      unfold rgmVmMapOpened rgmVmFileSize
      rw [if_pos rfl, hlength]
      by_cases hstat : (!os.statOk || decide ((h.files i).size = 0)) = true
      · rw [if_pos hstat]
        exact .inl hdrop
      · have hsize : (h.files i).size ≠ 0 := fun hz => hstat (by rw [hz]; simp)
        rw [if_neg hstat]
        simp only [Host.mapFile, hfds]
        by_cases hbase : os.mapBase = 0
        · simp only [hbase, if_true]
          exact .inl hdrop
        · simp only [hbase, if_false]
          refine .inr ⟨i, rfl, hsize, hbase, Prod.ext rfl ?_⟩
          exact opened_close (h.addRegion ⟨os.mapBase, (h.files i).size, some i, !readOnly⟩) hfree

/-! ## The entry points -/

/-- The changes to names and files that a call can make: a name may get a new file, or lose its
file. -/
inductive Renamed (h : Host ν) (path : Option ν) : Host ν → Prop
  | same : Renamed h path h
  | set {q : ν} {i n : Nat} {name : Option Nat} (path_eq : path = some q)
      (target : h.Target q i n) (name_eq : name = none ∨ name = some i) (size : Nat) :
      Renamed h path (h.setFile q name i n (zeroFile size))

namespace Renamed

variable {h h' : Host ν} {path : Option ν}

theorem wf (hr : Renamed h path h') (hwf : h.Wf) : h'.Wf := by
  cases hr with
  | same => exact hwf
  | set path_eq target name_eq size => exact hwf.setFile target name_eq _

theorem fds (hr : Renamed h path h') : h'.fds = h.fds := by
  cases hr <;> rfl

theorem regions (hr : Renamed h path h') : h'.regions = h.regions := by
  cases hr <;> rfl

theorem access (hr : Renamed h path h') : h'.access = h.access := by
  cases hr <;> rfl

theorem mem (hr : Renamed h path h') : h'.mem = h.mem := by
  cases hr <;> rfl

theorem next_le (hr : Renamed h path h') : h.next ≤ h'.next := by
  cases hr with
  | same => exact Nat.le_refl _
  | set path_eq target name_eq size => exact target.next_le

/-- Another name keeps its file. -/
theorem names (hr : Renamed h path h') {q : ν} (hq : path ≠ some q) : h'.names q = h.names q := by
  cases hr with
  | same => rfl
  | set path_eq target name_eq size =>
    refine Function.update_of_ne ?_ ..
    rintro rfl
    exact hq path_eq

/-- A file that gets a name had one, or is new. -/
theorem named (hr : Renamed h path h') {q : ν} {i : Nat} (hq : h'.names q = some i) :
    h.Named i ∨ h.next ≤ i := by
  cases hr with
  | same => exact .inl ⟨q, hq⟩
  | @set q' j n name path_eq target name_eq size =>
    replace hq : Function.update h.names q' name q = some i := hq
    by_cases hqq : q = q'
    · subst hqq
      rw [Function.update_self] at hq
      rcases name_eq with rfl | rfl
      · cases hq
      · cases hq
        exact target.named
    · rw [Function.update_of_ne hqq] at hq
      exact .inl ⟨q, hq⟩

/-- A file that exists keeps its bytes, unless it has the name. -/
theorem files (hr : Renamed h path h') {i : Nat} (hi : i < h.next)
    (hname : ∀ q, path = some q → h.names q ≠ some i) : h'.files i = h.files i := by
  cases hr with
  | same => rfl
  | @set q j n name path_eq target name_eq size =>
    refine Function.update_of_ne ?_ ..
    rintro rfl
    cases target with
    | old name => exact hname q path_eq name
    | new name => exact Nat.lt_irrefl _ hi

end Renamed

/-- The mapping of an arena. -/
structure Over (a : Arena) (r : Region) : Prop where
  base : r.base = a.base
  len : r.len = a.reserved
  file : r.file = none ↔ a.backing = .anon
  anon : a.backing = .anon → r.writable = true

/-- What `mmap` promises of the range that it answers with. -/
structure FreeRange (page : Nat) (h : Host ν) (base len : Nat) : Prop where
  page_dvd : page ∣ base
  len_pos : 0 < len
  fits : base + len ≤ 2 ^ 64
  clear : ∀ r ∈ h.regions, Apart base len r.base r.len

/-- What a call on a file does: it fails and leaves all but the name, or puts the arena over a new
mapping. -/
inductive FileOutcome (page : Nat) (h : Host ν) (a : Arena) (path : Option ν) :
    Status × Host ν × Arena → Prop
  | failed {e : Status} {h' : Host ν} (ne_ok : e ≠ .ok) (renamed : Renamed h path h')
      (unnamed : ∀ q i, h'.names q = some i → h.names q = some i) :
      FileOutcome page h a path (e, h', a)
  | mapped {h' : Host ν} {r : Region} {i pos : Nat} (renamed : Renamed h path h')
      (file : r.file = some i) (found : h.Named i ∨ h.next ≤ i) (exists_file : i < h'.next)
      (live : 0 < r.base)
      (free : FreeRange page h r.base r.len) (pos_le : pos ≤ r.len) :
      FileOutcome page h a path
        (.ok, h'.addRegion r, ⟨r.base, r.len, r.len, pos, .file⟩)

section

variable {page : Nat} {os : FileReply} {h : Host ν} {a : Arena}

theorem CreateOutcome.outcome (hwf : h.Wf) {path : ν} {bytes : Nat} {keep : Bool}
    (hfree : os.mapBase ≠ 0 → FreeRange page h os.mapBase bytes)
    {answer : VmResult × Host ν} (ho : CreateOutcome os h path bytes keep answer) :
    FileOutcome page h a (some path) (rgmArenaOver a 0 answer) := by
  cases ho with
  | refused => exact .failed (by decide) .same fun _ _ hq => hq
  | dropped target fresh size =>
    refine .failed (by decide) (.set rfl target (.inl rfl) size) fun q i hq => ?_
    replace hq : Function.update h.names path none q = some i := hq
    by_cases hqp : q = path
    · subst hqp
      rw [Function.update_self] at hq
      cases hq
    · rwa [Function.update_of_ne hqp] at hq
  | @mapped i n target fresh base =>
    have hover : rgmArenaOver a 0 (⟨os.mapBase, bytes, bytes⟩,
        (h.setFile path (if keep then some i else none) i n (zeroFile bytes)).addRegion
          ⟨os.mapBase, bytes, some i, true⟩) = (.ok, _, ⟨os.mapBase, bytes, bytes, 0, .file⟩) :=
      if_neg base
    rw [hover]
    refine .mapped (r := ⟨os.mapBase, bytes, some i, true⟩) (.set rfl target ?_ bytes) rfl
      target.named (target.lt hwf) (Nat.pos_of_ne_zero base) (hfree base) (Nat.zero_le _)
    cases keep with
    | false => exact .inl rfl
    | true => exact .inr rfl

omit [DecidableEq ν] in
theorem rgmArenaOver_host (a : Arena) (pos : Nat) (answer : VmResult × Host ν) :
    (rgmArenaOver a pos answer).2.1 = answer.2 := by
  unfold rgmArenaOver
  split
  dsimp only
  split <;> rfl

theorem CreateOutcome.temp {path : ν} {bytes : Nat} {answer : VmResult × Host ν}
    (ho : CreateOutcome os h path bytes false answer) :
    answer.2.names = h.names ∧ ∀ i, i < h.next → answer.2.files i = h.files i := by
  have hnames : h.names path = none → Function.update h.names path none = h.names := by
    intro hnone
    rw [← hnone, Function.update_eq_self]
  cases ho with
  | refused => exact ⟨rfl, fun _ _ => rfl⟩
  | dropped target fresh size =>
    cases target with
    | old name => exact absurd (name.symm.trans (fresh rfl)) nofun
    | new name =>
      exact ⟨hnames name, fun i hi => Function.update_of_ne (Nat.ne_of_lt hi) ..⟩
  | mapped target fresh base =>
    cases target with
    | old name => exact absurd (name.symm.trans (fresh rfl)) nofun
    | new name =>
      exact ⟨hnames name, fun i hi => Function.update_of_ne (Nat.ne_of_lt hi) ..⟩

/-- A temporary file never has a name afterwards, and no other file is touched. -/
theorem rgArenaCreateSharedTemp_temp (page : Nat) (a : Arena) (hfd : os.FdFree h) (path : Option ν) (n : Nat) :
    (rgArenaCreateSharedTemp page os h a path n).2.1.names = h.names ∧
      ∀ i, i < h.next → (rgArenaCreateSharedTemp page os h a path n).2.1.files i = h.files i := by
  unfold rgArenaCreateSharedTemp
  cases path with
  | none => exact ⟨rfl, fun _ _ => rfl⟩
  | some path =>
    by_cases hn : n = 0
    · subst hn
      exact ⟨rfl, fun _ _ => rfl⟩
    · simp only [hn, if_false, rgmArenaOver_host]
      exact (rgmVmMapFile_create hfd path _ false).temp

/-- What a successful creation leaves: an empty arena, over a file of its size under the name. -/
theorem rgArenaCreateShared_ok (page : Nat) (a : Arena) (hfd : os.FdFree h) {path : ν} {n : Nat}
    (hok : (rgArenaCreateShared page os h a (some path) n).1 = .ok) :
    ∃ i r, (rgArenaCreateShared page os h a (some path) n).2.1.names path = some i ∧
      (rgArenaCreateShared page os h a (some path) n).2.1.regions = r :: h.regions ∧
      r.file = some i ∧
      ((rgArenaCreateShared page os h a (some path) n).2.1.files i).size = r.len ∧
      (rgArenaCreateShared page os h a (some path) n).2.2 = ⟨r.base, r.len, r.len, 0, .file⟩ ∧
      0 < r.base := by
  unfold rgArenaCreateShared at hok ⊢
  by_cases hn : n = 0
  · subst hn
    cases hok
  · simp only [hn, if_false] at hok ⊢
    have ho : CreateOutcome os h path (rgmAlignUp n page) true
        (rgmVmMapFile os h path (rgmAlignUp n page) false false false) :=
      rgmVmMapFile_create hfd path _ true
    generalize rgmVmMapFile os h path (rgmAlignUp n page) false false false = answer at ho hok ⊢
    cases ho with
    | refused => cases hok
    | dropped => cases hok
    | @mapped i m target fresh base =>
      have hover : rgmArenaOver a 0 (⟨os.mapBase, rgmAlignUp n page, rgmAlignUp n page⟩,
          (h.setFile path (if true then some i else none) i m
            (zeroFile (rgmAlignUp n page))).addRegion
              ⟨os.mapBase, rgmAlignUp n page, some i, true⟩) =
          (.ok, _, ⟨os.mapBase, rgmAlignUp n page, rgmAlignUp n page, 0, .file⟩) := if_neg base
      rw [hover]
      refine ⟨i, _, Function.update_self .., rfl, rfl, ?_, rfl, Nat.pos_of_ne_zero base⟩
      exact congrArg File.size (Function.update_self i (zeroFile (rgmAlignUp n page)) h.files)

/-- And a successful opening: an arena over all of the file, which counts as used. -/
theorem rgArenaOpenShared_ok (a : Arena) (readOnly : Bool) (hfd : os.FdFree h) {path : ν}
    (hok : (rgArenaOpenShared os h a (some path) readOnly).1 = .ok) :
    ∃ i r, h.names path = some i ∧ r.file = some i ∧ r.len = (h.files i).size ∧ 0 < r.base ∧
      rgArenaOpenShared os h a (some path) readOnly =
        (.ok, h.addRegion r, ⟨r.base, r.len, r.len, r.len, .file⟩) := by
  unfold rgArenaOpenShared at hok ⊢
  rcases rgmVmMapFile_open hfd path readOnly with heq | ⟨i, hname, hsize, hbase, heq⟩
  · simp only [heq] at hok
    cases hok
  · simp only [heq]
    exact ⟨i, ⟨os.mapBase, (h.files i).size, some i, !readOnly⟩, hname, rfl, rfl,
      Nat.pos_of_ne_zero hbase, if_neg hbase⟩

theorem rgArenaCreateShared_outcome (hwf : h.Wf) (hfd : os.FdFree h) (path : Option ν) (n : Nat)
    (hfree : os.mapBase ≠ 0 → FreeRange page h os.mapBase (rgmAlignUp n page)) :
    FileOutcome page h a path (rgArenaCreateShared page os h a path n) := by
  unfold rgArenaCreateShared
  cases path with
  | none => exact .failed (by decide) .same fun _ _ hq => hq
  | some path =>
    by_cases hn : n = 0
    · simp only [hn, if_true]
      exact .failed (by decide) .same fun _ _ hq => hq
    · simp only [hn, if_false]
      exact (rgmVmMapFile_create hfd path _ true).outcome hwf hfree

theorem rgArenaCreateSharedTemp_outcome (hwf : h.Wf) (hfd : os.FdFree h) (path : Option ν) (n : Nat)
    (hfree : os.mapBase ≠ 0 → FreeRange page h os.mapBase (rgmAlignUp n page)) :
    FileOutcome page h a path (rgArenaCreateSharedTemp page os h a path n) := by
  unfold rgArenaCreateSharedTemp
  cases path with
  | none => exact .failed (by decide) .same fun _ _ hq => hq
  | some path =>
    by_cases hn : n = 0
    · simp only [hn, if_true]
      exact .failed (by decide) .same fun _ _ hq => hq
    · simp only [hn, if_false]
      exact (rgmVmMapFile_create hfd path _ false).outcome hwf hfree

/-- Opening changes no name. -/
theorem rgArenaOpenShared_outcome (hwf : h.Wf) (hfd : os.FdFree h) (path : Option ν)
    (readOnly : Bool) (hfree : os.mapBase ≠ 0 → ∀ q i, path = some q → h.names q = some i →
      FreeRange page h os.mapBase (h.files i).size) :
    FileOutcome page h a none (rgArenaOpenShared os h a path readOnly) := by
  unfold rgArenaOpenShared
  cases path with
  | none => exact .failed (by decide) .same fun _ _ hq => hq
  | some path =>
    rcases rgmVmMapFile_open hfd path readOnly with heq | ⟨i, hname, hsize, hbase, heq⟩
    · simp only [heq]
      exact .failed (by decide) .same fun _ _ hq => hq
    · have hover : rgmArenaOver a (h.files i).size (⟨os.mapBase, (h.files i).size, (h.files i).size⟩,
          h.addRegion ⟨os.mapBase, (h.files i).size, some i, !readOnly⟩) =
          (.ok, _, ⟨os.mapBase, (h.files i).size, (h.files i).size, (h.files i).size, .file⟩) :=
        if_neg hbase
      simp only [heq]
      rw [hover]
      exact .mapped (r := ⟨os.mapBase, (h.files i).size, some i, !readOnly⟩) .same rfl
        (.inl ⟨path, hname⟩) (hwf.exists_of i (.inl ⟨path, hname⟩)) (Nat.pos_of_ne_zero hbase)
        (hfree hbase path i rfl hname) (Nat.le_refl _)

end

end

end RgMemory
