import Mathlib.Data.List.Pairwise
import Mathlib.Logic.Function.Basic
import RgMemory.Lib.Bytes

/-!
# Files, descriptors and mappings

What a process sees of its operating system: names lead to files, descriptors and mappings hold on to
them, and a shared mapping shows the bytes of its file. `Host` has the calls `open`, `close`,
`unlink`, `ftruncate`, `mmap`, `munmap` and `msync`, and the end of the process. Each call takes the
answer that the system gives, so that any of them may fail at any time.

A file is held by its names, by descriptors and by mappings (`Host.Held`); the system reclaims a file
that nothing holds. A byte is `dirty` while it may not be on the disk yet.
-/

namespace RgMemory.Files

open Bytes

structure File where
  size : Nat
  bytes : Mem
  dirty : Nat → Bool

/-- The file has the same contents, and is on the disk if it was. -/
structure File.Kept (f f' : File) : Prop where
  size : f'.size = f.size
  bytes : f'.bytes = f.bytes
  dirty : ∀ y, f.dirty y = false → f'.dirty y = false

theorem File.Kept.refl (f : File) : f.Kept f := ⟨rfl, rfl, fun _ hy => hy⟩

theorem File.Kept.trans {f f' f'' : File} (h : f.Kept f') (h' : f'.Kept f'') : f.Kept f'' :=
  ⟨h'.size.trans h.size, h'.bytes.trans h.bytes, fun y hy => h'.dirty y (h.dirty y hy)⟩

/-- A mapping: of a file from its start, or of private memory. -/
structure Region where
  base : Nat
  len : Nat
  file : Option Nat
  writable : Bool

/-- The address lies in the mapping. -/
def Region.Has (r : Region) (x : Nat) : Prop := r.base ≤ x ∧ x < r.base + r.len

instance (r : Region) (x : Nat) : Decidable (r.Has x) := inferInstanceAs (Decidable (_ ∧ _))

/-- Two mappings share no address. -/
def Region.Clear (r r' : Region) : Prop := Apart r.base r.len r'.base r'.len

instance : Std.Symm Region.Clear := ⟨fun _ _ h => Apart.symm h⟩

/-- The file system, and the descriptors and the address space of a process. Files from `next` on do
not exist yet; `mem` is the memory that no file backs. -/
structure Host (ν : Type) where
  names : ν → Option Nat
  files : Nat → File
  next : Nat
  fds : Nat → Option Nat
  regions : List Region
  mem : Mem
  access : Nat → Bool

namespace Host

variable {ν : Type} {h h' : Host ν} {r r' : Region} {i fd x : Nat} {path : ν}

/-! ## Calls -/

/-- `open`: `answer` is the descriptor that the system gives, if it does. -/
def openFile [DecidableEq ν] (h : Host ν) (answer : Option Nat) (path : ν)
    (create excl trunc : Bool) : Option Nat × Host ν :=
  match answer, h.names path with
  | none, _ => (none, h)
  | some fd, some i =>
    if create && excl then (none, h)
    else
      (some fd, { h with
        files := if trunc then Function.update h.files i ⟨0, fun _ => 0, fun _ => true⟩ else h.files
        fds := Function.update h.fds fd (some i) })
  | some fd, none =>
    if create then
      (some fd, { h with
        names := Function.update h.names path (some h.next)
        files := Function.update h.files h.next ⟨0, fun _ => 0, fun _ => true⟩
        next := h.next + 1
        fds := Function.update h.fds fd (some h.next) })
    else (none, h)

def close (h : Host ν) (fd : Nat) : Host ν := { h with fds := Function.update h.fds fd none }

/-- The name goes, the file stays while something else holds it. -/
def unlink [DecidableEq ν] (h : Host ν) (path : ν) : Host ν :=
  { h with names := Function.update h.names path none }

/-- `fstat`: the length of the file. -/
def length (h : Host ν) (fd : Nat) : Nat :=
  match h.fds fd with
  | none => 0
  | some i => (h.files i).size

/-- `ftruncate`: what is new reads as zero. -/
def resize (h : Host ν) (ok : Bool) (fd size : Nat) : Bool × Host ν :=
  match h.fds fd with
  | none => (false, h)
  | some i =>
    if ok then
      (true, { h with
        files := Function.update h.files i
          { size
            bytes := fun y => if y < (h.files i).size ∧ y < size then (h.files i).bytes y else 0
            dirty := fun _ => true } })
    else (false, h)

/-- `mmap` of a whole file; an `answer` of 0 is a failure. -/
def mapFile (h : Host ν) (answer fd len : Nat) (writable : Bool) : Nat × Host ν :=
  match h.fds fd with
  | none => (0, h)
  | some i =>
    if answer = 0 then (0, h)
    else
      (answer, { h with
        regions := ⟨answer, len, some i, writable⟩ :: h.regions
        access := fun x => decide (answer ≤ x ∧ x < answer + len) || h.access x })

/-- `munmap`. -/
def unmap (h : Host ν) (base len : Nat) : Host ν :=
  { h with
    regions := h.regions.filter fun r => decide (r.base + r.len ≤ base ∨ base + len ≤ r.base)
    access := fun x => !decide (base ≤ x ∧ x < base + len) && h.access x }

/-- `msync`, when it succeeds: the bytes of the files behind the range are on the disk. -/
def sync (h : Host ν) (base len : Nat) : Host ν :=
  { h with
    files := fun i =>
      { h.files i with
        dirty := fun y => (h.files i).dirty y && !h.regions.any fun r =>
          decide (r.file = some i ∧ y < r.len ∧ base ≤ r.base + y ∧ r.base + y < base + len) } }

/-- The process is gone, with its descriptors and mappings. -/
def exit (h : Host ν) : Host ν :=
  { h with
    fds := fun _ => none
    regions := []
    access := fun _ => false }

/-- The machine stops: what was not on the disk may be anything. -/
def powerLoss (h : Host ν) (found : Nat → Mem) : Host ν :=
  { h.exit with
    files := fun i =>
      { h.files i with
        bytes := fun y => if (h.files i).dirty y then found i y else (h.files i).bytes y
        dirty := fun _ => false } }

/-! ## Memory -/

/-- The mapping at an address. -/
def regionAt (h : Host ν) (x : Nat) : Option Region := h.regions.find? fun r => decide (r.Has x)

/-- What is read at an address. -/
def load (h : Host ν) : Mem := fun x =>
  match h.regionAt x with
  | none => h.mem x
  | some r =>
    match r.file with
    | none => h.mem x
    | some i => (h.files i).bytes (x - r.base)

/-- Let the addresses of a mapping read as in `m`. -/
def write (h : Host ν) (r : Region) (m : Mem) : Host ν :=
  match r.file with
  | none => { h with mem := copy h.mem r.base (fun y => m (r.base + y)) r.len }
  | some i =>
    { h with
      files := Function.update h.files i
        { h.files i with
          bytes := copy (h.files i).bytes 0 (fun y => m (r.base + y)) r.len
          dirty := fun y => (h.files i).dirty y ||
            decide (y < r.len ∧ m (r.base + y) ≠ (h.files i).bytes y) } }

/-! ## Who holds a file -/

/-- A name leads to the file. -/
def Named (h : Host ν) (i : Nat) : Prop := ∃ path, h.names path = some i

/-- A name, a descriptor or a mapping refers to the file. -/
def Held (h : Host ν) (i : Nat) : Prop :=
  h.Named i ∨ (∃ fd, h.fds fd = some i) ∨ ∃ r ∈ h.regions, r.file = some i

/-- What every call keeps. No file has two names. -/
structure Wf (h : Host ν) : Prop where
  exists_of : ∀ i, h.Held i → i < h.next
  name : ∀ path path' i, h.names path = some i → h.names path' = some i → path = path'
  apart : h.regions.Pairwise Region.Clear

section Memory

theorem Wf.eq_of_has (hwf : h.Wf) (hr : r ∈ h.regions) (hr' : r' ∈ h.regions) (hx : r.Has x)
    (hx' : r'.Has x) : r = r' := by
  by_contra hne
  have hclear : r.Clear r' := hwf.apart.forall hr hr' hne
  unfold Region.Clear Apart at hclear
  unfold Region.Has at hx hx'
  omega

theorem Wf.regionAt_eq (hwf : h.Wf) (hr : r ∈ h.regions) (hx : r.Has x) :
    h.regionAt x = some r := by
  cases hat : h.regionAt x with
  | none =>
    have hnone := List.find?_eq_none.mp hat r hr
    exact absurd hx (by simpa using hnone)
  | some r' =>
    have hhas : r'.Has x := by simpa using List.find?_some hat
    rw [hwf.eq_of_has (List.mem_of_find?_eq_some hat) hr hhas hx]

/-- A mapping shows the bytes of its file. -/
theorem Wf.load_file (hwf : h.Wf) (hr : r ∈ h.regions) (hi : r.file = some i) (hx : r.Has x) :
    h.load x = (h.files i).bytes (x - r.base) := by
  unfold load
  rw [hwf.regionAt_eq hr hx]
  simp only [hi]

theorem Wf.load_private (hwf : h.Wf) (hr : r ∈ h.regions) (hi : r.file = none) (hx : r.Has x) :
    h.load x = h.mem x := by
  unfold load
  rw [hwf.regionAt_eq hr hx]
  simp only [hi]

@[simp] theorem write_regions (r : Region) (m : Mem) : (h.write r m).regions = h.regions := by
  unfold write
  split <;> rfl

@[simp] theorem write_names (r : Region) (m : Mem) : (h.write r m).names = h.names := by
  unfold write
  split <;> rfl

@[simp] theorem write_fds (r : Region) (m : Mem) : (h.write r m).fds = h.fds := by
  unfold write
  split <;> rfl

@[simp] theorem write_next (r : Region) (m : Mem) : (h.write r m).next = h.next := by
  unfold write
  split <;> rfl

/-- A write changes the file of its mapping only. -/
theorem write_files (r : Region) (m : Mem) (hi : r.file ≠ some i) :
    (h.write r m).files i = h.files i := by
  unfold write
  cases hfile : r.file with
  | none => rfl
  | some j =>
    have hij : i ≠ j := by
      rintro rfl
      exact hi hfile
    simp only [Function.update_of_ne hij]

theorem write_bytes (r : Region) (m : Mem) (hi : r.file = some i) {y : Nat} (hy : y < r.len) :
    ((h.write r m).files i).bytes y = m (r.base + y) := by
  unfold write
  simp only [hi, Function.update_self]
  have hin : copy (h.files i).bytes 0 (fun y => m (r.base + y)) r.len (0 + y) = m (r.base + y) :=
    copy_in _ _ hy
  rwa [Nat.zero_add] at hin

theorem write_size (r : Region) (m : Mem) (i : Nat) :
    ((h.write r m).files i).size = (h.files i).size := by
  unfold write
  cases hfile : r.file with
  | none => rfl
  | some j =>
    by_cases hij : i = j
    · subst hij
      simp only [Function.update_self]
    · simp only [Function.update_of_ne hij]

/-- So does a flush, but for what is on the disk. -/
theorem sync_kept (base len i : Nat) : (h.files i).Kept ((h.sync base len).files i) := by
  refine ⟨rfl, rfl, fun y hy => ?_⟩
  show ((h.files i).dirty y && _) = false
  rw [hy]
  rfl

/-- The calls that leave the references and the mappings as they are keep a host well formed. -/
theorem Wf.congr (hwf : h.Wf) (hnames : h'.names = h.names) (hfds : h'.fds = h.fds)
    (hregions : h'.regions = h.regions) (hnext : h.next ≤ h'.next) : h'.Wf := by
  refine ⟨fun i hi => ?_, fun path path' i => ?_, hregions ▸ hwf.apart⟩
  · unfold Held Named at hi
    rw [hnames, hfds, hregions] at hi
    exact Nat.lt_of_lt_of_le (hwf.exists_of i hi) hnext
  · rw [hnames]
    exact hwf.name path path' i

theorem Wf.write (hwf : h.Wf) (r : Region) (m : Mem) : (h.write r m).Wf :=
  hwf.congr (write_names r m) (write_fds r m) (write_regions r m) (Nat.le_of_eq (write_next r m).symm)

/-- What was written is read. -/
theorem Wf.load_write (hwf : h.Wf) (hr : r ∈ h.regions) (m : Mem) (hx : r.Has x) :
    (h.write r m).load x = m x := by
  have hwf' := hwf.write r m
  have hr' : r ∈ (h.write r m).regions := (write_regions r m).symm ▸ hr
  obtain ⟨y, rfl⟩ := Nat.exists_eq_add_of_le hx.1
  have hy : y < r.len := by
    have := hx.2
    omega
  cases hfile : r.file with
  | none =>
    rw [hwf'.load_private hr' hfile hx]
    simp only [Host.write, hfile, copy_in _ _ hy]
  | some i =>
    rw [hwf'.load_file hr' hfile hx, Nat.add_sub_cancel_left, write_bytes r m hfile hy]

theorem write_mem_out (r : Region) (m : Mem) (hx : ¬ r.Has x) : (h.write r m).mem x = h.mem x := by
  unfold write
  cases hfile : r.file with
  | some i => simp only
  | none =>
    have hx : Out r.base r.len x := by
      unfold Region.Has at hx
      unfold Out
      omega
    simp only
    exact copy_out h.mem (fun y => m (r.base + y)) hx

end Memory

/-! ## What a sequence of calls adds up to -/

/-- The file `i` is given contents and the name `path` a meaning; `n` files exist then. -/
def setFile [DecidableEq ν] (h : Host ν) (path : ν) (name : Option Nat) (i n : Nat) (f : File) :
    Host ν :=
  { h with
    names := Function.update h.names path name
    files := Function.update h.files i f
    next := n }

/-- A mapping is added. -/
def addRegion (h : Host ν) (r : Region) : Host ν :=
  { h with
    regions := r :: h.regions
    access := fun x => decide (r.Has x) || h.access x }

/-- The file that `open` finds or creates under a name, and how many there are then. -/
inductive Target (h : Host ν) (path : ν) : Nat → Nat → Prop
  | old {i : Nat} (name : h.names path = some i) : Target h path i h.next
  | new (name : h.names path = none) : Target h path h.next (h.next + 1)

theorem Target.lt {n : Nat} (ht : h.Target path i n) (hwf : h.Wf) : i < n := by
  cases ht with
  | old name => exact hwf.exists_of i (.inl ⟨path, name⟩)
  | new name => exact Nat.lt_succ_self _

theorem Target.next_le {n : Nat} (ht : h.Target path i n) : h.next ≤ n := by
  cases ht with
  | old name => exact Nat.le_refl _
  | new name => exact Nat.le_succ _

theorem Target.named {n : Nat} (ht : h.Target path i n) : h.Named i ∨ h.next ≤ i := by
  cases ht with
  | old name => exact .inl ⟨path, name⟩
  | new name => exact .inr (Nat.le_refl _)

theorem Wf.setFile [DecidableEq ν] (hwf : h.Wf) {n : Nat} (ht : h.Target path i n)
    {name : Option Nat} (hname : name = none ∨ name = some i) (f : File) :
    (h.setFile path name i n f).Wf := by
  have hcases : ∀ {q j}, (h.setFile path name i n f).names q = some j →
      q = path ∧ j = i ∨ q ≠ path ∧ h.names q = some j := by
    intro q j hq
    replace hq : Function.update h.names path name q = some j := hq
    by_cases hqp : q = path
    · subst hqp
      rw [Function.update_self] at hq
      rcases hname with rfl | rfl
      · cases hq
      · exact .inl ⟨rfl, (Option.some.inj hq).symm⟩
    · rw [Function.update_of_ne hqp] at hq
      exact .inr ⟨hqp, hq⟩
  -- no other name leads to the file
  have hfresh : ∀ {q}, q ≠ path → h.names q ≠ some i := by
    intro q hqp hq
    cases ht with
    | old name => exact hqp (hwf.name q path i hq name)
    | new name => exact Nat.lt_irrefl _ (hwf.exists_of h.next (.inl ⟨q, hq⟩))
  refine ⟨fun j hj => ?_, fun q q' j hq hq' => ?_, hwf.apart⟩
  · rcases hj with ⟨q, hq⟩ | hfd | hregion
    · rcases hcases hq with ⟨-, rfl⟩ | ⟨-, hold⟩
      · exact ht.lt hwf
      · exact Nat.lt_of_lt_of_le (hwf.exists_of j (.inl ⟨q, hold⟩)) ht.next_le
    · exact Nat.lt_of_lt_of_le (hwf.exists_of j (.inr (.inl hfd))) ht.next_le
    · exact Nat.lt_of_lt_of_le (hwf.exists_of j (.inr (.inr hregion))) ht.next_le
  · rcases hcases hq with ⟨rfl, rfl⟩ | ⟨hqp, hold⟩ <;> rcases hcases hq' with ⟨rfl, hj⟩ | ⟨hqp', hold'⟩
    · rfl
    · exact absurd hold' (hfresh hqp')
    · exact absurd (hj ▸ hold) (hfresh hqp)
    · exact hwf.name q q' j hold hold'

theorem Wf.addRegion (hwf : h.Wf) (hfile : ∀ i, r.file = some i → i < h.next)
    (hclear : ∀ r' ∈ h.regions, r.Clear r') : (h.addRegion r).Wf := by
  refine ⟨fun i hi => ?_, hwf.name, List.pairwise_cons.mpr ⟨hclear, hwf.apart⟩⟩
  rcases hi with hname | hfd | ⟨r', hr', hi⟩
  · exact hwf.exists_of i (.inl hname)
  · exact hwf.exists_of i (.inr (.inl hfd))
  · rcases List.mem_cons.mp hr' with rfl | hr'
    · exact hfile i hi
    · exact hwf.exists_of i (.inr (.inr ⟨r', hr', hi⟩))

theorem Wf.unmap (hwf : h.Wf) (base len : Nat) : (h.unmap base len).Wf := by
  refine ⟨fun i hi => ?_, hwf.name, hwf.apart.filter _⟩
  rcases hi with hname | hfd | ⟨r, hr, hi⟩
  · exact hwf.exists_of i (.inl hname)
  · exact hwf.exists_of i (.inr (.inl hfd))
  · exact hwf.exists_of i (.inr (.inr ⟨r, List.mem_of_mem_filter hr, hi⟩))

theorem Wf.sync (hwf : h.Wf) (base len : Nat) : (h.sync base len).Wf :=
  hwf.congr rfl rfl rfl (Nat.le_refl _)

theorem Wf.exit (hwf : h.Wf) : h.exit.Wf := by
  refine ⟨fun i hi => ?_, hwf.name, .nil⟩
  rcases hi with hname | ⟨_, hfd⟩ | ⟨_, hr, -⟩
  · exact hwf.exists_of i (.inl hname)
  · cases hfd
  · exact absurd hr List.not_mem_nil

theorem Wf.powerLoss (hwf : h.Wf) (found : Nat → Mem) : (h.powerLoss found).Wf :=
  hwf.exit.congr rfl rfl rfl (Nat.le_refl _)

end Host

end RgMemory.Files
