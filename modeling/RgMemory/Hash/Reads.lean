import RgMemory.Hash.Wide
import RgMemory.Hash.Separate
import RgMemory.Lib.Align
import RgMemory.Lib.Logged

/-!
# What a hash reads

The hash functions and the key comparison once more, with a log of their loads. The values are those
of the functions themselves, so the logs tell which bytes of a key are read: by a hash exactly those
of the key, at every length (`hash_reads_key`), by a comparison none outside
(`keysEqual_reads_inside`).

A load determines the bytes that it reads (`HashLoad.word_inj`). Since the loads of a hash depend
only on the length, and together read the whole key, the loaded words determine the key.
-/

namespace RgMemory

open Bytes Logged

/-! ## Loads -/

/-- A load of `rg_hash_func.h`: eight bytes, four, or the packer of one to three. -/
inductive HashLoad
  | u64 (off : Nat)
  | u32 (off : Nat)
  | u3 (len : Nat)
  deriving DecidableEq

namespace HashLoad

/-- The word that a load gives. -/
def word (p : Mem) : HashLoad → BitVec 64
  | u64 off => rgmHashLoadU64 p off
  | u32 off => (rgmHashLoadU32 p off).setWidth 64
  | u3 len => rgmHashLoadU3 p len

/-- The offsets of the bytes that it reads. -/
def reads : HashLoad → List Nat
  | u64 off => (List.range 8).map (off + ·)
  | u32 off => (List.range 4).map (off + ·)
  | u3 len => [0, len / 2, len - 1]

theorem mem_range_map {off n i : Nat} : i ∈ (List.range n).map (off + ·) ↔ off ≤ i ∧ i < off + n := by
  rw [List.mem_map]
  constructor
  · rintro ⟨k, hk, rfl⟩
    have := List.mem_range.mp hk
    omega
  · rintro ⟨hle, hlt⟩
    exact ⟨i - off, List.mem_range.mpr (by omega), by omega⟩

theorem mem_u64 {off i : Nat} : i ∈ (u64 off).reads ↔ off ≤ i ∧ i < off + 8 := mem_range_map

theorem mem_u32 {off i : Nat} : i ∈ (u32 off).reads ↔ off ≤ i ∧ i < off + 4 := mem_range_map

/-- Of a key of one to three bytes the packer reads every byte. -/
theorem mem_u3 {len i : Nat} (hpos : 0 < len) (hlen : len < 4) : i ∈ (u3 len).reads ↔ i < len := by
  unfold reads
  simp only [List.mem_cons, List.not_mem_nil, or_false]
  omega

/-- A word determines the bytes that are read. -/
theorem word_inj {p q : Mem} {ld : HashLoad} (h : ld.word p = ld.word q) :
    ∀ i ∈ ld.reads, p i = q i := by
  intro i hi
  cases ld with
  | u64 off =>
    rw [word, word, loadU64_eq, loadU64_eq, load64_eq_iff] at h
    obtain ⟨hle, hlt⟩ := mem_u64.mp hi
    have hbyte := h (i - off) (by omega)
    rwa [Nat.add_sub_cancel' hle] at hbyte
  | u32 off =>
    have h32 : rgmHashLoadU32 p off = rgmHashLoadU32 q off := by
      have hword := congrArg BitVec.toNat h
      rw [word, word, BitVec.toNat_setWidth_of_le (by decide),
        BitVec.toNat_setWidth_of_le (by decide)] at hword
      exact BitVec.eq_of_toNat_eq hword
    rw [loadU32_eq, loadU32_eq, load32_eq_iff] at h32
    obtain ⟨hle, hlt⟩ := mem_u32.mp hi
    have hbyte := h32 (i - off) (by omega)
    rwa [Nat.add_sub_cancel' hle] at hbyte
  | u3 len =>
    obtain ⟨h0, hmid, hlast⟩ := loadU3_inj h
    simp only [reads, List.mem_cons, List.not_mem_nil, or_false] at hi
    rcases hi with rfl | rfl | rfl
    · exact h0
    · exact hmid
    · exact hlast

end HashLoad

/-- The offsets that a log of loads reads. -/
def readOffsets (log : List HashLoad) : List Nat := log.flatMap HashLoad.reads

/-- The words that it gives. -/
def readWords (p : Mem) (log : List HashLoad) : List (BitVec 64) := log.map (HashLoad.word p)

theorem mem_readOffsets {log : List HashLoad} {i : Nat} :
    i ∈ readOffsets log ↔ ∃ ld ∈ log, i ∈ ld.reads := List.mem_flatMap

/-- The words determine every byte that is read. -/
theorem readWords_inj {p q : Mem} {log : List HashLoad} (h : readWords p log = readWords q log) :
    ∀ i ∈ readOffsets log, p i = q i := by
  intro i hi
  obtain ⟨ld, hld, hread⟩ := mem_readOffsets.mp hi
  exact HashLoad.word_inj (List.map_inj_left.mp h ld hld) i hread

/-- A computation that logs its loads. -/
abbrev Reading := Logged HashLoad

def readU64 (p : Mem) (off : Nat) : Reading (BitVec 64) := step (.u64 off) (rgmHashLoadU64 p off)

def readU32 (p : Mem) (off : Nat) : Reading (BitVec 32) := step (.u32 off) (rgmHashLoadU32 p off)

def readU3 (p : Mem) (len : Nat) : Reading (BitVec 64) := step (.u3 len) (rgmHashLoadU3 p len)

/-! ## The hash functions, reading -/

def readShortWords (p : Mem) (len : Nat) : Reading (BitVec 64 × BitVec 64) :=
  if 4 ≤ len then do
    let a1 ← readU32 p 0
    let a2 ← readU32 p (len / 8 * 4)
    let b1 ← readU32 p (len - 4)
    let b2 ← readU32 p (len - 4 - len / 8 * 4)
    pure (a1.setWidth 64 <<< 32 ||| a2.setWidth 64, b1.setWidth 64 <<< 32 ||| b2.setWidth 64)
  else if 0 < len then do
    let a ← readU3 p len
    pure (a, 0)
  else pure (0, 0)

def readBlock48 (p : Mem) (l : HashLanes) : Reading HashLanes := do
  let l0 ← readU64 p l.off
  let l1 ← readU64 p (l.off + 8)
  let l2 ← readU64 p (l.off + 16)
  let l3 ← readU64 p (l.off + 24)
  let l4 ← readU64 p (l.off + 32)
  let l5 ← readU64 p (l.off + 40)
  pure
    { off := l.off + 48
      left := l.left - 48
      seed := rgmHashWymix l0 l1 rgmHashWyp1 l.seed
      see1 := rgmHashWymix l2 l3 rgmHashWyp2 l.see1
      see2 := rgmHashWymix l4 l5 rgmHashWyp3 l.see2 }

def readBlock16 (p : Mem) (l : HashLanes) : Reading HashLanes := do
  let l0 ← readU64 p l.off
  let l1 ← readU64 p (l.off + 8)
  pure { l with
    off := l.off + 16
    left := l.left - 16
    seed := rgmHashWymix l0 l1 rgmHashWyp1 l.seed }

/-- The 48-byte loop, where there is one. -/
def readLanes48 (p : Mem) (len : Nat) (l : HashLanes) : Reading HashLanes :=
  if len > 48 then do
    let l ← drain HashLanes.left 48 (readBlock48 p) len l
    pure { l with seed := l.seed ^^^ (l.see1 ^^^ l.see2) }
  else pure l

def readLongLanes (p : Mem) (len : Nat) (seed : BitVec 64) : Reading HashLanes := do
  let l ← readLanes48 p len ⟨0, len, seed, seed, seed⟩
  drain HashLanes.left 16 (readBlock16 p) len l

/-- What the final mix is fed: two words of the key, and a seed. -/
def readFeed (p : Mem) (len : Nat) (seed : BitVec 64) :
    Reading ((BitVec 64 × BitVec 64) × BitVec 64) :=
  if len = 8 then do
    let b ← readU64 p 0
    pure ((b <<< 32 ||| b >>> 32, b), seed)
  else if len ≤ 16 then do
    let words ← readShortWords p len
    pure (words, seed)
  else do
    let l ← readLongLanes p len seed
    let a ← readU64 p (l.off + l.left - 16)
    let b ← readU64 p (l.off + l.left - 8)
    pure ((a, b), l.seed)

/-- `rgm_hash_wyhash_seeded`. -/
def readWyhashSeeded (p : Mem) (len : Nat) (seed : BitVec 64) : Reading (BitVec 64) := do
  let feed ← readFeed p len seed
  pure (rgmHashWymix feed.1.1 (feed.1.2 ^^^ BitVec.ofNat 64 len) rgmHashWyp1 feed.2)

/-- `rgm_hash_wyhash_128_seeded`. -/
def readWyhash128Seeded (p : Mem) (len : Nat) (seed : BitVec 64) :
    Reading (BitVec 64 × BitVec 64) := do
  let feed ← readFeed p len seed
  pure (rgmHashWymix128 feed.1.1 (feed.1.2 ^^^ BitVec.ofNat 64 len) rgmHashWyp1 feed.2)

def readDualBlock48 (p : Mem) (l : HashDualLanes) : Reading HashDualLanes := do
  let l0 ← readU64 p l.off
  let l1 ← readU64 p (l.off + 8)
  let l2 ← readU64 p (l.off + 16)
  let l3 ← readU64 p (l.off + 24)
  let l4 ← readU64 p (l.off + 32)
  let l5 ← readU64 p (l.off + 40)
  pure
    { off := l.off + 48
      left := l.left - 48
      seed1 := rgmHashWymix l0 l1 rgmHashWyp1 l.seed1
      see1_1 := rgmHashWymix l2 l3 rgmHashWyp2 l.see1_1
      see2_1 := rgmHashWymix l4 l5 rgmHashWyp3 l.see2_1
      seed2 := rgmHashWymix l0 l1 rgmHashWyp1 l.seed2
      see1_2 := rgmHashWymix l2 l3 rgmHashWyp2 l.see1_2
      see2_2 := rgmHashWymix l4 l5 rgmHashWyp3 l.see2_2 }

def readDualBlock16 (p : Mem) (l : HashDualLanes) : Reading HashDualLanes := do
  let l0 ← readU64 p l.off
  let l1 ← readU64 p (l.off + 8)
  pure { l with
    off := l.off + 16
    left := l.left - 16
    seed1 := rgmHashWymix l0 l1 rgmHashWyp1 l.seed1
    seed2 := rgmHashWymix l0 l1 rgmHashWyp1 l.seed2 }

def readDualLanes48 (p : Mem) (len : Nat) (l : HashDualLanes) : Reading HashDualLanes :=
  if len > 48 then do
    let l ← drain HashDualLanes.left 48 (readDualBlock48 p) len l
    pure { l with
      seed1 := l.seed1 ^^^ (l.see1_1 ^^^ l.see2_1)
      seed2 := l.seed2 ^^^ (l.see1_2 ^^^ l.see2_2) }
  else pure l

def readDualLongLanes (p : Mem) (len : Nat) (seed1 seed2 : BitVec 64) : Reading HashDualLanes := do
  let l ← readDualLanes48 p len ⟨0, len, seed1, seed1, seed1, seed2, seed2, seed2⟩
  drain HashDualLanes.left 16 (readDualBlock16 p) len l

/-- What the two final mixes are fed: the same two words, and a seed each. -/
def readDualFeed (p : Mem) (len : Nat) (seed1 seed2 : BitVec 64) :
    Reading ((BitVec 64 × BitVec 64) × BitVec 64 × BitVec 64) :=
  if len = 8 then do
    let b ← readU64 p 0
    pure ((b <<< 32 ||| b >>> 32, b), seed1, seed2)
  else if len ≤ 16 then do
    let words ← readShortWords p len
    pure (words, seed1, seed2)
  else do
    let l ← readDualLongLanes p len seed1 seed2
    let a ← readU64 p (l.off + l.left - 16)
    let b ← readU64 p (l.off + l.left - 8)
    pure ((a, b), l.seed1, l.seed2)

/-- `rgm_hash_wyhash_dual_seeded`. -/
def readWyhashDualSeeded (p : Mem) (len : Nat) (seed1 seed2 : BitVec 64) :
    Reading (BitVec 64 × BitVec 64) := do
  let feed ← readDualFeed p len seed1 seed2
  pure (rgmHashWymix feed.1.1 (feed.1.2 ^^^ BitVec.ofNat 64 len) rgmHashWyp1 feed.2.1,
    rgmHashWymix feed.1.1 (feed.1.2 ^^^ BitVec.ofNat 64 len) rgmHashWyp1 feed.2.2)

/-! ## The values are those of the functions -/

section

variable (p : Mem) (len : Nat)

theorem readShortWords_value : (readShortWords p len).value = rgmHashShortWords p len := by
  unfold readShortWords rgmHashShortWords
  split
  · rfl
  split
  · rfl
  · rfl

theorem readLongLanes_value (seed : BitVec 64) :
    (readLongLanes p len seed).value = rgmHashLongLanes p len seed := by
  have h48 := drain_value HashLanes.left 48 (readBlock48 p) (g := rgmHashLoop48 p)
    (fun _ => rfl) fun _ _ => rfl
  have h16 := drain_value HashLanes.left 16 (readBlock16 p) (g := rgmHashLoop16 p)
    (fun _ => rfl) fun _ _ => rfl
  unfold readLongLanes readLanes48 rgmHashLongLanes
  rw [value_bind, h16]
  split
  · rw [value_bind, h48]
    rfl
  · rfl

theorem readDualLongLanes_value (seed1 seed2 : BitVec 64) :
    (readDualLongLanes p len seed1 seed2).value = rgmHashDualLongLanes p len seed1 seed2 := by
  have h48 := drain_value HashDualLanes.left 48 (readDualBlock48 p) (g := rgmHashDualLoop48 p)
    (fun _ => rfl) fun _ _ => rfl
  have h16 := drain_value HashDualLanes.left 16 (readDualBlock16 p) (g := rgmHashDualLoop16 p)
    (fun _ => rfl) fun _ _ => rfl
  unfold readDualLongLanes readDualLanes48 rgmHashDualLongLanes
  rw [value_bind, h16]
  split
  · rw [value_bind, h48]
    rfl
  · rfl

theorem readWyhashSeeded_value (seed : BitVec 64) :
    (readWyhashSeeded p len seed).value = rgmHashWyhashSeeded p len seed := by
  unfold readWyhashSeeded readFeed rgmHashWyhashSeeded
  rw [value_bind]
  split
  · next h8 => rw [h8]; rfl
  split
  · rw [value_bind, readShortWords_value]
    rfl
  · rw [value_bind, readLongLanes_value]
    rfl

theorem readWyhash128Seeded_value (seed : BitVec 64) :
    (readWyhash128Seeded p len seed).value = rgmHashWyhash128Seeded p len seed := by
  unfold readWyhash128Seeded readFeed rgmHashWyhash128Seeded
  rw [value_bind]
  split
  · next h8 => rw [h8]; rfl
  split
  · rw [value_bind, readShortWords_value, ← rgmHash128ShortWords_eq]
    rfl
  · rw [value_bind, readLongLanes_value, ← rgmHash128LongLanes_eq]
    rfl

theorem readWyhashDualSeeded_value (seed1 seed2 : BitVec 64) :
    (readWyhashDualSeeded p len seed1 seed2).value = rgmHashWyhashDualSeeded p len seed1 seed2 := by
  unfold readWyhashDualSeeded readDualFeed rgmHashWyhashDualSeeded
  rw [value_bind]
  split
  · next h8 => rw [h8]; rfl
  split
  · rw [value_bind, readShortWords_value, ← rgmHashDualShortWords_eq]
    rfl
  · rw [value_bind, readDualLongLanes_value]
    rfl

end

/-! ## The loads of a hash -/

/-- A log reads exactly the offsets between two. -/
def Covers (log : List HashLoad) (lo hi : Nat) : Prop :=
  ∀ i, i ∈ readOffsets log ↔ lo ≤ i ∧ i < hi

theorem covers_nil (n : Nat) : Covers [] n n := by
  intro i
  have hnone : i ∉ readOffsets [] := List.not_mem_nil
  constructor
  · exact fun h => absurd h hnone
  · rintro ⟨hle, hlt⟩
    omega

theorem mem_readOffsets_append {l m : List HashLoad} {i : Nat} :
    i ∈ readOffsets (l ++ m) ↔ i ∈ readOffsets l ∨ i ∈ readOffsets m := by
  unfold readOffsets
  rw [List.flatMap_append, List.mem_append]

theorem Covers.append {l m : List HashLoad} {lo mid hi : Nat} (hle : lo ≤ mid) (hle' : mid ≤ hi)
    (h : Covers l lo mid) (h' : Covers m mid hi) : Covers (l ++ m) lo hi := by
  intro i
  rw [mem_readOffsets_append, h i, h' i]
  omega

/-- Loads of eight bytes in a row. -/
theorem mem_readOffsets_u64 {off : Nat} {log : List HashLoad} {i : Nat} :
    i ∈ readOffsets (.u64 off :: log) ↔ (off ≤ i ∧ i < off + 8) ∨ i ∈ readOffsets log := by
  unfold readOffsets
  rw [List.flatMap_cons, List.mem_append, HashLoad.mem_u64]

theorem covers_block48 (p : Mem) (l : HashLanes) :
    Covers (readBlock48 p l).log l.off (l.off + 48) := by
  intro i
  show i ∈ readOffsets [.u64 l.off, .u64 (l.off + 8), .u64 (l.off + 16), .u64 (l.off + 24),
    .u64 (l.off + 32), .u64 (l.off + 40)] ↔ _
  simp only [mem_readOffsets_u64, (covers_nil 0 i)]
  omega

theorem covers_block16 (p : Mem) (l : HashLanes) :
    Covers (readBlock16 p l).log l.off (l.off + 16) := by
  intro i
  show i ∈ readOffsets [.u64 l.off, .u64 (l.off + 8)] ↔ _
  simp only [mem_readOffsets_u64, (covers_nil 0 i)]
  omega

theorem covers_lanes48 (p : Mem) {len : Nat} {l : HashLanes} (hleft : l.left ≤ len)
    (hpos : 0 < l.left) :
    Covers (readLanes48 p len l).log l.off (readLanes48 p len l).value.off ∧
      l.off ≤ (readLanes48 p len l).value.off ∧
      (readLanes48 p len l).value.off + (readLanes48 p len l).value.left = l.off + l.left ∧
      0 < (readLanes48 p len l).value.left := by
  unfold readLanes48
  split
  · obtain ⟨hcov, hle, hsum, hpos', -⟩ := drain_spec HashLanes.left
      HashLanes.off Covers (by decide : 0 < 48) covers_nil Covers.append
      (fun l _ => ⟨rfl, rfl, covers_block48 p l⟩) hleft hpos
    rw [log_bind, log_pure, List.append_nil]
    exact ⟨hcov, hle, hsum, hpos'⟩
  · exact ⟨covers_nil _, Nat.le_refl _, rfl, hpos⟩

/-- The loops read from the start on and leave at most 16 bytes. -/
theorem covers_longLanes (p : Mem) {len : Nat} (hlen : 16 < len) (seed : BitVec 64) :
    Covers (readLongLanes p len seed).log 0 (readLongLanes p len seed).value.off ∧
      (readLongLanes p len seed).value.off + (readLongLanes p len seed).value.left = len ∧
      (readLongLanes p len seed).value.left ≤ 16 := by
  obtain ⟨hcov, -, hsum, hpos⟩ := covers_lanes48 p (l := ⟨0, len, seed, seed, seed⟩)
    (Nat.le_refl len) (Nat.zero_lt_of_lt hlen)
  have htotal := hsum.trans (Nat.zero_add len)
  unfold readLongLanes
  rw [value_bind, log_bind]
  generalize readLanes48 p len ⟨0, len, seed, seed, seed⟩ = r at *
  obtain ⟨hcov', hle, hsum', -, hend⟩ := drain_spec HashLanes.left
    HashLanes.off Covers (by decide : 0 < 16) covers_nil Covers.append
    (fun l _ => ⟨rfl, rfl, covers_block16 p l⟩) (by omega : r.value.left ≤ len) hpos
  exact ⟨hcov.append (Nat.zero_le _) hle hcov', hsum'.trans htotal, hend⟩

/-- The loads of a key of at most 16 bytes. -/
theorem readShortWords_log (p : Mem) (len : Nat) :
    (readShortWords p len).log =
      if 4 ≤ len then [.u32 0, .u32 (len / 8 * 4), .u32 (len - 4), .u32 (len - 4 - len / 8 * 4)]
      else if 0 < len then [.u3 len]
      else [] := by
  unfold readShortWords
  split
  · rfl
  split
  · rfl
  · rfl

theorem covers_shortWords (p : Mem) {len : Nat} (hlen : len ≤ 16) :
    Covers (readShortWords p len).log 0 len := by
  intro i
  rw [readShortWords_log]
  split
  · simp only [readOffsets, List.flatMap_cons, List.flatMap_nil, List.mem_append,
      HashLoad.mem_u32, List.not_mem_nil, or_false]
    omega
  split
  · rw [readOffsets, List.flatMap_singleton, HashLoad.mem_u3 (by omega) (by omega)]
    omega
  · have hzero : len = 0 := by omega
    rw [hzero]
    exact covers_nil 0 i

/-- **The loads of a hash read the key**, all of it and nothing else. -/
theorem covers_feed (p : Mem) (len : Nat) (seed : BitVec 64) :
    Covers (readFeed p len seed).log 0 len := by
  unfold readFeed
  split
  · next h8 =>
    intro i
    show i ∈ readOffsets [.u64 0] ↔ _
    rw [mem_readOffsets_u64, covers_nil 0 i]
    omega
  split
  · next hlen =>
    rw [log_bind, log_pure, List.append_nil]
    exact covers_shortWords p hlen
  · next hlen =>
    obtain ⟨hcov, hsum, hend⟩ := covers_longLanes p (by omega : 16 < len) seed
    intro i
    show i ∈ readOffsets ((readLongLanes p len seed).log ++ [.u64 _, .u64 _]) ↔ _
    rw [mem_readOffsets_append, hcov i, mem_readOffsets_u64, mem_readOffsets_u64, covers_nil 0 i]
    -- the two last loads reach back over what the loops have read already
    omega

/-! ## The loads depend only on the length -/

/-- Lanes that stand at one place. -/
def SamePlace (l m : HashLanes) : Prop := l.off = m.off ∧ l.left = m.left

/-- Dual lanes and single ones that stand at one place. -/
def SameDualPlace (l : HashDualLanes) (m : HashLanes) : Prop := l.off = m.off ∧ l.left = m.left

section

variable (p q : Mem) (len : Nat)

theorem readBlock48_log_eq (l m : HashLanes) (h : SamePlace l m) :
    (readBlock48 p l).log = (readBlock48 q m).log ∧
      SamePlace (readBlock48 p l).value (readBlock48 q m).value := by
  show [HashLoad.u64 l.off, .u64 (l.off + 8), .u64 (l.off + 16), .u64 (l.off + 24),
      .u64 (l.off + 32), .u64 (l.off + 40)] = [.u64 m.off, .u64 (m.off + 8), .u64 (m.off + 16),
      .u64 (m.off + 24), .u64 (m.off + 32), .u64 (m.off + 40)] ∧
    l.off + 48 = m.off + 48 ∧ l.left - 48 = m.left - 48
  rw [h.1, h.2]
  exact ⟨rfl, rfl, rfl⟩

theorem readBlock16_log_eq (l m : HashLanes) (h : SamePlace l m) :
    (readBlock16 p l).log = (readBlock16 q m).log ∧
      SamePlace (readBlock16 p l).value (readBlock16 q m).value := by
  show [HashLoad.u64 l.off, .u64 (l.off + 8)] = [.u64 m.off, .u64 (m.off + 8)] ∧
    l.off + 16 = m.off + 16 ∧ l.left - 16 = m.left - 16
  rw [h.1, h.2]
  exact ⟨rfl, rfl, rfl⟩

/-- The dual blocks load what the single ones do. -/
theorem readDualBlock48_log_eq (l : HashDualLanes) (m : HashLanes) (h : SameDualPlace l m) :
    (readDualBlock48 p l).log = (readBlock48 q m).log ∧
      SameDualPlace (readDualBlock48 p l).value (readBlock48 q m).value :=
  readBlock48_log_eq p q l.fst m h

theorem readDualBlock16_log_eq (l : HashDualLanes) (m : HashLanes) (h : SameDualPlace l m) :
    (readDualBlock16 p l).log = (readBlock16 q m).log ∧
      SameDualPlace (readDualBlock16 p l).value (readBlock16 q m).value :=
  readBlock16_log_eq p q l.fst m h

theorem readLongLanes_log_eq (seed seed' : BitVec 64) :
    (readLongLanes p len seed).log = (readLongLanes q len seed').log ∧
      SamePlace (readLongLanes p len seed).value (readLongLanes q len seed').value := by
  have hstart : SamePlace ⟨0, len, seed, seed, seed⟩ ⟨0, len, seed', seed', seed'⟩ := ⟨rfl, rfl⟩
  have h48 : (readLanes48 p len ⟨0, len, seed, seed, seed⟩).log =
        (readLanes48 q len ⟨0, len, seed', seed', seed'⟩).log ∧
      SamePlace (readLanes48 p len ⟨0, len, seed, seed, seed⟩).value
        (readLanes48 q len ⟨0, len, seed', seed', seed'⟩).value := by
    unfold readLanes48
    split
    · obtain ⟨hlog, hplace⟩ := drain_log_eq (k := 48) (fun _ _ h => h.2) (readBlock48_log_eq p q)
        len hstart
      exact ⟨by rw [log_bind, log_bind, hlog]; rfl, hplace⟩
    · exact ⟨rfl, hstart⟩
  obtain ⟨hlog, hplace⟩ := drain_log_eq (k := 16) (fun _ _ h => h.2) (readBlock16_log_eq p q)
    len h48.2
  unfold readLongLanes
  rw [log_bind, log_bind, h48.1, hlog]
  exact ⟨rfl, hplace⟩

theorem readDualLongLanes_log_eq (seed1 seed2 seed' : BitVec 64) :
    (readDualLongLanes p len seed1 seed2).log = (readLongLanes q len seed').log ∧
      SameDualPlace (readDualLongLanes p len seed1 seed2).value
        (readLongLanes q len seed').value := by
  have hstart : SameDualPlace ⟨0, len, seed1, seed1, seed1, seed2, seed2, seed2⟩
      ⟨0, len, seed', seed', seed'⟩ := ⟨rfl, rfl⟩
  have h48 : (readDualLanes48 p len ⟨0, len, seed1, seed1, seed1, seed2, seed2, seed2⟩).log =
        (readLanes48 q len ⟨0, len, seed', seed', seed'⟩).log ∧
      SameDualPlace (readDualLanes48 p len ⟨0, len, seed1, seed1, seed1, seed2, seed2, seed2⟩).value
        (readLanes48 q len ⟨0, len, seed', seed', seed'⟩).value := by
    unfold readDualLanes48 readLanes48
    split
    · obtain ⟨hlog, hplace⟩ := drain_log_eq (k := 48) (fun _ _ h => h.2)
        (readDualBlock48_log_eq p q) len hstart
      exact ⟨by rw [log_bind, log_bind, hlog]; rfl, hplace⟩
    · exact ⟨rfl, hstart⟩
  obtain ⟨hlog, hplace⟩ := drain_log_eq (k := 16) (fun _ _ h => h.2) (readDualBlock16_log_eq p q)
    len h48.2
  unfold readDualLongLanes readLongLanes
  rw [log_bind, log_bind, h48.1, hlog]
  exact ⟨rfl, hplace⟩

/-- Two keys of one length are loaded alike, whatever the seeds. -/
theorem readFeed_log_eq (seed seed' : BitVec 64) :
    (readFeed p len seed).log = (readFeed q len seed').log := by
  unfold readFeed
  split
  · rfl
  split
  · rw [log_bind, log_bind, readShortWords_log, readShortWords_log]
    rfl
  · obtain ⟨hlog, hoff, hleft⟩ := readLongLanes_log_eq p q len seed seed'
    rw [log_bind, log_bind, hlog]
    show _ ++ [HashLoad.u64 _, .u64 _] = _ ++ [.u64 _, .u64 _]
    rw [hoff, hleft]

/-- The dual hash loads what the single one does. -/
theorem readDualFeed_log_eq (seed1 seed2 seed' : BitVec 64) :
    (readDualFeed p len seed1 seed2).log = (readFeed q len seed').log := by
  unfold readDualFeed readFeed
  split
  · rfl
  split
  · rw [log_bind, log_bind, readShortWords_log, readShortWords_log]
    rfl
  · obtain ⟨hlog, hoff, hleft⟩ := readDualLongLanes_log_eq p q len seed1 seed2 seed'
    rw [log_bind, log_bind, hlog]
    show _ ++ [HashLoad.u64 _, .u64 _] = _ ++ [.u64 _, .u64 _]
    rw [hoff, hleft]

end

/-! ## The words determine the key -/

/-- The two words of a short key that the final mix is fed. -/
theorem readFeed_short_inj {p q : Mem} {len : Nat} (hlen : len ≤ 16) {seed seed' : BitVec 64}
    (h : (readFeed p len seed).value.1 = (readFeed q len seed').value.1) :
    ∀ i, i < len → p i = q i := by
  unfold readFeed at h
  split at h
  · next h8 =>
    have hword : rgmHashLoadU64 p 0 = rgmHashLoadU64 q 0 := congrArg Prod.snd h
    intro i hi
    have heq : (HashLoad.u64 0).word p = (HashLoad.u64 0).word q := hword
    exact HashLoad.word_inj heq i (HashLoad.mem_u64.mpr (by omega))
  rw [value_bind, value_bind, readShortWords_value, readShortWords_value] at h
  exact rgmHashShortWords_inj hlen h

/-- Two keys with the same loaded words are one key. -/
theorem readFeed_words_inj {p q : Mem} {len : Nat} {seed seed' : BitVec 64}
    (h : readWords p (readFeed p len seed).log = readWords q (readFeed q len seed').log) :
    ∀ i, i < len → p i = q i := by
  rw [readFeed_log_eq p q len seed seed'] at h
  intro i hi
  exact readWords_inj h i ((covers_feed q len seed' i).mpr ⟨Nat.zero_le i, hi⟩)

/-- The dual hash feeds its mixes the words of the single one. -/
theorem readDualFeed_short (p : Mem) {len : Nat} (hlen : len ≤ 16) (seed1 seed2 seed : BitVec 64) :
    (readDualFeed p len seed1 seed2).value.1 = (readFeed p len seed).value.1 := by
  unfold readDualFeed readFeed
  split
  · rfl
  · rfl

theorem covers_wyhashSeeded (p : Mem) (len : Nat) (seed : BitVec 64) :
    Covers (readWyhashSeeded p len seed).log 0 len := by
  rw [readWyhashSeeded, log_bind, log_pure, List.append_nil]
  exact covers_feed p len seed

theorem covers_wyhash128Seeded (p : Mem) (len : Nat) (seed : BitVec 64) :
    Covers (readWyhash128Seeded p len seed).log 0 len := by
  rw [readWyhash128Seeded, log_bind, log_pure, List.append_nil]
  exact covers_feed p len seed

theorem covers_wyhashDualSeeded (p : Mem) (len : Nat) (seed1 seed2 : BitVec 64) :
    Covers (readWyhashDualSeeded p len seed1 seed2).log 0 len := by
  rw [readWyhashDualSeeded, log_bind, log_pure, List.append_nil,
    readDualFeed_log_eq p p len seed1 seed2 seed1]
  exact covers_feed p len seed1

theorem covers_zero {log : List HashLoad} {len : Nat} (h : Covers log 0 len) (i : Nat) :
    i ∈ readOffsets log ↔ i < len := by
  rw [h i]
  exact and_iff_right (Nat.zero_le i)

/-- **Each hash reads exactly its key.** At every length the loads of the three byte-key hashes read
the offsets below the length and no others. Up to 16 bytes the two words that the final mix is fed
determine the key; above, the sequence of loaded words does. -/
theorem hash_reads_key (p : Mem) (len : Nat) (seed seed2 : BitVec 64) :
    ((readWyhashSeeded p len seed).value = rgmHashWyhashSeeded p len seed ∧
      ∀ i, i ∈ readOffsets (readWyhashSeeded p len seed).log ↔ i < len) ∧
    ((readWyhashDualSeeded p len seed seed2).value = rgmHashWyhashDualSeeded p len seed seed2 ∧
      ∀ i, i ∈ readOffsets (readWyhashDualSeeded p len seed seed2).log ↔ i < len) ∧
    ((readWyhash128Seeded p len seed).value = rgmHashWyhash128Seeded p len seed ∧
      ∀ i, i ∈ readOffsets (readWyhash128Seeded p len seed).log ↔ i < len) ∧
    (len ≤ 16 → ∀ q,
      (readFeed p len seed).value.1 = (readFeed q len seed).value.1 ∨
          (readDualFeed p len seed seed2).value.1 = (readDualFeed q len seed seed2).value.1 →
        ∀ i, i < len → p i = q i) ∧
    (16 < len → ∀ q,
      readWords p (readWyhashSeeded p len seed).log =
            readWords q (readWyhashSeeded q len seed).log ∨
          readWords p (readWyhashDualSeeded p len seed seed2).log =
            readWords q (readWyhashDualSeeded q len seed seed2).log ∨
          readWords p (readWyhash128Seeded p len seed).log =
            readWords q (readWyhash128Seeded q len seed).log →
        ∀ i, i < len → p i = q i) := by
  have hsingle : ∀ r : Mem, (readWyhashSeeded r len seed).log = (readFeed r len seed).log :=
    fun r => by rw [readWyhashSeeded, log_bind, log_pure, List.append_nil]
  have hwide : ∀ r : Mem, (readWyhash128Seeded r len seed).log = (readFeed r len seed).log :=
    fun r => by rw [readWyhash128Seeded, log_bind, log_pure, List.append_nil]
  have hdual : ∀ r : Mem,
      (readWyhashDualSeeded r len seed seed2).log = (readFeed r len seed).log := fun r => by
    rw [readWyhashDualSeeded, log_bind, log_pure, List.append_nil,
      readDualFeed_log_eq r r len seed seed2 seed]
  refine ⟨⟨readWyhashSeeded_value .., covers_zero (covers_wyhashSeeded p len seed)⟩,
    ⟨readWyhashDualSeeded_value .., covers_zero (covers_wyhashDualSeeded p len seed seed2)⟩,
    ⟨readWyhash128Seeded_value .., covers_zero (covers_wyhash128Seeded p len seed)⟩,
    fun hlen q h => ?_, fun _ q h => ?_⟩
  · rcases h with h | h
    · exact readFeed_short_inj hlen h
    · rw [readDualFeed_short p hlen seed seed2 seed, readDualFeed_short q hlen seed seed2 seed] at h
      exact readFeed_short_inj hlen h
  · rw [hsingle, hsingle, hdual, hdual, hwide, hwide] at h
    exact readFeed_words_inj (h.elim id fun h => h.elim id id)

/-! ## The comparison, reading -/

/-- The loop of `rgm_hash_keys_equal` on machine words, with the loads that it makes from either
buffer; none when it has not ended after so many rounds. -/
def readKeysEqualLoop (pa pb : Mem) (len : Nat) : Nat → Nat → Option (Reading Bool)
  | 0, _ => none
  | fuel + 1, i =>
    if u64 (i + 8) < len then
      if rgmHashLoadU64 pa i ≠ rgmHashLoadU64 pb i then some (step (.u64 i) false)
      else
        match readKeysEqualLoop pa pb len fuel (u64 (i + 8)) with
        | none => none
        | some r => some ⟨r.value, .u64 i :: r.log⟩
    else some (pure true)

/-- `rgm_hash_keys_equal`. -/
def readKeysEqual (pa pb : Mem) (len fuel : Nat) : Option (Reading Bool) :=
  if 8 ≤ len then
    match readKeysEqualLoop pa pb len fuel 0 with
    | none => none
    | some r =>
      if r.value then
        some ⟨rgmHashLoadU64 pa (len - 8) == rgmHashLoadU64 pb (len - 8),
          r.log ++ [.u64 (len - 8)]⟩
      else some r
  else if 4 ≤ len then
    some ⟨(rgmHashLoadU32 pa 0 ^^^ rgmHashLoadU32 pb 0)
      ||| (rgmHashLoadU32 pa (len - 4) ^^^ rgmHashLoadU32 pb (len - 4)) == 0,
      [.u32 0, .u32 (len - 4)]⟩
  else if len ≠ 0 then some (step (.u3 len) (rgmHashLoadU3 pa len == rgmHashLoadU3 pb len))
  else some (pure true)

section

variable (pa pb : Mem) {len : Nat}

/-- While the bound does not wrap, the loop ends, answers as the loop without the log, and reads
below the last eight bytes; by induction on what is left. -/
theorem readKeysEqualLoop_spec (hword : len < 2 ^ 64 - 8) (fuel0 i : Nat) (hi : i < len)
    (henough : len ≤ i + 8 * fuel0) :
    ∃ r, (∀ fuel, len ≤ i + 8 * fuel → readKeysEqualLoop pa pb len fuel i = some r) ∧
      r.value = rgmHashKeysEqualLoop pa pb len fuel0 i ∧ ∀ k ∈ readOffsets r.log, k < len := by
  induction fuel0 generalizing i with
  | zero => omega
  | succ fuel0 ih =>
    have hexact : u64 (i + 8) = i + 8 := u64_of_lt (by omega)
    by_cases hmore : i + 8 < len
    · by_cases hne : rgmHashLoadU64 pa i ≠ rgmHashLoadU64 pb i
      · refine ⟨step (.u64 i) false, fun fuel hfuel => ?_, ?_, fun k hk => ?_⟩
        · obtain ⟨fuel, rfl⟩ : ∃ n, fuel = n + 1 := ⟨fuel - 1, by omega⟩
          rw [readKeysEqualLoop, hexact, if_pos hmore, if_pos hne]
        · rw [rgmHashKeysEqualLoop, if_pos hmore, if_pos hne]
          rfl
        · rw [log_step, mem_readOffsets_u64, covers_nil 0 k] at hk
          omega
      · obtain ⟨r, hrun, hvalue, hreads⟩ := ih (i + 8) (by omega) (by omega)
        refine ⟨⟨r.value, .u64 i :: r.log⟩, fun fuel hfuel => ?_, ?_, fun k hk => ?_⟩
        · obtain ⟨fuel, rfl⟩ : ∃ n, fuel = n + 1 := ⟨fuel - 1, by omega⟩
          rw [readKeysEqualLoop, hexact, if_pos hmore, if_neg hne, hrun fuel (by omega)]
        · rw [rgmHashKeysEqualLoop, if_pos hmore, if_neg hne]
          exact hvalue
        · rcases mem_readOffsets_u64.mp hk with hhere | hlater
          · omega
          · exact hreads k hlater
    · refine ⟨pure true, fun fuel hfuel => ?_, ?_, fun k hk => absurd hk List.not_mem_nil⟩
      · obtain ⟨fuel, rfl⟩ : ∃ n, fuel = n + 1 := ⟨fuel - 1, by omega⟩
        rw [readKeysEqualLoop, hexact, if_neg hmore]
      · rw [rgmHashKeysEqualLoop, if_neg hmore]
        rfl

/-- The comparison ends with enough rounds, answers as the function without the log, and reads
nothing outside the keys. -/
theorem readKeysEqual_spec (hword : len < 2 ^ 64 - 8) :
    ∃ r, (∀ fuel, len ≤ fuel → readKeysEqual pa pb len fuel = some r) ∧
      r.value = rgmHashKeysEqual pa pb len ∧ ∀ k ∈ readOffsets r.log, k < len := by
  unfold readKeysEqual rgmHashKeysEqual
  by_cases h8 : 8 ≤ len
  · obtain ⟨r, hrun, hvalue, hreads⟩ := readKeysEqualLoop_spec pa pb hword len 0 (by omega) (by omega)
    have hloop : ∀ fuel, len ≤ fuel → readKeysEqualLoop pa pb len fuel 0 = some r :=
      fun fuel hfuel => hrun fuel (by omega)
    simp only [if_pos h8]
    cases hr : r.value with
    | false =>
      refine ⟨r, fun fuel hfuel => ?_, ?_, hreads⟩
      · rw [hloop fuel hfuel]
        simp [hr]
      · rw [← hvalue, hr, Bool.false_and]
    | true =>
      refine ⟨⟨rgmHashLoadU64 pa (len - 8) == rgmHashLoadU64 pb (len - 8),
        r.log ++ [.u64 (len - 8)]⟩, fun fuel hfuel => ?_, ?_, fun k hk => ?_⟩
      · rw [hloop fuel hfuel]
        simp only [hr, if_true]
      · rw [← hvalue, hr, Bool.true_and]
      · rcases mem_readOffsets_append.mp hk with hloop | hlast
        · exact hreads k hloop
        · rw [mem_readOffsets_u64, covers_nil 0 k] at hlast
          omega
  simp only [if_neg h8]
  by_cases h4 : 4 ≤ len
  · simp only [if_pos h4]
    refine ⟨_, fun _ _ => rfl, rfl, fun k hk => ?_⟩
    simp only [readOffsets, List.flatMap_cons, List.flatMap_nil, List.mem_append,
      HashLoad.mem_u32, List.not_mem_nil, or_false] at hk
    omega
  simp only [if_neg h4]
  by_cases h0 : len ≠ 0
  · simp only [if_pos h0]
    refine ⟨_, fun _ _ => rfl, rfl, fun k hk => ?_⟩
    rw [log_step, readOffsets, List.flatMap_singleton,
      HashLoad.mem_u3 (by omega) (by omega)] at hk
    exact hk
  · simp only [if_neg h0]
    exact ⟨_, fun _ _ => rfl, rfl, fun k hk => absurd hk List.not_mem_nil⟩

end

/-- **Key comparison is exact and in bounds.** For every length that leaves room for the loop's bound
in a word: the comparison ends, reads only offsets below the length from either buffer, and answers
whether the buffers agree at all of them. -/
theorem keysEqual_reads_inside {len : Nat} (hword : len < 2 ^ 64 - 8) (pa pb : Mem) :
    ∃ r, (∀ fuel, len ≤ fuel → readKeysEqual pa pb len fuel = some r) ∧
      r.value = rgmHashKeysEqual pa pb len ∧ (∀ k ∈ readOffsets r.log, k < len) ∧
      (r.value = true ↔ ∀ i, i < len → pa i = pb i) := by
  obtain ⟨r, hrun, hvalue, hreads⟩ := readKeysEqual_spec pa pb hword
  exact ⟨r, hrun, hvalue, hreads, by rw [hvalue]; exact rgmHashKeysEqual_iff⟩

theorem keysEqual_reads_inside_ten :
    ∃ r, readKeysEqual (ptr [1, 2, 3, 4, 5, 6, 7, 8, 9, 10]) (ptr [1, 2, 3, 4, 5, 6, 7, 8, 9, 11]) 10 10 =
      some r ∧ r.value = false ∧ ∀ k ∈ readOffsets r.log, k < 10 := by
  obtain ⟨r, hrun, -, hreads, hsame⟩ := keysEqual_reads_inside (by decide : 10 < 2 ^ 64 - 8)
    (ptr [1, 2, 3, 4, 5, 6, 7, 8, 9, 10]) (ptr [1, 2, 3, 4, 5, 6, 7, 8, 9, 11])
  refine ⟨r, hrun 10 (Nat.le_refl _), ?_, hreads⟩
  rw [Bool.eq_false_iff, ne_eq, hsame]
  exact fun h => absurd (h 9 (by decide)) (by decide)

end RgMemory
