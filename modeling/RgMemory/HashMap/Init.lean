import RgMemory.HashMap.Put
import RgMemory.Arena.Run

/-!
# Binding a map

`rgHashMapInit` stores the arena's address into the map before it allocates the sentinel line, and
clears the index after. The control block is therefore modelled here as the source lays it out, with
the address of the arena it points to, in a world of arenas by address; `HashMapBlock.map` is the
view that the rest of the development works with (`rgHashMapInitAt_map`).

An `Init` that fails is promised to leave the map as it was. It does, unless the sentinel allocation
is what fails and the map did not already point to this arena (`init_failure_inert_iff`).
-/

namespace RgMemory

/-- The bytes of a `HashMap`: the address of its arena, 0 for none, and the index of roots. -/
@[ext]
structure HashMapBlock where
  arena : Nat
  top : Fin 4096 → BitVec 32

namespace HashMapBlock

/-- A map in zeroed storage. -/
def zero : HashMapBlock := ⟨0, fun _ => 0⟩

/-- The map, for calls that are handed the state of its arena. -/
def map (b : HashMapBlock) : HashMap := ⟨decide (b.arena ≠ 0), b.top⟩

end HashMapBlock

/-- The arena behind each address of a control block. -/
abbrev Arenas := Nat → ArenaState

/-- The state of one arena replaced. -/
def Arenas.set (w : Arenas) (arena : Nat) (s : ArenaState) : Arenas :=
  fun a => if a = arena then s else w a

/-- `rgHashMapInit` of a map that is not null. -/
def rgHashMapInitAt (page : Nat) (os : OsReply) (b : HashMapBlock) (arena : Nat) (w : Arenas) :
    Status × HashMapBlock × Arenas :=
  if arena = 0 ∨ (w arena).base = 0 then (.errInvalid, b, w)
  else
    let b := { b with arena := arena }
    if rgArenaUsed (w arena).toArena = 0 then
      match rgArenaAllocAligned page os (w arena) rgmCacheLine rgmCacheLine with
      | (sentinel, s) =>
        if sentinel = 0 then (.errNoMemory, b, w.set arena s)
        else
          (.ok, { b with top := fun _ => 0 },
            w.set arena { s with mem := Bytes.copy s.mem sentinel (fun _ => 0) rgmCacheLine })
    else (.ok, { b with top := fun _ => 0 }, w)

/-- `rgHashMapPut`, on the arena that the map points to. -/
def rgHashMapPutAt (page : Nat) (os : OsReply) (b : HashMapBlock) (w : Arenas) (key : KeyArg) :
    Except Stop (Nat × HashMap × ArenaState) :=
  rgHashMapPut page os b.map (w b.arena) key

/-- On the view and the state of the arena, `Init` is the function of the model. -/
theorem rgHashMapInitAt_map (page : Nat) (os : OsReply) (b : HashMapBlock) {arena : Nat}
    (w : Arenas) (harena : arena ≠ 0) :
    rgHashMapInit page os b.map (w arena) =
      ((rgHashMapInitAt page os b arena w).1, (rgHashMapInitAt page os b arena w).2.1.map,
        (rgHashMapInitAt page os b arena w).2.2 arena) := by
  have hbound : decide (arena ≠ 0) = true := decide_eq_true harena
  unfold rgHashMapInit rgHashMapInitAt
  by_cases hbase : (w arena).base = 0
  · rw [if_pos hbase, if_pos (.inr hbase)]
  rw [if_neg hbase, if_neg (not_or.mpr ⟨harena, hbase⟩)]
  dsimp only
  by_cases hused : rgArenaUsed (w arena).toArena = 0
  · rw [if_pos hused, if_pos hused]
    generalize rgArenaAllocAligned page os (w arena) rgmCacheLine rgmCacheLine = answer
    obtain ⟨sentinel, s⟩ := answer
    dsimp only
    by_cases hnull : sentinel = 0
    · simp [hnull, HashMapBlock.map, Arenas.set, harena]
    · simp [hnull, HashMapBlock.map, Arenas.set, harena]
  · rw [if_neg hused, if_neg hused]
    simp [HashMapBlock.map, harena]

/-! ## The sentinel -/

/-- No room for the sentinel line at the start of the arena: its end lies above the committed bytes,
and above the reservation too or the operating system refuses the commit. -/
def SentinelRefused (os : OsReply) (s : ArenaState) : Prop :=
  s.committed < rgmAlignPadding (u64 s.base) rgmCacheLine + rgmCacheLine ∧
    (s.reserved < rgmAlignPadding (u64 s.base) rgmCacheLine + rgmCacheLine ∨ os.commitOk = false)

theorem rgmCommitTo_ok (os : OsReply) (s : ArenaState) (target : Nat) :
    (rgmCommitTo os s target).1 = os.commitOk := by
  unfold rgmCommitTo rgmVmCommit
  cases os.commitOk with
  | false => rfl
  | true => rfl

theorem rgmCommitTo_base (os : OsReply) (s : ArenaState) (target : Nat) :
    (rgmCommitTo os s target).2.base = s.base := by
  unfold rgmCommitTo rgmVmCommit
  cases os.commitOk with
  | false => rfl
  | true => rfl

/-- The sentinel allocation of an empty arena fails exactly when there is no room for it. -/
theorem sentinel_eq_zero_iff (page : Nat) (os : OsReply) {s : ArenaState} (hlive : s.base ≠ 0)
    (hpos : s.pos = 0) :
    (rgArenaAllocAligned page os s rgmCacheLine rgmCacheLine).1 = 0 ↔ SentinelRefused os s := by
  have hdead : ¬ (!rgmArenaIsLive s.toArena ∨ rgmCacheLine = 0) := by
    simp [rgmArenaIsLive, hlive, rgmCacheLine]
  have hpow : ¬ rgmCacheLine &&& u64Sub rgmCacheLine 1 ≠ 0 := by decide
  have hpad : rgmAlignPadding (u64 s.base) rgmCacheLine < 64 := by
    have hmask : u64Sub rgmCacheLine 1 = 2 ^ 6 - 1 := by decide
    rw [rgmAlignPadding, hmask, Nat.and_two_pow_sub_one_eq_mod]
    exact Nat.mod_lt _ (by decide)
  have hline : rgmCacheLine = 64 := rfl
  have hoff : u64 (0 + rgmAlignPadding (u64 s.base) rgmCacheLine) =
      rgmAlignPadding (u64 s.base) rgmCacheLine := by
    rw [Nat.zero_add]
    exact u64_of_lt (by omega)
  have hnew : u64 (rgmAlignPadding (u64 s.base) rgmCacheLine + rgmCacheLine) =
      rgmAlignPadding (u64 s.base) rgmCacheLine + rgmCacheLine := u64_of_lt (by omega)
  rw [rgArenaAllocAligned, if_neg hdead, if_neg hpow, if_neg (by decide : ¬ rgmCacheLine < 8)]
  simp only [rgmArenaAllocBump, rgmArenaAllocInternal, hpos, Nat.add_zero, hoff, hnew,
    if_neg (by decide : ¬ rgmCacheLine = 0)]
  unfold SentinelRefused
  generalize rgmAlignPadding (u64 s.base) rgmCacheLine = pad at hpad
  by_cases hfit : pad + rgmCacheLine ≤ s.committed
  · -- below the committed boundary the block is handed out
    rw [if_pos ⟨by omega, hfit⟩]
    dsimp only
    omega
  rw [if_neg (fun h => hfit h.2)]
  by_cases hres : s.reserved < pad + rgmCacheLine
  · rw [if_pos (.inr hres)]
    dsimp only
    omega
  rw [if_neg (by omega), rgmArenaEnsureCommitted, if_neg hfit, if_neg hres]
  -- what is left is the commit, whose outcome is the operating system's
  have hok := rgmCommitTo_ok os s (rgmCommitTarget page s.toArena (pad + rgmCacheLine))
  have hbase := rgmCommitTo_base os s (rgmCommitTarget page s.toArena (pad + rgmCacheLine))
  generalize rgmCommitTo os s (rgmCommitTarget page s.toArena (pad + rgmCacheLine)) = answer at *
  obtain ⟨committed, s'⟩ := answer
  dsimp only at hok hbase
  rw [← hok]
  cases committed with
  | false => simp [Nat.lt_of_not_le hfit]
  | true => simp [hbase, hlive, hres]

/-! ## A failed Init -/

/-- What the caller of a failed `Init` is promised: the map is as it was, and one in zeroed storage
refuses every later `Put`. -/
def InitFailureInert (page : Nat) (os : OsReply) (b : HashMapBlock) (arena : Nat) (w : Arenas) :
    Prop :=
  (rgHashMapInitAt page os b arena w).1 ≠ .ok →
    (rgHashMapInitAt page os b arena w).2.1 = b ∧
      (b = .zero → ∀ os' w' key,
        ∃ map s, rgHashMapPutAt page os' (rgHashMapInitAt page os b arena w).2.1 w' key =
          .ok (0, map, s))

/-- A map in zeroed storage has no arena, so `Put` refuses. -/
theorem put_zero (page : Nat) (os : OsReply) (w : Arenas) (key : KeyArg) :
    rgHashMapPutAt page os .zero w key = .ok (0, HashMapBlock.zero.map, w 0) := by
  have href : rgmHashMapRefuses HashMapBlock.zero.map (w 0).toArena key = true := by
    simp [rgmHashMapRefuses, rgmMapIsLive, HashMapBlock.zero, HashMapBlock.map]
  rw [rgHashMapPutAt, rgHashMapPut, if_pos (by exact href)]
  rfl

/-- What a failing call does to the map: the arena's address is stored when it is the sentinel that
fails, and nothing else happens. -/
theorem rgHashMapInitAt_error (page : Nat) (os : OsReply) (b : HashMapBlock) {arena : Nat}
    {w : Arenas} (herr : (rgHashMapInitAt page os b arena w).1 ≠ .ok) :
    (rgHashMapInitAt page os b arena w).2.1 =
      if arena = 0 ∨ (w arena).base = 0 then b else { b with arena := arena } := by
  unfold rgHashMapInitAt at herr ⊢
  by_cases hrefuse : arena = 0 ∨ (w arena).base = 0
  · rw [if_pos hrefuse, if_pos hrefuse]
  rw [if_neg hrefuse] at herr ⊢
  rw [if_neg hrefuse]
  dsimp only at herr ⊢
  by_cases hused : rgArenaUsed (w arena).toArena = 0
  · rw [if_pos hused] at herr ⊢
    by_cases hnull : (rgArenaAllocAligned page os (w arena) rgmCacheLine rgmCacheLine).1 = 0
    · rw [if_pos hnull]
    · rw [if_neg hnull] at herr
      exact absurd rfl herr
  · rw [if_neg hused] at herr
    exact absurd rfl herr

/-- Which calls on a live arena fail. -/
theorem rgHashMapInitAt_fails_iff (page : Nat) (os : OsReply) (b : HashMapBlock) {arena : Nat}
    {w : Arenas} (harena : arena ≠ 0) (hlive : (w arena).base ≠ 0) :
    (rgHashMapInitAt page os b arena w).1 ≠ .ok ↔
      (w arena).pos = 0 ∧ SentinelRefused os (w arena) := by
  have hl : rgmArenaIsLive (w arena).toArena = true := decide_eq_true hlive
  have hused : rgArenaUsed (w arena).toArena = (w arena).pos := if_pos hl
  unfold rgHashMapInitAt
  rw [if_neg (not_or.mpr ⟨harena, hlive⟩), hused]
  dsimp only
  by_cases hpos : (w arena).pos = 0
  · rw [if_pos hpos, ← sentinel_eq_zero_iff page os hlive hpos]
    generalize rgArenaAllocAligned page os (w arena) rgmCacheLine rgmCacheLine = answer
    by_cases hnull : answer.1 = 0
    · simp [hnull, hpos]
    · simp [hnull]
  · rw [if_neg hpos]
    simp [hpos]

/-- **When a failed Init changes nothing.** For every content of the map, every arena and every
answer of the operating system: unless the arena is live and empty, has no room for the sentinel,
and is not the one the map already points to. -/
theorem init_failure_inert_iff (page : Nat) (os : OsReply) (b : HashMapBlock) (arena : Nat)
    (w : Arenas) :
    InitFailureInert page os b arena w ↔
      (arena = 0 ∨ (w arena).base = 0 ∨ (w arena).pos ≠ 0 ∨ ¬ SentinelRefused os (w arena) ∨
        b.arena = arena) := by
  constructor
  · intro hinert
    by_contra hbad
    simp only [not_or, not_not] at hbad
    obtain ⟨harena, hlive, hpos, hsentinel, hother⟩ := hbad
    have herr := (rgHashMapInitAt_fails_iff page os b harena hlive).mpr ⟨hpos, hsentinel⟩
    have hsame := (hinert herr).1
    rw [rgHashMapInitAt_error page os b herr, if_neg (not_or.mpr ⟨harena, hlive⟩)] at hsame
    exact hother (congrArg HashMapBlock.arena hsame).symm
  · intro hgood herr
    have hsame : (rgHashMapInitAt page os b arena w).2.1 = b := by
      rw [rgHashMapInitAt_error page os b herr]
      by_cases hrefuse : arena = 0 ∨ (w arena).base = 0
      · exact if_pos hrefuse
      · rw [if_neg hrefuse]
        have hfails := (rgHashMapInitAt_fails_iff page os b (fun h => hrefuse (.inl h))
          (fun h => hrefuse (.inr h))).mp herr
        rcases hgood with h | h | h | h | h
        · exact absurd (.inl h) hrefuse
        · exact absurd (.inr h) hrefuse
        · exact absurd hfails.1 h
        · exact absurd hfails.2 h
        · exact HashMapBlock.ext h.symm rfl
    refine ⟨hsame, fun hzero os' w' key => ?_⟩
    rw [hsame, hzero]
    exact ⟨_, _, put_zero page os' w' key⟩

/-! ## The half-bound map -/

/-- A fresh reservation of 64 KiB, nothing committed. -/
def reservedArena : ArenaState := ⟨⟨65536, 65536, 0, 0, .anon⟩, fun _ => 0, fun _ => false⟩

/-- An operating system that has no page to give. -/
def fullOs : OsReply := ⟨0, false, true, fun _ => 0⟩

/-- The commit is refused, `Init` answers out-of-memory, and the zeroed map is bound: once pages can
be had again a `Put` stores its node at offset 0, which no later `Get` can tell from an empty
slot. -/
theorem reservedArena_half_bound :
    let r := rgHashMapInitAt 4096 fullOs .zero 1 fun _ => reservedArena
    r.1 = .errNoMemory ∧ r.2.1.arena = 1 ∧
      ((rgHashMapPutAt 4096 sampleOs r.2.1 r.2.2 ⟨false, [107]⟩).toOption.map fun a => a.1) =
        some 65560 ∧
      ¬ InitFailureInert 4096 fullOs .zero 1 fun _ => reservedArena := by
  refine ⟨by decide, by decide, by decide, fun hinert => ?_⟩
  have herr : (rgHashMapInitAt 4096 fullOs .zero 1 fun _ => reservedArena).1 ≠ .ok := by
    decide
  have hsame := congrArg HashMapBlock.arena (hinert herr).1
  exact absurd hsame (by decide)

end RgMemory
