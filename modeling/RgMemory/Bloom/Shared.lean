import RgMemory.Bloom.Run
import RgMemory.Lib.Progress

/-!
# A Bloom filter that threads share

Any number of threads run the atomic Add and Test entry points on one filter, and nobody clears it.
An Add looks at the eight words of its block in order: one atomic load, and an atomic OR when a bit
of the mask was missing from it. A Test loads one word for each position until a bit is missing.
Between any two of these steps other threads may run.

Every step keeps every bit that is set (`bloomStep_keeps`), so a mask that an Add has seen or stored
stays complete, and the skipped OR is sound. The abstract state is the list of the pairs whose Adds
are over. No operation waits for another: each of its steps brings it nearer to its end
(`bloomStep_decreases`).
-/

namespace RgMemory

open Bytes BitArray Concurrent

/-- A call from one of the threads. -/
inductive BloomOp
  | add (key : BloomKey)
  | test (key : BloomKey)

/-- Where an operation stands: at its entry, before the load or the OR of a word of its block, or
with `k` positions left to test. -/
inductive BloomPhase
  | enter
  | load (d : Digests) (i : Nat)
  | or (d : Digests) (i : Nat)
  | test (d : Digests) (k pos : Nat)

/-- The atomic steps of Add and Test. An Add has no result, a Test answers 0 or 1. -/
def bloomStep (bf : BloomFilter) (op : BloomOp) (p : BloomPhase) (m : Mem) :
    Mem × (BloomPhase ⊕ Option Nat) :=
  match p with
  | .enter =>
    match op with
    | .add key =>
      if !rgmBloomIsLive bf then (m, .inr none)
      else
        match key.pair with
        | none => (m, .inr none)
        | some d => (m, .inl (.load d 0))
    | .test key =>
      if !rgmBloomIsLive bf then (m, .inr (some 0))
      else
        match key.pair with
        | none => (m, .inr (some 0))
        | some d => (m, .inl (.test d bf.hashCount (rgmBloomStart d.2)))
  | .load d i =>
    if i < rgmBloomBlockWords then
      if rgmBloomMissing (load64 m (rgmBloomBlock bf d.1 + 8 * i)) (rgmBloomWmask bf d.2 i) then
        (m, .inl (.or d i))
      else (m, .inl (.load d (i + 1)))
    else (m, .inr none)
  | .or d i =>
    let block := rgmBloomBlock bf d.1
    -- the OR reads the word again: it may hold more than the load saw
    (store64 m (block + 8 * i) (load64 m (block + 8 * i) ||| rgmBloomWmask bf d.2 i),
      .inl (.load d (i + 1)))
  | .test _ 0 _ => (m, .inr (some 1))
  | .test d (k + 1) pos =>
    if !rgmBloomHasBit (load64 m (rgmBloomBlock bf d.1 + 8 * (pos >>> 6))) pos then
      (m, .inr (some 0))
    else (m, .inl (.test d k (rgmBloomNext (rgmBloomDelta d.2) pos)))

/-- The filter as an object of the threads in `τ`. The environment decides nothing. -/
def bloomMachine (bf : BloomFilter) (τ : Type*) :
    Machine τ Unit Mem BloomOp BloomPhase (Option Nat) where
  start _ := .enter
  step _ _ op p m := bloomStep bf op p m

/-- What the results of the operations mean. The abstract state lists the pairs added. A Test may
find bits of Adds that are not over, so only its answer 0 says something. -/
def BloomSpec (s : List Digests) : BloomOp → Option Nat → List Digests → Prop
  | .add key, r, s' => r = none ∧ s' = key.pair.toList ++ s
  | .test key, r, s' => s' = s ∧ ∃ a, a ≤ 1 ∧ r = some a ∧ ∀ d, key.pair = some d → d ∈ s → a = 1

namespace BloomFilter

variable (bf : BloomFilter)

/-- Every bit that is set in `m` is set in `m'`. -/
def Keeps (m m' : Mem) : Prop := ∀ n, bit (bf.words m) n = true → bit (bf.words m') n = true

/-- What a phase relies on: the words that an Add has passed hold their masks, and a Test walks
positions of its own pair. -/
def Relies (m : Mem) : BloomOp → BloomPhase → Prop
  | _, .enter => True
  | op, .load d i => (∃ key, op = .add key ∧ key.pair = some d) ∧
      ∀ n ∈ bf.positions d, n / 64 % 8 < i → bit (bf.words m) n = true
  | op, .or d i => (∃ key, op = .add key ∧ key.pair = some d) ∧ i < rgmBloomBlockWords ∧
      ∀ n ∈ bf.positions d, n / 64 % 8 < i → bit (bf.words m) n = true
  | op, .test d k pos => (∃ key, op = .test key ∧ key.pair = some d) ∧ pos < 512 ∧
      ∀ p ∈ bloomWalk (rgmBloomDelta d.2) k pos, 512 * bf.blockOf d + p ∈ bf.positions d

variable {bf}

theorem Keeps.refl (m : Mem) : bf.Keeps m m := fun _ h => h

theorem Keeps.trans {m₁ m₂ m₃ : Mem} (h : bf.Keeps m₁ m₂) (h' : bf.Keeps m₂ m₃) :
    bf.Keeps m₁ m₃ := fun n hn => h' n (h n hn)

/-- More bits do not disturb a phase. -/
theorem Relies.mono {m m' : Mem} (hm : bf.Keeps m m') {op : BloomOp} {p : BloomPhase}
    (h : bf.Relies m op p) : bf.Relies m' op p := by
  cases p with
  | enter => trivial
  | load d i => exact ⟨h.1, fun n hn hi => hm n (h.2 n hn hi)⟩
  | or d i => exact ⟨h.1, h.2.1, fun n hn hi => hm n (h.2.2 n hn hi)⟩
  | test d k pos => exact h

/-- The OR of one word sets the positions in this word and no other bit. -/
theorem bit_orWord (bf : BloomFilter) (m : Mem) (d : Digests) {i : Nat}
    (hi : i < rgmBloomBlockWords) (n : Nat) :
    bit (bf.words (store64 m (rgmBloomBlock bf d.1 + 8 * i)
      (load64 m (rgmBloomBlock bf d.1 + 8 * i) ||| rgmBloomWmask bf d.2 i))) n =
      (bit (bf.words m) n || decide (n ∈ bf.positions d ∧ n / 64 % 8 = i)) := by
  have haddr : rgmBloomBlock bf d.1 + 8 * i = bf.bits + 8 * (8 * bf.blockOf d + i) := by
    unfold rgmBloomBlock blockOf rgmBloomBlockWords
    omega
  have hwords : rgmBloomBlockWords = 8 := rfl
  rw [bf.block_word, haddr, bit, bf.words_store]
  by_cases hword : n / 64 = 8 * bf.blockOf d + i
  · have hblock : n / 512 = bf.blockOf d := by omega
    have hmod : n / 64 % 8 = i := by omega
    have hinner : n % 512 / 64 = i := by omega
    have hbit : n % 512 % 64 = n % 64 := by omega
    have hmask := bit_wmask bf d.2 (n % 512)
    rw [bit, hinner, hbit] at hmask
    rw [if_pos hword, BitVec.getLsbD_or, hmask, bit, ← hword]
    congr 1
    apply decide_eq_decide.mpr
    rw [mem_positions_iff]
    exact ⟨fun h => ⟨⟨hblock, h⟩, hmod⟩, fun h => h.1.2⟩
  · have hout : ¬ (n ∈ bf.positions d ∧ n / 64 % 8 = i) := by
      rintro ⟨hn, hmod⟩
      have hblock := ((mem_positions_iff bf d n).mp hn).1
      omega
    rw [if_neg hword, decide_eq_false hout, Bool.or_false, bit]

/-- A load that finds no bit of the mask missing has seen the positions in its word. -/
theorem bit_of_not_missing {m : Mem} {d : Digests} {i : Nat} (hi : i < rgmBloomBlockWords)
    (h : rgmBloomMissing (load64 m (rgmBloomBlock bf d.1 + 8 * i)) (rgmBloomWmask bf d.2 i) = false)
    {n : Nat} (hn : n ∈ bf.positions d) (hword : n / 64 % 8 = i) : bit (bf.words m) n = true := by
  -- the OR would store what is there
  have hor := bit_orWord bf m d hi n
  have hskip := rgmBloomAddWord_eq true (rgmBloomBlock bf d.1) (rgmBloomWmask bf d.2) m i
  rw [rgmBloomAddWord, if_pos rfl, h, if_neg Bool.false_ne_true] at hskip
  rw [← hskip, decide_eq_true ⟨hn, hword⟩, Bool.or_true] at hor
  exact hor

end BloomFilter

variable {bf : BloomFilter}

/-- The steps of an Add that no other thread interrupts are a round of its loop. -/
theorem bloomStep_word (m : Mem) (d : Digests) {i : Nat} (hi : i < rgmBloomBlockWords)
    (op : BloomOp) :
    let m' := rgmBloomAddWord true (rgmBloomBlock bf d.1) (rgmBloomWmask bf d.2) m i
    bloomStep bf op (.load d i) m = (m', .inl (.load d (i + 1))) ∨
      bloomStep bf op (.load d i) m = (m, .inl (.or d i)) ∧
        bloomStep bf op (.or d i) m = (m', .inl (.load d (i + 1))) := by
  dsimp only [bloomStep, rgmBloomAddWord]
  rw [if_pos hi, if_pos rfl]
  split
  · exact .inr ⟨rfl, rfl⟩
  · exact .inl rfl

/-- Only the OR writes. -/
theorem bloomStep_mem {m m' : Mem} {op : BloomOp} {p : BloomPhase} {out : BloomPhase ⊕ Option Nat}
    (h : bloomStep bf op p m = (m', out)) : m' = m ∨ ∃ d i, p = .or d i ∧
      m' = store64 m (rgmBloomBlock bf d.1 + 8 * i)
        (load64 m (rgmBloomBlock bf d.1 + 8 * i) ||| rgmBloomWmask bf d.2 i) := by
  have hm : m' = (bloomStep bf op p m).1 := by rw [h]
  cases p with
  | enter =>
    left
    rw [hm]
    unfold bloomStep
    cases op <;> dsimp only <;> split <;> [rfl; split; rfl; split] <;> rfl
  | load d i =>
    left
    rw [hm]
    unfold bloomStep
    dsimp only
    split
    · split <;> rfl
    · rfl
  | or d i => exact .inr ⟨d, i, rfl, hm⟩
  | test d k pos =>
    left
    rw [hm]
    cases k with
    | zero => rfl
    | succ k =>
      unfold bloomStep
      dsimp only
      split <;> rfl

/-- No step clears a bit. -/
theorem bloomStep_keeps {m m' : Mem} {op : BloomOp} {p : BloomPhase}
    {out : BloomPhase ⊕ Option Nat} (hp : bf.Relies m op p)
    (h : bloomStep bf op p m = (m', out)) : bf.Keeps m m' := by
  rcases bloomStep_mem h with rfl | ⟨d, i, rfl, rfl⟩
  · exact BloomFilter.Keeps.refl _
  · intro n hn
    rw [BloomFilter.bit_orWord bf m d hp.2.1, hn, Bool.true_or]

/-- A step into another phase leaves what the phase relies on. -/
theorem bloomStep_relies {m m' : Mem} {op : BloomOp} {p p' : BloomPhase} (hp : bf.Relies m op p)
    (h : bloomStep bf op p m = (m', .inl p')) : bf.Relies m' op p' := by
  cases p with
  | enter =>
    unfold bloomStep at h
    cases op with
    | add key =>
      dsimp only at h
      split at h
      · cases h
      split at h
      · cases h
      next d hkey =>
      cases h
      exact ⟨⟨key, rfl, hkey⟩, fun n _ hn => absurd hn (Nat.not_lt_zero _)⟩
    | test key =>
      dsimp only at h
      split at h
      · cases h
      split at h
      · cases h
      next d hkey =>
      cases h
      refine ⟨⟨key, rfl, hkey⟩, rgmBloomStart_lt d.2, fun p hp => ?_⟩
      rw [positions_eq]
      exact List.mem_map_of_mem hp
  | load d i =>
    unfold bloomStep at h
    dsimp only at h
    split at h
    · next hi =>
      split at h
      · cases h
        exact ⟨hp.1, hi, hp.2⟩
      · next hseen =>
        cases h
        refine ⟨hp.1, fun n hn hlt => ?_⟩
        rcases Nat.lt_succ_iff_lt_or_eq.mp hlt with hlt | heq
        · exact hp.2 n hn hlt
        · exact BloomFilter.bit_of_not_missing hi (Bool.eq_false_iff.mpr hseen) hn heq
    · cases h
  | or d i =>
    have hkeeps := bloomStep_keeps hp h
    cases h
    refine ⟨hp.1, fun n hn hlt => ?_⟩
    rcases Nat.lt_succ_iff_lt_or_eq.mp hlt with hlt | heq
    · exact hkeeps n (hp.2.2 n hn hlt)
    · rw [BloomFilter.bit_orWord bf m d hp.2.1, decide_eq_true ⟨hn, heq⟩, Bool.or_true]
  | test d k pos =>
    cases k with
    | zero => cases h
    | succ k =>
      unfold bloomStep at h
      dsimp only at h
      split at h
      · cases h
      · cases h
        have hnext : rgmBloomNext (rgmBloomDelta d.2) pos < 512 := by
          rw [rgmBloomNext_eq]
          exact Nat.mod_lt _ (by decide)
        exact ⟨hp.1, hnext, fun p hp' => hp.2.2 p (List.mem_cons_of_mem _ hp')⟩

/-- The array has all positions of the pairs that were added. -/
def BloomFilter.Covers (bf : BloomFilter) (m : Mem) (s : List Digests) : Prop :=
  ∀ d ∈ s, ∀ n ∈ bf.positions d, bit (bf.words m) n = true

/-- A step with a result is legal: an Add has set all its positions, and a Test that answers 0 has
seen a position that no finished Add has. -/
theorem bloomStep_result (hbf : bf.Sound) {m m' : Mem} {op : BloomOp} {p : BloomPhase}
    {r : Option Nat} {s : List Digests} (hp : bf.Relies m op p) (hs : bf.Covers m s)
    (h : bloomStep bf op p m = (m', .inr r)) :
    ∃ s', BloomSpec s op r s' ∧ bf.Covers m' s' := by
  have hlive : rgmBloomIsLive bf = true := decide_eq_true hbf.live
  cases p with
  | enter =>
    unfold bloomStep at h
    cases op with
    | add key =>
      simp only [hlive, Bool.not_true, Bool.false_eq_true, if_false] at h
      split at h
      · next hkey =>
        cases h
        exact ⟨s, ⟨rfl, by rw [hkey]; rfl⟩, hs⟩
      · cases h
    | test key =>
      simp only [hlive, Bool.not_true, Bool.false_eq_true, if_false] at h
      split at h
      · next hkey =>
        cases h
        exact ⟨s, ⟨rfl, 0, Nat.zero_le 1, rfl, fun d hd => by rw [hkey] at hd; cases hd⟩, hs⟩
      · cases h
  | load d i =>
    obtain ⟨⟨key, rfl, hkey⟩, hpassed⟩ := hp
    unfold bloomStep at h
    dsimp only at h
    split at h
    · split at h <;> cases h
    · next hi =>
      cases h
      refine ⟨key.pair.toList ++ s, ⟨rfl, rfl⟩, fun d' hd' n hn => ?_⟩
      have hwords : rgmBloomBlockWords = 8 := rfl
      rw [hkey] at hd'
      rcases List.mem_cons.mp hd' with rfl | hd'
      · exact hpassed n hn (by omega)
      · exact hs d' hd' n hn
  | or d i => cases h
  | test d k pos =>
    obtain ⟨⟨key, rfl, hkey⟩, hpos, hwalk⟩ := hp
    cases k with
    | zero =>
      cases h
      exact ⟨s, ⟨rfl, 1, Nat.le_refl 1, rfl, fun _ _ _ => rfl⟩, hs⟩
    | succ k =>
      unfold bloomStep at h
      dsimp only at h
      split at h
      · next hclear =>
        cases h
        refine ⟨s, ⟨rfl, 0, Nat.zero_le 1, rfl, fun d' hd' hmem => ?_⟩, hs⟩
        have hd : d' = d := Option.some.inj (hd'.symm.trans hkey)
        subst hd
        have hset := hs d' hmem _ (hwalk pos List.mem_cons_self)
        have hdiv : (512 * bf.blockOf d' + pos) / 64 = 8 * bf.blockOf d' + pos / 64 := by omega
        have hmod : (512 * bf.blockOf d' + pos) % 64 = pos % 64 := by omega
        rw [shiftRight_six, bf.block_word, rgmBloomHasBit_eq] at hclear
        rw [bit, hdiv, hmod] at hset
        simp [hset] at hclear
      · cases h

/-- The steps follow the specification; `m0` is the memory at the start. -/
theorem bloom_simulation (hbf : bf.Sound) (τ : Type*) (m0 : Mem) :
    Simulation BloomSpec (bloomMachine bf τ) (fun m s => bf.Keeps m0 m ∧ bf.Covers m s)
      (fun m _ op p => bf.Relies m op p) where
  start _ _ _ _ _ := trivial
  move := by
    intro m s _ _ op p m' p' ⟨hm, hs⟩ hp h
    have hkeeps := bloomStep_keeps hp h
    exact ⟨⟨hm.trans hkeeps, fun d hd n hn => hkeeps n (hs d hd n hn)⟩, bloomStep_relies hp h⟩
  commit := by
    intro m s _ _ op p m' r ⟨hm, hs⟩ hp h
    obtain ⟨s', hspec, hs'⟩ := bloomStep_result hbf hp hs h
    exact ⟨s', hspec, hm.trans (bloomStep_keeps hp h), hs'⟩
  frame := by
    intro m s _ _ op p m' out _ hp h _ _ op' p' hp'
    exact hp'.mono (bloomStep_keeps hp h)

/-- A pair whose Add is over is in the abstract state. -/
theorem BloomSpec.added {s s' : List Digests} {xs : List (Nat × BloomOp × Option Nat)}
    (h : Legal BloomSpec s xs s') {a : Nat} {key : BloomKey} {r : Option Nat} {d : Digests}
    (hx : (a, .add key, r) ∈ xs) (hkey : key.pair = some d) : d ∈ s' := by
  refine h.keeps hx (fun k k' hspec => ?_) (fun k op r k' hspec hd => ?_)
  · rw [hspec.2, hkey]
    exact List.mem_append_left _ List.mem_cons_self
  · cases op with
    | add key => exact hspec.2 ▸ List.mem_append_right _ hd
    | test key => exact hspec.1 ▸ hd

/-! ## The end of an operation -/

/-- The steps that an operation takes at most: for an Add the entry, two for each word and the end;
for a Test the entry, one for each position and the end. -/
def BloomFilter.steps (bf : BloomFilter) : BloomOp → Nat
  | .add _ => 2 * rgmBloomBlockWords + 2
  | .test _ => bf.hashCount + 2

/-- The steps that are left in a phase, at most. -/
def BloomFilter.left (bf : BloomFilter) (op : BloomOp) : BloomPhase → Nat
  | .enter => bf.steps op
  | .load _ i => 2 * (rgmBloomBlockWords - i) + 1
  | .or _ i => 2 * (rgmBloomBlockWords - (i + 1)) + 2
  | .test _ k _ => k + 1

theorem BloomFilter.left_pos (bf : BloomFilter) (op : BloomOp) (p : BloomPhase) :
    0 < bf.left op p := by
  cases p with
  | enter => cases op <;> exact Nat.succ_pos _
  | _ => exact Nat.succ_pos _

/-- Every step that does not end the operation comes nearer to its end, whatever it reads. -/
theorem bloomStep_decreases {m m' : Mem} {op : BloomOp} {p p' : BloomPhase}
    (h : bloomStep bf op p m = (m', .inl p')) : bf.left op p' < bf.left op p := by
  have hwords : rgmBloomBlockWords = 8 := rfl
  unfold bloomStep at h
  cases p with
  | enter =>
    cases op with
    | add key =>
      dsimp only at h
      split at h
      · cases h
      split at h <;> cases h
      show 2 * (rgmBloomBlockWords - 0) + 1 < 2 * rgmBloomBlockWords + 2
      omega
    | test key =>
      dsimp only at h
      split at h
      · cases h
      split at h <;> cases h
      show bf.hashCount + 1 < bf.hashCount + 2
      exact Nat.lt_succ_self _
  | load d i =>
    dsimp only at h
    split at h
    · split at h <;> cases h
      · show 2 * (rgmBloomBlockWords - (i + 1)) + 2 < 2 * (rgmBloomBlockWords - i) + 1
        omega
      · show 2 * (rgmBloomBlockWords - (i + 1)) + 1 < 2 * (rgmBloomBlockWords - i) + 1
        omega
    · cases h
  | or d i =>
    cases h
    exact Nat.lt_succ_self _
  | test d k pos =>
    cases k with
    | zero => cases h
    | succ k =>
      dsimp only at h
      split at h <;> cases h
      exact Nat.lt_succ_self _

/-! ## Bits of started Adds -/

/-- Every bit was set at the start, or belongs to an Add that was called. -/
def BloomFilter.Accounted (bf : BloomFilter) {τ : Type*} (m0 : Mem)
    (c : Config τ Mem BloomOp BloomPhase (Option Nat)) : Prop :=
  ∀ n, bit (bf.words c.shared) n = true → bit (bf.words m0) n = true ∨
    ∃ id key d, Event.call id (.add key) ∈ c.history ∧ key.pair = some d ∧ n ∈ bf.positions d

/-- A step sets bits of its own pair only. -/
theorem bloomStep_sets {m m' : Mem} {op : BloomOp} {p : BloomPhase}
    {out : BloomPhase ⊕ Option Nat} (hp : bf.Relies m op p) (h : bloomStep bf op p m = (m', out))
    {n : Nat} (hn : bit (bf.words m') n = true) : bit (bf.words m) n = true ∨
      ∃ key d, op = .add key ∧ key.pair = some d ∧ n ∈ bf.positions d := by
  rcases bloomStep_mem h with rfl | ⟨d, i, rfl, rfl⟩
  · exact .inl hn
  · obtain ⟨⟨key, rfl, hkey⟩, hi, -⟩ := hp
    rw [BloomFilter.bit_orWord bf m d hi, Bool.or_eq_true, decide_eq_true_eq] at hn
    exact hn.imp_right fun hn => ⟨key, d, rfl, hkey, hn.1⟩

variable {τ : Type*} [DecidableEq τ]

/-- What the simulation gives for every configuration of a run that started with the memory `m0`. -/
abbrev BloomFilter.Tracks (bf : BloomFilter) (m0 : Mem)
    (c : Config τ Mem BloomOp BloomPhase (Option Nat)) : Prop :=
  Follows BloomSpec (fun m s => bf.Keeps m0 m ∧ bf.Covers m s) (fun m _ op p => bf.Relies m op p)
    [] c

theorem BloomFilter.Accounted.next {m0 : Mem} {c c' : Config τ Mem BloomOp BloomPhase (Option Nat)}
    (hc : bf.Tracks m0 c) (h : bf.Accounted m0 c) (hnext : c.Next (bloomMachine bf τ) c') :
    bf.Accounted m0 c' := by
  intro n hn
  have hold : bit (bf.words c.shared) n = true → bit (bf.words m0) n = true ∨
      ∃ id key d, Event.call id (.add key) ∈ c'.history ∧ key.pair = some d ∧
        n ∈ bf.positions d := by
    intro hset
    refine (h n hset).imp_right ?_
    rintro ⟨id, key, d, hcall, hrest⟩
    exact ⟨id, key, d, hnext.mem_history hcall, hrest⟩
  rcases hnext.shared_cases with hsame | ⟨t, x, id, op, p, out, hrun, hstep⟩
  · exact hold (hsame ▸ hn)
  · rcases bloomStep_sets (hc.running t id op p hrun) hstep hn with hset | ⟨key, d, rfl, hrest⟩
    · exact hold hset
    · exact .inr ⟨id, key, d, hnext.mem_history (hc.wf.running_called t id _ p hrun).1, hrest⟩

/-- **Concurrent Adds lose no bit.** In every configuration of every run of a shared filter: a bit
that is set stays set; when every Add has returned, the array is what it was at the start with the
positions of the added keys set; a Test that is called after an Add of the same digest pair has
returned answers 1; and every bit was set at the start or is a position of an Add that was called.
And the operations end: an Add has its result after 18 steps of its thread, and a Test after two more
than it has positions, whatever the other threads do. -/
theorem bloom_adds_lose_no_bit (hbf : bf.Sound) (m0 : Mem) (actions : List (Action τ Unit BloomOp)) :
    let M := bloomMachine bf τ
    let c := (Config.start m0).run M actions
    (∀ actions' n, bit (bf.words c.shared) n = true →
      bit (bf.words (c.run M actions').shared) n = true) ∧
    ((∀ id key, Event.call id (.add key) ∈ c.history → ∃ r, Event.ret id r ∈ c.history) →
      ∀ n, bit (bf.words c.shared) n = true ↔ bit (bf.words m0) n = true ∨
        ∃ id key d, Event.call id (.add key) ∈ c.history ∧ key.pair = some d ∧
          n ∈ bf.positions d) ∧
    (∀ a b key key' d r r', Event.call a (.add key) ∈ c.history →
      [Event.ret a r, Event.call b (.test key')].Sublist c.history →
      Event.ret b r' ∈ c.history → key.pair = some d → key'.pair = some d → r' = some 1) ∧
    (∀ n, bit (bf.words c.shared) n = true → bit (bf.words m0) n = true ∨
      ∃ id key d, Event.call id (.add key) ∈ c.history ∧ key.pair = some d ∧
        n ∈ bf.positions d) ∧
    (∀ t op after, c.thread t = .idle →
      (match op with | .add _ => 18 | .test _ => bf.hashCount + 2) ≤ ownSteps t after →
      let c' := (c.act M (.call t op)).run M after
      (∃ r, c'.thread t = .done c.next op r) ∨ ∃ r, Event.ret c.next r ∈ c'.history) := by
  intro M c
  have hsim := bloom_simulation hbf τ m0
  have hempty : bf.Keeps m0 m0 ∧ bf.Covers m0 [] :=
    ⟨BloomFilter.Keeps.refl m0, fun d hd => absurd hd List.not_mem_nil⟩
  obtain ⟨hfollows, haccounted⟩ : bf.Tracks m0 c ∧ bf.Accounted m0 c := by
    refine Config.run_induction (Q := fun c => bf.Tracks m0 c ∧ bf.Accounted m0 c) M
      (fun c₁ c₂ h hnext => ?_) ⟨hsim.follows hempty [], ?_⟩ actions
    · exact ⟨hsim.follows_next h.1 hnext, h.2.next h.1 hnext⟩
    · exact fun n hn => .inl hn
  refine ⟨fun actions' n hn => ?_, fun hreturned n => ⟨haccounted n, ?_⟩, ?_, haccounted, ?_⟩
  · suffices h : bf.Tracks m0 (c.run M actions') ∧
        bit (bf.words (c.run M actions').shared) n = true from h.2
    refine Config.run_induction (Q := fun c' => bf.Tracks m0 c' ∧
      bit (bf.words c'.shared) n = true) M ?_ ⟨hfollows, hn⟩ actions'
    rintro c₁ c₂ ⟨h, hset⟩ hnext
    refine ⟨hsim.follows_next h hnext, ?_⟩
    rcases hnext.shared_cases with hsame | ⟨t, x, id, op, p, out, hrun, hstep⟩
    · rwa [hsame]
    · exact bloomStep_keeps (h.running t id op p hrun) hstep n hset
  · obtain ⟨s, hlegal, hkeeps, hcovers⟩ := hfollows.log
    rintro (hinit | ⟨id, key, d, hcall, hkey, hpos⟩)
    · exact hkeeps n hinit
    · obtain ⟨r, hret⟩ := hreturned id key hcall
      obtain ⟨op, hlog⟩ := hfollows.wf.ret_logged id r hret
      obtain rfl := hfollows.wf.call_unique id op _ (hfollows.wf.log_called _ hlog) hcall
      exact hcovers d (BloomSpec.added hlegal hlog hkey) n hpos
  · intro a b key key' d r r' hcall hsub hret hkey hkey'
    obtain ⟨pre, k₁, k₂, hmem, hlegal, hspec⟩ := hfollows.after hcall hsub hret
    obtain ⟨-, answer, -, rfl, hfound⟩ := hspec
    rw [hfound d hkey' (BloomSpec.added hlegal hmem hkey)]
  · intro t op after hidle henough
    refine Config.ends bf.left bf.left_pos (fun _ _ _ _ _ _ _ => bloomStep_decreases) hidle
      after (Nat.le_trans ?_ henough)
    cases op <;> exact Nat.le_refl _

/-- Two threads add one key, and the second stands before its OR when a third tests it; then it goes
on. -/
def sampleBloomActions : List (Action (Fin 3) Unit BloomOp) :=
  [.call 0 (.add (.digests 0 0)), .call 1 (.add (.digests 0 0)), .step 0 (), .step 0 (), .step 1 (),
    .step 1 ()] ++ List.replicate 9 (.step 0 ()) ++
    [.ret 0, .call 2 (.test (.digests 0 0)), .step 2 (), .step 2 (), .step 2 (), .step 2 (), .ret 2] ++
    List.replicate 9 (.step 1 ()) ++ [.ret 1]

theorem sampleBloom_history :
    ((Config.start sampleBloom.1).run (bloomMachine sampleBloom.2 (Fin 3))
      sampleBloomActions).history =
      [.call 0 (.add (.digests 0 0)), .call 1 (.add (.digests 0 0)), .ret 0 none,
        .call 2 (.test (.digests 0 0)), .ret 2 (some 1), .ret 1 none] := by
  rfl

/-- Both Adds are of one key and have returned. -/
theorem sampleBloom_adds {id : Nat} {key : BloomKey}
    (hcall : Event.call id (.add key) ∈
      ((Config.start sampleBloom.1).run (bloomMachine sampleBloom.2 (Fin 3))
        sampleBloomActions).history) :
    key = .digests 0 0 ∧ Event.ret id none ∈
      ((Config.start sampleBloom.1).run (bloomMachine sampleBloom.2 (Fin 3))
        sampleBloomActions).history := by
  rw [sampleBloom_history] at hcall ⊢
  simp only [List.mem_cons, Event.call.injEq, reduceCtorEq, List.not_mem_nil, or_false,
    false_or] at hcall
  rcases hcall with ⟨rfl, h⟩ | ⟨rfl, h⟩ | ⟨-, h⟩ <;> cases h
  · exact ⟨rfl, by simp⟩
  · exact ⟨rfl, by simp⟩

theorem sampleBloom_idle :
    ((Config.start sampleBloom.1).run (bloomMachine sampleBloom.2 (Fin 3))
      sampleBloomActions).thread 1 = .idle := by
  rfl

/-- The Test runs after the first Add, so it finds the key; in the end the array has the positions of
the key and what it had; and an Add that follows has its result after 18 steps. -/
theorem sampleBloom_found_shared :
    let c := (Config.start sampleBloom.1).run (bloomMachine sampleBloom.2 (Fin 3))
      sampleBloomActions
    (∃ r, Event.ret 2 r ∈ c.history ∧ r = some 1) ∧
      (∀ n, bit (sampleBloom.2.words c.shared) n = true ↔
        bit (sampleBloom.2.words sampleBloom.1) n = true ∨ n ∈ sampleBloom.2.positions (0, 0)) ∧
      ∀ after, 18 ≤ ownSteps 1 after →
        let c := (Config.start sampleBloom.1).run (bloomMachine sampleBloom.2 (Fin 3))
          sampleBloomActions
        let c' := (c.act (bloomMachine sampleBloom.2 (Fin 3)) (.call 1 (.add (.digests 1 1)))).run
          (bloomMachine sampleBloom.2 (Fin 3)) after
        (∃ r, c'.thread 1 = .done c.next (.add (.digests 1 1)) r) ∨
          ∃ r, Event.ret c.next r ∈ c'.history := by
  intro c
  have hhistory : c.history = _ := sampleBloom_history
  have hsound := (BloomFilter.fresh_sound ⟨12, by decide, rfl⟩ sampleBloom_fresh).1
  obtain ⟨-, hfinal, hfound, -, hends⟩ :=
    bloom_adds_lose_no_bit hsound sampleBloom.1 sampleBloomActions
  refine ⟨?_, fun n => ?_, ?_⟩
  · have hret : Event.ret 2 (some 1) ∈ c.history := by simp [hhistory]
    refine ⟨some 1, hret, hfound 0 2 (.digests 0 0) (.digests 0 0) (0, 0) none _ ?_ ?_ hret rfl rfl⟩
    · exact hhistory ▸ List.mem_cons_self
    · rw [sampleBloom_history]
      exact .cons _ (.cons _ (.cons_cons _ (.cons_cons _ (.cons _ (.cons _ .slnil)))))
  · refine (hfinal (fun id key hcall => ⟨none, (sampleBloom_adds hcall).2⟩) n).trans
      (or_congr_right ⟨?_, fun hn => ?_⟩)
    · rintro ⟨id, key, d, hcall, hkey, hn⟩
      obtain ⟨rfl, -⟩ := sampleBloom_adds hcall
      cases hkey
      exact hn
    · exact ⟨0, .digests 0 0, (0, 0), hhistory ▸ List.mem_cons_self, rfl, hn⟩
  · exact fun after henough => hends 1 (.add (.digests 1 1)) after sampleBloom_idle henough

end RgMemory
