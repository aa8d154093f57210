import RgMemory.HashMap.Validate
import RgMemory.Lib.Lanes

/-!
# Batched lookup

`rgHashMapGetBatchU64`: 32 lanes walk one key each, a round advances every lane by one node, and a
lane that finishes takes the next key. The lanes are a list here, since a lane touches no other; what
they share is the counter of keys, the number of live lanes and the output arrays.

A lane searches as the single lookup does (`hashMapWalker_ends`), and the loop is the one of
`Lanes.walk` (`rgmHashMapBatchWalk_lanes`). So on a map whose nodes can be read the loop ends, and its
answer is known (`rgHashMapGetBatchU64_eq`).
-/

namespace RgMemory

open Bytes Trie

/-- `RGM_HASH_BATCH_K`. -/
def rgmHashBatchK : Nat := 32

/-- A lane: the index of its key (none for `UINT32_MAX`), the key with its digest, the register, and
the node it is about to look at. -/
structure Lane where
  idx : Option Nat
  pr : Probe
  d : Descent
  cur : BitVec 32

/-- What the lanes share. An output array that was not passed is `none`. -/
structure Batch where
  next : Nat
  live : Nat
  hits : Nat
  outValues : Option (Nat → BitVec 64)
  outFound : Option (Nat → Int)

section

variable (map : HashMap) (s : ArenaState) (keys : Nat → BitVec 64) (count : Nat)

/-- A lane at the root of the key with index `j`. -/
def rgmHashMapBatchLoad (j : Nat) : Lane :=
  let pr := u64Probe (keys j)
  ⟨some j, pr, pr.descend, map.top (rgmHashMapRoot pr.hfull)⟩

/-- Take the next key: its found flag is cleared. -/
def Batch.take (b : Batch) : Batch :=
  { b with
    next := b.next + 1
    outFound := b.outFound.map fun f => Function.update f b.next 0 }

/-- Report a hit. -/
def Batch.hit (b : Batch) (j : Nat) (value : BitVec 64) : Batch :=
  { b with
    hits := b.hits + 1
    outValues := b.outValues.map fun f => Function.update f j value
    outFound := if b.outValues.isSome then b.outFound.map fun f => Function.update f j 1
      else b.outFound }

/-- The first loop, over the lanes that are still to be started. -/
def rgmHashMapBatchStart : Nat → Batch → List Lane × Batch
  | 0, b => ([], b)
  | n + 1, b =>
    if b.next < count then
      match rgmHashMapBatchStart n { b.take with live := b.live + 1 } with
      | (lanes, b') => (rgmHashMapBatchLoad map keys b.next :: lanes, b')
    else
      match rgmHashMapBatchStart n b with
      | (lanes, b') => (⟨none, u64Probe 0, ⟨0, 0⟩, 0⟩ :: lanes, b')

/-- A finished lane takes the next key, or goes idle. -/
def rgmHashMapBatchRefill (lane : Lane) (b : Batch) : Lane × Batch :=
  if b.next < count then (rgmHashMapBatchLoad map keys b.next, b.take)
  else ({ lane with idx := none }, { b with live := b.live - 1 })

/-- One lane in one round. -/
def rgmHashMapBatchLane (lane : Lane) (b : Batch) : Except Stop (Lane × Batch) :=
  match lane.idx with
  | none => .ok (lane, b)
  | some j =>
    if lane.cur ≠ 0 then
      match rgmHashMapMatches s lane.pr lane.cur with
      | .error e => .error e
      | .ok false =>
        .ok (⟨some j, lane.pr, lane.d.next lane.pr.reseed,
          HashMapNode.child s.img lane.cur lane.d.digit⟩, b)
      | .ok true =>
        .ok (rgmHashMapBatchRefill map keys count lane (b.hit j (HashMapNode.value s.img lane.cur)))
    else .ok (rgmHashMapBatchRefill map keys count lane b)

/-- One round over the lanes. -/
def rgmHashMapBatchRound : List Lane → Batch → Except Stop (List Lane × Batch)
  | [], b => .ok ([], b)
  | lane :: rest, b =>
    match rgmHashMapBatchLane map s keys count lane b with
    | .error e => .error e
    | .ok (lane, b) =>
      match rgmHashMapBatchRound rest b with
      | .error e => .error e
      | .ok (lanes, b) => .ok (lane :: lanes, b)

/-- `while (live != 0)`. -/
def rgmHashMapBatchLoop : Nat → List Lane → Batch → Except Stop Batch
  | 0, _, b => if b.live = 0 then .ok b else .error .diverge
  | fuel + 1, lanes, b =>
    if b.live = 0 then .ok b
    else
      match rgmHashMapBatchRound map s keys count lanes b with
      | .error e => .error e
      | .ok (lanes, b) => rgmHashMapBatchLoop fuel lanes b

/-- `rgm_hash_map_batch_walk`. -/
def rgmHashMapBatchWalk (fuel : Nat) (outValues : Option (Nat → BitVec 64))
    (outFound : Option (Nat → Int)) : Except Stop Batch :=
  match rgmHashMapBatchStart map keys count rgmHashBatchK ⟨0, 0, 0, outValues, outFound⟩ with
  | (lanes, b) => rgmHashMapBatchLoop map s keys count fuel lanes b

/-- What a batched lookup answers: an error, or the number of hits with the two arrays. -/
inductive BatchAnswer
  | status (st : Status)
  | hits (n : Nat) (outValues : Nat → BitVec 64) (outFound : Option (Nat → Int))

/-- Look up `count` keys. A null array is `none`; the number of hits is clamped to an `int32_t`. -/
def rgHashMapGetBatchU64 (fuel : Nat) (map : HashMap) (s : ArenaState)
    (keys : Option (Nat → BitVec 64)) (outValues : Option (Nat → BitVec 64))
    (outFound : Option (Nat → Int)) (count : BitVec 32) : Except Stop BatchAnswer :=
  if !rgmMapIsLive map s.toArena then .ok (.status .errInvalid)
  else
    match keys, outValues with
    | some keys, some values =>
      match rgmHashMapBatchWalk map s keys count.toNat fuel (some values) outFound with
      | .error e => .error e
      | .ok b => .ok (.hits (min b.hits (2 ^ 31 - 1)) (b.outValues.getD values) b.outFound)
    | _, _ => .ok (.status .errInvalid)

end

/-! ## The searches -/

section

variable {map : HashMap} {s : ArenaState} {forest : Fin 4096 → Trie 4 (BitVec 32)}
  {keys : Nat → BitVec 64} {count depth : Nat}

/-- What a lane does with its key: the key with its digest, the register, and the node it looks at. -/
def hashMapWalker (map : HashMap) (s : ArenaState) (keys : Nat → BitVec 64) :
    Lanes.Walker (Probe × Descent × BitVec 32) (BitVec 64) Stop where
  load j :=
    let pr := u64Probe (keys j)
    (pr, pr.descend, map.top (rgmHashMapRoot pr.hfull))
  step := fun (pr, d, cur) =>
    if cur ≠ 0 then
      match rgmHashMapMatches s pr cur with
      | .error e => .error e
      | .ok false => .ok (.inl (pr, d.next pr.reseed, HashMapNode.child s.img cur d.digit))
      | .ok true => .ok (.inr (some (HashMapNode.value s.img cur)))
    else .ok (.inr none)

/-- A search in a trie of readable nodes ends with the value of the node that the trie finds. -/
theorem hashMapWalker_ends {pr : Probe} (hlen : pr.keyLen < 2 ^ 32) {t : Trie 4 (BitVec 32)}
    (hin : ∀ a ∈ t.toList, NodeInside s.img s.pos a) {depth : Nat} (hdepth : t.DepthLe depth)
    {d : Descent} {cur : BitVec 32} (h : Unfolds (hashMapLinks s.img) t (slotLink cur)) :
    ∃ n ≤ depth, Lanes.Ends (hashMapWalker map s keys) (pr, d, cur) n
      ((t.find (pr.test s.img) (d.digits pr.reseed)).map (HashMapNode.value s.img)) := by
  induction t generalizing d cur depth with
  | nil =>
    have hcur : cur = 0 := slotLink_eq_none.mp h
    refine ⟨0, Nat.zero_le _, .last ?_⟩
    exact if_neg (not_not.mpr hcur)
  | node a kids ih =>
    obtain ⟨hslot, hkids⟩ := h
    obtain ⟨rfl, hne⟩ := slotLink_eq_some hslot
    have hmatches := rgmHashMapMatches_eq hlen (hin cur List.mem_cons_self)
    have hstep : (hashMapWalker map s keys).step (pr, d, cur) = _ := if_pos hne
    rw [hmatches] at hstep
    rw [find]
    cases htest : pr.test s.img cur with
    | true =>
      rw [htest] at hstep
      exact ⟨0, Nat.zero_le _, .last hstep⟩
    | false =>
      rw [htest] at hstep
      cases depth with
      | zero => exact absurd hdepth id
      | succ depth =>
        obtain ⟨n, hn, hends⟩ := ih d.digit (fun c hc => hin c (mem_kid hc)) (hdepth d.digit)
          (d := d.next pr.reseed) (hkids d.digit)
        exact ⟨n + 1, Nat.succ_le_succ hn, .more hstep hends⟩

/-- What the single lookup of a 64-bit key finds. -/
def HashMap.valueU64 (s : ArenaState) (forest : Fin 4096 → Trie 4 (BitVec 32)) (key : BitVec 64) :
    Option (BitVec 64) :=
  let pr := u64Probe key
  ((forest (rgmHashMapRoot pr.hfull)).find (pr.test s.img) pr.digits).map (HashMapNode.value s.img)

/-! ## The lanes -/

/-- A lane, without what an idle one has left. -/
def Lane.search (lane : Lane) : Lanes.Lane (Probe × Descent × BitVec 32) :=
  lane.idx.map fun j => (j, lane.pr, lane.d, lane.cur)

def Batch.shared (b : Batch) : Lanes.Shared (BitVec 64) :=
  ⟨b.next, b.live, b.hits, b.outValues, b.outFound⟩

theorem Batch.eq_of_shared {b : Batch} {x : Lanes.Shared (BitVec 64)} (h : b.shared = x) :
    b = ⟨x.next, x.live, x.hits, x.outValues, x.outFound⟩ := by
  rw [← h]
  rfl

variable (map s keys count) in
theorem rgmHashMapBatchStart_lanes (n : Nat) (b : Batch) :
    Lanes.start (hashMapWalker map s keys) count n b.shared =
      ((rgmHashMapBatchStart map keys count n b).1.map Lane.search,
        (rgmHashMapBatchStart map keys count n b).2.shared) := by
  induction n generalizing b with
  | zero => rfl
  | succ n ih =>
    have hshared : b.shared.next = b.next := rfl
    rw [Lanes.start, rgmHashMapBatchStart, hshared]
    by_cases hnext : b.next < count
    · have htake : { b.shared.take with live := b.shared.live + 1 } =
          Batch.shared { b.take with live := b.live + 1 } := rfl
      rw [if_pos hnext, if_pos hnext, htake, ih]
      rfl
    · rw [if_neg hnext, if_neg hnext, ih]
      rfl

theorem rgmHashMapBatchRefill_lanes (lane : Lane) (b : Batch) :
    Lanes.refill (hashMapWalker map s keys) count b.shared =
      ((rgmHashMapBatchRefill map keys count lane b).1.search,
        (rgmHashMapBatchRefill map keys count lane b).2.shared) := by
  have hshared : b.shared.next = b.next := rfl
  rw [Lanes.refill, rgmHashMapBatchRefill, hshared]
  by_cases hnext : b.next < count
  · rw [if_pos hnext, if_pos hnext]
    rfl
  · rw [if_neg hnext, if_neg hnext]
    rfl

theorem rgmHashMapBatchLane_lanes (lane : Lane) (b : Batch) :
    Lanes.lane (hashMapWalker map s keys) count lane.search b.shared =
      (rgmHashMapBatchLane map s keys count lane b).map fun x => (x.1.search, x.2.shared) := by
  obtain ⟨idx, pr, d, cur⟩ := lane
  cases idx with
  | none => rfl
  | some j =>
    have hsearch : Lane.search ⟨some j, pr, d, cur⟩ = some (j, pr, d, cur) := rfl
    rw [hsearch, Lanes.lane, rgmHashMapBatchLane]
    dsimp only
    by_cases hcur : cur ≠ 0
    · have hstep : (hashMapWalker map s keys).step (pr, d, cur) = _ := if_pos hcur
      rw [hstep, if_pos hcur]
      cases rgmHashMapMatches s pr cur with
      | error e => rfl
      | ok found =>
        cases found with
        | false => rfl
        | true =>
          exact congrArg Except.ok (rgmHashMapBatchRefill_lanes _
            (b.hit j (HashMapNode.value s.img cur)))
    · have hstep : (hashMapWalker map s keys).step (pr, d, cur) = _ := if_neg hcur
      rw [hstep, if_neg hcur]
      exact congrArg Except.ok (rgmHashMapBatchRefill_lanes ..)

theorem rgmHashMapBatchRound_lanes (lanes : List Lane) (b : Batch) :
    Lanes.round (hashMapWalker map s keys) count (lanes.map Lane.search) b.shared =
      (rgmHashMapBatchRound map s keys count lanes b).map fun x =>
        (x.1.map Lane.search, x.2.shared) := by
  induction lanes generalizing b with
  | nil => rfl
  | cons lane rest ih =>
    rw [List.map_cons, Lanes.round, rgmHashMapBatchRound, rgmHashMapBatchLane_lanes]
    cases rgmHashMapBatchLane map s keys count lane b with
    | error e => rfl
    | ok x =>
      obtain ⟨lane', b'⟩ := x
      dsimp only [Except.map]
      rw [ih]
      cases rgmHashMapBatchRound map s keys count rest b' <;> rfl

theorem rgmHashMapBatchLoop_lanes (fuel : Nat) (lanes : List Lane) (b : Batch) :
    Lanes.loop (hashMapWalker map s keys) count .diverge fuel (lanes.map Lane.search) b.shared =
      (rgmHashMapBatchLoop map s keys count fuel lanes b).map Batch.shared := by
  have hlive : b.shared.live = b.live := rfl
  induction fuel generalizing lanes b with
  | zero =>
    rw [Lanes.loop, rgmHashMapBatchLoop, hlive]
    by_cases hzero : b.live = 0
    · rw [if_pos hzero, if_pos hzero]
      rfl
    · rw [if_neg hzero, if_neg hzero]
      rfl
  | succ fuel ih =>
    rw [Lanes.loop, rgmHashMapBatchLoop, hlive]
    by_cases hzero : b.live = 0
    · rw [if_pos hzero, if_pos hzero]
      rfl
    · rw [if_neg hzero, if_neg hzero, rgmHashMapBatchRound_lanes]
      cases rgmHashMapBatchRound map s keys count lanes b with
      | error e => rfl
      | ok x => exact ih x.1 x.2 rfl

/-- The batched walk is the walk of the lanes. -/
theorem rgmHashMapBatchWalk_lanes (fuel : Nat) (outValues : Option (Nat → BitVec 64))
    (outFound : Option (Nat → Int)) :
    Lanes.walk (hashMapWalker map s keys) count .diverge rgmHashBatchK fuel outValues outFound =
      (rgmHashMapBatchWalk map s keys count fuel outValues outFound).map Batch.shared := by
  have hstart := rgmHashMapBatchStart_lanes map s keys count rgmHashBatchK
    ⟨0, 0, 0, outValues, outFound⟩
  rw [Lanes.walk, rgmHashMapBatchWalk]
  have hshared : (Batch.mk 0 0 0 outValues outFound).shared = ⟨0, 0, 0, outValues, outFound⟩ := rfl
  rw [hshared] at hstart
  rw [hstart]
  exact rgmHashMapBatchLoop_lanes ..

/-! ## The answer -/

variable (keys) in
/-- The walk ends with every key looked up once. -/
theorem rgmHashMapBatchWalk_eq (h : map.Readable s forest)
    (hdepth : ∀ i, (forest i).DepthLe depth) (outValues : Option (Nat → BitVec 64))
    (outFound : Option (Nat → Int)) {fuel : Nat} (hfuel : count * (depth + 1) ≤ fuel) :
    rgmHashMapBatchWalk map s keys count fuel outValues outFound =
      .ok ⟨count, 0, Lanes.hitsBelow (fun j => HashMap.valueU64 s forest (keys j)) count,
        outValues.map (Lanes.valuesOf (fun j => HashMap.valueU64 s forest (keys j))
          fun j => decide (j < count)),
        outFound.map (Lanes.foundOf (fun j => HashMap.valueU64 s forest (keys j))
          outValues.isSome (fun j => decide (j < count)) count)⟩ := by
  have hlen : 8 < 2 ^ 32 := by decide
  have hends : ∀ j, ∃ n ≤ depth, Lanes.Ends (hashMapWalker map s keys)
      ((hashMapWalker map s keys).load j) n (HashMap.valueU64 s forest (keys j)) := fun j =>
    hashMapWalker_ends hlen (fun a ha => h.inside a (mem_listAll.mpr ⟨_, ha⟩)) (hdepth _)
      (h.unfolds _)
  choose cost hcost hends using hends
  have hwalk := Lanes.walk_spec Stop.diverge (k := rgmHashBatchK) (by decide)
    (fun j _ => hends j) outValues outFound
    (Nat.le_trans (Lanes.waiting_le fun j _ => hcost j) hfuel)
  rw [rgmHashMapBatchWalk_lanes] at hwalk
  cases hbatch : rgmHashMapBatchWalk map s keys count fuel outValues outFound with
  | error e =>
    rw [hbatch] at hwalk
    cases hwalk
  | ok b =>
    rw [hbatch] at hwalk
    exact congrArg Except.ok (Batch.eq_of_shared (Except.ok.inj hwalk))

/-- The answer of a batched lookup, by the single lookups. -/
def BatchAnswer.ofSingle (single : Nat → Option (BitVec 64)) (values : Nat → BitVec 64)
    (found : Option (Nat → Int)) (count : Nat) : BatchAnswer :=
  .hits (min (Lanes.hitsBelow single count) (2 ^ 31 - 1))
    (fun j => if j < count then (single j).getD (values j) else values j)
    (found.map fun f j => if j < count then if (single j).isSome then 1 else 0 else f j)

theorem BatchAnswer.ofSingle_eq (single : Nat → Option (BitVec 64)) (values : Nat → BitVec 64)
    (found : Option (Nat → Int)) (count : Nat) :
    BatchAnswer.ofSingle single values found count =
      .hits (min (Lanes.hitsBelow single count) (2 ^ 31 - 1))
        (Lanes.valuesOf single (fun j => decide (j < count)) values)
        (found.map (Lanes.foundOf single true (fun j => decide (j < count)) count)) := by
  have hvalues : Lanes.valuesOf single (fun j => decide (j < count)) values =
      fun j => if j < count then (single j).getD (values j) else values j := by
    funext j
    simp [Lanes.valuesOf]
  have hfound : Lanes.foundOf single true (fun j => decide (j < count)) count =
      fun f j => if j < count then if (single j).isSome then 1 else 0 else f j := by
    funext f j
    by_cases hj : j < count
    · simp [Lanes.foundOf, hj]
    · simp [Lanes.foundOf, hj]
  rw [BatchAnswer.ofSingle, hvalues, hfound]

/-- **A batched lookup answers what the single lookups do.** -/
theorem rgHashMapGetBatchU64_eq (h : map.Readable s forest)
    (hdepth : ∀ i, (forest i).DepthLe depth) (keys values : Nat → BitVec 64)
    (outFound : Option (Nat → Int)) (count : BitVec 32) {fuel : Nat}
    (hfuel : count.toNat * (depth + 1) ≤ fuel) :
    rgHashMapGetBatchU64 fuel map s (some keys) (some values) outFound count =
      .ok (.ofSingle (fun j => HashMap.valueU64 s forest (keys j)) values outFound count.toNat) := by
  rw [rgHashMapGetBatchU64, h.live, rgmHashMapBatchWalk_eq keys h hdepth _ _ hfuel,
    BatchAnswer.ofSingle_eq]
  rfl

/-- A batched lookup returns: no lane leaves the readable nodes, and the rounds end. -/
theorem rgHashMapGetBatchU64_returns (h : map.Readable s forest)
    (hdepth : ∀ i, (forest i).DepthLe depth) (keys outValues : Option (Nat → BitVec 64))
    (outFound : Option (Nat → Int)) (count : BitVec 32) {fuel : Nat}
    (hfuel : (rgmHashBatchK + count.toNat) * (depth + 1) ≤ fuel) :
    ∃ answer, rgHashMapGetBatchU64 fuel map s keys outValues outFound count = .ok answer := by
  have hfuel' : count.toNat * (depth + 1) ≤ fuel :=
    Nat.le_trans (Nat.mul_le_mul_right _ (Nat.le_add_left _ _)) hfuel
  have hlive : (!rgmMapIsLive map s.toArena) = false := by rw [h.live]; rfl
  cases keys with
  | none =>
    unfold rgHashMapGetBatchU64
    rw [hlive]
    exact ⟨_, rfl⟩
  | some keys =>
    cases outValues with
    | none =>
      unfold rgHashMapGetBatchU64
      rw [hlive]
      exact ⟨_, rfl⟩
    | some values => exact ⟨_, rgHashMapGetBatchU64_eq h hdepth keys values outFound count hfuel'⟩

end

end RgMemory
