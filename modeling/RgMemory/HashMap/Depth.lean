import RgMemory.Hash.Separate
import RgMemory.HashMap.Checkpoint
import RgMemory.HashMap.Open
import RgMemory.Lib.Growth

/-!
# How deep the upserts make a map

The writer has no limit on the depth of a trie, the validator of an open refuses more than
`rgmHashMapValidateMaxDepth` nodes on a walk. `reopens_iff` says for which keys the two agree: for
all lists of distinct keys without a staircase of more keys than that, each agreeing with the last
one on its root and on as many digits as keys of the staircase came before it.

There are such staircases: the lanes of the digest cancel when two of them are fed alike, and keys
of one digest under every seed agree on all digits (`deepKeys`).
-/

namespace RgMemory

open Bytes Trie FoldMul

/-! ## Runs of upserts -/

/-- The digits that the descent of a key takes. -/
abbrev keyDigits (key : List Byte) : Digits 4 := (bytesProbe key).digits

/-- A run of upserts that all answer a pointer. The keys are listed with the latest first. -/
inductive Session.Builds (page : Nat) (w0 : Session) : List (List Byte) → Session → Prop
  | start : Builds page w0 [] w0
  | put {keys : List (List Byte)} {w : Session} {os : OsReply} {key : KeyArg} {p : Nat}
      {map' : HashMap} {s' : ArenaState} (h : Builds page w0 keys w)
      (hput : rgHashMapPut page os w.map w.arena key = .ok (p, map', s')) (hp : p ≠ 0) :
      Builds page w0 (key.bytes :: keys) ⟨map', s'⟩
  | putU64 {keys : List (List Byte)} {w : Session} {os : OsReply} {key : BitVec 64} {p : Nat}
      {map' : HashMap} {s' : ArenaState} (h : Builds page w0 keys w)
      (hput : rgHashMapPutU64 page os w.map w.arena key = .ok (p, map', s')) (hp : p ≠ 0) :
      Builds page w0 (leBytes key :: keys) ⟨map', s'⟩

/-- The nodes of one root, with the digits of their keys. -/
def entriesAt (entries : List (List Byte × BitVec 32)) (i : Fin 4096) :
    List (BitVec 32 × Digits 4) :=
  (entries.filter fun e => rootOf e.1 = i).map fun e => (e.2, keyDigits e.1)

/-- A map whose forest holds the nodes of a list of keys, each where its walk fell off. -/
structure BuiltFrom (page : Nat) (keys : List (List Byte)) (w : Session)
    (forest : Fin 4096 → Trie 4 (BitVec 32)) : Prop where
  built : w.map.Built page w.arena forest
  entries : ∃ entries : List (List Byte × BitVec 32), entries.map Prod.fst = keys ∧
    ∀ i, forest i = ofList (entriesAt entries i)
  absent : ∀ key, key ∉ keys → nodeOf w.arena.img forest key = none

section

variable {page : Nat} {keys : List (List Byte)} {w : Session}
  {forest : Fin 4096 → Trie 4 (BitVec 32)}

/-- An upsert of a new key puts its node on top of the list. -/
theorem BuiltFrom.put (h : BuiltFrom page keys w forest) (hpage : IsPageSize page) {os : OsReply}
    {key : KeyArg} (hnew : key.bytes ∉ keys) {p : Nat} {map' : HashMap} {s' : ArenaState}
    (hput : rgHashMapPut page os w.map w.arena key = .ok (p, map', s')) (hp : p ≠ 0) :
    ∃ forest', BuiltFrom page (key.bytes :: keys) ⟨map', s'⟩ forest' := by
  have hb := h.built
  have habsent := h.absent key.bytes hnew
  obtain ⟨answer, heq, hcases⟩ := hb.placed.put_cases hpage os key
  cases hput.symm.trans heq
  rcases hcases with ⟨-, heq⟩ | ⟨-, hcases⟩
  · cases heq
    exact absurd rfl hp
  cases hcases with
  | hit found => exact absurd (habsent.symm.trans found) (by simp)
  | refused => exact absurd rfl hp
  | @inserted x _ _ _ ins =>
    refine ⟨_, hb.inserted ins, ?_, fun k hk => ?_⟩
    · obtain ⟨entries, hkeys, hforest⟩ := h.entries
      refine ⟨(key.bytes, x) :: entries, by rw [List.map_cons, hkeys], fun i => ?_⟩
      rw [entriesAt, List.filter_cons]
      by_cases hi : rootOf key.bytes = i
      · subst hi
        rw [if_pos (decide_eq_true rfl), forestAdd, Function.update_self, hforest]
        rfl
      · rw [if_neg (by simpa using hi), forestAdd, Function.update_of_ne (Ne.symm hi), hforest]
        rfl
    · obtain ⟨hne, hold⟩ := not_or.mp (List.mem_cons.not.mp hk)
      rw [HashMap.Rep.nodeOf_insert ins.fresh ins.published habsent, if_neg hne]
      exact h.absent k hold

theorem Session.Builds.builtFrom (hpage : IsPageSize page) (hline : 64 ∣ page) {w0 : Session}
    (hfresh : w0.Fresh page) (hrun : w0.Builds page keys w) (hnodup : keys.Nodup) :
    ∃ forest, BuiltFrom page keys w forest := by
  induction hrun with
  | start =>
    refine ⟨_, hfresh.built hpage hline, ⟨[], rfl, fun _ => rfl⟩, fun _ _ => rfl⟩
  | put _ hput hp ih =>
    obtain ⟨hnew, hnodup⟩ := List.nodup_cons.mp hnodup
    obtain ⟨forest, h⟩ := ih hnodup
    exact h.put hpage hnew hput hp
  | @putU64 _ _ os key _ _ _ _ hput hp ih =>
    obtain ⟨hnew, hnodup⟩ := List.nodup_cons.mp hnodup
    obtain ⟨forest, h⟩ := ih hnodup
    rw [rgHashMapPutU64_eq] at hput
    exact h.put hpage hnew hput hp

end

/-! ## Staircases of keys -/

/-- Each key has the root of `last`, and agrees with it on as many digits as there are keys after it
in the list. -/
def KeyStairs (last : List Byte) : List (List Byte) → Prop
  | [] => True
  | key :: older =>
    (rootOf key = rootOf last ∧ AgreeTo older.length (keyDigits key) (keyDigits last)) ∧
      KeyStairs last older

/-- Among the keys, listed with the latest first, `n` form a staircase towards the latest of them. -/
def HasStairs (keys : List (List Byte)) (n : Nat) : Prop :=
  ∃ last older, (last :: older).Sublist keys ∧ older.length + 1 = n ∧ KeyStairs last older

theorem keyStairs_iff {last : List Byte} {older : List (List Byte)} :
    KeyStairs last older ↔
      (∀ key ∈ older, rootOf key = rootOf last) ∧
        Stairs (keyDigits last) (older.map keyDigits) := by
  induction older with
  | nil => simp [KeyStairs, Stairs]
  | cons key older ih =>
    rw [KeyStairs, ih, List.map_cons, Stairs, List.forall_mem_cons, List.length_map]
    constructor
    · rintro ⟨⟨hroot, hagree⟩, hroots, hstairs⟩
      exact ⟨⟨hroot, hroots⟩, hagree, hstairs⟩
    · rintro ⟨⟨hroot, hroots⟩, hagree, hstairs⟩
      exact ⟨⟨hroot, hagree⟩, hroots, hstairs⟩

section

variable {page : Nat} {keys : List (List Byte)} {w : Session}
  {forest : Fin 4096 → Trie 4 (BitVec 32)}

/-- The digits of the keys of one root. -/
theorem entriesAt_digits (entries : List (List Byte × BitVec 32)) (i : Fin 4096) :
    (entriesAt entries i).map Prod.snd =
      ((entries.map Prod.fst).filter fun key => rootOf key = i).map keyDigits := by
  rw [entriesAt, List.filter_map, List.map_map, List.map_map]
  rfl

/-- The depth of a map, read off its keys. -/
theorem BuiltFrom.depthLe_iff (h : BuiltFrom page keys w forest) {n : Nat} :
    (∀ i, (forest i).DepthLe n) ↔ ¬ HasStairs keys (n + 1) := by
  obtain ⟨entries, rfl, hforest⟩ := h.entries
  constructor
  · rintro hdepth ⟨last, older, hsub, hlen, hstairs⟩
    obtain ⟨hroots, hdigits⟩ := keyStairs_iff.mp hstairs
    have hlast := hdepth (rootOf last)
    rw [hforest, ofList_depthLe_iff, entriesAt_digits] at hlast
    refine hlast ⟨keyDigits last, older.map keyDigits, ?_, ?_, hdigits⟩
    · have hfilter : ((last :: older).filter fun key => rootOf key = rootOf last) =
          last :: older := by
        refine List.filter_eq_self.mpr fun key hkey => decide_eq_true ?_
        rcases List.mem_cons.mp hkey with rfl | hold
        · rfl
        · exact hroots key hold
      have := (hsub.filter fun key => rootOf key = rootOf last).map keyDigits
      rwa [hfilter] at this
    · rw [List.length_map]
      exact Nat.succ.inj hlen
  · intro hno i
    rw [hforest, ofList_depthLe_iff, entriesAt_digits]
    rintro ⟨last, older, hsub, hlen, hstairs⟩
    obtain ⟨stairs, hstairsSub, heq⟩ := List.sublist_map_iff.mp hsub
    cases stairs with
    | nil => cases heq
    | cons key rest =>
      obtain ⟨rfl, rfl⟩ := List.cons.inj heq
      have hroot : ∀ k ∈ key :: rest, rootOf k = i := fun k hk =>
        of_decide_eq_true (List.mem_filter.mp (hstairsSub.mem hk)).2
      refine hno ⟨key, rest, hstairsSub.trans List.filter_sublist, ?_, keyStairs_iff.mpr ⟨?_, hstairs⟩⟩
      · rw [← hlen, List.length_map]
      · intro k hk
        rw [hroot k (List.mem_cons_of_mem _ hk), hroot key List.mem_cons_self]

end

/-- **What upserts built can be reopened** exactly when the keys have no staircase of more than
`rgmHashMapValidateMaxDepth`: then, and only then, no walk is longer, and an open of a save does not
object. -/
theorem reopens_iff {page : Nat} (hpage : IsPageSize page) (hline : 64 ∣ page) {w0 w : Session}
    (hfresh : w0.Fresh page) {keys : List (List Byte)} (hrun : w0.Builds page keys w)
    (hnodup : keys.Nodup) :
    (w.map.DepthLe w.arena rgmHashMapValidateMaxDepth ↔
        ¬ HasStairs keys (rgmHashMapValidateMaxDepth + 1)) ∧
      ∀ os s1, rgHashMapSave page os w.map w.arena = (.ok, s1) → ∀ s2, Mapped page s1 s2 → ∀ map0,
        ((rgHashMapOpen map0 s2).1 = .ok ↔ ¬ HasStairs keys (rgmHashMapValidateMaxDepth + 1)) := by
  obtain ⟨forest, h⟩ := hrun.builtFrom hpage hline hfresh hnodup
  refine ⟨h.built.rep.depthLe_iff.trans h.depthLe_iff, fun os s1 hsave s2 hmap map0 => ?_⟩
  rw [rgHashMapOpen_ok_iff, (h.built.saved hpage hsave).openable_iff hmap, h.depthLe_iff]

/-! ## An arena with room -/

section

variable {page : Nat} (hpage : IsPageSize page) (os : OsReply) {map : HashMap} {s : ArenaState}
  {forest : Fin 4096 → Trie 4 (BitVec 32)}

/-- An arena with `size` committed bytes above its position, within the reach of an offset. -/
structure ArenaState.Room (s : ArenaState) (size : Nat) : Prop where
  fits : s.pos + size ≤ s.committed
  word : s.reserved ≤ 2 ^ 32

include hpage in
/-- With room an allocation is granted, at an offset that fits, and what is left is room. -/
theorem HashMap.Built.alloc_room (h : map.Built page s forest) {size k n : Nat} (hk3 : 3 ≤ k)
    (hk : k < 64) (hsize : 0 < size) (hroom : s.Room (2 ^ k + size + n)) :
    ∃ p s', rgArenaAllocAligned page os s size (2 ^ k) = (p, s') ∧ p ≠ 0 ∧
      ¬ p - s'.base > 2 ^ 32 - 1 ∧ s'.Room n := by
  have hfits := hroom.fits
  have hword := hroom.word
  have hcom := h.ok.committed_le
  have hle := h.ok.fits
  have hne := rgArenaAllocAligned_fits os h.ok h.live hk3 hk hsize (by omega)
  have hbig : ¬ 2 ^ k < 8 := by
    have : 2 ^ 3 ≤ 2 ^ k := Nat.pow_le_pow_right (by decide) hk3
    omega
  rcases rgArenaAllocAligned_cases hpage os h.ok (by omega : size < 2 ^ 64) (pow_lt_word hk) with
    hnull | ⟨p, s', hok, hg⟩
  · rw [hnull] at hne
    exact absurd rfl hne
  · rw [if_neg hbig] at hg
    have hbase := hg.grown.base
    have hres := hg.grown.reserved
    have hmore := hg.grown.committed
    have hnear := hg.near
    have hend := hg.pos
    rw [hok] at hne
    exact ⟨p, s', hok, hne, by omega, by omega, by omega⟩

include hpage in
/-- With room an upsert answers a pointer. -/
theorem HashMap.Built.put_room (h : map.Built page s forest) {key : List Byte}
    (hlen : key.length < 2 ^ 32) (habsent : nodeOf s.img forest key = none) {n : Nat}
    (hroom : s.Room (64 + (HashMapNode.size + key.length) + n)) :
    ∃ p map' s', rgHashMapPut page os map s ⟨false, key⟩ = .ok (p, map', s') ∧ p ≠ 0 ∧
      s'.Room n := by
  have hrefused : KeyArg.refused ⟨false, key⟩ = false := by
    simp [KeyArg.refused]
    omega
  obtain ⟨p, s1, halloc, hp, hoff, hleft⟩ := h.alloc_room hpage os (k := 6) (by decide) (by decide)
    (Nat.lt_of_lt_of_le (by decide) (Nat.le_add_right ..)) hroom
  have halloc' : rgArenaAllocAligned page os s (HashMapNode.size + key.length) rgmCacheLine =
      (p, s1) := halloc
  rw [rgHashMapPut, h.placed.refuses_eq, hrefused, if_neg (by decide), rgmHashMapPut,
    h.rep.lookup_eq h.ok.pos_le_word hlen, habsent]
  dsimp only
  rw [rgmHashMapNodeCreate, halloc']
  dsimp only
  rw [if_neg hp, if_neg hoff]
  dsimp only
  generalize Slot.ofSeat _ _ = slot
  cases slot with
  | root i => exact ⟨_, _, _, rfl, Nat.succ_ne_zero _, hleft.fits, hleft.word⟩
  | child off i => exact ⟨_, _, _, rfl, Nat.succ_ne_zero _, hleft.fits, hleft.word⟩

include hpage in
/-- With room a save succeeds. -/
theorem HashMap.Built.save_room (h : map.Built page s forest)
    (hroom : s.Room (16 + rgmHashMapIndexBytes)) :
    ∃ s', rgHashMapSave page os map s = (.ok, s') := by
  obtain ⟨p, s1, halloc, hp, hoff, -⟩ :=
    h.alloc_room hpage os (k := 4) (n := 0) (by decide) (by decide)
      (by decide : 0 < rgmHashMapIndexBytes) hroom
  have halloc' : rgArenaAllocAligned page os s rgmHashMapIndexBytes 16 = (p, s1) := halloc
  have hregion : ∃ off s', rgmHashMapIndexRegion page os s = (some off, s') := by
    unfold rgmHashMapIndexRegion
    split
    · exact ⟨_, _, rfl⟩
    · rw [halloc']
      dsimp only
      rw [if_neg hp, if_neg hoff]
      exact ⟨_, _, rfl⟩
  obtain ⟨off, s', hsome⟩ := hregion
  rw [rgHashMapSave, h.placed.isLive, h.placed.used_eq, if_neg (by decide),
    if_neg (Nat.not_lt.mpr h.sentinel), hsome]
  exact ⟨_, rfl⟩

end

/-! ## A map that cannot be reopened -/

theorem deepKey_hfull (i j : BitVec 64) :
    (bytesProbe (deepKey i)).hfull = (bytesProbe (deepKey j)).hfull := deepKey_digest i j _

theorem deepKey_root (i j : BitVec 64) : rootOf (deepKey i) = rootOf (deepKey j) :=
  congrArg rgmHashMapRoot (deepKey_hfull i j)

theorem deepKey_digits (i j : BitVec 64) : keyDigits (deepKey i) = keyDigits (deepKey j) := by
  have hreseed : (bytesProbe (deepKey i)).reseed = (bytesProbe (deepKey j)).reseed :=
    funext fun round => deepKey_digest i j (rgmHashReseedSeed round)
  rw [keyDigits, keyDigits, Probe.digits, Probe.digits, Probe.descend, Probe.descend, hreseed,
    deepKey_hfull i j]

/-- The first `n` of them, the latest first. -/
def deepKeys : Nat → List (List Byte)
  | 0 => []
  | n + 1 => deepKey (BitVec.ofNat 64 n) :: deepKeys n

theorem mem_deepKeys {n : Nat} {key : List Byte} (h : key ∈ deepKeys n) :
    ∃ i, i < n ∧ key = deepKey (BitVec.ofNat 64 i) := by
  induction n with
  | zero => cases h
  | succ n ih =>
    rcases List.mem_cons.mp h with rfl | hold
    · exact ⟨n, Nat.lt_succ_self n, rfl⟩
    · obtain ⟨i, hi, hkey⟩ := ih hold
      exact ⟨i, Nat.lt_succ_of_lt hi, hkey⟩

theorem deepKey_notMem {n : Nat} (hn : n < 2 ^ 64) : deepKey (BitVec.ofNat 64 n) ∉ deepKeys n := by
  intro h
  obtain ⟨i, hi, hkey⟩ := mem_deepKeys h
  have heq := congrArg BitVec.toNat (deepKey_injective hkey)
  rw [BitVec.toNat_ofNat, BitVec.toNat_ofNat, Nat.mod_eq_of_lt hn,
    Nat.mod_eq_of_lt (Nat.lt_trans hi hn)] at heq
  omega

theorem deepKeys_nodup {n : Nat} (hn : n ≤ 2 ^ 64) : (deepKeys n).Nodup := by
  induction n with
  | zero => exact List.nodup_nil
  | succ n ih => exact List.nodup_cons.mpr ⟨deepKey_notMem hn, ih (Nat.le_of_succ_le hn)⟩

theorem deepKeys_length (n : Nat) : (deepKeys n).length = n := by
  induction n with
  | zero => rfl
  | succ n ih => rw [deepKeys, List.length_cons, ih]

/-- Keys of one digest under every seed form a staircase in any number. -/
theorem deepKeys_stairs (n : Nat) : HasStairs (deepKeys (n + 1)) (n + 1) := by
  refine ⟨_, deepKeys n, .refl _, by rw [deepKeys_length], ?_⟩
  have hstairs : ∀ j m, KeyStairs (deepKey j) (deepKeys m) := by
    intro j m
    induction m with
    | zero => trivial
    | succ m ih =>
      refine ⟨⟨deepKey_root _ j, fun i _ => ?_⟩, ih⟩
      rw [deepKey_digits _ j]
  exact hstairs _ n

/-- The sample arena has room for all of them, and for a save. -/
theorem deepKeys_built {n : Nat} (hn : n ≤ 257) : ∃ w,
    sampleSession.Builds 4096 (deepKeys n) w ∧ w.arena.Room ((257 - n) * 168 + 16400) := by
  induction n with
  | zero => exact ⟨sampleSession, .start, by decide, by decide⟩
  | succ n ih =>
    obtain ⟨w, hbuilds, hroom⟩ := ih (Nat.le_of_succ_le hn)
    obtain ⟨forest, h⟩ := hbuilds.builtFrom samplePage (by decide) sampleSession_fresh
      (deepKeys_nodup (by omega))
    have hsize : HashMapNode.size = 40 := rfl
    have hsplit : (257 - n) * 168 + 16400 = 64 + (HashMapNode.size +
        (deepKey (BitVec.ofNat 64 n)).length) + ((257 - (n + 1)) * 168 + 16400) := by
      rw [deepKey_length]
      omega
    rw [hsplit] at hroom
    obtain ⟨p, map', s', hput, hp, hleft⟩ := h.built.put_room samplePage sampleOs
      (by rw [deepKey_length]; decide) (h.absent _ (deepKey_notMem (by omega))) hroom
    exact ⟨⟨map', s'⟩, .put hbuilds hput hp, hleft⟩

/-- 257 keys: every upsert and the save succeed, and what was saved cannot be opened. -/
theorem deepKeys_lost :
    ∃ w s1, sampleSession.Fresh 4096 ∧ sampleSession.Builds 4096 (deepKeys 257) w ∧
      (deepKeys 257).Nodup ∧ ¬ w.map.DepthLe w.arena rgmHashMapValidateMaxDepth ∧
      rgHashMapSave 4096 sampleOs w.map w.arena = (.ok, s1) ∧
      ∃ s2, Mapped 4096 s1 s2 ∧ (rgHashMapOpen ⟨false, fun _ => 0⟩ s2).1 ≠ .ok := by
  obtain ⟨w, hbuilds, hroom⟩ := deepKeys_built (Nat.le_refl 257)
  have hnodup : (deepKeys 257).Nodup := deepKeys_nodup (by decide)
  obtain ⟨forest, h⟩ := hbuilds.builtFrom samplePage (by decide) sampleSession_fresh hnodup
  have hdeep : ¬ ∀ i, (forest i).DepthLe rgmHashMapValidateMaxDepth := fun hdepth =>
    h.depthLe_iff.mp hdepth (deepKeys_stairs 256)
  obtain ⟨s1, hsave⟩ := h.built.save_room samplePage sampleOs hroom
  have hsaved := h.built.saved samplePage hsave
  have hmap : Mapped 4096 s1 (s1.mappedAt 131072 s1.reserved) := by
    have hok := hsaved.built.ok
    have hword := hroom.word
    have hres := hsaved.reserved
    exact ArenaState.mapped_mappedAt (by decide) (by decide) (by omega)
      (Nat.le_trans hok.pos_le hok.committed_le)
  refine ⟨w, s1, sampleSession_fresh, hbuilds, hnodup, ?_, hsave, _, hmap, ?_⟩
  · rwa [h.built.rep.depthLe_iff]
  · rwa [ne_eq, rgHashMapOpen_ok_iff, hsaved.openable_iff hmap]

/-- A map of three keys, two of them with one root, can be reopened. -/
theorem sampleSession_reopens :
    sampleSession.Builds 4096 [[5], [41, 8], [107]] sampleThird.2 ∧ rootOf [41, 8] = rootOf [107] ∧
      sampleThird.2.map.DepthLe sampleThird.2.arena rgmHashMapValidateMaxDepth ∧
      ∀ os s1, rgHashMapSave 4096 os sampleThird.2.map sampleThird.2.arena = (.ok, s1) →
        ∀ s2, Mapped 4096 s1 s2 → (rgHashMapOpen ⟨false, fun _ => 0⟩ s2).1 = .ok := by
  have hput : ∀ {keys w}, sampleSession.Builds 4096 keys w → ∀ key, (key :: keys).Nodup →
      (sampleUpsert w key).1 ≠ 0 → sampleSession.Builds 4096 (key :: keys) (sampleUpsert w key).2 := by
    intro keys w hbuilds key hnodup hp
    obtain ⟨forest, h⟩ := hbuilds.builtFrom samplePage (by decide) sampleSession_fresh
      (List.nodup_cons.mp hnodup).2
    exact .put hbuilds (sampleUpsert_eq h.built.placed key) hp
  have hfirst : sampleSession.Builds 4096 [[107]] sampleSession' :=
    hput .start [107] (by decide) (by decide)
  have hsecond : sampleSession.Builds 4096 [[41, 8], [107]] sampleSecond.2 :=
    hput hfirst [41, 8] (by decide) (by decide)
  have hthird : sampleSession.Builds 4096 [[5], [41, 8], [107]] sampleThird.2 :=
    hput hsecond [5] (by decide) (by decide)
  have hstairs : ¬ HasStairs [[5], [41, 8], [107]] (rgmHashMapValidateMaxDepth + 1) := by
    rintro ⟨last, older, hsub, hlen, -⟩
    have hle := hsub.length_le
    rw [List.length_cons, hlen] at hle
    exact absurd hle (by decide)
  obtain ⟨hdepth, hopens⟩ :=
    reopens_iff samplePage (by decide) sampleSession_fresh hthird (by decide)
  exact ⟨hthird, by decide, hdepth.mpr hstairs, fun os s1 hsave s2 hmap =>
    (hopens os s1 hsave s2 hmap _).mpr hstairs⟩

end RgMemory
