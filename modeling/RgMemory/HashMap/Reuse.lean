import RgMemory.HashMap.Open

/-!
# Reusing an index region

`rgHashMapSave` copies the index to the offset that the header at offset 0 names, if the header
passes a test; what lies there need not be a header that a save of this map left. The test bounds the
copy by the capacity of the arena. It does not ask, as the one of `rgHashMapOpen` does, that the
offset is a multiple of 4 and that the copy ends below the position, and neither asks that the copy
is apart from the nodes.

`save_keeps_iff` says for which headers a save keeps the map and leaves an image that opens with the
same entries. That these are all of them rests on `UnfoldsAll.links_eq`: an index copy that has all
nodes where they were, and no node twice, has changed no link.
-/

namespace RgMemory

open Bytes Trie

/-! ## What a save should keep -/

/-- Two maps have the same entries: the same value of every key, and the same reports. -/
structure SameEntries (map : HashMap) (s : ArenaState) (map' : HashMap) (s' : ArenaState) :
    Prop where
  value : ∀ key, rgmHashMapValue map' s' key = rgmHashMapValue map s key
  forEach : ∀ (σ : Type) (fn : σ → List Byte → BitVec 64 → Bool × σ) (user : σ), ∃ N answer,
    ∀ fuel ≥ N, rgHashMapForEach fn fuel map s user = .ok answer ∧
      rgHashMapForEach fn fuel map' s' user = .ok answer

/-- A save that damages nothing: every `Get` answers as before, and the arena can be opened at once
to a map with the same entries. -/
structure SaveKeeps (map : HashMap) (s s' : ArenaState) : Prop where
  get : ∀ key, rgHashMapGet map s' key = rgHashMapGet map s key
  value : ∀ key, rgmHashMapValue map s' key = rgmHashMapValue map s key
  opens : ∀ map0, ∃ map' s'', rgHashMapOpen map0 s' = (.ok, map', s'') ∧
    SameEntries map s map' s''

/-- A copy of the index to `off` leaves a node as it is. -/
def IndexSpares (map : HashMap) (img : Mem) (off : Nat) (a : BitVec 32) : Prop :=
  ∀ y, HashMapNode.Reads img a y → off ≤ y → y < off + rgmHashMapIndexBytes →
    map.indexPtr (y - off) = img y

/-- The header names no index region that can be reused, or one at which the copy of the index will
be opened and spares the nodes of the map. -/
def ReuseSafe (map : HashMap) (s : ArenaState) : Prop :=
  rgmHashMapIndexReusable s.img (rgArenaCapacity s.toArena) = true →
    4 ∣ (PersistHeader.indexOffset s.img).toNat ∧
    (PersistHeader.indexOffset s.img).toNat + rgmHashMapIndexBytes ≤ s.pos ∧
    ∀ i t, Unfolds (hashMapLinks s.img) t (slotLink (map.top i)) → ∀ a ∈ t.toList,
      IndexSpares map s.img (PersistHeader.indexOffset s.img).toNat a

/-- A node apart from the copy is spared. -/
theorem IndexSpares.of_apart {map : HashMap} {img : Mem} {off : Nat} {a : BitVec 32}
    (h : Apart off rgmHashMapIndexBytes a.toNat (HashMapNode.extent img a)) :
    IndexSpares map img off a := by
  rintro y ⟨hy, hy', -⟩ hlow hhigh
  unfold Apart at h
  omega

/-! ## Nodes, byte by byte -/

section

variable {img img' : Mem} {a : BitVec 32}

/-- A node that passes the match test for the key that it had elsewhere has the same body. -/
theorem NodeBody.of_test (hg : HashMapNode.Genuine img a)
    (htest : (bytesProbe (HashMapNode.keyBytes img a)).test img' a = true) :
    NodeBody img img' a := by
  have hslice : (HashMapNode.keyBytes img a).length = (HashMapNode.keyLen img a).toNat :=
    slice_length ..
  have hslice' : (HashMapNode.keyBytes img' a).length = (HashMapNode.keyLen img' a).toNat :=
    slice_length ..
  have hlt := (HashMapNode.keyLen img a).isLt
  obtain ⟨hhash, hkey⟩ := (bytesProbe_test_iff (hslice ▸ hlt)).mp htest
  refine ⟨hhash.trans hg.symm, ?_, hkey⟩
  apply BitVec.eq_of_toNat_eq
  rw [← hslice, ← hslice', hkey]

end

/-! ## Runs of uses -/

/-- A map that `Init` and any number of uses left on an arena. Its nodes lie above the position at
which `Init` found the arena. -/
theorem placed_of_uses {page : Nat} (hpage : IsPageSize page) (hline : 64 ∣ page) {os : OsReply}
    {map0 : HashMap} {s0 : ArenaState} (hok : s0.Ok page) (hlive : 0 < s0.base) {w0 w : Session}
    (hinit : rgHashMapInit page os map0 s0 = (.ok, w0.map, w0.arena))
    (huses : Relation.ReflTransGen (Session.Use page) w0 w) :
    ∃ forest, w.map.Placed page w.arena forest ∧ Seated w.arena.img forest ∧
      s0.pos ≤ w.arena.pos ∧ ∀ a ∈ listAll forest, s0.pos ≤ a.toNat := by
  induction huses with
  | refl =>
    rcases rgHashMapInit_cases hpage os map0 hok hlive with
      ⟨e, map', heq, he⟩ | ⟨s', heq, hok', hkept, hle, hpos⟩
    · exact absurd (congrArg Prod.fst (heq.symm.trans hinit)) he
    · have hnone : ∀ a, a ∉ listAll (fun _ : Fin 4096 => (nil : Trie 4 (BitVec 32))) := by
        intro a ha
        rw [listAll_nil] at ha
        cases ha
      obtain ⟨-, hmap, harena⟩ : _ ∧ _ ∧ _ := by
        simpa only [Prod.mk.injEq] using hinit.symm.trans heq
      rw [hmap, harena]
      refine ⟨fun _ => nil, ⟨hok', hkept.base ▸ hlive, ?_, .empty hpos, fun _ => trivial⟩,
        fun a ha => absurd ha (hnone a), hle, fun a ha => absurd ha (hnone a)⟩
      rw [hkept.base]
      exact Nat.dvd_trans hline hok.base_page
  | tail _ huse ih =>
    obtain ⟨forest, h, hseated, hle, habove⟩ := ih
    cases huse.did hpage h with
    | same => exact ⟨forest, h, hseated, hle, habove⟩
    | kept ok kept pos =>
      exact ⟨forest, h.kept ok kept pos,
        hseated.congr fun a ha => (kept.nodeAgree h.rep ha).toNodeBody, Nat.le_trans hle pos,
        habove⟩
    | inserted _ absent ins =>
      refine ⟨_, h.inserted ins, hseated.inserted absent ins, Nat.le_trans hle ins.pos_le,
        fun a ha => ?_⟩
      rcases mem_forestAdd.mp ha with rfl | hold
      · exact Nat.le_trans hle ins.fresh.above
      · exact habove a hold
    | wrote ha v =>
      exact ⟨forest, h.write ha v, hseated.congr fun b hb => (h.store_agree ha v b hb).toNodeBody,
        hle, habove⟩

/-! ## Iterations -/

section

variable {σ : Type} {fn : σ → List Byte → BitVec 64 → Bool × σ}

theorem over_congr {img img' : Mem} {l : List (BitVec 32)}
    (h : ∀ a ∈ l, HashMapNode.keyBytes img' a = HashMapNode.keyBytes img a ∧
      HashMapNode.value img' a = HashMapNode.value img a) (r : Report σ) :
    r.over fn img' l = r.over fn img l := by
  induction l generalizing r with
  | nil => rfl
  | cons a rest ih =>
    obtain ⟨hkey, hvalue⟩ := h a List.mem_cons_self
    have hadd : r.add fn img' a = r.add fn img a := by
      rw [Report.add, Report.add, hkey, hvalue]
    rw [Report.over, Report.over, hadd, ih fun b hb => h b (List.mem_cons_of_mem _ hb)]

/-- A callback that never asks to stop is told all entries. -/
theorem over_count (img : Mem) (l : List (BitVec 32)) {r : Report Unit} (hr : r.stop = false) :
    (r.over (fun _ _ _ => (false, ())) img l).count = r.count + l.length := by
  induction l generalizing r with
  | nil => rfl
  | cons a rest ih =>
    rw [over_cons hr, ih rfl, List.length_cons]
    show r.count + 1 + rest.length = _
    omega

end

theorem HashMap.Placed.readable {page : Nat} {map : HashMap} {s : ArenaState}
    {forest : Fin 4096 → Trie 4 (BitVec 32)} (h : map.Placed page s forest) :
    map.Readable s forest :=
  ⟨h.isLive, h.rep.unfolds, h.rep.inside⟩

/-! ## A save at an offset -/

/-- A save that wrote the index of a map to `off`, with `s1` between the search for the region and
the writes. -/
structure SavedAt (page : Nat) (map : HashMap) (s s1 s' : ArenaState)
    (forest : Fin 4096 → Trie 4 (BitVec 32)) (off : Nat) : Prop where
  placed : map.Placed page s forest
  seated : Seated s.img forest
  ok : s1.Ok page
  kept : Kept s s1
  pos_le : s.pos ≤ s1.pos
  above : rgmCacheLine ≤ off
  written : SaveWritten map s1 s' off

namespace SavedAt

variable {page : Nat} {map : HashMap} {s s1 s' : ArenaState}
  {forest : Fin 4096 → Trie 4 (BitVec 32)} {off : Nat}

theorem base_eq (h : SavedAt page map s s1 s' forest off) : s'.base = s.base := by
  obtain ⟨m, rfl⟩ := h.written.memory
  exact h.kept.base

theorem pos_eq (h : SavedAt page map s s1 s' forest off) : s'.pos = s1.pos := by
  obtain ⟨m, rfl⟩ := h.written.memory
  rfl

theorem ok' (h : SavedAt page map s s1 s' forest off) : s'.Ok page := by
  obtain ⟨m, rfl⟩ := h.written.memory
  exact h.ok.withMem m

/-- A byte of a node after the save. -/
theorem byte (h : SavedAt page map s s1 s' forest off) {a : BitVec 32} (ha : a ∈ listAll forest)
    {y : Nat} (hy : a.toNat ≤ y) (hy' : y < a.toNat + HashMapNode.extent s.img a) :
    s'.img y = if off ≤ y ∧ y < off + rgmHashMapIndexBytes then map.indexPtr (y - off)
      else s.img y := by
  have hin := h.placed.rep.inside a ha
  have hlow := hin.1
  have hhigh := hin.2
  have hline : rgmCacheLine = 64 := rfl
  have hsz : PersistHeader.size = 32 := rfl
  unfold HashMapNode.extent at hy'
  rw [h.written.bytes y (by omega)]
  split
  · next hregion =>
    obtain ⟨k, rfl⟩ := Nat.exists_eq_add_of_le hregion.1
    rw [copy_in _ _ (by omega), Nat.add_sub_cancel_left]
  · next hregion =>
    rw [copy_out _ _ (by unfold Out; omega)]
    exact h.kept.img (by omega)

theorem spares_iff (h : SavedAt page map s s1 s' forest off) {a : BitVec 32}
    (ha : a ∈ listAll forest) :
    IndexSpares map s.img off a ↔ NodeAgree s.img s'.img a ∧
      HashMapNode.value s'.img a = HashMapNode.value s.img a := by
  rw [← reads_iff]
  constructor
  · intro hspares y hreads
    rw [h.byte ha hreads.1 hreads.2.1]
    split
    · next hregion => exact hspares y hreads hregion.1 hregion.2
    · rfl
  · intro hsame y hreads hlow hhigh
    have hbyte := h.byte ha hreads.1 hreads.2.1
    rw [if_pos ⟨hlow, hhigh⟩] at hbyte
    exact hbyte.symm.trans (hsame y hreads)

/-! ### The condition is enough -/

/-- The copy is where an open looks for it, and spares the nodes. -/
theorem keeps (h : SavedAt page map s s1 s' forest off) (haligned : 4 ∣ off)
    (hword : off ≤ 2 ^ 32 - 1) (hcovered : off + rgmHashMapIndexBytes ≤ s1.pos)
    (hspares : ∀ a ∈ listAll forest, IndexSpares map s.img off a)
    (hdepth : ∀ i, (forest i).DepthLe rgmHashMapValidateMaxDepth) : SaveKeeps map s s' := by
  have hw := h.written
  have hagree : ∀ a ∈ listAll forest, NodeAgree s.img s'.img a := fun a ha =>
    ((h.spares_iff ha).mp (hspares a ha)).1
  have hvalue : ∀ a ∈ listAll forest, HashMapNode.value s'.img a = HashMapNode.value s.img a :=
    fun a ha => ((h.spares_iff ha).mp (hspares a ha)).2
  have hlive : 0 < s'.base := h.base_eq ▸ h.placed.live
  have hnew : map.Placed page s' forest :=
    h.placed.congr h.ok' hlive (h.base_eq ▸ h.placed.aligned) (h.pos_eq ▸ h.pos_le) hagree
  -- the image opens to the same nodes
  have hwater : (PersistHeader.highWater s'.img).toNat = s'.pos := hw.highWater.trans h.pos_eq.symm
  have hmap : (⟨true, savedIndex s'.img⟩ : HashMap) = map := by
    rw [hw.index, ← h.placed.rep.bound]
  have hcom : s'.pos ≤ s'.committed := h.ok'.pos_le
  have hres : s'.committed ≤ s'.reserved := h.ok'.committed_le
  have hpos := h.pos_eq
  have hopen : Openable s' forest := by
    refine ⟨Nat.ne_of_gt hlive, ?_, ⟨hw.magic, hw.version, hw.topBits, ?_, ?_, ?_, ?_, ?_, ?_⟩,
      fun i => ?_, fun i => ?_, ?_⟩
    all_goals try rw [hw.indexOffset]
    all_goals try rw [hwater]
    · have hsz : PersistHeader.size = 32 := rfl
      have hb : rgmHashMapIndexBytes = 16384 := rfl
      omega
    · exact h.above
    · exact hword
    · exact haligned
    · omega
    · exact Nat.le_trans hcom hres
    · exact hcom
    · rw [hw.index]
      exact hnew.rep.unfolds i
    · exact hnew.checked hdepth (fun a _ => ⟨rfl, rfl, rfl⟩) i
    · exact hnew.rep.length_le
  have hopened : s'.opened = s' := by
    rw [ArenaState.opened, hwater]
    rfl
  refine ⟨fun key => ?_, h.placed.value_congr hnew hagree hvalue, fun map0 =>
    ⟨map, s', ?_, h.placed.value_congr hnew hagree hvalue, fun σ fn user => ?_⟩⟩
  · rw [h.placed.get_eq, hnew.get_eq, nodeOf_congr fun a ha => (hagree a ha).toNodeBody]
    unfold ArenaState.valuePtr
    rw [h.base_eq]
  · rw [rgHashMapOpen_eq hopen, hmap, hopened]
  · refine ⟨6 * (listAll forest).length, _, fun fuel hfuel =>
      ⟨rgHashMapForEach_eq h.placed.readable hfuel user, ?_⟩⟩
    rw [rgHashMapForEach_eq hnew.readable hfuel user,
      over_congr fun a ha => ⟨(hagree a ha).keyBytes, hvalue a ha⟩]

/-! ### The condition is needed -/

/-- After a save that keeps the map a node is where it was, with the same body and value. -/
theorem node_kept (h : SavedAt page map s s1 s' forest off) (hkeeps : SaveKeeps map s s')
    {forest' : Fin 4096 → Trie 4 (BitVec 32)} (hread : map.Readable s' forest')
    (hdepth : ∀ i, (forest' i).DepthLe rgmHashMapValidateMaxDepth) {a : BitVec 32}
    (ha : a ∈ listAll forest) :
    a ∈ listAll forest' ∧ NodeBody s.img s'.img a ∧
      HashMapNode.value s'.img a = HashMapNode.value s.img a := by
  obtain ⟨key, hkey⟩ : ∃ key : KeyArg, key = ⟨false, HashMapNode.keyBytes s.img a⟩ := ⟨_, rfl⟩
  have hlt := (HashMapNode.keyLen s.img a).isLt
  have hrefused : key.refused = false := by
    have hlen : key.bytes.length = (HashMapNode.keyLen s.img a).toNat := by
      rw [hkey]
      exact slice_length ..
    have hle : decide (key.bytes.length > 2 ^ 32 - 1) = false := decide_eq_false (by omega)
    rw [KeyArg.refused, hle, hkey]
    rfl
  have hbytes : key.bytes = HashMapNode.keyBytes s.img a := by rw [hkey]
  have hget : rgHashMapGet map s key = .ok (s.valuePtr a) := by
    rw [h.placed.get_eq key, hrefused, hbytes, h.seated a ha]
    rfl
  have hget' : rgHashMapGet map s' key = .ok (s.valuePtr a) := (hkeeps.get key).trans hget
  have hp : s.valuePtr a ≠ 0 := Nat.succ_ne_zero _
  obtain ⟨b, hb, hptr, htest⟩ := hread.get_node hdepth (by decide) hget' hp
  have hab : a = b := by
    apply BitVec.eq_of_toNat_eq
    unfold ArenaState.valuePtr at hptr
    rw [h.base_eq] at hptr
    omega
  subst hab
  rw [hbytes] at htest
  refine ⟨hb, .of_test (h.placed.rep.genuine a ha) htest, ?_⟩
  have hvalue := hkeeps.value key
  rw [rgmHashMapValue, rgmHashMapValue, hget, hget'] at hvalue
  have hload : load64 s'.mem (s.valuePtr a) = load64 s.mem (s.valuePtr a) := by
    simpa [hp] using hvalue
  rw [HashMapNode.value, HashMapNode.value, load64_img, load64_img, h.base_eq, ← Nat.add_assoc]
  exact hload

/-- An iteration after the save reports one entry for each node. -/
theorem length_eq (h : SavedAt page map s s1 s' forest off) {map' : HashMap} {s'' : ArenaState}
    {forest' : Fin 4096 → Trie 4 (BitVec 32)} (hread : map'.Readable s'' forest')
    (hsame : SameEntries map s map' s'') :
    (listAll forest').length = (listAll forest).length := by
  obtain ⟨N, answer, hall⟩ := hsame.forEach Unit (fun _ _ _ => (false, ())) ()
  obtain ⟨fuel, hfuel, hold, hnew⟩ : ∃ fuel, N ≤ fuel ∧ 6 * (listAll forest).length ≤ fuel ∧
      6 * (listAll forest').length ≤ fuel :=
    ⟨N + 6 * (listAll forest).length + 6 * (listAll forest').length, by omega, by omega, by omega⟩
  obtain ⟨hanswer, hanswer'⟩ := hall fuel hfuel
  rw [rgHashMapForEach_eq h.placed.readable hold, over_count _ _ rfl] at hanswer
  rw [rgHashMapForEach_eq hread hnew, over_count _ _ rfl, ← hanswer] at hanswer'
  have hcount := congrArg Prod.fst (Except.ok.inj hanswer')
  simpa only [Nat.zero_add] using hcount

/-- A link after the save is what it was, or is the link of a root. -/
theorem link_cases (h : SavedAt page map s s1 s' forest off) (haligned : 4 ∣ off)
    {a : BitVec 32} (ha : a ∈ listAll forest) (i : Fin 4) :
    hashMapLinks s'.img a i = hashMapLinks s.img a i ∨
      ∃ j, hashMapLinks s'.img a i = slotLink (map.top j) := by
  have hin := h.placed.rep.inside a ha
  have hal := h.placed.rep.aligned a ha
  have hi := i.isLt
  have hsize : 40 ≤ HashMapNode.extent s.img a := Nat.le_add_right ..
  have hb : rgmHashMapIndexBytes = 16384 := rfl
  -- the index is copied word by word, and a link is one word
  by_cases hregion : off ≤ a.toNat + 4 * i ∧ a.toNat + 4 * i < off + rgmHashMapIndexBytes
  · obtain ⟨k, hk⟩ : ∃ k, a.toNat + 4 * i = off + 4 * k := ⟨(a.toNat + 4 * i - off) / 4, by omega⟩
    have hk4096 : k < 4096 := by omega
    refine .inr ⟨⟨k, hk4096⟩, ?_⟩
    have hcopy : HashMapNode.child s'.img a i = map.top ⟨k, hk4096⟩ := by
      rw [← load32_indexPtr map ⟨k, hk4096⟩]
      refine load32_congr fun n hn => ?_
      have hsub : a.toNat + 4 * i + n - off = 4 * k + n := by omega
      rw [h.byte ha (by omega) (by omega), if_pos (by omega), hsub]
    rw [hashMapLinks, hcopy]
  · refine .inl ?_
    have hsame : HashMapNode.child s'.img a i = HashMapNode.child s.img a i := by
      refine load32_congr fun n hn => ?_
      rw [h.byte ha (by omega) (by omega), if_neg (by omega)]
    rw [hashMapLinks, hashMapLinks, hsame]

theorem spares_of_keeps (h : SavedAt page map s s1 s' forest off) (hkeeps : SaveKeeps map s s') :
    4 ∣ off ∧ off + rgmHashMapIndexBytes ≤ s1.pos ∧
      ∀ a ∈ listAll forest, IndexSpares map s.img off a := by
  have hw := h.written
  obtain ⟨map', s'', hopen, hsame⟩ := hkeeps.opens map
  obtain ⟨forest', hopenable⟩ := (rgHashMapOpen_ok_iff map s').mp (congrArg Prod.fst hopen)
  have haligned : 4 ∣ off := hw.indexOffset ▸ hopenable.header.aligned
  have hcovered : off + rgmHashMapIndexBytes ≤ s1.pos := by
    have hc := hopenable.header.covered
    rwa [hw.indexOffset, hw.highWater] at hc
  refine ⟨haligned, hcovered, ?_⟩
  -- the opened map is the map on the arena after the save
  have hmap : (⟨true, savedIndex s'.img⟩ : HashMap) = map := by
    rw [hw.index, ← h.placed.rep.bound]
  have hopened : s'.opened = s' := by
    rw [ArenaState.opened, hw.highWater, ← h.pos_eq]
    rfl
  have hread := hopenable.readable
  rw [hmap, hopened] at hread
  rw [rgHashMapOpen_eq hopenable, hmap, hopened] at hopen
  cases hopen
  have hnode := fun {a} (ha : a ∈ listAll forest) => h.node_kept hkeeps hread hopenable.depthLe ha
  -- it has all the nodes, and no node twice
  have hperm : (listAll forest').Perm (listAll forest) := by
    have hsub : (listAll forest).Subperm (listAll forest') :=
      List.subperm_of_subset h.placed.rep.nodup fun a ha => (hnode ha).1
    exact (hsub.perm_of_length_le (Nat.le_of_eq (h.length_eq hread hsame))).symm
  have hold : UnfoldsAll (hashMapLinks s.img) forest fun i => slotLink (map.top i) :=
    ⟨h.placed.rep.unfolds, h.placed.rep.nodup⟩
  have hnew : UnfoldsAll (hashMapLinks s'.img) forest' fun i => slotLink (map.top i) :=
    ⟨hread.unfolds, hperm.nodup_iff.mpr h.placed.rep.nodup⟩
  intro a ha
  obtain ⟨-, hbody, hvalue⟩ := hnode ha
  refine (h.spares_iff ha).mpr ⟨⟨hbody, fun i => ?_⟩, hvalue⟩
  have hlink := hold.links_eq hnew hperm (fun a ha i => h.link_cases haligned ha i) ha i
  exact slotLink_inj hlink

end SavedAt

/-- The nodes that a map leads to are those of its forest. -/
theorem HashMap.Rep.forall_nodes {map : HashMap} {s : ArenaState}
    {forest : Fin 4096 → Trie 4 (BitVec 32)} (h : map.Rep s forest) {P : BitVec 32 → Prop} :
    (∀ i t, Unfolds (hashMapLinks s.img) t (slotLink (map.top i)) → ∀ a ∈ t.toList, P a) ↔
      ∀ a ∈ listAll forest, P a := by
  constructor
  · intro hall a ha
    obtain ⟨i, t, ht, hi⟩ := (HashMap.leads_iff h.unfolds).mpr ha
    exact hall i t ht a hi
  · intro hall i t ht a ha
    exact hall a ((HashMap.leads_iff h.unfolds).mp ⟨i, t, ht, ha⟩)

/-- A save that succeeds had the first cache line. -/
theorem HashMap.Placed.sentinel_of_save {page : Nat} {os : OsReply} {map : HashMap}
    {s s' : ArenaState} {forest : Fin 4096 → Trie 4 (BitVec 32)} (h : map.Placed page s forest)
    (hsave : rgHashMapSave page os map s = (.ok, s')) : rgmCacheLine ≤ s.pos := by
  by_contra hless
  rw [rgHashMapSave, h.isLive, h.used_eq, if_neg (by decide), if_pos (Nat.lt_of_not_le hless)]
    at hsave
  exact absurd (congrArg Prod.fst hsave) (by simp)

/-- **When a save damages nothing.** For every live arena, whatever its bytes and its position, and
every map that `Init` and any number of upserts left on it: a save that succeeds keeps the answers
of the map and can be opened to the same entries exactly when the header that it found names no
index region to be reused, or one at a multiple of 4, below the position, where the copy of the index
spares the nodes. -/
theorem save_keeps_iff {page : Nat} (hpage : IsPageSize page) (hline : 64 ∣ page)
    {os os' : OsReply} {map0 : HashMap} {s0 s' : ArenaState} (hok : s0.Ok page)
    (hlive : 0 < s0.base) {w0 w : Session}
    (hinit : rgHashMapInit page os map0 s0 = (.ok, w0.map, w0.arena))
    (huses : Relation.ReflTransGen (Session.Use page) w0 w)
    (hdepth : w.map.DepthLe w.arena rgmHashMapValidateMaxDepth)
    (hsave : rgHashMapSave page os' w.map w.arena = (.ok, s')) :
    SaveKeeps w.map w.arena s' ↔ ReuseSafe w.map w.arena := by
  obtain ⟨forest, h, hseated, -⟩ := placed_of_uses hpage hline hok hlive hinit huses
  have hforest := h.rep.depthLe_iff.mp hdepth
  have hsent := h.sentinel_of_save hsave
  obtain ⟨hnomem, hwrites⟩ := rgHashMapSave_eq os' h.isLive hsent
  cases hreuse : rgmHashMapIndexReusable w.arena.img (rgArenaCapacity w.arena.toArena) with
  | false =>
    rcases rgmHashMapIndexRegion_fresh hpage os' h hsent hreuse with
      ⟨s1, hnone⟩ | ⟨off, s1, hsome, hr⟩
    · exact absurd (congrArg Prod.fst ((hnomem s1 hnone).symm.trans hsave)) (by simp)
    · obtain ⟨s'', heq, hw⟩ := hwrites off s1 hsome hr.ok hr.kept hr.above hr.word
      cases hsave.symm.trans heq
      have hat : SavedAt page w.map w.arena s1 s' forest off :=
        ⟨h, hseated, hr.ok, hr.kept, hr.pos_le, hr.above, hw⟩
      have hkeeps := hat.keeps hr.aligned hr.word hr.covered
        (fun a ha => .of_apart (hr.apart a ha)) hforest
      exact iff_of_true hkeeps fun hyes => absurd (hreuse.symm.trans hyes) (by simp)
  | true =>
    obtain ⟨hsome, -, habove, hword⟩ := rgmHashMapIndexRegion_reused page os' hreuse
    obtain ⟨s'', heq, hw⟩ := hwrites _ _ hsome h.ok (.refl _) habove hword
    cases hsave.symm.trans heq
    have hat : SavedAt page w.map w.arena w.arena s' forest _ :=
      ⟨h, hseated, h.ok, .refl _, Nat.le_refl _, habove, hw⟩
    constructor
    · intro hkeeps _
      obtain ⟨haligned, hcovered, hspares⟩ := hat.spares_of_keeps hkeeps
      exact ⟨haligned, hcovered, h.rep.forall_nodes.mpr hspares⟩
    · intro hsafe
      obtain ⟨haligned, hcovered, hspares⟩ := hsafe hreuse
      exact hat.keeps haligned hword hcovered (h.rep.forall_nodes.mp hspares) hforest

/-! ## A header that was left over -/

/-- The first save of an empty map, at position 64; then the arena is rewound to 64. -/
def rewoundArena : ArenaState :=
  rgArenaRestore (rgHashMapSave 4096 sampleOs sampleSession.map sampleSession.arena).2 64

/-- A map on the rewound arena. The first cache line is taken, so `Init` leaves the header. -/
def rewoundSession : Session :=
  match rgHashMapInit 4096 sampleOs ⟨false, fun _ => 0⟩ rewoundArena with
  | (_, map, s) => ⟨map, s⟩

/-- Its one key goes to offset 64, where the header has the index. -/
def rewoundSession' : Session :=
  match rgHashMapPut 4096 sampleOs rewoundSession.map rewoundSession.arena ⟨false, [107]⟩ with
  | .ok (_, map, s) => ⟨map, s⟩
  | .error _ => rewoundSession

def rewoundSaved : ArenaState :=
  (rgHashMapSave 4096 sampleOs rewoundSession'.map rewoundSession'.arena).2

theorem rewoundArena_ok : rewoundArena.Ok 4096 := by
  have hbuilt := sampleSession_fresh.built samplePage (by decide)
  obtain ⟨s1, hsave⟩ : ∃ s1, rgHashMapSave 4096 sampleOs sampleSession.map sampleSession.arena =
      (.ok, s1) := ⟨_, Prod.ext (by decide) rfl⟩
  have hsaved := hbuilt.saved samplePage hsave
  have hpos : 64 ≤ s1.pos := hsaved.built.sentinel
  have hlive : rgmArenaIsLive s1.toArena = true :=
    decide_eq_true (Nat.ne_of_gt hsaved.built.live)
  rw [rewoundArena, hsave, rgArenaRestore, if_neg (by decide), hlive, if_neg (by decide),
    if_neg (Nat.not_lt.mpr hpos)]
  exact hsaved.built.ok.rewound hpos

theorem rewoundSession_init : rgHashMapInit 4096 sampleOs ⟨false, fun _ => 0⟩ rewoundArena =
    (.ok, rewoundSession.map, rewoundSession.arena) :=
  Prod.ext (by decide) rfl

theorem rewoundSession_use : Session.Use 4096 rewoundSession rewoundSession' := by
  obtain ⟨forest, h, -⟩ := placed_of_uses samplePage (by decide) rewoundArena_ok
    (by decide) rewoundSession_init .refl
  obtain ⟨⟨p, map', s'⟩, hput, -⟩ := h.put_cases samplePage sampleOs ⟨false, [107]⟩
  have heq : rewoundSession' = ⟨map', s'⟩ := by
    unfold rewoundSession'
    rw [hput]
  rw [heq]
  exact .put hput

theorem rewoundSession_depth :
    rewoundSession'.map.DepthLe rewoundSession'.arena rgmHashMapValidateMaxDepth := by
  obtain ⟨forest, h, -⟩ := placed_of_uses samplePage (by decide) rewoundArena_ok
    (by decide) rewoundSession_init (.single rewoundSession_use)
  have hroom : rewoundSession'.arena.pos / HashMapNode.size ≤ rgmHashMapValidateMaxDepth := by
    decide
  exact h.rep.depthLe_of_pos hroom

/-- The save after that upsert succeeds and writes the index over the node: the key is lost. -/
theorem rewoundSession_damaged :
    rewoundArena.Ok 4096 ∧ rewoundArena.pos = 64 ∧
      rgHashMapInit 4096 sampleOs ⟨false, fun _ => 0⟩ rewoundArena =
        (.ok, rewoundSession.map, rewoundSession.arena) ∧
      Relation.ReflTransGen (Session.Use 4096) rewoundSession rewoundSession' ∧
      rewoundSession'.map.DepthLe rewoundSession'.arena rgmHashMapValidateMaxDepth ∧
      rgHashMapSave 4096 sampleOs rewoundSession'.map rewoundSession'.arena =
        (.ok, rewoundSaved) ∧
      ¬ SaveKeeps rewoundSession'.map rewoundSession'.arena rewoundSaved := by
  refine ⟨rewoundArena_ok, by decide, rewoundSession_init, .single rewoundSession_use,
    rewoundSession_depth, Prod.ext (by decide) rfl, fun hkeeps => ?_⟩
  have hbefore : (match rgHashMapGet rewoundSession'.map rewoundSession'.arena ⟨false, [107]⟩ with
    | .ok p => p | .error _ => 0) ≠ 0 := by decide
  have hafter : (match rgHashMapGet rewoundSession'.map rewoundSaved ⟨false, [107]⟩ with
    | .ok p => p | .error _ => 0) = 0 := by decide
  rw [hkeeps.get] at hafter
  exact hbefore hafter

/-! ## A header that is reused well -/

/-- A saved arena with a second map on it. Its nodes lie above the index copy of the first, and the
header stays, so that the next save copies its index there. -/
def reusedArena : ArenaState :=
  (rgHashMapSave 4096 sampleOs sampleFilled.map sampleFilled.arena).2

def reusedSession : Session :=
  match rgHashMapInit 4096 sampleOs ⟨false, fun _ => 0⟩ reusedArena with
  | (_, map, s) => ⟨map, s⟩

def reusedSession' : Session :=
  (sampleUpsert (sampleUpsert reusedSession [107]).2 [41, 8]).2

theorem reusedArena_ok : reusedArena.Ok 4096 := by
  obtain ⟨forest, h, -⟩ :=
    Session.built_of_run samplePage (by decide) sampleSession_fresh sampleFilled_run
  exact (h.saved samplePage sampleFilled_saves).built.ok

theorem reusedSession_init : rgHashMapInit 4096 sampleOs ⟨false, fun _ => 0⟩ reusedArena =
    (.ok, reusedSession.map, reusedSession.arena) :=
  Prod.ext (by decide) rfl

theorem reusedSession_uses :
    Relation.ReflTransGen (Session.Use 4096) reusedSession reusedSession' := by
  have hplaced := fun {w : Session} => @placed_of_uses 4096 samplePage (by decide) sampleOs _ _
    reusedArena_ok (by decide) _ w reusedSession_init
  obtain ⟨_, h, -⟩ := hplaced .refl
  have hfirst := Relation.ReflTransGen.single (sampleUpsert_use h [107])
  obtain ⟨_, h', -⟩ := hplaced hfirst
  exact hfirst.tail (sampleUpsert_use h' [41, 8])

/-- That save keeps the second map. -/
theorem sampleSession_kept :
    rgmHashMapIndexReusable reusedSession'.arena.img
        (rgArenaCapacity reusedSession'.arena.toArena) = true ∧
      SaveKeeps reusedSession'.map reusedSession'.arena
        (rgHashMapSave 4096 sampleOs reusedSession'.map reusedSession'.arena).2 := by
  obtain ⟨forest, h, -, -, habove⟩ := placed_of_uses samplePage (by decide) reusedArena_ok
    (by decide) reusedSession_init reusedSession_uses
  have hroom : (reusedSession'.arena.pos - reusedArena.pos) / HashMapNode.size ≤
      rgmHashMapValidateMaxDepth := by decide
  have hsave : (rgHashMapSave 4096 sampleOs reusedSession'.map reusedSession'.arena).1 = .ok := by
    decide
  have hcopy : (PersistHeader.indexOffset reusedSession'.arena.img).toNat + rgmHashMapIndexBytes ≤
      reusedArena.pos := by decide
  have hsafe : ReuseSafe reusedSession'.map reusedSession'.arena := by
    refine fun _ => ⟨by decide, by decide, h.rep.forall_nodes.mpr fun a ha => ?_⟩
    exact .of_apart (.inl (Nat.le_trans hcopy (habove a ha)))
  exact ⟨by decide, (save_keeps_iff samplePage (by decide) reusedArena_ok
    (by decide) reusedSession_init reusedSession_uses (h.rep.depthLe_of_room habove hroom)
    (Prod.ext hsave rfl)).mpr hsafe⟩

end RgMemory
