import RgMemory.HashMap.Open

/-!
# Node graphs that rise

What an open checks of the node graph is that its nodes lie inside the arena, each above its parent:
`HashMap.Rising`. The nodes need not be genuine and may share bytes, and two of them may have a
child in common, so the forest that the links unfold to can have a node at several places. Walks and
iterations end all the same, and read nothing outside the arena.

Stores keep such a graph when they spare what is read of its nodes (`Rising.congr`). So does an
upsert that adds a node, if the four bytes of the link that it fills are read of no other node
(`Rising.inserted`): the graph unfolds anew, since its links still lead upwards.
-/

namespace RgMemory

open Bytes Trie

/-- A map whose nodes can be read, each at a higher offset than its parent. -/
structure HashMap.Rising (map : HashMap) (s : ArenaState)
    (forest : Fin 4096 → Trie 4 (BitVec 32)) : Prop extends HashMap.Readable map s forest where
  rising : ∀ i, Descends Rises 0 (forest i)

/-- The node at which the walk for a key stops. -/
def foundOf (img : Mem) (forest : Fin 4096 → Trie 4 (BitVec 32)) (key : List Byte) :
    Option (BitVec 32) :=
  (forest (rgmHashMapRoot (bytesProbe key).hfull)).find ((bytesProbe key).test img)
    (bytesProbe key).digits

/-- It is a node of the map and has the key. -/
theorem mem_of_foundOf {img : Mem} {forest : Fin 4096 → Trie 4 (BitVec 32)} {key : List Byte}
    (hlen : key.length < 2 ^ 32) {a : BitVec 32} (h : foundOf img forest key = some a) :
    a ∈ listAll forest ∧ HashMapNode.keyBytes img a = key := by
  obtain ⟨hmem, htest⟩ := find_mem h
  exact ⟨mem_listAll.mpr ⟨_, hmem⟩, ((bytesProbe_test_iff hlen).mp htest).2⟩

theorem foundOf_congr {img img' : Mem} {forest : Fin 4096 → Trie 4 (BitVec 32)}
    (h : ∀ a ∈ listAll forest, NodeBody img img' a) {key : List Byte} (hlen : key.length < 2 ^ 32) :
    foundOf img' forest key = foundOf img forest key := by
  refine find_congr fun a ha => ?_
  have hbody := h a (mem_listAll.mpr ⟨_, ha⟩)
  rw [Bool.eq_iff_iff, bytesProbe_test_iff hlen, bytesProbe_test_iff hlen, hbody.hash,
    hbody.keyBytes]

/-- The height of an offset below the end of the 32-bit range. -/
def headroom (a : BitVec 32) : Nat := 2 ^ 32 - a.toNat

theorem Rises.headroom_lt {a c : BitVec 32} (h : Rises a c) : headroom c < headroom a := by
  have := c.isLt
  unfold Rises at h
  unfold headroom
  omega

namespace HashMap.Rising

variable {map map' : HashMap} {s s' : ArenaState} {forest : Fin 4096 → Trie 4 (BitVec 32)}

theorem depthLe (h : map.Rising s forest) (i : Fin 4096) : (forest i).DepthLe (headroom 0) :=
  (h.rising i).depthLe fun _ _ => Rises.headroom_lt

theorem refuses_eq (h : map.Rising s forest) (key : KeyArg) :
    rgmHashMapRefuses map s.toArena key = key.refused := by
  rw [rgmHashMapRefuses, h.live]
  rfl

/-- A walk ends at the node that it finds, or at the seat of the key. -/
theorem lookup_eq (h : map.Rising s forest) {key : List Byte} (hlen : key.length < 2 ^ 32) :
    rgmHashMapLookup map s (bytesProbe key) = .ok (match foundOf s.img forest key with
      | some a => .hit a
      | none => .miss (Slot.ofSeat (.root (rgmHashMapRoot (bytesProbe key).hfull))
          (seatOf forest (bytesProbe key)))) := by
  rw [h.toReadable.lookup_eq h.depthLe (by decide) hlen, foundOf]
  cases find ((bytesProbe key).test s.img) (bytesProbe key).digits
    (forest (rgmHashMapRoot (bytesProbe key).hfull)) <;> rfl

theorem get_eq (h : map.Rising s forest) (key : KeyArg) :
    rgHashMapGet map s key = .ok (if key.refused then 0 else
      match foundOf s.img forest key.bytes with
      | some a => s.valuePtr a
      | none => 0) := by
  rw [rgHashMapGet, h.refuses_eq]
  cases hr : key.refused with
  | true => rfl
  | false =>
    rw [if_neg (by decide), rgmHashMapGet, h.lookup_eq (KeyArg.length_lt hr)]
    cases foundOf s.img forest key.bytes <;> rfl

/-- The value of a key is that of the node at which its walk stops. -/
theorem value_eq (h : map.Rising s forest) (key : KeyArg) :
    rgmHashMapValue map s key = .ok (if key.refused then none else
      (foundOf s.img forest key.bytes).map (HashMapNode.value s.img)) := by
  rw [rgmHashMapValue, h.get_eq key]
  cases hr : key.refused with
  | true => simp
  | false =>
    cases foundOf s.img forest key.bytes with
    | none => simp
    | some a =>
      have hp : s.valuePtr a ≠ 0 := Nat.succ_ne_zero _
      simp [hp, load_valuePtr]

/-- Maps with the same nodes have the same answers. -/
theorem get_congr (h : map.Rising s forest) (h' : map'.Rising s' forest) (hbase : s'.base = s.base)
    (hbody : ∀ a ∈ listAll forest, NodeBody s.img s'.img a) (key : KeyArg) :
    rgHashMapGet map' s' key = rgHashMapGet map s key := by
  rw [h'.get_eq, h.get_eq]
  cases hr : key.refused with
  | true => rw [if_pos rfl, if_pos rfl]
  | false =>
    rw [if_neg (by decide), if_neg (by decide), foundOf_congr hbody (KeyArg.length_lt hr)]
    cases foundOf s.img forest key.bytes with
    | none => rfl
    | some a =>
      dsimp only
      rw [ArenaState.valuePtr, ArenaState.valuePtr, hbase]

/-- A key has the same value if its node has. -/
theorem value_congr (h : map.Rising s forest) (h' : map'.Rising s' forest)
    (hbody : ∀ a ∈ listAll forest, NodeBody s.img s'.img a) {key : KeyArg}
    (hvalue : ∀ a ∈ listAll forest, HashMapNode.keyBytes s.img a = key.bytes →
      HashMapNode.value s'.img a = HashMapNode.value s.img a) :
    rgmHashMapValue map' s' key = rgmHashMapValue map s key := by
  rw [h'.value_eq, h.value_eq]
  cases hr : key.refused with
  | true => rw [if_pos rfl, if_pos rfl]
  | false =>
    have hlen := KeyArg.length_lt hr
    rw [if_neg (by decide), if_neg (by decide), foundOf_congr hbody hlen]
    cases hfound : foundOf s.img forest key.bytes with
    | none => simp only [Option.map_none]
    | some a =>
      obtain ⟨ha, hkey⟩ := mem_of_foundOf hlen hfound
      simp only [Option.map_some, hvalue a ha hkey]

/-- A change that spares the bodies and the links of the nodes. -/
theorem congr (h : map.Rising s forest) (hbase : s'.base = s.base) (hpos : s.pos ≤ s'.pos)
    (hagree : ∀ a ∈ listAll forest, NodeAgree s.img s'.img a) : map.Rising s' forest := by
  refine ⟨⟨?_, fun i => ?_, fun a ha => ?_⟩, h.rising⟩
  · have hlive := h.live
    unfold rgmMapIsLive at hlive ⊢
    rwa [hbase]
  · exact (h.unfolds i).congr fun a ha j => (hagree a (mem_listAll.mpr ⟨i, ha⟩)).links j
  · exact (hagree a ha).inside hpos (h.inside a ha)

/-- A link of a node leads to a node above it. -/
theorem link (h : map.Rising s forest) {a c : BitVec 32} (ha : a ∈ listAll forest) {i : Fin 4}
    (hlink : hashMapLinks s.img a i = some c) : c ∈ listAll forest ∧ Rises a c := by
  obtain ⟨j, hj⟩ := mem_listAll.mp ha
  obtain ⟨hmem, hrise⟩ := (h.rising j).link (h.unfolds j) hj hlink
  exact ⟨mem_listAll.mpr ⟨j, hmem⟩, hrise⟩

/-- A root is a node, above offset 0. -/
theorem root (h : map.Rising s forest) {j : Fin 4096} {c : BitVec 32}
    (hroot : slotLink (map.top j) = some c) : c ∈ listAll forest ∧ Rises 0 c := by
  obtain ⟨hmem, hrise⟩ := (h.rising j).root (hroot ▸ h.unfolds j)
  exact ⟨mem_listAll.mpr ⟨j, hmem⟩, hrise⟩

theorem leads_iff (h : map.Rising s forest) {a : BitVec 32} :
    map.Leads s a ↔ a ∈ listAll forest := HashMap.leads_iff h.unfolds

end HashMap.Rising

/-! ## Adding a node -/

section

variable {page : Nat} {map map' : HashMap} {s s' : ArenaState}
  {forest : Fin 4096 → Trie 4 (BitVec 32)} {key : List Byte} {x : BitVec 32}

/-- An upsert that adds a node: the graph unfolds to a forest with that node and all others. -/
theorem HashMap.Rising.inserted (h : map.Rising s forest) (hpos : 0 < s.pos)
    (hins : Inserted page map map' s s' forest key x) :
    ∃ forest', map'.Rising s' forest' ∧
      ∀ a, a ∈ listAll forest' ↔ a = x ∨ a ∈ listAll forest := by
  have hsize : HashMapNode.size = 40 := rfl
  have habove := hins.fresh.above
  have hbelow := hins.fresh.below
  have hp := hins.published
  have hne := hins.fresh.ne_zero hpos
  have hzero : (0 : BitVec 32).toNat = 0 := rfl
  have hrise0 : Rises 0 x := by
    unfold Rises
    omega
  have hrise : ∀ a ∈ listAll forest, Rises a x := by
    intro a ha
    have hin := (h.inside a ha).2
    unfold Rises
    omega
  have hclosed : ∀ a, a = x ∨ a ∈ listAll forest → ∀ i c, hashMapLinks s'.img a i = some c →
      (c = x ∨ c ∈ listAll forest) ∧ Rises a c := by
    rintro a (rfl | ha) i c hlink
    · rw [hins.fresh.links] at hlink
      cases hlink
    · rw [hp.links hne ha] at hlink
      split at hlink
      · cases hlink
        exact ⟨.inl rfl, hrise a ha⟩
      · obtain ⟨hmem, hac⟩ := h.link ha hlink
        exact ⟨.inr hmem, hac⟩
  have hroots : ∀ j c, slotLink (map'.top j) = some c →
      (c = x ∨ c ∈ listAll forest) ∧ Rises 0 c := by
    intro j c hroot
    rw [hp.roots hne] at hroot
    split at hroot
    · cases hroot
      exact ⟨.inl rfl, hrise0⟩
    · obtain ⟨hmem, hc⟩ := h.root hroot
      exact ⟨.inr hmem, hc⟩
  obtain ⟨forest', hforest'⟩ :=
    exists_unfolds_family hclosed (fun _ _ => Rises.headroom_lt) hroots
  have hrising : map'.Rising s' forest' := by
    refine ⟨⟨?_, fun j => (hforest' j).1, fun a ha => ?_⟩, fun j => (hforest' j).2.2⟩
    · have hlive := h.live
      unfold rgmMapIsLive at hlive ⊢
      rwa [hins.base, hp.bound]
    · obtain ⟨j, hj⟩ := mem_listAll.mp ha
      rcases (hforest' j).2.1 a hj with rfl | hold
      · have hlow := hins.fresh.aligned
        refine ⟨?_, ?_⟩
        · show 64 ≤ a.toNat
          omega
        · rw [hins.fresh.keyLen]
          exact Nat.le_of_eq hbelow
      · exact (hp.body a hold).inside (by omega) (h.inside a hold)
  -- a link that was there still is, since the one at the seat was empty
  have hold : ∀ a ∈ listAll forest, a ∈ listAll forest' := by
    intro a ha
    obtain ⟨j, hj⟩ := mem_listAll.mp ha
    refine mem_listAll.mpr ⟨j, (h.unfolds j).mem_mono (hforest' j).1 ?_ ?_ hj⟩
    · intro c hroot
      rw [hp.roots hne, if_neg]
      · exact hroot
      · rintro ⟨hseat, rfl⟩
        have hnil := (h.unfolds _).eq_none_iff.mpr (seat_eq_none_iff.mp hseat)
        rw [hroot] at hnil
        cases hnil
    · intro d hd i c hlink
      rw [hp.links hne (mem_listAll.mpr ⟨j, hd⟩), if_neg]
      · exact hlink
      · intro hseat
        have hnone := (h.unfolds _).seat_link hseat
        rw [hlink] at hnone
        cases hnone
  refine ⟨forest', hrising, fun a => ⟨fun ha => ?_, ?_⟩⟩
  · obtain ⟨j, hj⟩ := mem_listAll.mp ha
    exact (hforest' j).2.1 a hj
  · rintro (rfl | ha)
    · cases hseat : seatOf forest (bytesProbe key) with
      | none =>
        refine (hrising.root (j := rgmHashMapRoot (bytesProbe key).hfull) ?_).1
        rw [hp.roots hne, if_pos ⟨hseat, rfl⟩]
      | some link =>
        obtain ⟨n, i⟩ := link
        have hn : n ∈ listAll forest := mem_listAll.mpr ⟨_, seat_mem hseat⟩
        refine (hrising.link (hold n hn) (i := i) ?_).1
        rw [hp.links hne hn, if_pos hseat]
    · exact hold a ha

end

end RgMemory
