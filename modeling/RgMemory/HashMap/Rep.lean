import RgMemory.Arena.Run
import RgMemory.HashMap.Walk

/-!
# Maps that Put built

`HashMap.Rep` relates a map and its arena to the forest of tries that its links unfold to: one trie
for each root, whose payloads are node offsets. Every node is genuine (its digest is that of its
inline key), lies inside the arena, and shares no byte with another node. Where a key sits in its
trie is not part of the relation; what `Put` adds is found because it was added along its own digits.

`Rep.congr` is the frame rule: a change elsewhere, or to the values, keeps the relation.
`Rep.insert` is the step: a fresh node, linked from the seat of its key, is added to the trie of its
root.
-/

namespace RgMemory

open Bytes Trie

/-! ## Memory by offset -/

theorem load32_img (s : ArenaState) (k : Nat) : load32 s.img k = load32 s.mem (s.base + k) :=
  load32_congr fun i _ => by rw [ArenaState.img, Nat.add_assoc]

theorem load64_img (s : ArenaState) (k : Nat) : load64 s.img k = load64 s.mem (s.base + k) :=
  load64_congr fun i _ => by rw [ArenaState.img, Nat.add_assoc]

theorem slice_img (s : ArenaState) (k n : Nat) : slice s.img k n = slice s.mem (s.base + k) n :=
  slice_congr fun i _ => by rw [ArenaState.img, Nat.add_assoc]

/-! ## Keys of nodes -/

/-- The inline key of a node. -/
def HashMapNode.keyBytes (img : Mem) (off : BitVec 32) : List Byte :=
  slice img (off.toNat + HashMapNode.size) (HashMapNode.keyLen img off).toNat

/-- A node whose digest is that of its key. -/
def HashMapNode.Genuine (img : Mem) (off : BitVec 32) : Prop :=
  HashMapNode.hash img off =
    rgmHashWyhash (ptr (HashMapNode.keyBytes img off)) (HashMapNode.keyBytes img off).length

/-- The bytes that a node takes. -/
def HashMapNode.extent (img : Mem) (off : BitVec 32) : Nat :=
  HashMapNode.size + (HashMapNode.keyLen img off).toNat

/-- Two nodes share no byte. -/
def NodesApart (img : Mem) (a b : BitVec 32) : Prop :=
  Apart a.toNat (HashMapNode.extent img a) b.toNat (HashMapNode.extent img b)

theorem NodesApart.symm {img : Mem} {a b : BitVec 32} (h : NodesApart img a b) :
    NodesApart img b a := Apart.symm h

/-- The match test compares the digest and the key. -/
theorem bytesProbe_test_iff {img : Mem} {off : BitVec 32} {key : List Byte}
    (hlen : key.length < 2 ^ 32) : (bytesProbe key).test img off = true ↔
      HashMapNode.hash img off = (bytesProbe key).hfull ∧ HashMapNode.keyBytes img off = key := by
  have hslice : (HashMapNode.keyBytes img off).length = (HashMapNode.keyLen img off).toNat :=
    slice_length ..
  rw [Probe.test, Bool.and_eq_true, decide_eq_true_iff]
  constructor
  · rintro ⟨⟨hhash, hkl⟩, hsame⟩
    have hkl' : (HashMapNode.keyLen img off).toNat = key.length := by
      rw [hkl, BitVec.toNat_ofNat]
      exact Nat.mod_eq_of_lt hlen
    have hbytes : ∀ i, i < key.length → img (off.toNat + HashMapNode.size + i) = ptr key i := by
      intro i hi
      simp only [bytesProbe, Bool.or_eq_true, decide_eq_true_eq, rgmHashKeysEqual_iff] at hsame
      rcases hsame with h0 | heq
      · omega
      · exact heq i hi
    refine ⟨hhash, ?_⟩
    rw [HashMapNode.keyBytes, hkl']
    exact slice_eq_list.mpr hbytes
  · rintro ⟨hhash, rfl⟩
    refine ⟨⟨hhash, ?_⟩, ?_⟩
    · apply BitVec.eq_of_toNat_eq
      show _ = (BitVec.ofNat 32 (HashMapNode.keyBytes img off).length).toNat
      rw [hslice, BitVec.ofNat_toNat, BitVec.setWidth_eq]
    · simp only [bytesProbe, Bool.or_eq_true, decide_eq_true_eq, rgmHashKeysEqual_iff]
      refine .inr fun i hi => ?_
      rw [hslice] at hi
      exact (ptr_slice hi).symm

/-- At a genuine node it decides equality of the keys. -/
theorem bytesProbe_test {img : Mem} {off : BitVec 32} (hg : HashMapNode.Genuine img off)
    {key : List Byte} (hlen : key.length < 2 ^ 32) :
    (bytesProbe key).test img off = decide (HashMapNode.keyBytes img off = key) := by
  rw [Bool.eq_iff_iff, decide_eq_true_iff, bytesProbe_test_iff hlen]
  constructor
  · rintro ⟨-, hkey⟩
    exact hkey
  · rintro rfl
    exact ⟨hg, rfl⟩

/-! ## The relation -/

/-- A map of one arena and the forest that its links unfold to. -/
structure HashMap.Rep (map : HashMap) (s : ArenaState) (forest : Fin 4096 → Trie 4 (BitVec 32)) :
    Prop where
  bound : map.bound = true
  sentinel : 0 < s.pos
  unfolds : ∀ i, Unfolds (hashMapLinks s.img) (forest i) (slotLink (map.top i))
  inside : ∀ a ∈ listAll forest, NodeInside s.img s.pos a
  aligned : ∀ a ∈ listAll forest, 64 ∣ a.toNat
  genuine : ∀ a ∈ listAll forest, HashMapNode.Genuine s.img a
  apart : (listAll forest).Pairwise (NodesApart s.img)

/-- The node of a key in a forest. -/
def nodeOf (img : Mem) (forest : Fin 4096 → Trie 4 (BitVec 32)) (key : List Byte) :
    Option (BitVec 32) :=
  (forest (rgmHashMapRoot (bytesProbe key).hfull)).find
    (fun off => decide (HashMapNode.keyBytes img off = key)) (bytesProbe key).digits

/-- Two images agree on a node but for its links and its value. -/
structure NodeBody (img img' : Mem) (off : BitVec 32) : Prop where
  hash : HashMapNode.hash img' off = HashMapNode.hash img off
  keyLen : HashMapNode.keyLen img' off = HashMapNode.keyLen img off
  keyBytes : HashMapNode.keyBytes img' off = HashMapNode.keyBytes img off

/-- Two images agree on a node but for its value. -/
structure NodeAgree (img img' : Mem) (off : BitVec 32) : Prop extends NodeBody img img' off where
  child : ∀ i : Fin 4, HashMapNode.child img' off i = HashMapNode.child img off i

namespace NodeBody

variable {img img' : Mem} {off : BitVec 32}

/-- Agreement byte by byte, from the digest on, the value and the padding apart. -/
theorem of_fields (h : ∀ x, off.toNat + 16 ≤ x → x < off.toNat + HashMapNode.extent img off →
    Out (off.toNat + 24) 8 x → Out (off.toNat + 36) 4 x → img' x = img x) :
    NodeBody img img' off := by
  have hsize : HashMapNode.extent img off = 40 + (HashMapNode.keyLen img off).toNat := rfl
  have hkl : HashMapNode.keyLen img' off = HashMapNode.keyLen img off :=
    load32_congr fun i hi => h _ (by omega) (by omega) (by unfold Out; omega) (by unfold Out; omega)
  refine ⟨?_, hkl, ?_⟩
  · exact load64_congr fun j hj =>
      h _ (by omega) (by omega) (by unfold Out; omega) (by unfold Out; omega)
  · have hs : HashMapNode.size = 40 := rfl
    rw [HashMapNode.keyBytes, HashMapNode.keyBytes, hkl]
    exact slice_congr fun j hj =>
      h _ (by omega) (by omega) (by unfold Out; omega) (by unfold Out; omega)

/-- Agreement byte by byte, from the digest on and the value apart. -/
theorem of_bytes (h : ∀ x, off.toNat + 16 ≤ x → x < off.toNat + HashMapNode.extent img off →
    Out (off.toNat + 24) 8 x → img' x = img x) : NodeBody img img' off :=
  of_fields fun x hx hx' hvalue _ => h x hx hx' hvalue

theorem genuine (h : NodeBody img img' off) (hg : HashMapNode.Genuine img off) :
    HashMapNode.Genuine img' off := by
  unfold HashMapNode.Genuine at *
  rw [h.hash, h.keyBytes]
  exact hg

theorem extent (h : NodeBody img img' off) :
    HashMapNode.extent img' off = HashMapNode.extent img off := by
  rw [HashMapNode.extent, HashMapNode.extent, h.keyLen]

theorem inside (h : NodeBody img img' off) {hi hi' : Nat} (hle : hi ≤ hi')
    (hin : NodeInside img hi off) : NodeInside img' hi' off := by
  unfold NodeInside at *
  rw [h.keyLen]
  omega

end NodeBody

/-- Agreement byte by byte, the value and the padding apart. -/
theorem NodeAgree.of_fields {img img' : Mem} {off : BitVec 32}
    (h : ∀ x, off.toNat ≤ x → x < off.toNat + HashMapNode.extent img off →
      Out (off.toNat + 24) 8 x → Out (off.toNat + 36) 4 x → img' x = img x) :
    NodeAgree img img' off := by
  have hsize : HashMapNode.extent img off = 40 + (HashMapNode.keyLen img off).toNat := rfl
  refine ⟨.of_fields fun x hx => h x (by omega), fun i => ?_⟩
  have := i.isLt
  exact load32_congr fun j hj =>
    h _ (by omega) (by omega) (by unfold Out; omega) (by unfold Out; omega)

/-- Agreement byte by byte, the value apart. -/
theorem NodeAgree.of_bytes {img img' : Mem} {off : BitVec 32}
    (h : ∀ x, off.toNat ≤ x → x < off.toNat + HashMapNode.extent img off →
      Out (off.toNat + 24) 8 x → img' x = img x) : NodeAgree img img' off :=
  .of_fields fun x hx hx' hvalue _ => h x hx hx' hvalue

/-- A byte of a node that is read: of a field or of the key. -/
def HashMapNode.Reads (img : Mem) (off : BitVec 32) (y : Nat) : Prop :=
  off.toNat ≤ y ∧ y < off.toNat + HashMapNode.extent img off ∧ Out (off.toNat + 36) 4 y

/-- Agreement on the bytes that are read is agreement on the fields and the key. -/
theorem reads_iff {img img' : Mem} {a : BitVec 32} :
    (∀ y, HashMapNode.Reads img a y → img' y = img y) ↔
      NodeAgree img img' a ∧ HashMapNode.value img' a = HashMapNode.value img a := by
  have hsize : HashMapNode.extent img a = 40 + (HashMapNode.keyLen img a).toNat := rfl
  constructor
  · intro h
    refine ⟨.of_fields fun y hy hy' _ hpad => h y ⟨hy, hy', hpad⟩, ?_⟩
    exact load64_congr fun k hk => h _ ⟨by omega, by omega, by unfold Out; omega⟩
  · rintro ⟨hagree, hvalue⟩ y ⟨hy, hy', hpad⟩
    obtain ⟨k, rfl⟩ := Nat.exists_eq_add_of_le hy
    unfold Out at hpad
    by_cases hchild : k < 16
    · have hload := load32_eq_iff.mp (hagree.child ⟨k / 4, by omega⟩) (k % 4) (by omega)
      have hk : 4 * (k / 4) + k % 4 = k := Nat.div_add_mod k 4
      rwa [Nat.add_assoc, hk] at hload
    by_cases hhash : k < 24
    · have hload := load64_eq_iff.mp hagree.hash (k - 16) (by omega)
      have hk : 16 + (k - 16) = k := by omega
      rwa [Nat.add_assoc, hk] at hload
    by_cases hval : k < 32
    · have hload := load64_eq_iff.mp hvalue (k - 24) (by omega)
      have hk : 24 + (k - 24) = k := by omega
      rwa [Nat.add_assoc, hk] at hload
    by_cases hlen : k < 36
    · have hload := load32_eq_iff.mp hagree.keyLen (k - 32) (by omega)
      have hk : 32 + (k - 32) = k := by omega
      rwa [Nat.add_assoc, hk] at hload
    · have hkey := hagree.keyBytes
      rw [HashMapNode.keyBytes, HashMapNode.keyBytes, hagree.keyLen, slice_eq_iff] at hkey
      have hload := hkey (k - 40) (by omega)
      have hk : a.toNat + HashMapNode.size + (k - 40) = a.toNat + k := by
        have : HashMapNode.size = 40 := rfl
        omega
      rwa [hk] at hload

/-- A node's links are among what agreement covers. -/
theorem NodeAgree.links {img img' : Mem} {off : BitVec 32} (h : NodeAgree img img' off)
    (i : Fin 4) : hashMapLinks img' off i = hashMapLinks img off i := by
  rw [hashMapLinks, hashMapLinks, h.child]

theorem nodeOf_congr {img img' : Mem} {forest : Fin 4096 → Trie 4 (BitVec 32)}
    (h : ∀ a ∈ listAll forest, NodeBody img img' a) (key : List Byte) :
    nodeOf img' forest key = nodeOf img forest key := by
  refine find_congr fun a ha => ?_
  rw [(h a (mem_listAll.mpr ⟨_, ha⟩)).keyBytes]

/-- The node of a key is in the forest and has the key. -/
theorem mem_of_nodeOf {img : Mem} {forest : Fin 4096 → Trie 4 (BitVec 32)} {key : List Byte}
    {a : BitVec 32} (h : nodeOf img forest key = some a) :
    a ∈ listAll forest ∧ HashMapNode.keyBytes img a = key :=
  ⟨mem_listAll.mpr ⟨_, (find_mem h).1⟩, of_decide_eq_true (find_mem h).2⟩

namespace HashMap.Rep

variable {map : HashMap} {s : ArenaState} {forest : Fin 4096 → Trie 4 (BitVec 32)}

theorem nodup (h : map.Rep s forest) : (listAll forest).Nodup := by
  refine h.apart.imp fun {a b} hab heq => ?_
  subst heq
  have hsize : 40 ≤ HashMapNode.extent s.img a := Nat.le_add_right ..
  unfold NodesApart Apart at hab
  omega

/-- A node belongs to one root. -/
theorem root_unique (h : map.Rep s forest) {i j : Fin 4096} {a : BitVec 32}
    (hi : a ∈ (forest i).toList) (hj : a ∈ (forest j).toList) : i = j :=
  flatMap_nodup_unique h.nodup (List.mem_finRange i) (List.mem_finRange j) hi hj

theorem nodup_root (h : map.Rep s forest) (i : Fin 4096) : (forest i).toList.Nodup :=
  (List.nodup_flatMap.mp h.nodup).1 i (List.mem_finRange i)

/-- Two different nodes of a map share no byte. -/
theorem apart_of_ne (h : map.Rep s forest) {a b : BitVec 32} (ha : a ∈ listAll forest)
    (hb : b ∈ listAll forest) (hab : a ≠ b) : NodesApart s.img a b := by
  have hsymm : Std.Symm (NodesApart s.img) := ⟨fun _ _ => NodesApart.symm⟩
  exact h.apart.forall ha hb hab

/-- The number of nodes is bounded by the room they take, above an offset that none is below. -/
theorem length_le_above (h : map.Rep s forest) {lo : Nat}
    (habove : ∀ a ∈ listAll forest, lo ≤ a.toNat) :
    (listAll forest).length ≤ (s.pos - lo) / HashMapNode.size := by
  have hsize : HashMapNode.size = 40 := rfl
  have hpw : ((listAll forest).map fun a => a.toNat - lo).Pairwise
      fun a b => Apart a HashMapNode.size b HashMapNode.size := by
    rw [List.pairwise_map]
    refine h.apart.imp_of_mem fun {a b} ha hb hab => ?_
    have hla := habove a ha
    have hlb := habove b hb
    unfold NodesApart Apart HashMapNode.extent at *
    omega
  have hin : ∀ k ∈ (listAll forest).map fun a => a.toNat - lo,
      k + HashMapNode.size ≤ s.pos - lo := by
    intro k hk
    obtain ⟨a, ha, rfl⟩ := List.mem_map.mp hk
    have hlow := habove a ha
    have hhigh := (h.inside a ha).2
    omega
  simpa only [List.length_map] using length_le_of_apart (by decide) hpw hin

theorem length_le (h : map.Rep s forest) :
    (listAll forest).length ≤ s.pos / HashMapNode.size :=
  h.length_le_above fun _ _ => Nat.zero_le _

/-- A lookup in a map that `Put` built: it ends, and finds the node of the key. -/
theorem lookup_eq (h : map.Rep s forest) (hpos : s.pos ≤ 2 ^ 64) {key : List Byte}
    (hlen : key.length < 2 ^ 32) :
    rgmHashMapLookup map s (bytesProbe key) =
      .ok (match nodeOf s.img forest key with
        | some a => .hit a
        | none => .miss (Slot.ofSeat (.root (rgmHashMapRoot (bytesProbe key).hfull))
            ((forest (rgmHashMapRoot (bytesProbe key).hfull)).seat (bytesProbe key).digits))) := by
  have hmem : ∀ {a}, a ∈ (forest (rgmHashMapRoot (bytesProbe key).hfull)).toList →
      a ∈ listAll forest := fun ha => mem_listAll.mpr ⟨_, ha⟩
  have hfuel : (forest (rgmHashMapRoot (bytesProbe key).hfull)).toList.length <
      rgmHashMapWalkFuel := by
    have h1 := length_member_le forest (rgmHashMapRoot (bytesProbe key).hfull)
    have h2 := h.length_le
    have h3 := Nat.div_le_self s.pos HashMapNode.size
    have h4 : (2 : Nat) ^ 64 < rgmHashMapWalkFuel := by decide
    omega
  have htest : find ((bytesProbe key).test s.img) (bytesProbe key).digits
      (forest (rgmHashMapRoot (bytesProbe key).hfull)) = nodeOf s.img forest key :=
    find_congr fun a ha => bytesProbe_test (h.genuine a (hmem ha)) hlen
  have hwalk : rgmHashMapWalk map s (bytesProbe key) rgmHashMapWalkFuel
      (.root (rgmHashMapRoot (bytesProbe key).hfull)) (bytesProbe key).descend = _ :=
    rgmHashMapWalk_eq hlen (fun a ha => h.inside a (hmem ha)) (depthLe_length _) hfuel (h.unfolds _)
  have hdigits : (bytesProbe key).descend.digits (bytesProbe key).reseed =
      (bytesProbe key).digits := rfl
  rw [hdigits, htest] at hwalk
  rw [rgmHashMapLookup, hwalk]
  cases nodeOf s.img forest key <;> rfl

/-- Agreement on the nodes but for their links keeps the relation, if the links still unfold. -/
theorem of_body (h : map.Rep s forest) {s' : ArenaState} (hpos : s.pos ≤ s'.pos)
    (hbody : ∀ a ∈ listAll forest, NodeBody s.img s'.img a)
    (hunf : ∀ i, Unfolds (hashMapLinks s'.img) (forest i) (slotLink (map.top i))) :
    map.Rep s' forest := by
  refine ⟨h.bound, Nat.lt_of_lt_of_le h.sentinel hpos, hunf,
    fun a ha => (hbody a ha).inside hpos (h.inside a ha), h.aligned,
    fun a ha => (hbody a ha).genuine (h.genuine a ha), ?_⟩
  refine h.apart.imp_of_mem fun {a b} ha hb hab => ?_
  unfold NodesApart at *
  rwa [(hbody a ha).extent, (hbody b hb).extent]

/-- The frame rule: agreement on the nodes keeps the relation. -/
theorem congr (h : map.Rep s forest) {s' : ArenaState} (hpos : s.pos ≤ s'.pos)
    (hagree : ∀ a ∈ listAll forest, NodeAgree s.img s'.img a) : map.Rep s' forest :=
  h.of_body hpos (fun a ha => (hagree a ha).toNodeBody) fun i =>
    (h.unfolds i).congr fun a ha j => (hagree a (mem_listAll.mpr ⟨i, ha⟩)).links j

end HashMap.Rep

/-- The forest after the node `x` was added for a key. -/
def forestAdd (forest : Fin 4096 → Trie 4 (BitVec 32)) (pr : Probe) (x : BitVec 32) :
    Fin 4096 → Trie 4 (BitVec 32) :=
  Function.update forest (rgmHashMapRoot pr.hfull)
    ((forest (rgmHashMapRoot pr.hfull)).add x pr.digits)

/-- The seat of a key in its root's trie. -/
def seatOf (forest : Fin 4096 → Trie 4 (BitVec 32)) (pr : Probe) : Option (BitVec 32 × Fin 4) :=
  (forest (rgmHashMapRoot pr.hfull)).seat pr.digits

/-- A fresh node: above the old position, without links, for one key. -/
structure FreshNode (s s' : ArenaState) (key : List Byte) (x : BitVec 32) : Prop where
  above : s.pos ≤ x.toNat
  below : x.toNat + HashMapNode.size + key.length = s'.pos
  aligned : 64 ∣ x.toNat
  child : ∀ i : Fin 4, HashMapNode.child s'.img x i = 0
  hash : HashMapNode.hash s'.img x = (bytesProbe key).hfull
  value : HashMapNode.value s'.img x = 0
  keyLen : (HashMapNode.keyLen s'.img x).toNat = key.length
  keyBytes : HashMapNode.keyBytes s'.img x = key

/-- A publish: the link at the seat of the key is the node `x`, everything else is as before. -/
structure Published (map map' : HashMap) (s s' : ArenaState)
    (forest : Fin 4096 → Trie 4 (BitVec 32)) (pr : Probe) (x : BitVec 32) : Prop where
  bound : map'.bound = map.bound
  top : ∀ j, map'.top j =
    if seatOf forest pr = none ∧ j = rgmHashMapRoot pr.hfull then x else map.top j
  body : ∀ a ∈ listAll forest, NodeBody s.img s'.img a
  child : ∀ a ∈ listAll forest, ∀ i : Fin 4, HashMapNode.child s'.img a i =
    if seatOf forest pr = some (a, i) then x else HashMapNode.child s.img a i

theorem FreshNode.ne_zero {s s' : ArenaState} {key : List Byte} {x : BitVec 32}
    (h : FreshNode s s' key x) (hpos : 0 < s.pos) : x ≠ 0 := by
  rintro rfl
  have habove := h.above
  have hzero : (0 : BitVec 32).toNat = 0 := rfl
  omega

theorem FreshNode.links {s s' : ArenaState} {key : List Byte} {x : BitVec 32}
    (h : FreshNode s s' key x) (i : Fin 4) : hashMapLinks s'.img x i = none := by
  rw [hashMapLinks, h.child i, slotLink_zero]

section

variable {map map' : HashMap} {s s' : ArenaState} {forest : Fin 4096 → Trie 4 (BitVec 32)}
  {pr : Probe} {x : BitVec 32}

/-- The links after a publish. -/
theorem Published.links (h : Published map map' s s' forest pr x) (hx : x ≠ 0) {a : BitVec 32}
    (ha : a ∈ listAll forest) (i : Fin 4) : hashMapLinks s'.img a i =
      if seatOf forest pr = some (a, i) then some x else hashMapLinks s.img a i := by
  rw [hashMapLinks, h.child a ha i]
  split
  · exact slotLink_of_ne hx
  · rfl

/-- The roots after a publish. -/
theorem Published.roots (h : Published map map' s s' forest pr x) (hx : x ≠ 0) (j : Fin 4096) :
    slotLink (map'.top j) =
      if seatOf forest pr = none ∧ j = rgmHashMapRoot pr.hfull then some x
      else slotLink (map.top j) := by
  rw [h.top j]
  split
  · exact slotLink_of_ne hx
  · rfl

end

theorem mem_forestAdd {forest : Fin 4096 → Trie 4 (BitVec 32)} {pr : Probe} {x a : BitVec 32} :
    a ∈ listAll (forestAdd forest pr x) ↔ a = x ∨ a ∈ listAll forest := by
  rw [forestAdd, (listAll_update_perm (toList_add_perm x _ _)).mem_iff, List.mem_cons]

namespace HashMap.Rep

variable {map map' : HashMap} {s s' : ArenaState} {forest : Fin 4096 → Trie 4 (BitVec 32)}
  {key : List Byte} {x : BitVec 32}

/-- The step of `Put`: a fresh node published at the seat of its key joins the forest. -/
theorem insert (h : map.Rep s forest) (hx : FreshNode s s' key x)
    (hp : Published map map' s s' forest (bytesProbe key) x) :
    map'.Rep s' (forestAdd forest (bytesProbe key) x) := by
  have hsize : HashMapNode.size = 40 := rfl
  have hpos : s.pos ≤ s'.pos := by
    have := hx.above
    have := hx.below
    omega
  have hsent := h.sentinel
  have hxne := hx.ne_zero hsent
  refine ⟨hp.bound.trans h.bound, Nat.lt_of_lt_of_le hsent hpos, fun j => ?_, fun a ha => ?_,
    fun a ha => ?_, fun a ha => ?_, ?_⟩
  · -- the trie of the root gains the node, the others keep their links
    rw [hp.roots hxne]
    by_cases hj : j = rgmHashMapRoot (bytesProbe key).hfull
    · subst hj
      rw [forestAdd, Function.update_self]
      have hadd := (h.unfolds (rgmHashMapRoot (bytesProbe key).hfull)).add
        (bytesProbe key).digits (h.nodup_root _) hx.links
        fun a ha i => hp.links hxne (mem_listAll.mpr ⟨_, ha⟩) i
      simp only [and_true]
      exact hadd
    · rw [forestAdd, Function.update_of_ne hj, if_neg (fun hand => hj hand.2)]
      refine (h.unfolds j).congr fun a ha i => ?_
      rw [hp.links hxne (mem_listAll.mpr ⟨j, ha⟩) i, if_neg]
      exact fun hseat => hj (h.root_unique ha (seat_mem hseat))
  · rcases mem_forestAdd.mp ha with rfl | hold
    · have habove := hx.above
      have hbelow := hx.below
      have hal := hx.aligned
      refine ⟨?_, ?_⟩
      · show 64 ≤ a.toNat
        omega
      · rw [hx.keyLen]
        exact Nat.le_of_eq hbelow
    · exact (hp.body a hold).inside hpos (h.inside a hold)
  · rcases mem_forestAdd.mp ha with rfl | hold
    · exact hx.aligned
    · exact h.aligned a hold
  · rcases mem_forestAdd.mp ha with rfl | hold
    · unfold HashMapNode.Genuine
      rw [hx.hash, hx.keyBytes]
      rfl
    · exact (hp.body a hold).genuine (h.genuine a hold)
  · have hperm : (listAll (forestAdd forest (bytesProbe key) x)).Perm (x :: listAll forest) :=
      listAll_update_perm (toList_add_perm x _ _)
    rw [hperm.pairwise_iff fun {_ _} => NodesApart.symm, List.pairwise_cons]
    refine ⟨fun a ha => .inr ?_, h.apart.imp_of_mem fun {a b} ha hb hab => ?_⟩
    · have hin := (h.inside a ha).2
      have habove := hx.above
      rw [(hp.body a ha).extent]
      unfold HashMapNode.extent
      omega
    · unfold NodesApart at *
      rwa [(hp.body a ha).extent, (hp.body b hb).extent]

/-- After the step the key has the new node, and every other key the node it had. -/
theorem nodeOf_insert (hx : FreshNode s s' key x)
    (hp : Published map map' s s' forest (bytesProbe key) x)
    (habsent : nodeOf s.img forest key = none) (k : List Byte) :
    nodeOf s'.img (forestAdd forest (bytesProbe key) x) k =
      if k = key then some x else nodeOf s.img forest k := by
  have hold : ∀ k, nodeOf s'.img forest k = nodeOf s.img forest k := nodeOf_congr hp.body
  split
  · next heq =>
    subst heq
    rw [nodeOf, forestAdd, Function.update_self]
    exact find_add_self (by simp [hx.keyBytes]) ((hold k).trans habsent)
  · next hne =>
    rw [← hold k, nodeOf, nodeOf, forestAdd]
    by_cases hroot : rgmHashMapRoot (bytesProbe k).hfull = rgmHashMapRoot (bytesProbe key).hfull
    · rw [hroot, Function.update_self]
      exact find_add_other (by simpa [hx.keyBytes] using Ne.symm hne)
    · rw [Function.update_of_ne hroot]

end HashMap.Rep

end RgMemory
