import RgMemory.HashMap.Rep

/-!
# What the entry points do

The specifications of `Init`, `Get` and `Put` on a map that `Put` built. `rgmHashMapPut_cases` says
that an upsert returns the node of its key, or is refused by the arena, or adds a fresh node
(`Inserted`); in the last case it also says which bytes below the old position may differ, which is
the one link at the key's seat.
-/

namespace RgMemory

open Bytes Trie

/-! ## Filling a node -/

/-- The stores that fill a node in, read back. -/
structure Filled (m m' : Mem) (node : Nat) (hash : BitVec 64) (key : List Byte) : Prop where
  child : ∀ i : Fin 4, load32 m' (node + 4 * i) = 0
  hash : load64 m' (node + 16) = hash
  value : load64 m' (node + 24) = 0
  keyLen : load32 m' (node + 32) = BitVec.ofNat 32 key.length
  keyBytes : slice m' (node + HashMapNode.size) key.length = key
  frame : ∀ x, Out node (HashMapNode.size + key.length) x → m' x = m x

theorem rgmHashMapNodeFill_filled (m : Mem) (node : Nat) (hash : BitVec 64) (key : List Byte) :
    Filled m (rgmHashMapNodeFill m node hash key) node hash key := by
  have hs : HashMapNode.size = 40 := rfl
  have hguard : ∀ m : Mem, (if key.length ≠ 0 then
      copy m (node + HashMapNode.size) (ptr key) key.length else m) =
        copy m (node + HashMapNode.size) (ptr key) key.length := by
    intro m
    split
    · rfl
    · next h0 => rw [Classical.not_not.mp h0, copy_zero]
  unfold rgmHashMapNodeFill
  simp only [hguard]
  constructor
  · rintro ⟨i, hi⟩
    obtain rfl | rfl | rfl | rfl : i = 0 ∨ i = 1 ∨ i = 2 ∨ i = 3 := by omega
    all_goals
      simp (disch := (unfold Apart; omega)) only [load32_copy_apart, load32_store32_apart,
        load32_store64_apart, load32_store32_self, Nat.mul_zero, Nat.add_zero, Nat.mul_one]
  · simp (disch := (unfold Apart; omega)) only [load64_copy_apart, load64_store32_apart,
      load64_store64_apart, load64_store64_self]
  · simp (disch := (unfold Apart; omega)) only [load64_copy_apart, load64_store32_apart,
      load64_store64_self]
  · simp (disch := (unfold Apart; omega)) only [load32_copy_apart, load32_store32_self]
  · exact slice_copy_self ..
  · intro x hx
    unfold Out at hx
    rw [copy_out _ _ (by unfold Out; omega)]
    simp only [store32, store64]
    simp (disch := (unfold Out; omega)) only [storeLE_out]

/-! ## Creating a node -/

/-- A store into the arena's memory, by offset. -/
theorem img_store32 (s : ArenaState) (k : Nat) (v : BitVec 32) :
    (s.setMem (store32 s.mem (s.base + k) v)).img = store32 s.img k v :=
  storeLE_shift ..

/-- A write through the pointer to a value changes the eight bytes of the value. -/
theorem store_value_out (s : ArenaState) {a : BitVec 32} (v : BitVec 64) {y : Nat}
    (hy : Out (a.toNat + 24) 8 y) :
    (s.setMem (store64 s.mem (s.valuePtr a) v)).img y = s.img y := by
  have haddr : Out (s.valuePtr a) 8 (s.base + y) := by
    unfold Out ArenaState.valuePtr at *
    omega
  exact storeLE_out _ haddr

/-- The cell behind a value pointer. -/
theorem load_valuePtr (s : ArenaState) (a : BitVec 32) :
    load64 s.mem (s.valuePtr a) = HashMapNode.value s.img a := by
  rw [HashMapNode.value, load64_img, ← Nat.add_assoc]
  rfl

theorem store_value_self (s : ArenaState) (a : BitVec 32) (v : BitVec 64) :
    HashMapNode.value (s.setMem (store64 s.mem (s.valuePtr a) v)).img a = v := by
  rw [← load_valuePtr]
  exact load64_store64_self ..

/-- The image after the write. -/
theorem store_value_img (s : ArenaState) (a : BitVec 32) (v : BitVec 64) :
    (s.setMem (store64 s.mem (s.valuePtr a) v)).img = store64 s.img (a.toNat + 24) v := by
  rw [ArenaState.valuePtr, Nat.add_assoc]
  exact storeLE_shift ..

/-- It spares every node that is apart. -/
theorem store_value_apart (s : ArenaState) {a b : BitVec 32} (v : BitVec 64)
    (hapart : NodesApart s.img a b) :
    NodeAgree s.img (s.setMem (store64 s.mem (s.valuePtr a) v)).img b ∧
      HashMapNode.value (s.setMem (store64 s.mem (s.valuePtr a) v)).img b =
        HashMapNode.value s.img b := by
  have hsa : 40 ≤ HashMapNode.extent s.img a := Nat.le_add_right ..
  have hsb : 40 ≤ HashMapNode.extent s.img b := Nat.le_add_right ..
  unfold NodesApart Apart at hapart
  refine ⟨.of_bytes fun y hy hy' _ => store_value_out s v (by unfold Out; omega), ?_⟩
  exact load64_congr fun k hk => store_value_out s v (by unfold Out; omega)

/-- And of its own node everything but the value. -/
theorem store_value_agree (s : ArenaState) (a : BitVec 32) (v : BitVec 64) :
    NodeAgree s.img (s.setMem (store64 s.mem (s.valuePtr a) v)).img a :=
  .of_bytes fun _ _ _ hout => store_value_out s v hout

theorem ArenaState.Ok.withMem {page : Nat} {s : ArenaState} (h : s.Ok page) (m : Mem) :
    (s.setMem m).Ok page :=
  ⟨h.base_page, h.inert, h.fits, h.pos_le, h.committed_le, h.committed_page, h.opened⟩

/-- The memory below the position, by offset. -/
theorem Kept.img {s s' : ArenaState} (h : Kept s s') {y : Nat} (hy : y < s.pos) :
    s'.img y = s.img y := by
  unfold ArenaState.img
  rw [h.base]
  exact h.mem _ (by omega) (by omega)

/-- A node that the stores filled in at the address of `x`. -/
theorem FreshNode.of_filled {s s' : ArenaState} {m : Mem} {key : List Byte} {x : BitVec 32}
    (hlen : key.length < 2 ^ 32)
    (h : Filled m s'.mem (s'.base + x.toNat) (bytesProbe key).hfull key)
    (habove : s.pos ≤ x.toNat) (hbelow : x.toNat + HashMapNode.size + key.length = s'.pos)
    (haligned : 64 ∣ x.toNat) : FreshNode s s' key x := by
  have hkl : (HashMapNode.keyLen s'.img x).toNat = key.length := by
    rw [HashMapNode.keyLen, load32_img, ← Nat.add_assoc, h.keyLen, BitVec.toNat_ofNat,
      Nat.mod_eq_of_lt hlen]
  refine ⟨habove, hbelow, haligned, fun i => ?_, ?_, ?_, hkl, ?_⟩
  · rw [HashMapNode.child, load32_img, ← Nat.add_assoc, h.child]
  · rw [HashMapNode.hash, load64_img, ← Nat.add_assoc, h.hash]
  · rw [HashMapNode.value, load64_img, ← Nat.add_assoc, h.value]
  · rw [HashMapNode.keyBytes, hkl, slice_img, ← Nat.add_assoc, h.keyBytes]

section

variable {page : Nat} (hpage : IsPageSize page) (os : OsReply) {s : ArenaState} (hs : s.Ok page)
  (hbase : 64 ∣ s.base)

include hpage hs hbase in
/-- Creating a node fails and keeps what is below the position, or gives a fresh node. -/
theorem rgmHashMapNodeCreate_cases {key : List Byte} (hlen : key.length < 2 ^ 32) :
    (∃ s', rgmHashMapNodeCreate page os s (bytesProbe key).hfull key = (none, s') ∧ s'.Ok page ∧
        Kept s s' ∧ s.pos ≤ s'.pos) ∨
      ∃ x s', rgmHashMapNodeCreate page os s (bytesProbe key).hfull key = (some x, s') ∧
        s'.Ok page ∧ Kept s s' ∧ FreshNode s s' key x := by
  have hsize : HashMapNode.size = 40 := rfl
  have htotal : HashMapNode.size + key.length < 2 ^ 64 := by omega
  unfold rgmHashMapNodeCreate
  dsimp only
  rcases rgArenaAllocAligned_cases hpage os hs htotal (by decide : rgmCacheLine < 2 ^ 64) with
    hnull | ⟨p, s1, hok, hg⟩
  · rw [hnull]
    exact .inl ⟨s, rfl, hs, .refl s, Nat.le_refl _⟩
  rw [hok]
  have hkept := hg.kept hs
  have hb := hkept.base
  have habove := hg.above
  have hend := hg.pos
  have hlive := hg.live
  have halign : 64 ∣ p := hg.aligned
  have hp : p ≠ 0 := by omega
  simp only [hp, if_false]
  by_cases hbig : p - s1.base > 2 ^ 32 - 1
  · -- the offset does not fit: the allocation is rolled back up to its padding
    rw [if_pos hbig]
    rw [hg.pop]
    refine .inl ⟨_, rfl, hg.ok.rewound (Nat.sub_le ..), ⟨hkept.base, hkept.reserved, hkept.mem⟩, ?_⟩
    show s.pos ≤ s1.pos - (HashMapNode.size + key.length)
    omega
  · rw [if_neg hbig]
    have hx : (BitVec.ofNat 32 (p - s1.base)).toNat = p - s1.base := by
      rw [BitVec.toNat_ofNat, Nat.mod_eq_of_lt (by omega)]
    have hfill := rgmHashMapNodeFill_filled s1.mem p (bytesProbe key).hfull key
    refine .inr ⟨_, _, rfl, hg.ok.withMem _, ⟨hkept.base, hkept.reserved, fun y hy hy' => ?_⟩, ?_⟩
    · rw [← hkept.mem y hy hy']
      exact hfill.frame y (by unfold Out; omega)
    · have haddr : s1.base + (BitVec.ofNat 32 (p - s1.base)).toNat = p := by omega
      refine FreshNode.of_filled hlen (by rw [haddr]; exact hfill) ?_ ?_ ?_
      · omega
      · show _ = s1.pos
        omega
      · rw [hx]
        exact Nat.dvd_sub halign (hb ▸ hbase)

end

/-! ## Publishing -/

/-- The address of a link of a node, by offset, is written by a publish at it and by nothing else. -/
def LinkOut (seat : Option (BitVec 32 × Fin 4)) (y : Nat) : Prop :=
  ∀ a i, seat = some (a, i) → Out (a.toNat + 4 * i) 4 y

/-- What an upsert that adds a key does to the map and the arena. -/
structure Inserted (page : Nat) (map map' : HashMap) (s s' : ArenaState)
    (forest : Fin 4096 → Trie 4 (BitVec 32)) (key : List Byte) (x : BitVec 32) : Prop where
  ok : s'.Ok page
  base : s'.base = s.base
  reserved : s'.reserved = s.reserved
  fresh : FreshNode s s' key x
  published : Published map map' s s' forest (bytesProbe key) x
  frame : ∀ y, y < s.pos → LinkOut (seatOf forest (bytesProbe key)) y → s'.img y = s.img y

section

variable {page : Nat} {map : HashMap} {s s1 : ArenaState}
  {forest : Fin 4096 → Trie 4 (BitVec 32)} {key : List Byte} {x : BitVec 32}

/-- The nodes of a forest lie below the position, and no two of them share a byte. A node may be at
several places of the forest. -/
structure Stored (s : ArenaState) (forest : Fin 4096 → Trie 4 (BitVec 32)) : Prop where
  inside : ∀ a ∈ listAll forest, NodeInside s.img s.pos a
  apart : ∀ a ∈ listAll forest, ∀ b ∈ listAll forest, a ≠ b → NodesApart s.img a b

theorem HashMap.Rep.stored (h : map.Rep s forest) : Stored s forest :=
  ⟨h.inside, fun _ ha _ hb hab => h.apart_of_ne ha hb hab⟩

/-- The offset `x`, stored into the link at the seat of a key, changes nothing that is read of another
node. -/
def SeatClear (img : Mem) (forest : Fin 4096 → Trie 4 (BitVec 32)) (pr : Probe) (x : BitVec 32) :
    Prop :=
  ∀ n i, seatOf forest pr = some (n, i) → ∀ a ∈ listAll forest, a ≠ n →
    ∀ y, HashMapNode.Reads img a y → store32 img (n.toNat + 4 * i) x y = img y

theorem Stored.seatClear (h : Stored s forest) (pr : Probe) (x : BitVec 32) :
    SeatClear s.img forest pr x := by
  rintro n i hseat a ha hne y ⟨hy, hy', -⟩
  refine storeLE_out _ ?_
  have hi := i.isLt
  have hsize : 40 ≤ HashMapNode.extent s.img n := Nat.le_add_right ..
  have hapart := h.apart a ha n (mem_listAll.mpr ⟨_, seat_mem hseat⟩) hne
  unfold NodesApart Apart at hapart
  unfold Out
  omega

/-- A node below the old position is as it was. -/
theorem Kept.agree (hkept : Kept s s1) {a : BitVec 32} (hin : NodeInside s.img s.pos a) :
    NodeAgree s.img s1.img a := by
  have hhigh := hin.2
  refine .of_bytes fun y _ hy _ => hkept.img ?_
  unfold HashMapNode.extent at hy
  omega

theorem Kept.nodeAgree (h : map.Rep s forest) (hkept : Kept s s1) {a : BitVec 32}
    (ha : a ∈ listAll forest) : NodeAgree s.img s1.img a := hkept.agree (h.inside a ha)

/-- Storing a fresh node into the slot at the seat of its key publishes it. -/
theorem publish_inserted (hin : ∀ a ∈ listAll forest, NodeInside s.img s.pos a)
    (hclear : SeatClear s.img forest (bytesProbe key) x) (hok : s1.Ok page) (hkept : Kept s s1)
    (hx : FreshNode s s1 key x) :
    ∃ map' s', (Slot.ofSeat (.root (rgmHashMapRoot (bytesProbe key).hfull))
        (seatOf forest (bytesProbe key))).publish map s1 x = (map', s') ∧
      Inserted page map map' s s' forest key x := by
  cases hseat : seatOf forest (bytesProbe key) with
  | none =>
    -- the root of the key is empty: the index takes the offset, the arena stays
    refine ⟨_, _, rfl, hok, hkept.base, hkept.reserved, hx, ⟨rfl, fun j => ?_, fun a ha => ?_,
      fun a ha i => ?_⟩, fun y hy _ => hkept.img hy⟩
    · rw [hseat]
      simp only [true_and]
    · exact (hkept.agree (hin a ha)).toNodeBody
    · rw [hseat, if_neg (by simp)]
      exact (hkept.agree (hin a ha)).child i
  | some link =>
    obtain ⟨n, i⟩ := link
    have hn : n ∈ listAll forest := mem_listAll.mpr ⟨_, seat_mem hseat⟩
    have hi := i.isLt
    have hnin := (hin n hn).2
    have hsize : HashMapNode.size = 40 := rfl
    have himg : (s1.setMem (store32 s1.mem (s1.base + n.toNat + 4 * i) x)).img =
        store32 s1.img (n.toNat + 4 * i) x := by
      rw [Nat.add_assoc]
      exact img_store32 s1 _ x
    have hout : ∀ y, Out (n.toNat + 4 * i) 4 y →
        store32 s1.img (n.toNat + 4 * i) x y = s1.img y := fun y hy => storeLE_out _ hy
    have hother : ∀ a ∈ listAll forest, a ≠ n → ∀ y, HashMapNode.Reads s.img a y →
        store32 s1.img (n.toNat + 4 * i) x y = s1.img y := by
      intro a ha hne y hy
      have hbelow : y < s.pos := by
        have hend := (hin a ha).2
        have hread := hy.2.1
        unfold HashMapNode.extent at hread
        omega
      exact storeLE_same (hkept.img hbelow) (hclear n i hseat a ha hne y hy)
    refine ⟨map, _, rfl, hok.withMem _, hkept.base, hkept.reserved, ?_, ⟨rfl, fun j => ?_,
      fun a ha => ?_, fun a ha j => ?_⟩, fun y hy hlink => ?_⟩
    · have hagree : ∀ y, x.toNat ≤ y → store32 s1.img (n.toNat + 4 * i) x y = s1.img y := by
        have := hx.above
        exact fun y hy => hout y (by unfold Out; omega)
      have hkl : HashMapNode.keyLen (store32 s1.img (n.toNat + 4 * i) x) x =
          HashMapNode.keyLen s1.img x := load32_congr fun _ _ => hagree _ (by omega)
      refine ⟨hx.above, hx.below, hx.aligned, fun j => ?_, ?_, ?_, ?_, ?_⟩
      all_goals rw [himg]
      · rw [← hx.child j]
        exact load32_congr fun _ _ => hagree _ (by omega)
      · rw [← hx.hash]
        exact load64_congr fun _ _ => hagree _ (by omega)
      · rw [← hx.value]
        exact load64_congr fun _ _ => hagree _ (by omega)
      · rw [hkl, hx.keyLen]
      · rw [HashMapNode.keyBytes, hkl, ← hx.keyBytes]
        exact slice_congr fun _ _ => hagree _ (by omega)
    · rw [hseat, if_neg (by simp)]
    · rw [himg]
      have hold := (hkept.agree (hin a ha)).toNodeBody
      have hnew : NodeBody s1.img (store32 s1.img (n.toNat + 4 * i) x) a := by
        refine .of_fields fun y hy hy' _ hpad => ?_
        by_cases hne : a = n
        · subst hne
          exact hout y (by unfold Out; omega)
        · rw [hold.extent] at hy'
          exact hother a ha hne y ⟨by omega, hy', hpad⟩
      exact ⟨hnew.hash.trans hold.hash, hnew.keyLen.trans hold.keyLen,
        hnew.keyBytes.trans hold.keyBytes⟩
    · rw [himg, hseat]
      have hj := j.isLt
      have hold := (hkept.agree (hin a ha)).child j
      by_cases hlink : n = a ∧ i = j
      · obtain ⟨rfl, rfl⟩ := hlink
        rw [if_pos rfl]
        exact load32_store32_self ..
      · rw [if_neg (by simpa using hlink), ← hold]
        refine load32_congr fun k hk => ?_
        by_cases hne : a = n
        · have hij : (i : Nat) ≠ j := fun hv => hlink ⟨hne.symm, Fin.ext hv⟩
          subst hne
          exact hout _ (by unfold Out; omega)
        · exact hother a ha hne _
            ⟨by omega, by unfold HashMapNode.extent; omega, by unfold Out; omega⟩
    · rw [himg, hout y (hlink n i hseat)]
      exact hkept.img hy

/-- A write to the value of a node leaves all nodes as they were, but for that value. -/
theorem HashMap.Rep.store_agree (h : map.Rep s forest) {a : BitVec 32} (ha : a ∈ listAll forest)
    (v : BitVec 64) :
    ∀ b ∈ listAll forest, NodeAgree s.img (s.setMem (store64 s.mem (s.valuePtr a) v)).img b := by
  intro b hb
  by_cases hab : a = b
  · subst hab
    exact store_value_agree s a v
  · exact (store_value_apart s v (h.apart_of_ne ha hb hab)).1

end

/-! ## Put, Get and Init -/

/-- The three outcomes of an upsert. -/
inductive PutOutcome (page : Nat) (map : HashMap) (s : ArenaState)
    (forest : Fin 4096 → Trie 4 (BitVec 32)) (key : List Byte) : Nat × HashMap × ArenaState → Prop
  | hit {a : BitVec 32} (found : nodeOf s.img forest key = some a) :
      PutOutcome page map s forest key (s.valuePtr a, map, s)
  | refused {s' : ArenaState} (absent : nodeOf s.img forest key = none) (ok : s'.Ok page)
      (kept : Kept s s') (pos : s.pos ≤ s'.pos) : PutOutcome page map s forest key (0, map, s')
  | inserted {x : BitVec 32} {map' : HashMap} {s' : ArenaState}
      (absent : nodeOf s.img forest key = none) (ins : Inserted page map map' s s' forest key x) :
      PutOutcome page map s forest key (s'.valuePtr x, map', s')

section

variable {page : Nat} (hpage : IsPageSize page) (os : OsReply) {map : HashMap} {s : ArenaState}
  (hs : s.Ok page) (hbase : 64 ∣ s.base) {forest : Fin 4096 → Trie 4 (BitVec 32)}
  (h : map.Rep s forest) {key : List Byte} (hlen : key.length < 2 ^ 32)

theorem ArenaState.Ok.pos_le_word (hs : s.Ok page) : s.pos ≤ 2 ^ 64 := by
  have := hs.fits
  have := hs.pos_le
  have := hs.committed_le
  omega

include hs h hlen in
theorem rgmHashMapGet_eq : rgmHashMapGet map s (bytesProbe key) =
    .ok (match nodeOf s.img forest key with
      | some a => s.valuePtr a
      | none => 0) := by
  rw [rgmHashMapGet, h.lookup_eq hs.pos_le_word hlen]
  cases nodeOf s.img forest key <;> rfl

include hpage hs hbase h hlen in
theorem rgmHashMapPut_cases : ∃ answer, rgmHashMapPut page os map s (bytesProbe key) key =
    .ok answer ∧ PutOutcome page map s forest key answer := by
  rw [rgmHashMapPut, h.lookup_eq hs.pos_le_word hlen]
  cases hfound : nodeOf s.img forest key with
  | some a => exact ⟨_, rfl, .hit hfound⟩
  | none =>
    dsimp only
    rcases rgmHashMapNodeCreate_cases hpage os hs hbase hlen with
      ⟨s', hnone, hok, hkept, hpos⟩ | ⟨x, s', hsome, hok, hkept, hx⟩
    · rw [hnone]
      exact ⟨_, rfl, .refused hfound hok hkept hpos⟩
    · rw [hsome]
      obtain ⟨map', s'', hpub, hins⟩ :=
        publish_inserted h.inside (h.stored.seatClear _ _) hok hkept hx
      have hseat : (forest (rgmHashMapRoot (bytesProbe key).hfull)).seat (bytesProbe key).digits =
          seatOf forest (bytesProbe key) := rfl
      dsimp only
      rw [hseat, hpub]
      exact ⟨_, rfl, .inserted hfound hins⟩

end

/-! ## What an insertion leaves alone -/

/-- The link at a seat lies in the first 16 bytes of a node of the map. -/
theorem linkOut_of_apart {img : Mem} {forest : Fin 4096 → Trie 4 (BitVec 32)} {pr : Probe}
    {y : Nat} (h : ∀ a ∈ listAll forest, Out a.toNat (HashMapNode.extent img a) y) :
    LinkOut (seatOf forest pr) y := by
  intro a i hseat
  have hout := h a (mem_listAll.mpr ⟨_, seat_mem hseat⟩)
  have hi := i.isLt
  have hsize : 40 ≤ HashMapNode.extent img a := Nat.le_add_right ..
  unfold Out at *
  omega

namespace Inserted

variable {page : Nat} {map map' : HashMap} {s s' : ArenaState}
  {forest : Fin 4096 → Trie 4 (BitVec 32)} {key : List Byte} {x : BitVec 32}

theorem pos_le (h : Inserted page map map' s s' forest key x) : s.pos ≤ s'.pos := by
  have := h.fresh.above
  have := h.fresh.below
  omega

/-- Bytes apart from all nodes of the map are as they were. -/
theorem frame_apart (h : Inserted page map map' s s' forest key x) {y : Nat} (hy : y < s.pos)
    (hout : ∀ a ∈ listAll forest, Out a.toNat (HashMapNode.extent s.img a) y) :
    s'.img y = s.img y :=
  h.frame y hy (linkOut_of_apart hout)

/-- The values of the nodes that were there are as they were. -/
theorem value_eq (h : Inserted page map map' s s' forest key x) (hstored : Stored s forest)
    {a : BitVec 32} (ha : a ∈ listAll forest) :
    HashMapNode.value s'.img a = HashMapNode.value s.img a := by
  have hin := (hstored.inside a ha).2
  have hsize : HashMapNode.size = 40 := rfl
  refine load64_congr fun k hk => h.frame _ (by omega) fun n i hseat => ?_
  have hi := i.isLt
  have hn : n ∈ listAll forest := mem_listAll.mpr ⟨_, seat_mem hseat⟩
  by_cases hna : n = a
  · subst hna
    unfold Out
    omega
  · have hapart := hstored.apart n hn a ha hna
    unfold NodesApart Apart HashMapNode.extent at hapart
    unfold Out
    omega

end Inserted

/-! ## Every node is found under its key -/

/-- The walk for the key of a node ends at it. -/
def Seated (img : Mem) (forest : Fin 4096 → Trie 4 (BitVec 32)) : Prop :=
  ∀ a ∈ listAll forest, nodeOf img forest (HashMapNode.keyBytes img a) = some a

theorem Seated.nil (img : Mem) : Seated img fun _ => nil := by
  intro a ha
  obtain ⟨i, hi⟩ := mem_listAll.mp ha
  cases hi

theorem Seated.congr {img img' : Mem} {forest : Fin 4096 → Trie 4 (BitVec 32)}
    (h : Seated img forest) (hbody : ∀ a ∈ listAll forest, NodeBody img img' a) :
    Seated img' forest := by
  intro a ha
  rw [(hbody a ha).keyBytes, nodeOf_congr hbody]
  exact h a ha

theorem Seated.inserted {page : Nat} {map map' : HashMap} {s s' : ArenaState}
    {forest : Fin 4096 → Trie 4 (BitVec 32)} {key : List Byte} {x : BitVec 32}
    (h : Seated s.img forest) (habsent : nodeOf s.img forest key = none)
    (hins : Inserted page map map' s s' forest key x) :
    Seated s'.img (forestAdd forest (bytesProbe key) x) := by
  intro a ha
  rw [HashMap.Rep.nodeOf_insert hins.fresh hins.published habsent]
  rcases mem_forestAdd.mp ha with rfl | hold
  · rw [hins.fresh.keyBytes, if_pos rfl]
  · rw [(hins.published.body a hold).keyBytes, if_neg]
    · exact h a hold
    · intro hkey
      have hfound := h a hold
      rw [hkey, habsent] at hfound
      cases hfound

/-! ## Init -/

theorem listAll_nil : listAll (fun _ : Fin 4096 => (nil : Trie 4 (BitVec 32))) = [] := by
  simp [listAll]

/-- An empty index over an arena whose first bytes are taken. -/
theorem HashMap.Rep.empty {s : ArenaState} (hpos : 0 < s.pos) :
    HashMap.Rep ⟨true, fun _ => 0⟩ s fun _ => nil := by
  refine ⟨rfl, hpos, fun _ => rfl, ?_, ?_, ?_, ?_⟩
  all_goals simp [listAll_nil]

/-- `Init` on a live arena refuses, or gives an empty map; what is below the position stays. -/
theorem rgHashMapInit_cases {page : Nat} (hpage : IsPageSize page) (os : OsReply) (map : HashMap)
    {s : ArenaState} (hs : s.Ok page) (hlive : 0 < s.base) :
    (∃ e map', rgHashMapInit page os map s = (e, map', s) ∧ e ≠ .ok) ∨
      ∃ s', rgHashMapInit page os map s = (.ok, ⟨true, fun _ => 0⟩, s') ∧ s'.Ok page ∧
        Kept s s' ∧ s.pos ≤ s'.pos ∧ 0 < s'.pos := by
  have hl : rgmArenaIsLive s.toArena = true := decide_eq_true (Nat.ne_of_gt hlive)
  have hused : rgArenaUsed s.toArena = s.pos := if_pos hl
  unfold rgHashMapInit
  rw [if_neg (Nat.ne_of_gt hlive), hused]
  dsimp only
  by_cases hpos : s.pos = 0
  · rw [if_pos hpos]
    rcases rgArenaAllocAligned_cases hpage os hs (by decide : rgmCacheLine < 2 ^ 64)
      (by decide : rgmCacheLine < 2 ^ 64) with hnull | ⟨p, s1, hok, hg⟩
    · rw [hnull]
      exact .inl ⟨_, _, rfl, by decide⟩
    · rw [hok]
      have hkept := hg.kept hs
      have habove := hg.above
      have hend := hg.pos
      have hbase := hkept.base
      have hp : p ≠ 0 := by omega
      simp only [hp, if_false]
      refine .inr ⟨_, rfl, hg.ok.withMem _, ⟨hkept.base, hkept.reserved, fun y hy hy' => ?_⟩,
        ?_, ?_⟩
      · omega
      · show s.pos ≤ s1.pos
        omega
      · have : rgmCacheLine = 64 := rfl
        show 0 < s1.pos
        omega
  · rw [if_neg hpos]
    exact .inr ⟨s, rfl, hs, .refl s, Nat.le_refl _, Nat.pos_of_ne_zero hpos⟩

end RgMemory
