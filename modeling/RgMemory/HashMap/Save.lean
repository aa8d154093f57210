import RgMemory.HashMap.Placed
import RgMemory.HashMap.Validate

/-!
# What a save leaves behind

`HashMap.Built` is a map in a session: the relation of `HashMap.Rep`, links that lead from lower to
higher offsets, and an index region that is apart from the nodes if the header speaks of one. `Init`
on a fresh arena establishes it, `Put` and writes to values keep it.

A successful save keeps it too and completes the header (`Built.saved`), and then the image is
one that `rgHashMapOpen` accepts, wherever its bytes are mapped (`Saved.openable`). The depth of the
tries is the one condition that a save does not establish.
-/

namespace RgMemory

open Bytes Trie

/-! ## Writing the header and the index -/

theorem writeHeader_shift (m : Mem) (b highWater indexOffset : Nat) :
    (fun y => rgmHashMapWriteHeader m b highWater indexOffset (b + y)) =
      rgmHashMapWriteHeader (fun y => m (b + y)) 0 highWater indexOffset := by
  have hfirst : (fun y => storeLE 8 m b rgmHashMapMagic.toNat (b + y)) =
      storeLE 8 (fun y => m (b + y)) 0 rgmHashMapMagic.toNat := storeLE_shift 8 m b 0 _
  unfold rgmHashMapWriteHeader
  simp only [store32, store64, Nat.zero_add]
  rw [storeLE_shift, storeLE_shift, storeLE_shift, storeLE_shift, hfirst]

/-- The stores of the header, read back. -/
structure HeaderWritten (m m' : Mem) (highWater indexOffset : Nat) : Prop where
  magic : PersistHeader.magic m' = rgmHashMapMagic
  version : PersistHeader.version m' = rgmHashMapPersistVersion
  topBits : PersistHeader.topBits m' = rgmHashMapIndexTopBits
  highWater : PersistHeader.highWater m' = BitVec.ofNat 64 highWater
  indexOffset : PersistHeader.indexOffset m' = BitVec.ofNat 64 indexOffset
  frame : ∀ x, PersistHeader.size ≤ x → m' x = m x

theorem rgmHashMapWriteHeader_written (m : Mem) (highWater indexOffset : Nat) :
    HeaderWritten m (rgmHashMapWriteHeader m 0 highWater indexOffset) highWater indexOffset := by
  unfold rgmHashMapWriteHeader
  constructor
  · simp (disch := (unfold Apart; omega)) only [PersistHeader.magic, load64_store64_apart,
      load64_store32_apart, load64_store64_self]
  · simp (disch := (unfold Apart; omega)) only [PersistHeader.version, load32_store64_apart,
      load32_store32_apart, load32_store32_self, Nat.zero_add]
  · simp (disch := (unfold Apart; omega)) only [PersistHeader.topBits, load32_store64_apart,
      load32_store32_self, Nat.zero_add]
  · simp (disch := (unfold Apart; omega)) only [PersistHeader.highWater, load64_store64_apart,
      load64_store64_self, Nat.zero_add]
  · simp only [PersistHeader.indexOffset, load64_store64_self, Nat.zero_add]
  · intro x hx
    have hsize : PersistHeader.size = 32 := rfl
    simp only [store32, store64]
    simp (disch := (unfold Out; omega)) only [storeLE_out]

/-- The bytes of the index spell its entries. -/
theorem load32_indexPtr (map : HashMap) (i : Fin 4096) :
    load32 map.indexPtr (4 * i) = map.top i := by
  rw [← load32_store32_self (fun _ => 0) 0 (map.top i)]
  refine load32_congr fun k hk => ?_
  have hdiv : (4 * (i : Nat) + k) / 4 = i := by omega
  have hmod : (4 * (i : Nat) + k) % 4 = 0 + k := by omega
  rw [HashMap.indexPtr, hdiv, hmod, Fin.ofNat_val_eq_self]

theorem indexCopy_copy (m : Mem) (off : Nat) (map : HashMap) :
    indexCopy (copy m off map.indexPtr rgmHashMapIndexBytes) off = map.top := by
  funext i
  have hi := i.isLt
  have hbytes : rgmHashMapIndexBytes = 16384 := rfl
  rw [indexCopy, ← load32_indexPtr map i]
  refine load32_congr fun k hk => ?_
  rw [Nat.add_assoc]
  exact copy_in _ _ (by omega)

/-! ## Maps in a session -/

/-- The index region that the header speaks of. -/
structure IndexRegion (img : Mem) (pos : Nat) (forest : Fin 4096 → Trie 4 (BitVec 32)) : Prop where
  version : PersistHeader.version img = rgmHashMapPersistVersion
  topBits : PersistHeader.topBits img = rgmHashMapIndexTopBits
  above : rgmCacheLine ≤ (PersistHeader.indexOffset img).toNat
  word : (PersistHeader.indexOffset img).toNat ≤ 2 ^ 32 - 1
  aligned : 4 ∣ (PersistHeader.indexOffset img).toNat
  covered : (PersistHeader.indexOffset img).toNat + rgmHashMapIndexBytes ≤
    (PersistHeader.highWater img).toNat
  below : (PersistHeader.highWater img).toNat ≤ pos
  apart : ∀ a ∈ listAll forest, Apart (PersistHeader.indexOffset img).toNat rgmHashMapIndexBytes
    a.toNat (HashMapNode.extent img a)

/-- A map that `Put` built on an arena of its own. -/
structure HashMap.Built (page : Nat) (map : HashMap) (s : ArenaState)
    (forest : Fin 4096 → Trie 4 (BitVec 32)) : Prop where
  ok : s.Ok page
  live : 0 < s.base
  aligned : 64 ∣ s.base
  sentinel : rgmCacheLine ≤ s.pos
  rep : map.Rep s forest
  rising : ∀ i, Descends Rises 0 (forest i)
  region : PersistHeader.magic s.img = rgmHashMapMagic → IndexRegion s.img s.pos forest

/-- Two images have the same header. -/
structure SameHeader (img img' : Mem) : Prop where
  magic : PersistHeader.magic img' = PersistHeader.magic img
  version : PersistHeader.version img' = PersistHeader.version img
  topBits : PersistHeader.topBits img' = PersistHeader.topBits img
  highWater : PersistHeader.highWater img' = PersistHeader.highWater img
  indexOffset : PersistHeader.indexOffset img' = PersistHeader.indexOffset img

/-- Images that agree on the first cache line do. -/
theorem SameHeader.of_line {img img' : Mem} (hline : ∀ y, y < rgmCacheLine → img' y = img y) :
    SameHeader img img' := by
  have hsize : rgmCacheLine = 64 := rfl
  constructor
  · exact load64_congr fun k hk => hline _ (by omega)
  · exact load32_congr fun k hk => hline _ (by omega)
  · exact load32_congr fun k hk => hline _ (by omega)
  · exact load64_congr fun k hk => hline _ (by omega)
  · exact load64_congr fun k hk => hline _ (by omega)

theorem IndexRegion.congr {img img' : Mem} {pos pos' : Nat}
    {forest forest' : Fin 4096 → Trie 4 (BitVec 32)} (h : IndexRegion img pos forest)
    (hline : ∀ y, y < rgmCacheLine → img' y = img y) (hpos : pos ≤ pos')
    (hapart : ∀ a ∈ listAll forest', Apart (PersistHeader.indexOffset img).toNat
      rgmHashMapIndexBytes a.toNat (HashMapNode.extent img' a)) : IndexRegion img' pos' forest' := by
  have hsame := SameHeader.of_line hline
  refine ⟨hsame.version.trans h.version, hsame.topBits.trans h.topBits, ?_, ?_, ?_, ?_, ?_, ?_⟩
  all_goals try rw [hsame.indexOffset]
  all_goals try rw [hsame.highWater]
  · exact h.above
  · exact h.word
  · exact h.aligned
  · exact h.covered
  · exact Nat.le_trans h.below hpos
  · exact hapart

namespace HashMap.Built

variable {page : Nat} {map : HashMap} {s : ArenaState} {forest : Fin 4096 → Trie 4 (BitVec 32)}

theorem placed (h : map.Built page s forest) : map.Placed page s forest :=
  ⟨h.ok, h.live, h.aligned, h.rep, h.rising⟩

/-- The header apart, a built map is a map that is placed. -/
theorem of_placed (h : map.Placed page s forest) (hsent : rgmCacheLine ≤ s.pos)
    (hregion : PersistHeader.magic s.img = rgmHashMapMagic → IndexRegion s.img s.pos forest) :
    map.Built page s forest :=
  ⟨h.ok, h.live, h.aligned, hsent, h.rep, h.rising, hregion⟩

/-- A change that spares the first cache line and the nodes keeps a map built. -/
theorem congr (h : map.Built page s forest) {s' : ArenaState} (hok : s'.Ok page)
    (hlive : 0 < s'.base) (haligned : 64 ∣ s'.base) (hpos : s.pos ≤ s'.pos)
    (hline : ∀ y, y < rgmCacheLine → s'.img y = s.img y)
    (hagree : ∀ a ∈ listAll forest, NodeAgree s.img s'.img a) : map.Built page s' forest := by
  refine .of_placed (h.placed.congr hok hlive haligned hpos hagree)
    (Nat.le_trans h.sentinel hpos) fun hmagic => ?_
  have hregion := h.region ((SameHeader.of_line hline).magic ▸ hmagic)
  refine hregion.congr hline hpos fun a ha => ?_
  rw [(hagree a ha).extent]
  exact hregion.apart a ha

/-- What is below the position of a refused upsert stays. -/
theorem kept (h : map.Built page s forest) {s' : ArenaState} (hok : s'.Ok page) (hkept : Kept s s')
    (hpos : s.pos ≤ s'.pos) : map.Built page s' forest := by
  have hbase := hkept.base
  have hsent := h.sentinel
  refine h.congr hok (hbase ▸ h.live) (hbase ▸ h.aligned) hpos (fun y hy => hkept.img (by omega))
    fun a ha => hkept.nodeAgree h.rep ha

/-- An upsert that adds a key. -/
theorem inserted (h : map.Built page s forest) {map' : HashMap} {s' : ArenaState}
    {key : List Byte} {x : BitVec 32} (hins : Inserted page map map' s s' forest key x) :
    map'.Built page s' (forestAdd forest (bytesProbe key) x) := by
  have hsent := h.sentinel
  have habove := hins.fresh.above
  have hsize : rgmCacheLine = 64 := rfl
  have hline : ∀ y, y < rgmCacheLine → s'.img y = s.img y := fun y hy =>
    hins.frame_apart (by omega) fun a ha => .inl (Nat.lt_of_lt_of_le hy (h.rep.inside a ha).1)
  refine .of_placed (h.placed.inserted hins) (Nat.le_trans hsent hins.pos_le) fun hmagic => ?_
  have hregion := h.region ((SameHeader.of_line hline).magic ▸ hmagic)
  have hcovered := hregion.covered
  have hbelow := hregion.below
  refine hregion.congr hline hins.pos_le fun a ha => ?_
  rcases mem_forestAdd.mp ha with rfl | hold
  · exact .inl (by omega)
  · rw [(hins.published.body a hold).extent]
    exact hregion.apart a hold

end HashMap.Built

/-! ## Save -/

/-- What a successful save leaves behind. -/
structure Saved (page : Nat) (map : HashMap) (s s' : ArenaState)
    (forest : Fin 4096 → Trie 4 (BitVec 32)) : Prop where
  built : map.Built page s' forest
  base : s'.base = s.base
  reserved : s'.reserved = s.reserved
  pos_le : s.pos ≤ s'.pos
  magic : PersistHeader.magic s'.img = rgmHashMapMagic
  highWater : (PersistHeader.highWater s'.img).toNat = s'.pos
  index : savedIndex s'.img = map.top
  agree : ∀ a ∈ listAll forest, NodeAgree s.img s'.img a
  value : ∀ a ∈ listAll forest, HashMapNode.value s'.img a = HashMapNode.value s.img a

/-- The image after a save: the header, then the copy of the index, then what was there. -/
structure SaveWritten (map : HashMap) (s s' : ArenaState) (off : Nat) : Prop where
  memory : ∃ m, s' = s.setMem m
  magic : PersistHeader.magic s'.img = rgmHashMapMagic
  version : PersistHeader.version s'.img = rgmHashMapPersistVersion
  topBits : PersistHeader.topBits s'.img = rgmHashMapIndexTopBits
  highWater : (PersistHeader.highWater s'.img).toNat = s.pos
  indexOffset : (PersistHeader.indexOffset s'.img).toNat = off
  index : savedIndex s'.img = map.top
  bytes : ∀ y, PersistHeader.size ≤ y →
    s'.img y = copy s.img off map.indexPtr rgmHashMapIndexBytes y

theorem saveWritten (map : HashMap) {s : ArenaState} {off : Nat} (hpos : s.pos < 2 ^ 64)
    (habove : rgmCacheLine ≤ off) (hword : off ≤ 2 ^ 32 - 1) :
    SaveWritten map s (s.setMem (rgmHashMapWriteHeader
      (copy s.mem (s.base + off) map.indexPtr rgmHashMapIndexBytes) s.base s.pos off)) off := by
  obtain ⟨m', hm'⟩ : ∃ m', m' = rgmHashMapWriteHeader
    (copy s.mem (s.base + off) map.indexPtr rgmHashMapIndexBytes) s.base s.pos off := ⟨_, rfl⟩
  have himg : (s.setMem m').img = rgmHashMapWriteHeader
      (copy s.img off map.indexPtr rgmHashMapIndexBytes) 0 s.pos off := by
    have hshift := writeHeader_shift
      (copy s.mem (s.base + off) map.indexPtr rgmHashMapIndexBytes) s.base s.pos off
    rw [copy_shift] at hshift
    rw [hm']
    exact hshift
  rw [← hm']
  have hw := rgmHashMapWriteHeader_written
    (copy s.img off map.indexPtr rgmHashMapIndexBytes) s.pos off
  rw [← himg] at hw
  have hoff : (PersistHeader.indexOffset (s.setMem m').img).toNat = off := by
    rw [hw.indexOffset, BitVec.toNat_ofNat, Nat.mod_eq_of_lt (by omega)]
  refine ⟨⟨m', rfl⟩, hw.magic, hw.version, hw.topBits, ?_, hoff, ?_, hw.frame⟩
  · rw [hw.highWater, BitVec.toNat_ofNat, Nat.mod_eq_of_lt hpos]
  · have hline : rgmCacheLine = 64 := rfl
    have hsz : PersistHeader.size = 32 := rfl
    funext i
    rw [savedIndex, hoff, ← congrFun (indexCopy_copy s.img off map) i]
    exact load32_congr fun k _ => hw.frame _ (by omega)

section

variable {page : Nat} (hpage : IsPageSize page) (os : OsReply) {map : HashMap} {s : ArenaState}
  {forest : Fin 4096 → Trie 4 (BitVec 32)}

/-- The index region of a save: above the first cache line, apart from the nodes. -/
structure RegionFound (page : Nat) (s s' : ArenaState)
    (forest : Fin 4096 → Trie 4 (BitVec 32)) (off : Nat) : Prop where
  ok : s'.Ok page
  kept : Kept s s'
  pos_le : s.pos ≤ s'.pos
  above : rgmCacheLine ≤ off
  word : off ≤ 2 ^ 32 - 1
  aligned : 4 ∣ off
  covered : off + rgmHashMapIndexBytes ≤ s'.pos
  apart : ∀ a ∈ listAll forest, Apart off rgmHashMapIndexBytes a.toNat
    (HashMapNode.extent s.img a)

include hpage in
/-- A fresh index region, when that of an earlier save cannot be reused. -/
theorem rgmHashMapIndexRegion_fresh (h : map.Placed page s forest) (hsent : rgmCacheLine ≤ s.pos)
    (hreuse : rgmHashMapIndexReusable s.img (rgArenaCapacity s.toArena) = false) :
    (∃ s', rgmHashMapIndexRegion page os s = (none, s')) ∨
      ∃ off s', rgmHashMapIndexRegion page os s = (some off, s') ∧
        RegionFound page s s' forest off := by
  unfold rgmHashMapIndexRegion
  rw [hreuse, if_neg (by decide)]
  rcases rgArenaAllocAligned_cases hpage os h.ok (by decide : rgmHashMapIndexBytes < 2 ^ 64)
    (by decide : 16 < 2 ^ 64) with hnull | ⟨p, s', hok, hg⟩
  · rw [hnull]
    exact .inl ⟨s, rfl⟩
  · rw [hok]
    have hkept := hg.kept h.ok
    have hbase := hkept.base
    have habove := hg.above
    have hend := hg.pos
    have hlive := hg.live
    have hp : p ≠ 0 := by omega
    have halign : 16 ∣ p := hg.aligned
    have hbase16 : 16 ∣ s'.base := hbase ▸ Nat.dvd_trans (by decide) h.aligned
    simp only [hp, if_false]
    by_cases hbig : p - s'.base > 2 ^ 32 - 1
    · rw [if_pos hbig]
      exact .inl ⟨_, rfl⟩
    · rw [if_neg hbig]
      refine .inr ⟨_, s', rfl, hg.ok, hkept, by omega, by omega, by omega, ?_, by omega,
        fun a ha => ?_⟩
      · exact Nat.dvd_trans (by decide) (Nat.dvd_sub halign hbase16)
      · have hin := (h.rep.inside a ha).2
        refine .inr ?_
        unfold HashMapNode.extent
        omega

/-- The region of an earlier save, when its offset passes the test. -/
theorem rgmHashMapIndexRegion_reused (page : Nat) (os : OsReply) {s : ArenaState}
    (hreuse : rgmHashMapIndexReusable s.img (rgArenaCapacity s.toArena) = true) :
    rgmHashMapIndexRegion page os s = (some (PersistHeader.indexOffset s.img).toNat, s) ∧
      PersistHeader.magic s.img = rgmHashMapMagic ∧
      rgmCacheLine ≤ (PersistHeader.indexOffset s.img).toNat ∧
      (PersistHeader.indexOffset s.img).toNat ≤ 2 ^ 32 - 1 := by
  refine ⟨?_, ?_⟩
  · rw [rgmHashMapIndexRegion, hreuse]
    rfl
  · unfold rgmHashMapIndexReusable at hreuse
    simp only [Bool.and_eq_true, decide_eq_true_eq] at hreuse
    obtain ⟨⟨⟨⟨⟨⟨hmagic, -⟩, -⟩, habove⟩, hword⟩, -⟩, -⟩ := hreuse
    exact ⟨hmagic, habove, hword⟩

include hpage in
theorem rgmHashMapIndexRegion_cases (h : map.Built page s forest) :
    (∃ s', rgmHashMapIndexRegion page os s = (none, s')) ∨
      ∃ off s', rgmHashMapIndexRegion page os s = (some off, s') ∧
        RegionFound page s s' forest off := by
  cases hreuse : rgmHashMapIndexReusable s.img (rgArenaCapacity s.toArena) with
  | true =>
    obtain ⟨hreused, hmagic, -, -⟩ := rgmHashMapIndexRegion_reused page os hreuse
    have hregion := h.region hmagic
    exact .inr ⟨_, s, hreused, h.ok, .refl s, Nat.le_refl _, hregion.above, hregion.word,
      hregion.aligned, Nat.le_trans hregion.covered hregion.below, hregion.apart⟩
  | false => exact rgmHashMapIndexRegion_fresh hpage os h.placed h.sentinel hreuse

/-- A save writes to the region that it found, and is refused when there is none. -/
theorem rgHashMapSave_eq (hlive : rgmMapIsLive map s.toArena = true) (hsent : rgmCacheLine ≤ s.pos) :
    (∀ s', rgmHashMapIndexRegion page os s = (none, s') →
      rgHashMapSave page os map s = (.errNoMemory, s')) ∧
    ∀ off s1, rgmHashMapIndexRegion page os s = (some off, s1) → s1.Ok page → Kept s s1 →
      rgmCacheLine ≤ off → off ≤ 2 ^ 32 - 1 →
      ∃ s', rgHashMapSave page os map s = (.ok, s') ∧ SaveWritten map s1 s' off := by
  have hne : s.base ≠ 0 := of_decide_eq_true (Bool.and_eq_true _ _ ▸ hlive).2
  have hused : rgArenaUsed s.toArena = s.pos := if_pos (decide_eq_true hne)
  rw [rgHashMapSave, hlive, hused, if_neg (by decide), if_neg (Nat.not_lt.mpr hsent)]
  constructor
  · intro s' hnone
    rw [hnone]
  · intro off s1 hsome hok hkept habove hword
    have hlive1 : s1.base ≠ 0 := hkept.base ▸ hne
    have hused1 : rgArenaUsed s1.toArena = s1.pos := if_pos (decide_eq_true hlive1)
    have hpos1 : s1.pos < 2 ^ 64 := by
      have := hok.fits
      have := hok.pos_le
      have := hok.committed_le
      omega
    rw [hsome]
    dsimp only
    rw [hused1]
    exact ⟨_, rfl, saveWritten map hpos1 habove hword⟩

/-- Outside the index region a save changes the header only. -/
theorem SaveWritten.img_out {s1 s' : ArenaState} {off y : Nat} (h : SaveWritten map s1 s' off)
    (hy : PersistHeader.size ≤ y) (hout : Out off rgmHashMapIndexBytes y) :
    s'.img y = s1.img y := by
  rw [h.bytes y hy, copy_out _ _ hout]

include hpage in
/-- A save is refused, or completes the checkpoint. -/
theorem HashMap.Built.save_cases (h : map.Built page s forest) :
    (∃ e s', rgHashMapSave page os map s = (e, s') ∧ e ≠ .ok) ∨
      ∃ s', rgHashMapSave page os map s = (.ok, s') ∧ Saved page map s s' forest := by
  obtain ⟨hnomem, hwrites⟩ := rgHashMapSave_eq os h.placed.isLive h.sentinel
  rcases rgmHashMapIndexRegion_cases hpage os h with ⟨s', hnone⟩ | ⟨off, s1, hsome, hr⟩
  · exact .inl ⟨_, _, hnomem s' hnone, by decide⟩
  obtain ⟨s', hsave, hw⟩ := hwrites off s1 hsome hr.ok hr.kept hr.above hr.word
  have hbase := hr.kept.base
  have hline : rgmCacheLine = 64 := rfl
  have hsz : PersistHeader.size = 32 := rfl
  have hnode : ∀ a ∈ listAll forest, ∀ y, a.toNat ≤ y →
      y < a.toNat + HashMapNode.extent s.img a → s'.img y = s.img y := by
    intro a ha y hy hy'
    have hin := h.rep.inside a ha
    have hlow := hin.1
    have hhigh := hin.2
    have hapart := hr.apart a ha
    unfold Apart at hapart
    rw [hw.img_out (by omega) (by unfold Out; omega)]
    refine hr.kept.img ?_
    unfold HashMapNode.extent at hy'
    omega
  have hagree : ∀ a ∈ listAll forest, NodeAgree s.img s'.img a := fun a ha =>
    .of_bytes fun y hy hy' _ => hnode a ha y hy hy'
  have hoff := hw.indexOffset
  have hwater := hw.highWater
  obtain ⟨m, rfl⟩ := hw.memory
  refine .inr ⟨_, hsave, ?_, hbase, hr.kept.reserved, hr.pos_le, hw.magic, hwater, hw.index,
    hagree, fun a ha => load64_congr fun k hk => ?_⟩
  · refine .of_placed (h.placed.congr (hr.ok.withMem m) (hbase ▸ h.live) (hbase ▸ h.aligned)
      hr.pos_le hagree) (Nat.le_trans h.sentinel hr.pos_le) fun _ => ?_
    refine ⟨hw.version, hw.topBits, ?_, ?_, ?_, ?_, ?_, fun a ha => ?_⟩
    all_goals try rw [hoff]
    all_goals try rw [hwater]
    · exact hr.above
    · exact hr.word
    · exact hr.aligned
    · exact hr.covered
    · rw [(hagree a ha).extent]
      exact hr.apart a ha
  · have hsize : 40 ≤ HashMapNode.extent s.img a := Nat.le_add_right ..
    exact hnode a ha _ (by omega) (by omega)

end

/-- What a successful save leaves. -/
theorem HashMap.Built.saved {page : Nat} (hpage : IsPageSize page) {os : OsReply} {map : HashMap}
    {s s' : ArenaState} {forest : Fin 4096 → Trie 4 (BitVec 32)} (h : map.Built page s forest)
    (hsave : rgHashMapSave page os map s = (.ok, s')) : Saved page map s s' forest := by
  rcases h.save_cases hpage os with ⟨e, s1, heq, he⟩ | ⟨s1, heq, hsaved⟩
  · exact absurd (congrArg Prod.fst (heq.symm.trans hsave)) he
  · cases hsave.symm.trans heq
    exact hsaved

/-- A save leaves every node where its key was put. -/
theorem Saved.seated {page : Nat} {map : HashMap} {s s' : ArenaState}
    {forest : Fin 4096 → Trie 4 (BitVec 32)} (h : Saved page map s s' forest)
    (hseated : Seated s.img forest) : Seated s'.img forest :=
  hseated.congr fun a ha => (h.agree a ha).toNodeBody

/-! ## Opening what was saved -/

/-- The trie of a map is nowhere deeper than `n` nodes. -/
def HashMap.DepthLe (map : HashMap) (s : ArenaState) (n : Nat) : Prop :=
  ∀ i t, Unfolds (hashMapLinks s.img) t (slotLink (map.top i)) → t.DepthLe n

theorem HashMap.Rep.depthLe_iff {map : HashMap} {s : ArenaState}
    {forest : Fin 4096 → Trie 4 (BitVec 32)} (h : map.Rep s forest) {n : Nat} :
    map.DepthLe s n ↔ ∀ i, (forest i).DepthLe n :=
  ⟨fun hd i => hd i _ (h.unfolds i), fun hd i _ ht => (h.unfolds i).unique ht ▸ hd i⟩

/-- A node that the map leads to. -/
def HashMap.Leads (map : HashMap) (s : ArenaState) (a : BitVec 32) : Prop :=
  ∃ i t, Unfolds (hashMapLinks s.img) t (slotLink (map.top i)) ∧ a ∈ t.toList

/-- They are those of the forest to which the links unfold. -/
theorem HashMap.leads_iff {map : HashMap} {s : ArenaState}
    {forest : Fin 4096 → Trie 4 (BitVec 32)}
    (hunf : ∀ i, Unfolds (hashMapLinks s.img) (forest i) (slotLink (map.top i))) {a : BitVec 32} :
    map.Leads s a ↔ a ∈ listAll forest := by
  constructor
  · rintro ⟨i, t, ht, ha⟩
    rw [ht.unique (hunf i)] at ha
    exact mem_listAll.mpr ⟨i, ha⟩
  · intro ha
    obtain ⟨i, hi⟩ := mem_listAll.mp ha
    exact ⟨i, _, hunf i, hi⟩

/-- No trie is deeper than the nodes that fit between an offset and the position. -/
theorem HashMap.Rep.depthLe_of_room {map : HashMap} {s : ArenaState}
    {forest : Fin 4096 → Trie 4 (BitVec 32)} (h : map.Rep s forest) {lo n : Nat}
    (habove : ∀ a ∈ listAll forest, lo ≤ a.toNat) (hroom : (s.pos - lo) / HashMapNode.size ≤ n) :
    map.DepthLe s n := by
  refine h.depthLe_iff.mpr fun i => (depthLe_listAll forest i).mono ?_
  exact Nat.le_trans (h.length_le_above habove) hroom

theorem HashMap.Rep.depthLe_of_pos {map : HashMap} {s : ArenaState}
    {forest : Fin 4096 → Trie 4 (BitVec 32)} (h : map.Rep s forest) {n : Nat}
    (hpos : s.pos / HashMapNode.size ≤ n) : map.DepthLe s n :=
  h.depthLe_of_room (fun _ _ => Nat.zero_le _) hpos

/-- The bytes of an arena up to its position, in a mapping as `rgArenaOpenShared` leaves it. -/
structure Mapped (page : Nat) (s s' : ArenaState) : Prop where
  base_page : page ∣ s'.base
  live : 0 < s'.base
  fits : s'.base + s'.reserved ≤ 2 ^ 64
  committed : s'.committed = s'.reserved
  pos : s'.pos = s'.reserved
  size : s.pos ≤ s'.reserved
  opened : ∀ x, s'.base ≤ x → x < s'.base + s'.committed → s'.access x = true
  bytes : ∀ y, y < s.pos → s'.img y = s.img y

/-- The bytes of an arena in a file of `size` bytes, mapped at `base`. -/
def ArenaState.mappedAt (s : ArenaState) (base size : Nat) : ArenaState :=
  ⟨⟨base, size, size, size, .file⟩, fun x => s.img (x - base), fun _ => true⟩

theorem ArenaState.mapped_mappedAt {page base size : Nat} {s : ArenaState} (hpage : page ∣ base)
    (hlive : 0 < base) (hfits : base + size ≤ 2 ^ 64) (hsize : s.pos ≤ size) :
    Mapped page s (s.mappedAt base size) :=
  ⟨hpage, hlive, hfits, rfl, rfl, hsize, fun _ _ _ => rfl, fun y _ =>
    congrArg s.img (Nat.add_sub_cancel_left base y)⟩

section

variable {page : Nat} {map : HashMap} {s s' : ArenaState}
  {forest : Fin 4096 → Trie 4 (BitVec 32)}

theorem Mapped.ok (h : Mapped page s s') {pos : Nat} (hpos : pos ≤ s'.reserved) :
    (s'.setPos pos).Ok page :=
  ⟨h.base_page, fun hz => absurd hz (Nat.ne_of_gt h.live), h.fits, h.committed ▸ hpos,
    Nat.le_of_eq h.committed, .inr h.committed, h.opened⟩

/-- A node of a map passes the validator's test against its parent. -/
theorem HashMap.Placed.checked (h : map.Placed page s forest) {n : Nat}
    (hdepth : ∀ i, (forest i).DepthLe n) {img : Mem}
    (himg : ∀ a ∈ listAll forest, NodeBody s.img img a) (i : Fin 4096) :
    Checked (rgmHashMapNodeOk img s.pos) n 0 (forest i) := by
  refine (h.rising i).checked (P := fun a => NodeInside img s.pos a ∧ 64 ∣ a.toNat) ?_ ?_ (hdepth i)
  · rintro p a hpa ⟨hin, hal⟩
    exact rgmHashMapNodeOk_iff.mpr ⟨hin, Nat.dvd_trans (by decide) hal, hpa⟩
  · intro a ha
    have hmem : a ∈ listAll forest := mem_listAll.mpr ⟨i, ha⟩
    exact ⟨(himg a hmem).inside (Nat.le_refl _) (h.rep.inside a hmem), h.rep.aligned a hmem⟩

/-- The bytes of a save, mapped: the header passes its checks, the index copy is the index, and the
nodes are as they were. -/
theorem Saved.mapped {s1 : ArenaState} (h : Saved page map s s1 forest)
    (hmap : Mapped page s1 s') :
    HeaderOk s'.img s'.reserved s'.committed ∧ savedIndex s'.img = map.top ∧
      (PersistHeader.highWater s'.img).toNat = s1.pos ∧
      ∀ a ∈ listAll forest, NodeAgree s1.img s'.img a := by
  have hb := h.built
  have hsent := hb.sentinel
  have hline : rgmCacheLine = 64 := rfl
  have hsize := hmap.size
  have hregion := hb.region h.magic
  have hcovered := hregion.covered
  have hbelow := hregion.below
  have hheader : ∀ y, y < rgmCacheLine → s'.img y = s1.img y := fun y hy =>
    hmap.bytes y (by omega)
  have hsame := SameHeader.of_line hheader
  have hagree : ∀ a ∈ listAll forest, NodeAgree s1.img s'.img a := fun a ha => by
    have hin := (hb.rep.inside a ha).2
    refine .of_bytes fun y _ hy' _ => hmap.bytes y ?_
    unfold HashMapNode.extent at hy'
    omega
  have hregion' : IndexRegion s'.img s1.pos forest :=
    hregion.congr hheader (Nat.le_refl _) fun a ha => by
      rw [(hagree a ha).extent]
      exact hregion.apart a ha
  have hwater' : (PersistHeader.highWater s'.img).toNat = s1.pos := by
    rw [hsame.highWater, h.highWater]
  refine ⟨⟨hsame.magic.trans h.magic, hregion'.version, hregion'.topBits, hregion'.above, hregion'.word,
    hregion'.aligned, hregion'.covered, ?_, ?_⟩, ?_, hwater', hagree⟩
  · omega
  · rw [hmap.committed]
    omega
  · rw [← h.index]
    funext i
    have hi := i.isLt
    have hbytes : rgmHashMapIndexBytes = 16384 := rfl
    rw [savedIndex, savedIndex, hsame.indexOffset]
    exact load32_congr fun k hk => hmap.bytes _ (by omega)

/-- **A saved map can be opened** at any address, if its tries are not too deep. -/
theorem Saved.openable {s1 : ArenaState} (h : Saved page map s s1 forest)
    (hdepth : ∀ i, (forest i).DepthLe rgmHashMapValidateMaxDepth) (hmap : Mapped page s1 s') :
    Openable s' forest ∧ savedIndex s'.img = map.top ∧
      (PersistHeader.highWater s'.img).toNat = s1.pos := by
  have hb := h.built
  have hsent := hb.sentinel
  have hsize := hmap.size
  have hline : rgmCacheLine = 64 := rfl
  have hsz : PersistHeader.size = 32 := rfl
  obtain ⟨hheader, hindex, hwater, hagree⟩ := h.mapped hmap
  refine ⟨⟨Nat.ne_of_gt hmap.live, ?_, hheader, ?_⟩, hindex, hwater⟩
  · rw [hmap.committed]
    omega
  · rw [hwater, hindex]
    refine ⟨fun i => ?_, hb.placed.checked hdepth fun a ha => (hagree a ha).toNodeBody, hb.rep.length_le⟩
    exact (hb.rep.unfolds i).congr fun a ha j => (hagree a (mem_listAll.mpr ⟨i, ha⟩)).links j

/-- The depth is all that an open can object to. -/
theorem Saved.openable_iff {s1 : ArenaState} (h : Saved page map s s1 forest)
    (hmap : Mapped page s1 s') :
    (∃ forest', Openable s' forest') ↔ ∀ i, (forest i).DepthLe rgmHashMapValidateMaxDepth := by
  constructor
  · rintro ⟨forest', hopen⟩ i
    obtain ⟨-, hindex, -, hagree⟩ := h.mapped hmap
    -- the image unfolds to one forest only
    have hunf : Unfolds (hashMapLinks s'.img) (forest i) (slotLink (savedIndex s'.img i)) := by
      rw [hindex]
      exact (h.built.rep.unfolds i).congr fun a ha j => (hagree a (mem_listAll.mpr ⟨i, ha⟩)).links j
    rw [hunf.unique (hopen.accepted.unfolds i)]
    exact (hopen.accepted.checked i).depthLe
  · intro hdepth
    exact ⟨forest, (h.openable hdepth hmap).1⟩

/-- What is opened is the map that was saved. -/
theorem Saved.reopened {s1 : ArenaState} (h : Saved page map s s1 forest) (hline : 64 ∣ page)
    (hdepth : ∀ i, (forest i).DepthLe rgmHashMapValidateMaxDepth) (hmap : Mapped page s1 s')
    (map0 : HashMap) :
    rgHashMapOpen map0 s' = (.ok, map, s'.setPos s1.pos) ∧
      map.Built page (s'.setPos s1.pos) forest := by
  obtain ⟨hopen, hindex, hwater⟩ := h.openable hdepth hmap
  have hsize := hmap.size
  have hsent := h.built.sentinel
  refine ⟨?_, h.built.congr (hmap.ok hsize) hmap.live (Nat.dvd_trans hline hmap.base_page)
    (Nat.le_refl _) (fun y hy => hmap.bytes y (by omega)) fun a ha => ?_⟩
  · have hmapeq : (⟨true, map.top⟩ : HashMap) = map := by
      rw [← h.built.rep.bound]
    rw [rgHashMapOpen_eq hopen, hindex, hmapeq, ArenaState.opened, hwater]
  · have hin := (h.built.rep.inside a ha).2
    refine .of_bytes fun y _ hy' _ => hmap.bytes y ?_
    unfold HashMapNode.extent at hy'
    omega

end

end RgMemory
