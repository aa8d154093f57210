import RgMemory.HashMap.Session

/-!
# Using a map after a save

A save is meant as a checkpoint: what is done to the map afterwards is not on disk until the next
save. The index and the header are indeed left alone, but a node that is added is linked from a node
that was saved, unless its root was empty; then the image holds a link to an offset above its
high-water mark and `rgHashMapOpen` refuses all of it.

`Since` relates a map to what it was at a save. From it follows exactly which uses the checkpoint
survives (`checkpoint_survives_iff`): those that add no key under a root that was taken.
-/

namespace RgMemory

open Bytes Trie

/-- The index of the root of a key. -/
abbrev rootOf (key : List Byte) : Fin 4096 := rgmHashMapRoot (bytesProbe key).hfull

/-- A map in use since a save left `map1` with the image of `s1`. -/
structure Since (page : Nat) (map1 : HashMap) (s1 : ArenaState)
    (forest1 : Fin 4096 → Trie 4 (BitVec 32)) (map : HashMap) (s : ArenaState)
    (forest : Fin 4096 → Trie 4 (BitVec 32)) : Prop where
  built : map.Built page s forest
  pos_le : s1.pos ≤ s.pos
  line : ∀ y, y < rgmCacheLine → s.img y = s1.img y
  index : ∀ y, y < rgmHashMapIndexBytes →
    s.img ((PersistHeader.indexOffset s1.img).toNat + y) =
      s1.img ((PersistHeader.indexOffset s1.img).toNat + y)
  top : ∀ i, map1.top i ≠ 0 → map.top i = map1.top i
  mem : ∀ a ∈ listAll forest1, a ∈ listAll forest
  body : ∀ a ∈ listAll forest1, NodeBody s1.img s.img a
  old : ∀ key a, nodeOf s1.img forest1 key = some a → nodeOf s.img forest key = some a
  fresh : ∀ key a, nodeOf s1.img forest1 key = none → nodeOf s.img forest key = some a →
    s1.pos ≤ a.toNat
  same : ∀ i, forest i = forest1 i ∨ ∃ key : List Byte, key.length < 2 ^ 32 ∧ rootOf key = i ∧
    nodeOf s1.img forest1 key = none ∧ nodeOf s.img forest key ≠ none

namespace Since

variable {page : Nat} {map1 map : HashMap} {s1 s : ArenaState}
  {forest1 forest : Fin 4096 → Trie 4 (BitVec 32)}

theorem refl (h : map1.Built page s1 forest1) : Since page map1 s1 forest1 map1 s1 forest1 :=
  ⟨h, Nat.le_refl _, fun _ _ => rfl, fun _ _ => rfl, fun _ _ => rfl, fun _ h => h,
    fun _ _ => ⟨rfl, rfl, rfl⟩, fun _ _ h => h,
    fun _ _ hnone hsome => absurd (hnone.symm.trans hsome) (by simp), fun _ => .inl rfl⟩

/-- The header is that of the save. -/
theorem header (h : Since page map1 s1 forest1 map s forest) : SameHeader s1.img s.img :=
  .of_line h.line

/-- The index copy lies below the position, apart from the nodes. -/
theorem region (h : Since page map1 s1 forest1 map s forest)
    (hmagic : PersistHeader.magic s1.img = rgmHashMapMagic) {y : Nat}
    (hy : y < rgmHashMapIndexBytes) :
    (PersistHeader.indexOffset s1.img).toNat + y < s.pos ∧ ∀ a ∈ listAll forest,
      Out a.toNat (HashMapNode.extent s.img a) ((PersistHeader.indexOffset s1.img).toNat + y) := by
  have hoff := h.header.indexOffset
  have hregion := h.built.region (h.header.magic.trans hmagic)
  have hcovered := hregion.covered
  have hbelow := hregion.below
  rw [hoff] at hcovered
  refine ⟨by omega, fun a ha => ?_⟩
  have hapart := hregion.apart a ha
  rw [hoff] at hapart
  unfold Apart at hapart
  unfold Out
  omega

/-- A change that spares links, header and index copy. -/
theorem frame (h : Since page map1 s1 forest1 map s forest) {s' : ArenaState}
    (hbuilt : map.Built page s' forest) (hpos : s.pos ≤ s'.pos)
    (hline : ∀ y, y < rgmCacheLine → s'.img y = s.img y)
    (hindex : ∀ y, y < rgmHashMapIndexBytes →
      s'.img ((PersistHeader.indexOffset s1.img).toNat + y) =
        s.img ((PersistHeader.indexOffset s1.img).toNat + y))
    (hbody : ∀ a ∈ listAll forest, NodeBody s.img s'.img a) :
    Since page map1 s1 forest1 map s' forest := by
  have hnode := nodeOf_congr hbody
  refine ⟨hbuilt, Nat.le_trans h.pos_le hpos, fun y hy => (hline y hy).trans (h.line y hy),
    fun y hy => (hindex y hy).trans (h.index y hy), h.top, h.mem, fun a ha => ?_, fun key a hold => ?_,
    fun key a hnone hsome => ?_, fun i => ?_⟩
  · have hb := h.body a ha
    have hb1 := hbody a (h.mem a ha)
    exact ⟨hb1.hash.trans hb.hash, hb1.keyLen.trans hb.keyLen, hb1.keyBytes.trans hb.keyBytes⟩
  · rw [hnode]
    exact h.old key a hold
  · rw [hnode] at hsome
    exact h.fresh key a hnone hsome
  · rcases h.same i with heq | ⟨key, hlen, hroot, hnone, hsome⟩
    · exact .inl heq
    · refine .inr ⟨key, hlen, hroot, hnone, ?_⟩
      rwa [hnode]

/-- An upsert that adds a key. -/
theorem inserted (h : Since page map1 s1 forest1 map s forest)
    (hmagic : PersistHeader.magic s1.img = rgmHashMapMagic) {map' : HashMap} {s' : ArenaState}
    {key : List Byte} {x : BitVec 32} (hlen : key.length < 2 ^ 32)
    (habsent : nodeOf s.img forest key = none)
    (hins : Inserted page map map' s s' forest key x) :
    Since page map1 s1 forest1 map' s' (forestAdd forest (bytesProbe key) x) := by
  have hrep := h.built.rep
  have hsent := h.built.sentinel
  have hline : rgmCacheLine = 64 := rfl
  have hnode := HashMap.Rep.nodeOf_insert hins.fresh hins.published habsent
  refine ⟨h.built.inserted hins, Nat.le_trans h.pos_le hins.pos_le, fun y hy => ?_,
    fun y hy => ?_, fun i hi => ?_, fun a ha => mem_forestAdd.mpr (.inr (h.mem a ha)),
    fun a ha => ?_, fun k a hold => ?_, fun k a hnone hsome => ?_, fun i => ?_⟩
  · rw [← h.line y hy]
    exact hins.frame_apart (by omega) fun a ha =>
      .inl (Nat.lt_of_lt_of_le hy (hrep.inside a ha).1)
  · rw [← h.index y hy]
    obtain ⟨hbelow, hout⟩ := h.region hmagic hy
    exact hins.frame_apart hbelow hout
  · -- a root that was taken stays: the new node goes into its trie, or elsewhere
    have htop := h.top i hi
    rw [hins.published.top, if_neg, htop]
    rintro ⟨hseat, rfl⟩
    have hnil : forest (rootOf key) = nil := seat_eq_none_iff.mp hseat
    have hunf := hrep.unfolds (rootOf key)
    exact hi (htop ▸ slotLink_eq_none.mp (hunf.eq_none_iff.mpr hnil))
  · have hb := h.body a ha
    have hb1 := hins.published.body a (h.mem a ha)
    exact ⟨hb1.hash.trans hb.hash, hb1.keyLen.trans hb.keyLen, hb1.keyBytes.trans hb.keyBytes⟩
  · have hcur := h.old k a hold
    rw [hnode, if_neg]
    · exact hcur
    · rintro rfl
      exact absurd (habsent.symm.trans hcur) (by simp)
  · rw [hnode] at hsome
    by_cases hk : k = key
    · rw [if_pos hk] at hsome
      cases hsome
      exact Nat.le_trans h.pos_le hins.fresh.above
    · rw [if_neg hk] at hsome
      exact h.fresh k a hnone hsome
  · by_cases hi : i = rootOf key
    · refine .inr ⟨key, hlen, hi.symm, ?_, ?_⟩
      · cases hold : nodeOf s1.img forest1 key with
        | none => rfl
        | some a => exact absurd (habsent.symm.trans (h.old key a hold)) (by simp)
      · rw [hnode, if_pos rfl]
        simp
    · have hother : forestAdd forest (bytesProbe key) x i = forest i :=
        Function.update_of_ne hi _ _
      rcases h.same i with heq | ⟨k, hklen, hroot, hnone, hsome⟩
      · exact .inl (hother.trans heq)
      · refine .inr ⟨k, hklen, hroot, hnone, ?_⟩
        rw [hnode]
        split
        · simp
        · exact hsome

/-- A use of the map. -/
theorem use (h : Since page map1 s1 forest1 map s forest) (hpage : IsPageSize page)
    (hmagic : PersistHeader.magic s1.img = rgmHashMapMagic) {w' : Session}
    (huse : Session.Use page ⟨map, s⟩ w') :
    ∃ forest', Since page map1 s1 forest1 w'.map w'.arena forest' := by
  have hsent := h.built.sentinel
  cases huse.did hpage h.built.placed with
  | same => exact ⟨forest, h⟩
  | kept ok kept pos =>
    refine ⟨forest, h.frame (h.built.kept ok kept pos) pos
      (fun y hy => kept.img (Nat.lt_of_lt_of_le hy hsent))
      (fun y hy => kept.img (h.region hmagic hy).1) fun a ha => ?_⟩
    exact (kept.nodeAgree h.built.rep ha).toNodeBody
  | inserted len absent ins => exact ⟨_, h.inserted hmagic len absent ins⟩
  | @wrote a ha v =>
    have hlow := (h.built.rep.inside a ha).1
    refine ⟨forest, h.frame (h.built.write ha v) (Nat.le_refl _)
      (fun y hy => store_value_out s v (.inl (by omega))) (fun y hy => ?_)
      fun b hb => (h.built.placed.store_agree ha v b hb).toNodeBody⟩
    have hout := (h.region hmagic hy).2 a ha
    have hsize : 40 ≤ HashMapNode.extent s.img a := Nat.le_add_right ..
    exact store_value_out s v (by unfold Out at *; omega)

end Since

/-- Any number of uses. -/
theorem Since.uses {page : Nat} {map1 : HashMap} {s1 : ArenaState}
    {forest1 : Fin 4096 → Trie 4 (BitVec 32)} (h : map1.Built page s1 forest1)
    (hpage : IsPageSize page) (hmagic : PersistHeader.magic s1.img = rgmHashMapMagic)
    {w' : Session} (huses : Relation.ReflTransGen (Session.Use page) ⟨map1, s1⟩ w') :
    ∃ forest, Since page map1 s1 forest1 w'.map w'.arena forest := by
  induction huses with
  | refl => exact ⟨forest1, .refl h⟩
  | tail _ huse ih =>
    obtain ⟨forest, hsince⟩ := ih
    exact hsince.use hpage hmagic huse

/-! ## What an open makes of it -/

section

variable {page : Nat} {map1 map : HashMap} {s0 s1 s s2 : ArenaState}
  {forest1 forest : Fin 4096 → Trie 4 (BitVec 32)}

/-- The header and the index of the mapped image are those of the save. -/
theorem Since.mapped_header (h : Since page map1 s1 forest1 map s forest)
    (hsaved : Saved page map1 s0 s1 forest1) (hmap : Mapped page s s2) :
    (∀ y, y < rgmCacheLine → s2.img y = s1.img y) ∧ savedIndex s2.img = map1.top ∧
      (PersistHeader.highWater s2.img).toNat = s1.pos := by
  have hsent := h.built.sentinel
  have hcl : rgmCacheLine = 64 := rfl
  have hline : ∀ y, y < rgmCacheLine → s2.img y = s1.img y := fun y hy =>
    (hmap.bytes y (by omega)).trans (h.line y hy)
  have hsame := SameHeader.of_line hline
  refine ⟨hline, ?_, ?_⟩
  · rw [← hsaved.index]
    funext i
    have hi := i.isLt
    have hbytes : rgmHashMapIndexBytes = 16384 := rfl
    rw [savedIndex, savedIndex, hsame.indexOffset]
    refine load32_congr fun k hk => ?_
    rw [Nat.add_assoc, hmap.bytes _ (h.region hsaved.magic (by omega)).1, h.index _ (by omega)]
  · rw [← hsaved.highWater, hsame.highWater]

/-- A key added under a root that was taken makes the image unacceptable. -/
theorem Since.refused (h : Since page map1 s1 forest1 map s forest)
    (hsaved : Saved page map1 s0 s1 forest1) (hmap : Mapped page s s2) {key : List Byte}
    (hnone : nodeOf s1.img forest1 key = none) (hsome : nodeOf s.img forest key ≠ none)
    (htaken : map1.top (rootOf key) ≠ 0) : ¬ ∃ forest2, Openable s2 forest2 := by
  rintro ⟨forest2, hopen⟩
  obtain ⟨-, hindex, hwater⟩ := h.mapped_header hsaved hmap
  obtain ⟨x, hx⟩ := Option.ne_none_iff_exists'.mp hsome
  have hmem := (find_mem hx).1
  -- the image unfolds from that root to the trie of the map in use
  have hunf := h.built.rep.unfolds (rootOf key)
  rw [h.top _ htaken] at hunf
  have hunf2 := hopen.accepted.unfolds (rootOf key)
  rw [hindex] at hunf2
  have hsame : Unfolds (hashMapLinks s2.img) (forest (rootOf key))
      (slotLink (map1.top (rootOf key))) := by
    refine hunf.congr fun a ha i => ?_
    have hin := (h.built.rep.inside a (mem_listAll.mpr ⟨_, ha⟩)).2
    have hi := i.isLt
    have hsize : HashMapNode.size = 40 := rfl
    rw [hashMapLinks, hashMapLinks]
    exact congrArg _ (load32_congr fun k hk => hmap.bytes _ (by omega))
  have heq := hunf2.unique hsame
  have hcheck := (hopen.accepted.checked (rootOf key)).forall
    (P := NodeInside s2.img (PersistHeader.highWater s2.img).toNat)
    (fun _ _ hok => (rgmHashMapNodeOk_iff.mp hok).1) x (heq ▸ hmem)
  have habove := h.fresh key x hnone hx
  have hsize : HashMapNode.size = 40 := rfl
  have hbelow := hcheck.2
  omega

/-- Without such a key the image is accepted, and gives the saved keys with their last values. -/
theorem Since.accepted (h : Since page map1 s1 forest1 map s forest)
    (hsaved : Saved page map1 s0 s1 forest1) (hmap : Mapped page s s2)
    (hdepth : ∀ i, (forest1 i).DepthLe rgmHashMapValidateMaxDepth) (hline : 64 ∣ page)
    (hfree : ∀ key : List Byte, key.length < 2 ^ 32 → nodeOf s1.img forest1 key = none →
      nodeOf s.img forest key ≠ none → map1.top (rootOf key) = 0) (map0 : HashMap) :
    rgHashMapOpen map0 s2 = (.ok, map1, s2.setPos s1.pos) ∧
      map1.Built page (s2.setPos s1.pos) forest1 ∧
      ∀ a ∈ listAll forest1, NodeBody s.img s2.img a ∧
        HashMapNode.value s2.img a = HashMapNode.value s.img a := by
  obtain ⟨hheader, hindex, hwater⟩ := h.mapped_header hsaved hmap
  have hb1 := hsaved.built
  have hcl : rgmCacheLine = 64 := rfl
  have hn : HashMapNode.size = 40 := rfl
  have hsent := hb1.sentinel
  have hsize := hmap.size
  have hpos := h.pos_le
  have hnode : ∀ a ∈ listAll forest, ∀ y, y < a.toNat + HashMapNode.extent s.img a →
      s2.img y = s.img y := fun a ha y hy => hmap.bytes y (by
    have hin := (h.built.rep.inside a ha).2
    unfold HashMapNode.extent at hy
    omega)
  have hsame : ∀ a ∈ listAll forest1, NodeBody s.img s2.img a := fun a ha =>
    .of_bytes fun y _ hy _ => hnode a (h.mem a ha) y hy
  have hbody : ∀ a ∈ listAll forest1, NodeBody s1.img s2.img a := fun a ha => by
    have hb := h.body a ha
    have hs := hsame a ha
    exact ⟨hs.hash.trans hb.hash, hs.keyLen.trans hb.keyLen, hs.keyBytes.trans hb.keyBytes⟩
  have hunf : ∀ i, Unfolds (hashMapLinks s2.img) (forest1 i) (slotLink (map1.top i)) := by
    intro i
    by_cases htop : map1.top i = 0
    · have hnil : forest1 i = nil := (hb1.rep.unfolds i).eq_none_iff.mp (slotLink_eq_none.mpr htop)
      rw [htop, hnil]
      rfl
    · rcases h.same i with heq | ⟨key, hlen, rfl, hnone, hsome⟩
      · rw [← heq, ← h.top i htop]
        refine (h.built.rep.unfolds i).congr fun a ha j => ?_
        have hj := j.isLt
        rw [hashMapLinks, hashMapLinks]
        refine congrArg _ (load32_congr fun k hk => hnode a (mem_listAll.mpr ⟨i, ha⟩) _ ?_)
        unfold HashMapNode.extent
        omega
      · exact absurd (hfree key hlen hnone hsome) htop
  have hend : s1.pos ≤ (s2.setPos s1.pos).pos := Nat.le_refl _
  have hrep : map1.Rep (s2.setPos s1.pos) forest1 := hb1.rep.of_body hend hbody hunf
  have hregion : IndexRegion s2.img s1.pos forest1 :=
    (hb1.region hsaved.magic).congr hheader (Nat.le_refl _) fun a ha => by
      rw [(hbody a ha).extent]
      exact (hb1.region hsaved.magic).apart a ha
  have hmagic : PersistHeader.magic s2.img = rgmHashMapMagic :=
    (SameHeader.of_line hheader).magic.trans hsaved.magic
  have hopen : Openable s2 forest1 := by
    refine ⟨Nat.ne_of_gt hmap.live, ?_, ?_, ?_⟩
    · have hsz : PersistHeader.size = 32 := rfl
      rw [hmap.committed]
      omega
    · refine ⟨hmagic, hregion.version, hregion.topBits, hregion.above, hregion.word,
        hregion.aligned, hregion.covered, ?_, ?_⟩
      · omega
      · rw [hmap.committed]
        omega
    · rw [hwater, hindex]
      exact ⟨hunf, hb1.placed.checked hdepth hbody, hb1.rep.length_le⟩
  refine ⟨?_, ⟨hmap.ok (Nat.le_trans hpos hsize), hmap.live, Nat.dvd_trans hline hmap.base_page,
    hsent, hrep, hb1.rising, fun _ => hregion⟩, fun a ha => ⟨hsame a ha, ?_⟩⟩
  · have hmapeq : (⟨true, map1.top⟩ : HashMap) = map1 := by
      rw [← hb1.rep.bound]
    rw [rgHashMapOpen_eq hopen, hindex, hmapeq, ArenaState.opened, hwater]
  · refine load64_congr fun k hk => hnode a (h.mem a ha) _ ?_
    unfold HashMapNode.extent
    omega

end

/-- **When a checkpoint survives.** After a save and any uses of the map, the bytes can be opened and
give every saved key with its last value exactly when no key was added under a root that was taken
at the save. -/
theorem checkpoint_survives_iff {page : Nat} (hpage : IsPageSize page) (hline : 64 ∣ page)
    {w0 w w' : Session} (hfresh : w0.Fresh page)
    (hrun : Relation.ReflTransGen (Session.Step page) w0 w) {os : OsReply} {s1 : ArenaState}
    (hsave : rgHashMapSave page os w.map w.arena = (.ok, s1))
    (hdepth : w.map.DepthLe w.arena rgmHashMapValidateMaxDepth)
    (huses : Relation.ReflTransGen (Session.Use page) ⟨w.map, s1⟩ w') {s2 : ArenaState}
    (hmap : Mapped page w'.arena s2) (map0 : HashMap) :
    (∃ map' s3, rgHashMapOpen map0 s2 = (.ok, map', s3) ∧
        ∀ key v, rgmHashMapValue w.map s1 key = .ok (some v) →
          ∃ u, rgmHashMapValue map' s3 key = .ok (some u) ∧
            rgmHashMapValue w'.map w'.arena key = .ok (some u)) ↔
      ∀ key, rgHashMapGet w.map s1 key = .ok 0 → rgHashMapGet w'.map w'.arena key ≠ .ok 0 →
        w.map.top (rootOf key.bytes) = 0 := by
  obtain ⟨forest1, h, -⟩ := Session.built_of_run hpage hline hfresh hrun
  have hsaved := h.saved hpage hsave
  have hb1 := hsaved.built
  obtain ⟨forest, hsince⟩ := Since.uses hb1 hpage hsaved.magic huses
  have hb := hsince.built
  constructor
  · rintro ⟨map', s3, hopen, -⟩ key hnone hsome
    obtain ⟨hr, hfound⟩ := (hb.placed.get_ne_zero_iff key).mp hsome
    by_contra htaken
    have habsent : nodeOf s1.img forest1 key.bytes = none := by
      by_contra hne
      exact (hb1.placed.get_ne_zero_iff key).mpr ⟨hr, hne⟩ hnone
    refine hsince.refused hsaved hmap habsent hfound htaken ?_
    exact (rgHashMapOpen_ok_iff map0 s2).mp (by rw [hopen])
  · intro hfree
    obtain ⟨hopen, hbuilt, hsame⟩ := hsince.accepted hsaved hmap (h.rep.depthLe_iff.mp hdepth) hline
      (fun key hlen hnone hsome => by
        have hr : KeyArg.refused ⟨false, key⟩ = false := by
          simp [KeyArg.refused]
          omega
        refine hfree ⟨false, key⟩ ?_ ((hb.placed.get_ne_zero_iff _).mpr ⟨hr, hsome⟩)
        by_contra hne
        exact ((hb1.placed.get_ne_zero_iff _).mp hne).2 hnone) map0
    refine ⟨_, _, hopen, fun key v hv => ?_⟩
    rw [hb1.placed.value_eq key] at hv
    have hnode : nodeOf s2.img forest1 key.bytes = nodeOf s1.img forest1 key.bytes :=
      nodeOf_congr (fun a ha => by
        have hb0 := hsince.body a ha
        have hs := (hsame a ha).1
        exact ⟨hs.hash.trans hb0.hash, hs.keyLen.trans hb0.keyLen,
          hs.keyBytes.trans hb0.keyBytes⟩) key.bytes
    cases hr : key.refused with
    | true => simp [hr] at hv
    | false =>
      cases hfound : nodeOf s1.img forest1 key.bytes with
      | none => simp [hr, hfound] at hv
      | some a =>
        have ha : a ∈ listAll forest1 := mem_listAll.mpr ⟨_, (find_mem hfound).1⟩
        refine ⟨HashMapNode.value w'.arena.img a, ?_, ?_⟩
        · rw [hbuilt.placed.value_eq key, hr, setPos_img, hnode, hfound]
          simp only [Option.map_some, (hsame a ha).2, Bool.false_eq_true, if_false]
        · rw [hb.placed.value_eq key, hr, hsince.old _ a hfound]
          simp only [Option.map_some, Bool.false_eq_true, if_false]

/-- The sample session, saved. -/
def sampleSaved : ArenaState :=
  (rgHashMapSave 4096 sampleOs sampleSession'.map sampleSession'.arena).2

/-- Another key with the root of the first, added after the save. -/
def sampleLater : Session :=
  match rgHashMapPut 4096 sampleOs sampleSession'.map sampleSaved ⟨false, [41, 8]⟩ with
  | .ok (_, map, s) => ⟨map, s⟩
  | .error _ => ⟨sampleSession'.map, sampleSaved⟩

theorem sampleLater_use : Session.Use 4096 ⟨sampleSession'.map, sampleSaved⟩ sampleLater := by
  obtain ⟨forest, h⟩ := sampleSession_built
  have hsaved := h.saved samplePage sampleSession_saves
  obtain ⟨p, map', s', hput, -⟩ := hsaved.built.put samplePage sampleOs ⟨false, [41, 8]⟩
  have hlater : sampleLater = ⟨map', s'⟩ := by
    unfold sampleLater sampleSaved
    rw [hput]
  rw [hlater]
  exact .put hput

/-- After the save and that one upsert the bytes cannot be opened any more. -/
theorem sampleLater_lost :
    sampleSession.Fresh 4096 ∧ Session.Step 4096 sampleSession sampleSession' ∧
      rgHashMapSave 4096 sampleOs sampleSession'.map sampleSession'.arena = (.ok, sampleSaved) ∧
      sampleSession'.map.DepthLe sampleSession'.arena rgmHashMapValidateMaxDepth ∧
      Session.Use 4096 ⟨sampleSession'.map, sampleSaved⟩ sampleLater ∧
      Mapped 4096 sampleLater.arena (sampleLater.arena.mappedAt 131072 65536) ∧
      (rgHashMapOpen ⟨false, fun _ => 0⟩ (sampleLater.arena.mappedAt 131072 65536)).1 ≠ .ok := by
  have hmap : Mapped 4096 sampleLater.arena (sampleLater.arena.mappedAt 131072 65536) :=
    ArenaState.mapped_mappedAt (by decide) (by decide) (by decide) (by decide)
  refine ⟨sampleSession_fresh, sampleSession_step, sampleSession_saves, sampleSession_depth,
    sampleLater_use, hmap, fun hok => ?_⟩
  obtain ⟨forest1, h⟩ := sampleSession_built
  have hsaved : Saved 4096 sampleSession'.map sampleSession'.arena sampleSaved forest1 :=
    h.saved samplePage sampleSession_saves
  obtain ⟨forest, hsince⟩ :=
    Since.uses hsaved.built samplePage hsaved.magic (.single sampleLater_use)
  -- the key is found now, was not found at the save, and its root was taken
  have hfound : (match rgHashMapGet sampleLater.map sampleLater.arena ⟨false, [41, 8]⟩ with
    | .ok p => p | .error _ => 0) ≠ 0 := by decide
  have hnew : (match rgHashMapGet sampleSession'.map sampleSaved ⟨false, [41, 8]⟩ with
    | .ok p => p | .error _ => 1) = 0 := by decide
  have htaken : sampleSession'.map.top (rootOf [41, 8]) ≠ 0 := by decide
  rw [hsince.built.placed.get_eq] at hfound
  rw [hsaved.built.placed.get_eq] at hnew
  have hr : KeyArg.refused ⟨false, [41, 8]⟩ = false := by decide
  rw [hr] at hfound hnew
  have hfresh : nodeOf sampleSaved.img forest1 [41, 8] = none := by
    cases hn : nodeOf sampleSaved.img forest1 [41, 8] with
    | none => rfl
    | some a =>
      rw [hn] at hnew
      exact absurd hnew (Nat.succ_ne_zero _)
  have htook : nodeOf sampleLater.arena.img forest [41, 8] ≠ none := fun hnone => by
    rw [hnone] at hfound
    exact hfound rfl
  exact hsince.refused hsaved hmap hfresh htook htaken ((rgHashMapOpen_ok_iff _ _).mp hok)

/-- The session of three keys, saved. -/
def sampleFilledSaved : ArenaState :=
  (rgHashMapSave 4096 sampleOs sampleFilled.map sampleFilled.arena).2

/-- Since the save: a key whose root was free, and a write to the value of the second key. -/
def sampleFourth : Nat × Session := sampleUpsert ⟨sampleFilled.map, sampleFilledSaved⟩ [6]

def sampleAdded : Session :=
  ⟨sampleFourth.2.map,
    sampleFourth.2.arena.setMem (store64 sampleFourth.2.arena.mem sampleSecond.1 9)⟩

theorem sampleFilledSaved_built : ∃ forest,
    sampleFilled.map.Built 4096 sampleFilledSaved forest ∧ Seated sampleFilledSaved.img forest := by
  obtain ⟨forest, h, hseated⟩ :=
    Session.built_of_run samplePage (by decide) sampleSession_fresh sampleFilled_run
  have hsaved := h.saved samplePage sampleFilled_saves
  exact ⟨forest, hsaved.built, hsaved.seated hseated⟩

theorem sampleFourth_use :
    Session.Use 4096 ⟨sampleFilled.map, sampleFilledSaved⟩ sampleFourth.2 := by
  obtain ⟨forest, h, -⟩ := sampleFilledSaved_built
  exact sampleUpsert_use (w := ⟨sampleFilled.map, sampleFilledSaved⟩) h.placed [6]

theorem sampleFourth_built :
    ∃ forest, sampleFourth.2.map.Built 4096 sampleFourth.2.arena forest := by
  obtain ⟨forest0, h0, hseated⟩ := sampleFilledSaved_built
  have hbuilt := Session.Use.built (w := ⟨sampleFilled.map, sampleFilledSaved⟩) samplePage h0
    hseated sampleFourth_use
  obtain ⟨forest, h⟩ := hbuilt
  exact ⟨forest, h.1⟩

theorem sampleFourth_get : rgHashMapGet sampleFourth.2.map sampleFourth.2.arena ⟨false, [41, 8]⟩ =
    .ok sampleSecond.1 ∧ sampleSecond.1 ≠ 0 := by decide

/-- What was added since the save has a root that was free. -/
theorem sampleAdded_free (key : KeyArg)
    (hnone : rgHashMapGet sampleFilled.map sampleFilledSaved key = .ok 0)
    (hsome : rgHashMapGet sampleAdded.map sampleAdded.arena key ≠ .ok 0) :
    sampleFilled.map.top (rootOf key.bytes) = 0 := by
  obtain ⟨forest0, h0, -⟩ := sampleFilledSaved_built
  obtain ⟨forest, h⟩ := sampleFourth_built
  obtain ⟨hget, hcell⟩ := sampleFourth_get
  obtain ⟨-, a, -, ha, hp⟩ := h.placed.get_node hget hcell
  rw [sampleAdded, hp, h.placed.write_get ha 9 key] at hsome
  have hput := sampleUpsert_eq (w := ⟨sampleFilled.map, sampleFilledSaved⟩) h0.placed [6]
  rw [h0.placed.put_new samplePage hput hnone hsome]
  decide

/-- The saved keys come back, with the values at the end. -/
theorem sampleSaved_survives :
    ∃ map' s3, rgHashMapOpen ⟨false, fun _ => 0⟩ (sampleAdded.arena.mappedAt 131072 65536) =
        (.ok, map', s3) ∧
      rgmHashMapValue map' s3 ⟨false, [107]⟩ = .ok (some 0) ∧
      rgmHashMapValue map' s3 ⟨false, [41, 8]⟩ = .ok (some 9) ∧
      rgmHashMapValue map' s3 ⟨false, [5]⟩ = .ok (some 0) := by
  have huses := (Relation.ReflTransGen.single sampleFourth_use).tail
    (.write sampleFourth_get.1 sampleFourth_get.2 : Session.Use 4096 sampleFourth.2 sampleAdded)
  have hmap : Mapped 4096 sampleAdded.arena (sampleAdded.arena.mappedAt 131072 65536) :=
    ArenaState.mapped_mappedAt (by decide) (by decide) (by decide) (by decide)
  obtain ⟨map', s3, hopen, hvalues⟩ := (checkpoint_survives_iff samplePage (by decide)
    sampleSession_fresh sampleFilled_run sampleFilled_saves sampleFilled_depth huses hmap
    ⟨false, fun _ => 0⟩).mpr sampleAdded_free
  have hlast : ∀ key v u, rgmHashMapValue sampleFilled.map sampleFilledSaved key = .ok (some v) →
      rgmHashMapValue sampleAdded.map sampleAdded.arena key = .ok (some u) →
      rgmHashMapValue map' s3 key = .ok (some u) := by
    intro key v u hv hu
    obtain ⟨u', hu', heq⟩ := hvalues key v hv
    exact (hu'.trans heq.symm).trans hu
  exact ⟨map', s3, hopen, hlast _ 0 0 (by decide) (by decide),
    hlast _ 7 9 (by decide) (by decide),
    hlast _ 0 0 (by decide) (by decide)⟩

end RgMemory
