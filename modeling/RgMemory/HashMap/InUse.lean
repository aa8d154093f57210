import RgMemory.HashMap.Reuse
import RgMemory.HashMap.Graph

/-!
# Calls on an opened map

`HashMap.InUse` is what an open leaves behind (`Openable.inUse`): a node graph that rises, on an
arena in order, with a header whose index region a save will reuse. The calls that store something
are here one by one, each with what it asks of the nodes so that its store changes no other one: the
link that an upsert fills (`InUse.created`), the value that a client writes (`InUse.write`), the copy
of the index that a save makes (`InUse.save`).
-/

namespace RgMemory

open Bytes Trie

/-- An opened map in use. -/
structure HashMap.InUse (page : Nat) (map : HashMap) (s : ArenaState)
    (forest : Fin 4096 → Trie 4 (BitVec 32)) : Prop extends HashMap.Rising map s forest where
  ok : s.Ok page
  aligned : 64 ∣ s.base
  reusable : rgmHashMapIndexReusable s.img (rgArenaCapacity s.toArena) = true
  covered : (PersistHeader.indexOffset s.img).toNat + rgmHashMapIndexBytes ≤ s.pos

/-- The outcomes of an upsert that is not refused for its arguments. -/
inductive Upsert (page : Nat) (os : OsReply) (map : HashMap) (s : ArenaState)
    (forest : Fin 4096 → Trie 4 (BitVec 32)) (key : List Byte) : Nat × HashMap × ArenaState → Prop
  | hit {a : BitVec 32} (mem : a ∈ listAll forest) (has : HashMapNode.keyBytes s.img a = key) :
      Upsert page os map s forest key (s.valuePtr a, map, s)
  | full {s' : ArenaState} (ok : s'.Ok page) (kept : Kept s s') (pos : s.pos ≤ s'.pos) :
      Upsert page os map s forest key (0, map, s')
  | created {x : BitVec 32} {map' : HashMap} {s1 s' : ArenaState}
      (absent : foundOf s.img forest key = none)
      (create : rgmHashMapNodeCreate page os s (bytesProbe key).hfull key = (some x, s1))
      (ok : s1.Ok page) (kept : Kept s s1)
      (fresh : FreshNode s s1 key x)
      (published : (Slot.ofSeat (.root (rgmHashMapRoot (bytesProbe key).hfull))
        (seatOf forest (bytesProbe key))).publish map s1 x = (map', s')) :
      Upsert page os map s forest key (s'.valuePtr x, map', s')

/-- A save reuses the region of an earlier one, or not, by what the header says. -/
theorem SameHeader.reusable {img img' : Mem} (h : SameHeader img img') (cap : Nat) :
    rgmHashMapIndexReusable img' cap = rgmHashMapIndexReusable img cap := by
  unfold rgmHashMapIndexReusable
  rw [h.magic, h.version, h.topBits, h.indexOffset]

namespace HashMap.InUse

variable {page : Nat} {map : HashMap} {s : ArenaState} {forest : Fin 4096 → Trie 4 (BitVec 32)}

theorem base_ne_zero (h : map.InUse page s forest) : s.base ≠ 0 :=
  of_decide_eq_true (Bool.and_eq_true _ _ ▸ h.live).2

theorem capacity (h : map.InUse page s forest) : rgArenaCapacity s.toArena = s.reserved :=
  if_pos (decide_eq_true h.base_ne_zero)

/-- The index region of the header. -/
theorem region (h : map.InUse page s forest) :
    rgmCacheLine ≤ (PersistHeader.indexOffset s.img).toNat ∧
      (PersistHeader.indexOffset s.img).toNat ≤ 2 ^ 32 - 1 :=
  (rgmHashMapIndexRegion_reused page ⟨0, false, false, fun _ => 0⟩ h.reusable).2.2

theorem sentinel (h : map.InUse page s forest) : rgmCacheLine ≤ s.pos := by
  have habove := h.region.1
  have hcovered := h.covered
  omega

/-- A change that spares the first cache line and the nodes. -/
theorem congr (h : map.InUse page s forest) {s' : ArenaState} (hok : s'.Ok page)
    (hbase : s'.base = s.base) (hreserved : s'.reserved = s.reserved) (hpos : s.pos ≤ s'.pos)
    (hline : ∀ y, y < rgmCacheLine → s'.img y = s.img y)
    (hagree : ∀ a ∈ listAll forest, NodeAgree s.img s'.img a) : map.InUse page s' forest := by
  have hsame := SameHeader.of_line hline
  have hcap : rgArenaCapacity s'.toArena = rgArenaCapacity s.toArena := by
    have hlive : s'.base ≠ 0 := hbase ▸ h.base_ne_zero
    have hcap' : rgArenaCapacity s'.toArena = s'.reserved := if_pos (decide_eq_true hlive)
    rw [hcap', h.capacity, hreserved]
  refine ⟨h.toRising.congr hbase hpos hagree, hok, hbase ▸ h.aligned, ?_, ?_⟩
  · rw [hsame.reusable, hcap]
    exact h.reusable
  · rw [hsame.indexOffset]
    exact Nat.le_trans h.covered hpos

/-- What is below the position of an upsert that found no room stays. -/
theorem kept (h : map.InUse page s forest) {s' : ArenaState} (hok : s'.Ok page) (hkept : Kept s s')
    (hpos : s.pos ≤ s'.pos) : map.InUse page s' forest := by
  have hsent := h.sentinel
  exact h.congr hok hkept.base hkept.reserved hpos (fun y hy => hkept.img (by omega))
    fun a ha => hkept.agree (h.inside a ha)

/-- An upsert returns, for any key. -/
theorem put_cases (h : map.InUse page s forest) (hpage : IsPageSize page) (os : OsReply)
    (key : KeyArg) : ∃ answer, rgHashMapPut page os map s key = .ok answer ∧
      (key.refused = true ∧ answer = (0, map, s) ∨
        key.refused = false ∧ Upsert page os map s forest key.bytes answer) := by
  rw [rgHashMapPut, h.refuses_eq]
  cases hr : key.refused with
  | true => exact ⟨_, rfl, .inl ⟨rfl, rfl⟩⟩
  | false =>
    have hlen := KeyArg.length_lt hr
    rw [if_neg (by decide), rgmHashMapPut, h.lookup_eq hlen]
    cases hfound : foundOf s.img forest key.bytes with
    | some a =>
      obtain ⟨hmem, hkey⟩ := mem_of_foundOf hlen hfound
      exact ⟨_, rfl, .inr ⟨rfl, .hit hmem hkey⟩⟩
    | none =>
      dsimp only
      rcases rgmHashMapNodeCreate_cases hpage os h.ok h.aligned hlen with
        ⟨s', hnone, hok, hkept, hpos⟩ | ⟨x, s1, hsome, hok, hkept, hx⟩
      · rw [hnone]
        exact ⟨_, rfl, .inr ⟨rfl, .full hok hkept hpos⟩⟩
      · rw [hsome]
        exact ⟨_, rfl, .inr ⟨rfl, .created hfound hsome hok hkept hx rfl⟩⟩

/-- An upsert that fills a link and changes nothing that is read of another node. -/
theorem created (h : map.InUse page s forest) {map' : HashMap} {s1 s' : ArenaState}
    {key : List Byte} {x : BitVec 32} (hclear : SeatClear s.img forest (bytesProbe key) x)
    (hok : s1.Ok page) (hkept : Kept s s1) (hx : FreshNode s s1 key x)
    (hpub : (Slot.ofSeat (.root (rgmHashMapRoot (bytesProbe key).hfull))
      (seatOf forest (bytesProbe key))).publish map s1 x = (map', s')) :
    Inserted page map map' s s' forest key x ∧ SameHeader s.img s'.img ∧
      ∃ forest', map'.InUse page s' forest' ∧
        ∀ a, a ∈ listAll forest' ↔ a = x ∨ a ∈ listAll forest := by
  have hsent := h.sentinel
  have hcl : rgmCacheLine = 64 := rfl
  obtain ⟨map'', s'', hpub', hins⟩ :=
    @publish_inserted page map s s1 forest key x h.inside hclear hok hkept hx
  cases hpub.symm.trans hpub'
  have hline : ∀ y, y < rgmCacheLine → s'.img y = s.img y := fun y hy =>
    hins.frame_apart (by omega) fun a ha => .inl (Nat.lt_of_lt_of_le hy (h.inside a ha).1)
  obtain ⟨forest', hrising, hmem⟩ := h.toRising.inserted (by omega) hins
  have hsame := SameHeader.of_line hline
  have hcap : rgArenaCapacity s'.toArena = rgArenaCapacity s.toArena := by
    rw [rgArenaCapacity, rgArenaCapacity, rgmArenaIsLive, rgmArenaIsLive, hins.base,
      hins.reserved]
  refine ⟨hins, hsame, forest', ⟨hrising, hins.ok, hins.base ▸ h.aligned, ?_, ?_⟩, hmem⟩
  · rw [hsame.reusable, hcap]
    exact h.reusable
  · rw [hsame.indexOffset]
    exact Nat.le_trans h.covered hins.pos_le

/-- A write to a value that changes nothing that is read of another node. -/
theorem write (h : map.InUse page s forest) {a : BitVec 32} (ha : a ∈ listAll forest) {v : BitVec 64}
    (hclear : ∀ b ∈ listAll forest, b ≠ a → ∀ y, HashMapNode.Reads s.img b y →
      store64 s.img (a.toNat + 24) v y = s.img y) :
    map.InUse page (s.setMem (store64 s.mem (s.valuePtr a) v)) forest ∧
      SameHeader s.img (s.setMem (store64 s.mem (s.valuePtr a) v)).img ∧
      ∀ b ∈ listAll forest, NodeBody s.img (s.setMem (store64 s.mem (s.valuePtr a) v)).img b ∧
        (b ≠ a → HashMapNode.value (s.setMem (store64 s.mem (s.valuePtr a) v)).img b =
          HashMapNode.value s.img b) := by
  have hlow := (h.inside a ha).1
  have hother : ∀ b ∈ listAll forest, b ≠ a →
      NodeAgree s.img (s.setMem (store64 s.mem (s.valuePtr a) v)).img b ∧
        HashMapNode.value (s.setMem (store64 s.mem (s.valuePtr a) v)).img b =
          HashMapNode.value s.img b := fun b hb hne =>
    reads_iff.mp fun y hy => by
      rw [store_value_img]
      exact hclear b hb hne y hy
  have hagree : ∀ b ∈ listAll forest,
      NodeAgree s.img (s.setMem (store64 s.mem (s.valuePtr a) v)).img b := by
    intro b hb
    by_cases hne : b = a
    · subst hne
      exact store_value_agree s b v
    · exact (hother b hb hne).1
  have hline : ∀ y, y < rgmCacheLine →
      (s.setMem (store64 s.mem (s.valuePtr a) v)).img y = s.img y := fun y hy =>
    store_value_out s v (.inl (by omega))
  exact ⟨h.congr (h.ok.withMem _) rfl rfl (Nat.le_refl _) hline hagree, .of_line hline,
    fun b hb => ⟨(hagree b hb).toNodeBody, fun hne => (hother b hb hne).2⟩⟩

/-- A save copies the index to where the header has it. -/
theorem save (h : map.InUse page s forest) (os : OsReply)
    (hclear : ∀ a ∈ listAll forest,
      IndexSpares map s.img (PersistHeader.indexOffset s.img).toNat a) :
    ∃ s', rgHashMapSave page os map s = (.ok, s') ∧ map.InUse page s' forest ∧
      s'.base = s.base ∧ s'.pos = s.pos ∧
      PersistHeader.indexOffset s'.img = PersistHeader.indexOffset s.img ∧
      ∀ a ∈ listAll forest, NodeAgree s.img s'.img a := by
  have hcl : rgmCacheLine = 64 := rfl
  have hsz : PersistHeader.size = 32 := rfl
  obtain ⟨habove, hword⟩ := h.region
  obtain ⟨hsome, -⟩ := rgmHashMapIndexRegion_reused page os h.reusable
  obtain ⟨s', hsave, hw⟩ :=
    (rgHashMapSave_eq os h.live h.sentinel).2 _ s hsome h.ok (.refl s) habove hword
  have hagree : ∀ a ∈ listAll forest, NodeAgree s.img s'.img a := by
    intro a ha
    have hlow := (h.inside a ha).1
    refine (reads_iff.mp fun y hy => ?_).1
    rw [hw.bytes y (by have := hy.1; omega), copy]
    split
    · next hin => exact hclear a ha y hy hin.1 hin.2
    · rfl
  have hoff : PersistHeader.indexOffset s'.img = PersistHeader.indexOffset s.img :=
    BitVec.eq_of_toNat_eq hw.indexOffset
  have hreusable : rgmHashMapIndexReusable s'.img (rgArenaCapacity s.toArena) = true := by
    have hold := h.reusable
    unfold rgmHashMapIndexReusable at hold ⊢
    rw [hoff]
    simp only [Bool.and_eq_true, decide_eq_true_eq] at hold ⊢
    obtain ⟨⟨⟨⟨-, h1⟩, h2⟩, h3⟩, h4⟩ := hold
    exact ⟨⟨⟨⟨⟨⟨hw.magic, hw.version⟩, hw.topBits⟩, h1⟩, h2⟩, h3⟩, h4⟩
  obtain ⟨m, rfl⟩ := hw.memory
  have hcap : rgArenaCapacity (s.setMem m).toArena = rgArenaCapacity s.toArena := rfl
  have hinUse : map.InUse page (s.setMem m) forest := by
    refine ⟨h.toRising.congr rfl (Nat.le_refl _) hagree, h.ok.withMem m, h.aligned, ?_, ?_⟩
    · rw [hcap]
      exact hreusable
    · rw [hoff]
      exact h.covered
  exact ⟨_, hsave, hinUse, rfl, rfl, hoff, hagree⟩

end HashMap.InUse

/-! ## Opening -/

/-- The checks of an open on the header are those of a save that reuses its index region. -/
theorem HeaderOk.reusable {img : Mem} {cap committed : Nat} (h : HeaderOk img cap committed) :
    rgmHashMapIndexReusable img cap = true := by
  have hcovered := h.covered
  have hcap := h.cap
  unfold rgmHashMapIndexReusable
  simp only [Bool.and_eq_true, decide_eq_true_eq]
  refine ⟨⟨⟨⟨⟨⟨h.magic, h.version⟩, h.topBits⟩, h.above⟩, h.word⟩, ?_⟩, ?_⟩
  · omega
  · omega

theorem Openable.rising {s : ArenaState} {forest : Fin 4096 → Trie 4 (BitVec 32)}
    (h : Openable s forest) : HashMap.Rising ⟨true, savedIndex s.img⟩ s.opened forest :=
  ⟨h.readable, fun i => (h.accepted.checked i).descends fun _ _ hnode =>
    (rgmHashMapNodeOk_iff.mp hnode).2.2⟩

theorem ArenaState.Ok.setPos {page : Nat} {s : ArenaState} (h : s.Ok page) {pos : Nat}
    (hpos : pos ≤ s.committed) : (s.setPos pos).Ok page :=
  ⟨h.base_page, h.inert, h.fits, hpos, h.committed_le, h.committed_page, h.opened⟩

/-- A map that was opened is in use. -/
theorem Openable.inUse {page : Nat} (hline : 64 ∣ page) {s : ArenaState}
    {forest : Fin 4096 → Trie 4 (BitVec 32)} (hok : s.Ok page) (h : Openable s forest) :
    HashMap.InUse page ⟨true, savedIndex s.img⟩ s.opened forest := by
  have hcapacity : rgArenaCapacity s.toArena = s.reserved := if_pos (decide_eq_true h.live)
  have hreusable : rgmHashMapIndexReusable s.opened.img (rgArenaCapacity s.opened.toArena) =
      true := by
    simp only [opened_img, opened_capacity, hcapacity]
    exact h.header.reusable
  have hcovered : (PersistHeader.indexOffset s.opened.img).toNat + rgmHashMapIndexBytes ≤
      s.opened.pos := by
    simp only [opened_img, opened_pos]
    exact h.header.covered
  have haligned : 64 ∣ s.opened.base := by
    rw [opened_base]
    exact Nat.dvd_trans hline hok.base_page
  exact ⟨h.rising, hok.setPos h.header.committed, haligned, hreusable, hcovered⟩

end RgMemory
