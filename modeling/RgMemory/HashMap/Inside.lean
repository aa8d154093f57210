import RgMemory.Arena.Inside
import RgMemory.HashMap.Session

/-!
# A map stays inside its arena

No call on a map, and no write through a value pointer, changes a byte outside the reservation of the
map's arena. Other arenas of the process, and the files behind them, are out of its reach.
-/

namespace RgMemory

open Bytes Trie

section

variable {page : Nat} {s s1 : ArenaState}

/-- Writes to a block that was just granted. -/
theorem Granted.inside_write {p size align : Nat} (h : Granted page s s1 p size align)
    (hs : s.Ok page) {m : Mem} (hm : ∀ x, Out p size x → m x = s1.mem x) : Inside s (s1.setMem m) := by
  have hgrow := (h.quiet hs).toInside
  have hbase := hgrow.base
  have hreserved := hgrow.reserved
  have habove := h.above
  have hend := h.pos
  have hpos := h.ok.pos_le
  have hcommitted := h.ok.committed_le
  refine hgrow.trans (.setMem fun x hx => hm x ?_)
  unfold Out at *
  omega

variable (hpage : IsPageSize page) (os : OsReply) (hs : s.Ok page)

include hpage hs

theorem rgmHashMapNodeCreate_inside (hash : BitVec 64) {key : List Byte} (hlen : key.length < 2 ^ 32) :
    Inside s (rgmHashMapNodeCreate page os s hash key).2 := by
  have hsize : HashMapNode.size = 40 := rfl
  have htotal : HashMapNode.size + key.length < 2 ^ 64 := by omega
  unfold rgmHashMapNodeCreate
  dsimp only
  rcases rgArenaAllocAligned_cases hpage os hs htotal (by decide : rgmCacheLine < 2 ^ 64) with
    hnull | ⟨p, s1, hok, hg⟩
  · rw [hnull]
    exact .refl s
  rw [hok]
  have habove := hg.above
  have hlive := hg.live
  have hp : p ≠ 0 := by omega
  simp only [hp, if_false]
  by_cases hbig : p - s1.base > 2 ^ 32 - 1
  · rw [if_pos hbig]
    exact (hg.quiet hs).toInside.trans (rgArenaPop_quiet _ _).toInside
  · rw [if_neg hbig]
    exact hg.inside_write hs (rgmHashMapNodeFill_filled s1.mem p hash key).frame

theorem rgHashMapInit_inside (map : HashMap) : Inside s (rgHashMapInit page os map s).2.2 := by
  unfold rgHashMapInit
  split
  · exact .refl s
  · dsimp only
    split
    · rcases rgArenaAllocAligned_cases hpage os hs (by decide : rgmCacheLine < 2 ^ 64)
        (by decide : rgmCacheLine < 2 ^ 64) with hnull | ⟨p, s1, hok, hg⟩
      · rw [hnull]
        exact .refl s
      · rw [hok]
        have habove := hg.above
        have hlive := hg.live
        have hp : p ≠ 0 := by omega
        simp only [hp, if_false]
        exact hg.inside_write hs fun x hx => copy_out s1.mem _ hx
    · exact .refl s

theorem rgmHashMapIndexRegion_inside : Inside s (rgmHashMapIndexRegion page os s).2 := by
  unfold rgmHashMapIndexRegion
  split
  · exact .refl s
  · rcases rgArenaAllocAligned_cases hpage os hs (by decide : rgmHashMapIndexBytes < 2 ^ 64)
      (by decide : 16 < 2 ^ 64) with hnull | ⟨p, s1, hok, hg⟩
    · rw [hnull]
      exact .refl s
    · rw [hok]
      have hquiet := (hg.quiet hs).toInside
      dsimp only
      split
      · exact hquiet
      · split
        · exact hquiet.trans (rgArenaPop_quiet _ _).toInside
        · exact hquiet

end

/-- The stores of a header. -/
theorem rgmHashMapWriteHeader_out (m : Mem) {base highWater indexOffset x : Nat}
    (hx : Out base PersistHeader.size x) :
    rgmHashMapWriteHeader m base highWater indexOffset x = m x := by
  have hsize : PersistHeader.size = 32 := rfl
  unfold Out at hx
  unfold rgmHashMapWriteHeader
  simp only [store32, store64]
  simp (disch := (unfold Out; omega)) only [storeLE_out]

section

variable {page : Nat} {map : HashMap} {s : ArenaState} {forest : Fin 4096 → Trie 4 (BitVec 32)}
  (hpage : IsPageSize page) (os : OsReply)

/-- The store that publishes a node goes to a link of the map. -/
theorem HashMap.Placed.publish_inside (h : map.Placed page s forest) {s1 : ArenaState}
    (hs1 : Inside s s1) (pr : Probe) (x : BitVec 32) :
    Inside s ((Slot.ofSeat (.root (rgmHashMapRoot pr.hfull)) (seatOf forest pr)).publish map s1 x).2 := by
  cases hseat : seatOf forest pr with
  | none => exact hs1
  | some ni =>
    obtain ⟨n, i⟩ := ni
    have hn := (h.rep.inside n (mem_listAll.mpr ⟨_, seat_mem hseat⟩)).2
    have hpos := h.ok.pos_le
    have hcommitted := h.ok.committed_le
    have hbase := hs1.base
    have hreserved := hs1.reserved
    have hsize : HashMapNode.size = 40 := rfl
    have hi := i.isLt
    refine hs1.trans (.setMem fun y hy => ?_)
    refine storeLE_out s1.mem ?_
    unfold Out at *
    omega

include hpage

theorem HashMap.Placed.put_inside (h : map.Placed page s forest) (key : KeyArg) {p : Nat}
    {map' : HashMap} {s' : ArenaState} (hput : rgHashMapPut page os map s key = .ok (p, map', s')) :
    Inside s s' := by
  rw [rgHashMapPut, h.refuses_eq] at hput
  cases hr : key.refused with
  | true =>
    rw [hr] at hput
    cases hput
    exact .refl s
  | false =>
    have hlen := KeyArg.length_lt hr
    rw [hr, if_neg (by decide), rgmHashMapPut, h.rep.lookup_eq h.ok.pos_le_word hlen] at hput
    cases hfound : nodeOf s.img forest key.bytes with
    | some a =>
      rw [hfound] at hput
      cases hput
      exact .refl s
    | none =>
      have hcreate := rgmHashMapNodeCreate_inside hpage os h.ok (bytesProbe key.bytes).hfull hlen
      rw [hfound] at hput
      dsimp only at hput
      generalize rgmHashMapNodeCreate page os s (bytesProbe key.bytes).hfull key.bytes = answer
        at hput hcreate
      obtain ⟨_ | x, s1⟩ := answer
      · cases hput
        exact hcreate
      · cases hput
        exact h.publish_inside hcreate _ _

theorem HashMap.Built.save_inside (h : map.Built page s forest) :
    Inside s (rgHashMapSave page os map s).2 := by
  have hregion := rgmHashMapIndexRegion_inside hpage os h.ok
  have hused : rgArenaUsed s.toArena = s.pos := h.placed.used_eq
  rw [rgHashMapSave, h.placed.isLive, hused, if_neg (by decide), if_neg (Nat.not_lt.mpr h.sentinel)]
  rcases rgmHashMapIndexRegion_cases hpage os h with ⟨s1, heq⟩ | ⟨off, s1, heq, hr⟩
  · rw [heq] at hregion ⊢
    exact hregion
  · rw [heq] at hregion ⊢
    have hcovered := hr.covered
    have hpos := hr.ok.pos_le
    have hcommitted := hr.ok.committed_le
    have hbase := hregion.base
    have hreserved := hregion.reserved
    have habove := hr.above
    have hline : rgmCacheLine = 64 := rfl
    have hsize : PersistHeader.size = 32 := rfl
    refine hregion.trans (.setMem fun x hx => ?_)
    dsimp only at hx ⊢
    rw [rgmHashMapWriteHeader_out, copy_out]
    · unfold Out at *
      omega
    · unfold Out at *
      omega

/-- A use of a map stays inside its arena. -/
theorem Session.Use.inside {w w' : Session} (h : w.map.Placed page w.arena forest)
    (huse : Session.Use page w w') : Inside w.arena w'.arena := by
  cases huse with
  | put hput => exact h.put_inside hpage _ _ hput
  | putU64 hput =>
    rw [rgHashMapPutU64_eq] at hput
    exact h.put_inside hpage _ _ hput
  | write hget hp =>
    obtain ⟨-, a, -, ha, rfl⟩ := h.get_node hget hp
    have hin := (h.rep.inside a ha).2
    have hpos := h.ok.pos_le
    have hcommitted := h.ok.committed_le
    have hsize : HashMapNode.size = 40 := rfl
    refine .setMem fun x hx => storeLE_out _ ?_
    unfold ArenaState.valuePtr
    unfold Out at *
    omega

end

end RgMemory
