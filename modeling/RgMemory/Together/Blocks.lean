import RgMemory.HashMap.Run
import RgMemory.Together.Parts

/-!
# The blocks beside the maps

`World` has any number of hash maps on one arena and a client with blocks of its own. This module
says what the two do to each other: a step of the world leaves every byte of every block as it is,
unless it is the client's own write to that byte (`World.Next`), and whatever is written inside a
block, the maps do not notice (`World.Sound.within`).
-/

namespace RgMemory

open Bytes Trie

variable {ι : Type}

/-- The step is a write of the client to the byte at `x`. -/
def MapEvent.Scribbles (x : Nat) : MapEvent ι → Prop
  | .scribble b k _ => b.addr + k = x
  | _ => False

/-- A key that is noted changes no block. -/
theorem notePut_blocks [DecidableEq ι] (c : Client ι) (i : ι) (key : List Byte) (p : Nat) :
    (c.notePut i key p).blocks = c.blocks := by
  unfold Client.notePut
  split
  · rfl
  · split <;> rfl

namespace World

/-- The client's blocks lie above the base of the arena. -/
def Above (w : World ι) : Prop := ∀ b ∈ w.client.blocks, w.arena.base ≤ b.addr

/-- A state of the arena with the blocks of the client as they were. -/
structure Spares (w : World ι) (s' : ArenaState) : Prop where
  base : s'.base = w.arena.base
  mem : ∀ b ∈ w.client.blocks, Set.EqOn s'.mem w.arena.mem b.bytes

/-- A step of the world: the client keeps its blocks, and their bytes unless it writes them. -/
structure Next (w w' : World ι) (e : MapEvent ι) : Prop where
  base : w'.arena.base = w.arena.base
  above : w'.Above
  blocks : ∀ b ∈ w.client.blocks, b ∈ w'.client.blocks
  mem : ∀ b ∈ w.client.blocks, ∀ x ∈ b.bytes, ¬ e.Scribbles x → w'.arena.mem x = w.arena.mem x

namespace Sound

variable {page : Nat} {w : World ι} {forests : ι → Fin 4096 → Trie 4 (BitVec 32)}

/-! ## Blocks and maps -/

/-- What is written inside a block of the client touches no node. -/
theorem within (h : w.Sound page forests) {b : Block} (hb : b ∈ w.client.blocks) {m : Mem}
    (hm : Set.EqOn m w.arena.mem (b.bytes)ᶜ) :
    World.Sound page ⟨w.arena.setMem m, w.maps, w.client⟩ forests := by
  have hbyte : ∀ i, ∀ a ∈ listAll (forests i), ∀ y, a.toNat ≤ y →
      y < a.toNat + HashMapNode.extent w.arena.img a →
      m (w.arena.base + y) = w.arena.img y := by
    intro i a ha y hy hy'
    have hapart := h.blocks_apart b hb i a ha
    unfold Apart at hapart
    exact hm (not_mem_bytes.mpr (by unfold Out; omega))
  refine h.frame (h.ok.withMem _) rfl (Nat.le_refl _) (fun i a ha => ?_) fun i a ha => ?_
  · exact .of_bytes fun y hy hy' _ => hbyte i a ha y hy hy'
  · have hsize : 40 ≤ HashMapNode.extent w.arena.img a := Nat.le_add_right ..
    exact load64_congr fun j hj => hbyte i a ha _ (by omega) (by omega)

/-- A part of a block is a block. -/
theorem part (h : w.Sound page forests) {b c : Block} (hc : c ∈ w.client.blocks)
    (hlo : c.addr ≤ b.addr) (hhi : b.addr + b.size ≤ c.addr + c.size) :
    World.Sound page ⟨w.arena, w.maps, { w.client with blocks := b :: w.client.blocks }⟩
      forests := by
  refine ⟨h.ok, h.live, h.aligned, h.rep, h.unused, h.cross, fun d hd => ?_,
    fun d hd i a ha => ?_, h.cells, h.seated⟩
  · rcases List.mem_cons.mp hd with rfl | hold
    · exact Nat.le_trans hhi (h.blocks_below c hc)
    · exact h.blocks_below d hold
  · rcases List.mem_cons.mp hd with rfl | hold
    · have hapart := h.blocks_apart c hc i a ha
      show Apart d.addr d.size (w.arena.base + a.toNat) (HashMapNode.extent w.arena.img a)
      unfold Apart at hapart ⊢
      omega
    · exact h.blocks_apart d hold i a ha

/-! ## Steps and blocks -/

/-- The bytes below the position are kept, so those of the blocks are. -/
theorem spares_of_kept (h : w.Sound page forests) (habove : w.Above) {s' : ArenaState}
    (hkept : Kept w.arena s') : w.Spares s' where
  base := hkept.base
  mem := by
    intro b hb x hx
    have hlo := habove b hb
    have hhi := h.blocks_below b hb
    have hin := mem_bytes.mp hx
    exact hkept.mem x (by omega) (by omega)

/-- An upsert writes a node of its own and a link in another, and no block of the client. -/
theorem put_spares (h : w.Sound page forests) (hpage : IsPageSize page) (habove : w.Above)
    (os : OsReply) {i : ι} (hready : w.client.ready i = true) {key : KeyArg} {p : Nat}
    {map' : HashMap} {s' : ArenaState}
    (hput : rgHashMapPut page os (w.maps i) w.arena key = .ok (p, map', s')) : w.Spares s' := by
  unfold rgHashMapPut at hput
  cases hrefuses : rgmHashMapRefuses (w.maps i) w.arena.toArena key with
  | true =>
    rw [hrefuses, if_pos rfl] at hput
    cases hput
    exact h.spares_of_kept habove (.refl _)
  | false =>
    have hlen := length_lt_of_not_refused hrefuses
    obtain ⟨answer, hgo, hcases⟩ :=
      rgmHashMapPut_cases hpage os h.ok h.aligned (h.rep i hready) hlen
    rw [hrefuses, if_neg Bool.false_ne_true, hgo] at hput
    cases hcases with
    | hit =>
      cases hput
      exact h.spares_of_kept habove (.refl _)
    | refused absent ok kept pos =>
      cases hput
      exact h.spares_of_kept habove kept
    | inserted absent ins =>
      cases hput
      refine ⟨ins.base, fun b hb x hx => ?_⟩
      have hlo := habove b hb
      have hhi := h.blocks_below b hb
      have hin := mem_bytes.mp hx
      have hbase : s'.base = w.arena.base := ins.base
      have hbyte := ins.frame_apart (y := x - w.arena.base) (by omega) fun a ha => by
        have hapart := h.blocks_apart b hb i a ha
        unfold Apart at hapart
        unfold Out
        omega
      unfold ArenaState.img at hbyte
      rw [hbase, Nat.add_sub_cancel' (by omega)] at hbyte
      exact hbyte

/-- A value that is written through the pointer that a key was given touches no block. -/
theorem store_spares (h : w.Sound page forests) {i : ι} {key : List Byte}
    {p : Nat} {old : BitVec 64} (hcell : w.client.cells i key = some (p, old)) (v : BitVec 64) :
    w.Spares (w.arena.setMem (store64 w.arena.mem p v)) := by
  have hmap := h.cells i key
  rw [hcell] at hmap
  obtain ⟨a, hfound, hpair⟩ := Option.map_eq_some_iff.mp hmap.symm
  obtain ⟨rfl, -⟩ := Prod.mk.inj hpair
  refine ⟨rfl, fun b hb x hx => storeLE_out _ ?_⟩
  have hapart := h.blocks_apart b hb i a (mem_of_nodeOf hfound).1
  have hin := mem_bytes.mp hx
  have hsize : 40 ≤ HashMapNode.extent w.arena.img a := Nat.le_add_right ..
  unfold Apart at hapart
  unfold Out ArenaState.valuePtr
  omega

/-- A step that gives the client no block. -/
theorem next_of_spares {e : MapEvent ι} {s' : ArenaState} {maps : ι → HashMap}
    {client : Client ι} (habove : w.Above) (hspares : w.Spares s')
    (hblocks : client.blocks = w.client.blocks) : w.Next ⟨s', maps, client⟩ e where
  base := hspares.base
  above := by
    intro b hb
    rw [hblocks] at hb
    show s'.base ≤ b.addr
    rw [hspares.base]
    exact habove b hb
  blocks := by
    intro b hb
    show b ∈ client.blocks
    rwa [hblocks]
  mem := fun b hb x hx _ => hspares.mem b hb hx

/-- An allocation gives the client a block above those it has. -/
theorem alloc_next (h : w.Sound page forests) (hpage : IsPageSize page) (habove : w.Above)
    (e : MapEvent ι) (os : OsReply) (size al : BitVec 64) :
    w.Next ⟨(rgArenaAllocAligned page os w.arena size.toNat al.toNat).2, w.maps,
      w.client.noteAlloc size.toNat
        (rgArenaAllocAligned page os w.arena size.toNat al.toNat).1⟩ e := by
  rcases rgArenaAllocAligned_cases hpage os h.ok size.isLt al.isLt with hnull | ⟨p, s', hok, hg⟩
  · rw [hnull]
    exact next_of_spares habove (h.spares_of_kept habove (.refl _)) rfl
  · rw [hok]
    have hkept := hg.kept h.ok
    have hp := hg.above
    have hlive := hg.live
    have hnote : w.client.noteAlloc size.toNat p =
        { w.client with blocks := ⟨p, size.toNat⟩ :: w.client.blocks } := if_neg (by omega)
    have hspares := h.spares_of_kept habove hkept
    rw [hnote]
    refine ⟨hkept.base, fun b hb => ?_, fun b hb => List.mem_cons_of_mem _ hb,
      fun b hb x hx _ => hspares.mem b hb hx⟩
    show s'.base ≤ b.addr
    rw [hkept.base]
    rcases List.mem_cons.mp hb with rfl | hold
    · show w.arena.base ≤ p
      omega
    · exact habove b hold

variable [DecidableEq ι]

theorem upsert_next (h : w.Sound page forests) (habove : w.Above) {i : ι} {e : MapEvent ι}
    {answer : MapAnswer} {w' : World ι} {result : Except Stop (Nat × HashMap × ArenaState)}
    (hexec : w.exec page e = w.upsert i result)
    (hnote : ∀ p, (w.client.note e (.pointer p)).blocks = w.client.blocks)
    (hresult : w.client.ready i = true → ∀ {p map' s'}, result = .ok (p, map', s') → w.Spares s')
    (hstep : w.step page e = .ok (answer, w')) : w.Next w' e := by
  unfold World.step at hstep
  rw [hexec] at hstep
  unfold World.upsert at hstep
  cases hready : w.client.ready i with
  | false =>
    rw [hready, if_neg Bool.false_ne_true] at hstep
    cases hstep
    exact next_of_spares habove (h.spares_of_kept habove (.refl _)) (hnote 0)
  | true =>
    rw [hready, if_pos rfl] at hstep
    cases result with
    | error stop => cases hstep
    | ok out =>
      obtain ⟨p, map', s'⟩ := out
      cases hstep
      exact next_of_spares habove (hresult hready rfl) (hnote p)

theorem lookup_next (h : w.Sound page forests) (habove : w.Above) {i : ι} {e : MapEvent ι}
    {answer : MapAnswer} {w' : World ι} {result : Except Stop Nat}
    (hexec : w.exec page e = w.lookup i result)
    (hnote : ∀ p, (w.client.note e (.pointer p)).blocks = w.client.blocks)
    (hstep : w.step page e = .ok (answer, w')) : w.Next w' e := by
  have hsame := h.spares_of_kept habove (.refl _)
  unfold World.step at hstep
  rw [hexec] at hstep
  unfold World.lookup at hstep
  cases hready : w.client.ready i with
  | false =>
    rw [hready, if_neg Bool.false_ne_true] at hstep
    cases hstep
    exact next_of_spares habove hsame (hnote 0)
  | true =>
    rw [hready, if_pos rfl] at hstep
    cases result with
    | error stop => cases hstep
    | ok p =>
      cases hstep
      exact next_of_spares habove hsame (hnote p)

theorem store_next (h : w.Sound page forests) (habove : w.Above) {i : ι} {key : List Byte}
    {v : BitVec 64} {answer : MapAnswer} {w' : World ι}
    (hstep : w.step page (.store i key v) = .ok (answer, w')) :
    w.Next w' (.store i key v) := by
  unfold World.step World.exec Client.note at hstep
  dsimp only at hstep
  cases hcell : w.client.cells i key with
  | none =>
    rw [hcell] at hstep
    cases hstep
    exact next_of_spares habove (h.spares_of_kept habove (.refl _)) rfl
  | some cell =>
    rw [hcell] at hstep
    cases hstep
    exact next_of_spares habove (h.store_spares hcell v) rfl

theorem scribble_next (h : w.Sound page forests) (habove : w.Above) {b : Block} {k : Nat}
    {v : Byte} {answer : MapAnswer} {w' : World ι}
    (hstep : w.step page (.scribble b k v) = .ok (answer, w')) :
    w.Next w' (.scribble b k v) := by
  unfold World.step World.exec at hstep
  dsimp only at hstep
  by_cases hb : b ∈ w.client.blocks ∧ k < b.size
  · rw [if_pos hb] at hstep
    cases hstep
    refine ⟨rfl, habove, fun _ hold => hold, fun c _ x _ hx => if_neg fun heq => hx heq.symm⟩
  · rw [if_neg hb] at hstep
    cases hstep
    exact next_of_spares habove (h.spares_of_kept habove (.refl _)) rfl

/-- Every step leaves the blocks of the client alone, but for its own writes. -/
theorem step_next (h : w.Sound page forests) (hpage : IsPageSize page) (habove : w.Above)
    {e : MapEvent ι} {answer : MapAnswer} {w' : World ι}
    (hstep : w.step page e = .ok (answer, w')) : w.Next w' e := by
  cases e with
  | init i os =>
    have hsame := h.spares_of_kept habove (.refl _)
    rcases rgHashMapInit_cases hpage os (w.maps i) h.ok h.live with
      ⟨st, map', hinit, -⟩ | ⟨s', hinit, -, hkept, -⟩
    · unfold World.step World.exec at hstep
      dsimp only at hstep
      rw [hinit] at hstep
      cases hstep
      exact next_of_spares habove hsame rfl
    · unfold World.step World.exec at hstep
      dsimp only at hstep
      rw [hinit] at hstep
      cases hstep
      exact next_of_spares habove (h.spares_of_kept habove hkept) rfl
  | put i os key =>
    refine h.upsert_next habove rfl (fun p => notePut_blocks ..) (fun hready {p map' s'} hput => ?_)
      hstep
    exact h.put_spares hpage habove os hready hput
  | putU64 i os key =>
    refine h.upsert_next habove rfl (fun p => notePut_blocks ..) (fun hready {p map' s'} hput => ?_)
      hstep
    rw [rgHashMapPutU64_eq] at hput
    exact h.put_spares hpage habove os hready hput
  | get i key => exact h.lookup_next habove rfl (fun _ => rfl) hstep
  | getU64 i key => exact h.lookup_next habove rfl (fun _ => rfl) hstep
  | store i key v => exact h.store_next habove hstep
  | alloc os size =>
    rw [step_alloc] at hstep
    cases hstep
    exact h.alloc_next hpage habove _ os size 16
  | allocAligned os size al =>
    cases hstep
    exact h.alloc_next hpage habove _ os size al
  | allocFast os size =>
    rw [step_allocFast] at hstep
    cases hstep
    exact h.alloc_next hpage habove _ os size 16
  | scribble b k v => exact h.scribble_next habove hstep

end Sound

end World

end RgMemory
