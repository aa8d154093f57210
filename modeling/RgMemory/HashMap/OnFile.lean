import RgMemory.Arena.Contents
import RgMemory.HashMap.Inside

/-!
# A map in a file

A map on an arena from `rgArenaCreateShared`, in a process that does other things as well. What a save
leaves is in the file, and stays there whatever the process does to its other arenas, when it destroys
this one, when it ends, and when the machine stops after a flush. `rgArenaOpenShared` and
`rgHashMapOpen` find the map again (`file_map_survives`).
-/

namespace RgMemory

open Bytes Trie Files Process

/-! ## What a mapping shows -/

section

variable {page : Nat} {map : HashMap} {s s0 s1 s' : ArenaState}
  {forest : Fin 4096 → Trie 4 (BitVec 32)}

/-- The same bytes below the position. -/
theorem HashMap.Built.transfer (h : map.Built page s forest) (hok : s'.Ok page)
    (harena : s'.toArena = s.toArena) (hbytes : ∀ y, y < s.pos → s'.img y = s.img y) :
    map.Built page s' forest := by
  have hbase : s'.base = s.base := congrArg Arena.base harena
  have hpos : s.pos ≤ s'.pos := Nat.le_of_eq (congrArg Arena.pos harena).symm
  have hsent := h.sentinel
  refine h.congr hok (hbase ▸ h.live) (hbase ▸ h.aligned) hpos
    (fun y hy => hbytes y (Nat.lt_of_lt_of_le hy hsent)) fun a ha => .of_bytes fun y _ hy _ => ?_
  have hin := (h.rep.inside a ha).2
  refine hbytes y ?_
  unfold HashMapNode.extent at hy
  omega

/-- The values of a map, in a mapping of what a save left. -/
theorem Saved.reopened_value (hsaved : Saved page map s s1 forest) (h : map.Built page s forest)
    (hline : 64 ∣ page) (hdepth : ∀ i, (forest i).DepthLe rgmHashMapValidateMaxDepth)
    (hmap : Mapped page s1 s') (map0 : HashMap) :
    rgHashMapOpen map0 s' = (.ok, map, s'.setPos s1.pos) ∧
      ∀ key, rgmHashMapValue map (s'.setPos s1.pos) key = rgmHashMapValue map s key := by
  obtain ⟨hopen, hbuilt⟩ := hsaved.reopened hline hdepth hmap map0
  obtain ⟨-, -, -, hagree⟩ := hsaved.mapped hmap
  refine ⟨hopen, fun key => ?_⟩
  have hvalue : ∀ a ∈ listAll forest, HashMapNode.value (s'.setPos s1.pos).img a =
      HashMapNode.value s1.img a := by
    intro a ha
    have hin := (hsaved.built.rep.inside a ha).2
    have hsize : HashMapNode.size = 40 := rfl
    exact load64_congr fun k hk => hmap.bytes _ (by omega)
  rw [hsaved.built.placed.value_congr hbuilt.placed hagree hvalue key,
    h.placed.value_congr hsaved.built.placed hsaved.agree hsaved.value key]

end

section

variable {ν α : Type} {page : Nat} {h0 : Host ν} {p : Process ν α} {a : α} {r : Region}

/-- The arena shows what was written to its mapping. -/
theorem Process.absorb_img [DecidableEq α] (h : p.Accounted page h0) {s : ArenaState}
    (hr : r ∈ p.host.regions) (hover : Over (p.arena a) r) (hinside : Inside (p.view a) s) {y : Nat}
    (hy : y < s.reserved) : ((p.absorb a r s).view a).img y = s.img y := by
  have harena : (p.absorb a r s).arena a = s.toArena := Function.update_self ..
  have hx : r.Has (s.base + y) := by
    have hbase : r.base = s.base := hover.base.trans hinside.base.symm
    have hlen : r.len = s.reserved := hover.len.trans hinside.reserved.symm
    unfold Region.Has
    omega
  show (p.host.write r s.mem).load (((p.absorb a r s).arena a).base + y) = s.mem (s.base + y)
  rw [harena]
  exact h.wf.load_write hr s.mem hx

end

/-! ## Sessions -/

/-- A process, and a map on one of its arenas. -/
structure FileSession (ν α : Type) where
  process : Process ν α
  map : HashMap

namespace FileSession

variable {ν α : Type} [DecidableEq α]

/-- A step while the map is in use on the arena `a`, over the file `i`: something is done with the
map, or something else that is not on the file. -/
inductive Step [DecidableEq ν] (page : Nat) (a : α) (i : Nat) : FileSession ν α → FileSession ν α → Prop
  | use {w : FileSession ν α} {r : Region} {map' : HashMap} {s' : ArenaState}
      (huse : Session.Use page ⟨w.map, w.process.view a⟩ ⟨map', s'⟩)
      (mem : r ∈ w.process.host.regions) (region : Over (w.process.arena a) r)
      (writable : r.writable = true) : Step page a i w ⟨w.process.absorb a r s', map'⟩
  | save {w : FileSession ν α} {os : OsReply} {r : Region} {s' : ArenaState}
      (hsave : rgHashMapSave page os w.map (w.process.view a) = (.ok, s'))
      (mem : r ∈ w.process.host.regions) (region : Over (w.process.arena a) r)
      (writable : r.writable = true) : Step page a i w ⟨w.process.absorb a r s', w.map⟩
  | other {w : FileSession ν α} {b : α} {c : ProcessCall ν} (hb : b ≠ a ∨ c = .flush)
      (allowed : w.process.Allowed page b c) (spares : c.Spares w.process.host i) :
      Step page a i w ⟨(w.process.call page b c).2, w.map⟩

/-- A live arena over the file that the name leads to. -/
structure OverFile (page : Nat) (h0 : Host ν) (a : α) (path : ν) (i : Nat) (p : Process ν α) :
    Prop where
  accounted : p.Accounted page h0
  named : p.host.names path = some i
  live : 0 < (p.arena a).base
  region : ∃ r ∈ p.host.regions, Over (p.arena a) r ∧ r.file = some i ∧ (p.host.files i).size = r.len

/-- The map is built, on such an arena. -/
structure OnFile (page : Nat) (h0 : Host ν) (a : α) (path : ν) (i : Nat) (w : FileSession ν α) :
    Prop extends OverFile page h0 a path i w.process where
  built : ∃ forest, w.map.Built page (w.process.view a) forest ∧ Seated (w.process.view a).img forest

namespace OnFile

variable {page : Nat} {h0 : Host ν} {a b : α} {path : ν} {i : Nat} {p : Process ν α}
  {w : FileSession ν α} {c : ProcessCall ν}

/-- What is done in the arena. -/
theorem absorb (h : OverFile page h0 a path i p) {r : Region} {map' : HashMap} {s' : ArenaState}
    (hr : r ∈ p.host.regions) (hover : Over (p.arena a) r) (hinside : Inside (p.view a) s')
    (hbuilt : ∃ forest, map'.Built page s' forest ∧ Seated s'.img forest) :
    OnFile page h0 a path i ⟨p.absorb a r s', map'⟩ := by
  obtain ⟨forest, hb, hseated⟩ := hbuilt
  have harena : (p.absorb a r s').arena a = s'.toArena := Function.update_self ..
  have hacc := h.accounted.work (r := r) hinside hb.ok
  have himg : ∀ y, y < s'.pos → ((p.absorb a r s').view a).img y = s'.img y := by
    intro y hy
    have hpos := hb.ok.pos_le
    have hcommitted := hb.ok.committed_le
    exact absorb_img h.accounted hr hover hinside (by omega)
  refine ⟨⟨hacc, ?_, ?_, ?_⟩, forest, hb.transfer (hacc.ok a) harena himg,
    hseated.congr fun x hx => ?_⟩
  · exact (congrFun (Host.write_names ..) path).trans h.named
  · rw [harena]
    exact hb.live
  · obtain ⟨r', hr', hover', hfile, hsize⟩ := h.region
    refine ⟨r', ?_, ?_, hfile, (Host.write_size ..).trans hsize⟩
    · exact (Host.write_regions ..).symm ▸ hr'
    · rw [harena]
      exact ⟨hover'.base.trans hinside.base.symm, hover'.len.trans hinside.reserved.symm,
        hover'.file.trans (by rw [hinside.backing]; rfl),
        fun hanon => hover'.anon (hinside.backing ▸ hanon)⟩
  · have hin := (hb.rep.inside x hx).2
    refine (NodeAgree.of_bytes fun y _ hy _ => himg y ?_).toNodeBody
    unfold HashMapNode.extent at hy
    omega

theorem use (h : OnFile page h0 a path i w) (hpage : IsPageSize page) {r : Region} {map' : HashMap}
    {s' : ArenaState} (huse : Session.Use page ⟨w.map, w.process.view a⟩ ⟨map', s'⟩)
    (hr : r ∈ w.process.host.regions) (hover : Over (w.process.arena a) r) :
    OnFile page h0 a path i ⟨w.process.absorb a r s', map'⟩ := by
  obtain ⟨forest, hb, hseated⟩ := h.built
  have hbuilt := Session.Use.built (w := ⟨w.map, w.process.view a⟩) hpage hb hseated huse
  exact absorb h.toOverFile hr hover (huse.inside hpage hb.placed) hbuilt

theorem save (h : OnFile page h0 a path i w) (hpage : IsPageSize page) {os : OsReply} {r : Region}
    {s' : ArenaState} (hsave : rgHashMapSave page os w.map (w.process.view a) = (.ok, s'))
    (hr : r ∈ w.process.host.regions) (hover : Over (w.process.arena a) r) :
    OnFile page h0 a path i ⟨w.process.absorb a r s', w.map⟩ := by
  obtain ⟨forest, hb, hseated⟩ := h.built
  have hinside := hb.save_inside hpage os
  rw [hsave] at hinside
  have hsaved := hb.saved hpage hsave
  exact absorb h.toOverFile hr hover hinside ⟨forest, hsaved.built, hsaved.seated hseated⟩

omit [DecidableEq α] in
/-- The arena, its mapping and its file stay as they are. -/
theorem stay (h : OnFile page h0 a path i w) {p' : Process ν α} (hacc : p'.Accounted page h0)
    (harena : p'.arena a = w.process.arena a) (hnamed : p'.host.names path = some i)
    (hregions : ∀ r ∈ w.process.host.regions, Over (w.process.arena a) r → r ∈ p'.host.regions)
    (hkept : (w.process.host.files i).Kept (p'.host.files i)) :
    OnFile page h0 a path i ⟨p', w.map⟩ := by
  obtain ⟨r, hr, hover, hfile, hsize⟩ := h.region
  obtain ⟨forest, hb, hseated⟩ := h.built
  have hr' := hregions r hr hover
  have himg : ∀ y, y < (w.process.view a).pos → (p'.view a).img y = (w.process.view a).img y := by
    intro y hy
    have hpos := hb.ok.pos_le
    have hcommitted := hb.ok.committed_le
    have hx : r.Has ((w.process.arena a).base + y) := by
      have hreserved : r.len = (w.process.view a).reserved := hover.len
      unfold Region.Has
      rw [hover.base]
      omega
    show p'.host.load ((p'.arena a).base + y) = w.process.host.load ((w.process.arena a).base + y)
    rw [harena, hacc.wf.load_file hr' hfile hx, h.accounted.wf.load_file hr hfile hx, hkept.bytes]
  refine ⟨⟨hacc, hnamed, ?_, r, hr', ?_, hfile, hkept.size.trans hsize⟩, forest,
    hb.transfer (hacc.ok a) harena himg, hseated.congr fun x hx => ?_⟩
  · rw [harena]
    exact h.live
  · rw [harena]
    exact hover
  · have hin := (hb.rep.inside x hx).2
    refine (NodeAgree.of_bytes fun y _ hy _ => himg y ?_).toNodeBody
    unfold HashMapNode.extent at hy
    omega

variable [DecidableEq ν]

/-- What is done elsewhere, and a flush. -/
theorem other (h : OnFile page h0 a path i w) (hb : b ≠ a ∨ c = .flush)
    (hc : w.process.Allowed page b c) (hspares : c.Spares w.process.host i) :
    OnFile page h0 a path i ⟨(w.process.call page b c).2, w.map⟩ := by
  have hleaves := call_leaves h.accounted hc
  have hi := h.accounted.wf.exists_of i (.inl ⟨path, h.named⟩)
  have hnamed : (w.process.call page b c).2.host.names path = some i := by
    rw [hleaves.names path fun hcreates => hspares.1 path hcreates h.named]
    exact h.named
  refine h.stay (h.accounted.call hc) ?_ hnamed (fun r hr hover => ?_) (hleaves.files i hi hspares)
  · by_cases hba : b = a
    · rcases hb with hne | rfl
      · exact absurd hba hne
      · subst hba
        exact Function.update_self ..
    · exact call_arena page w.process (Ne.symm hba) c
  · rcases hb with hne | rfl
    · exact (call_region h.accounted hc (Ne.symm hne) h.live hr hover).1
    · show r ∈ (rgArenaFlush w.process.host (w.process.arena b)).regions
      rcases flush_cases w.process.host (w.process.arena b) with heq | heq
      · rw [heq]
        exact hr
      · rw [heq]
        exact hr

theorem step (h : OnFile page h0 a path i w) (hpage : IsPageSize page) {w' : FileSession ν α}
    (hstep : Step page a i w w') : OnFile page h0 a path i w' := by
  cases hstep with
  | use huse mem region => exact h.use hpage huse mem region
  | save hsave mem region => exact h.save hpage hsave mem region
  | other hb allowed spares => exact h.other hb allowed spares

theorem run (h : OnFile page h0 a path i w) (hpage : IsPageSize page) {w' : FileSession ν α}
    (hrun : Relation.ReflTransGen (Step page a i) w w') : OnFile page h0 a path i w' := by
  induction hrun with
  | refl => exact h
  | tail _ hstep ih => exact ih.step hpage hstep

end OnFile

end FileSession

/-! ## After the save -/

/-- What may happen afterwards, while the file is left alone: calls that are not on it, the end of the
process and the start of another, and a stop of the machine when the file is on the disk. -/
inductive Later {ν α : Type} [DecidableEq ν] [DecidableEq α] (page i : Nat) :
    Process ν α → Process ν α → Prop
  | call {p : Process ν α} {b : α} {c : ProcessCall ν} (allowed : p.Allowed page b c)
      (spares : c.Spares p.host i) : Later page i p (p.call page b c).2
  | exit {p : Process ν α} : Later page i p (start p.host.exit)
  | stop {p : Process ν α} (found : Nat → Mem)
      (clean : ∀ y, y < (p.host.files i).size → (p.host.files i).dirty y = false) :
      Later page i p (start (p.host.powerLoss found))

/-- The name leads to a file with these contents. -/
structure Keeps {ν α : Type} (page : Nat) (path : ν) (i : Nat) (f : File) (p : Process ν α) : Prop where
  accounted : ∃ h0, p.Accounted page h0
  named : p.host.names path = some i
  size : (p.host.files i).size = f.size
  bytes : ∀ y, y < f.size → (p.host.files i).bytes y = f.bytes y

namespace Keeps

variable {ν α : Type} [DecidableEq ν] [DecidableEq α] {page : Nat} {path : ν} {i : Nat} {f : File}
  {p p' : Process ν α}

theorem later (h : Keeps page path i f p) (hlater : Later page i p p') : Keeps page path i f p' := by
  obtain ⟨h0, hacc⟩ := h.accounted
  have hi := hacc.wf.exists_of i (.inl ⟨path, h.named⟩)
  cases hlater with
  | @call b c allowed spares =>
    have hleaves := call_leaves hacc allowed
    have hkept := hleaves.files i hi spares
    refine ⟨⟨h0, hacc.call allowed⟩, ?_, hkept.size.trans h.size, fun y hy => ?_⟩
    · rw [hleaves.names path fun hcreates => spares.1 path hcreates h.named]
      exact h.named
    · rw [hkept.bytes]
      exact h.bytes y hy
  | exit => exact ⟨⟨_, .start hacc.wf.exit⟩, h.named, h.size, h.bytes⟩
  | stop found clean =>
    refine ⟨⟨_, .start (hacc.wf.powerLoss found)⟩, h.named, h.size, fun y hy => ?_⟩
    show (if (p.host.files i).dirty y then found i y else (p.host.files i).bytes y) = f.bytes y
    rw [clean y (h.size ▸ hy), if_neg (by decide)]
    exact h.bytes y hy

theorem run (h : Keeps page path i f p) (hrun : Relation.ReflTransGen (Later page i) p p') :
    Keeps page path i f p' := by
  induction hrun with
  | refl => exact h
  | tail _ hlater ih => exact ih.later hlater

end Keeps

section

variable {ν α : Type} {page : Nat} {h0 : Host ν} {p p1 : Process ν α} {a b : α} {path : ν} {i : Nat}

/-- The bytes that an arena shows are those of its file. -/
theorem FileSession.OverFile.img_eq (h : FileSession.OverFile page h0 a path i p) :
    (p.host.files i).size = (p.arena a).reserved ∧
      ∀ y, y < (p.arena a).reserved → (p.view a).img y = (p.host.files i).bytes y := by
  obtain ⟨r, hr, hover, hfile, hsize⟩ := h.region
  refine ⟨hsize.trans hover.len, fun y hy => ?_⟩
  have hx : r.Has ((p.arena a).base + y) := by
    unfold Region.Has
    rw [hover.base, hover.len]
    omega
  show p.host.load ((p.arena a).base + y) = _
  rw [h.accounted.wf.load_file hr hfile hx, hover.base, Nat.add_sub_cancel_left]

/-- A flush brings the file to the disk. -/
theorem FileSession.OverFile.flush_clean (h : FileSession.OverFile page h0 a path i p) {y : Nat}
    (hy : y < (p.host.files i).size) :
    ((rgArenaFlush p.host (p.arena a)).files i).dirty y = false := by
  obtain ⟨r, hr, hover, hfile, hsize⟩ := h.region
  have hbacking : (p.arena a).backing = .file := by
    cases hback : (p.arena a).backing with
    | file => rfl
    | anon => exact absurd (hover.file.mpr hback) (by rw [hfile]; exact Option.some_ne_none i)
  have hcommitted := h.accounted.full a hbacking
  have hlive : rgmArenaIsLive (p.arena a) = true := decide_eq_true (Nat.ne_of_gt h.live)
  have hlen := hover.len
  have hbase := hover.base
  have hany : (p.host.regions.any fun r => decide (r.file = some i ∧ y < r.len ∧
      (p.arena a).base ≤ r.base + y ∧
        r.base + y < (p.arena a).base + (p.arena a).committed)) = true :=
    List.any_eq_true.mpr ⟨r, hr, decide_eq_true ⟨hfile, by omega, by omega, by omega⟩⟩
  unfold rgArenaFlush
  rw [hlive, if_neg (by simp [hbacking])]
  show ((p.host.files i).dirty y && !_) = false
  rw [hany]
  exact Bool.and_false _

variable [DecidableEq ν] [DecidableEq α]

/-- A successful `rgArenaCreateShared`. -/
theorem createShared_overFile (h : p.Accounted page h0) {os : FileReply} {n : BitVec 64}
    (hc : p.Allowed page a (.createShared os (some path) n))
    (hok : p.call page a (.createShared os (some path) n) = (.ok, p1)) :
    ∃ i, FileSession.OverFile page h0 a path i p1 ∧ (p1.arena a).pos = 0 := by
  obtain ⟨i, r, hname, hregions, hfile, hsize, harena, hlive⟩ :=
    rgArenaCreateShared_ok page (p.arena a) hc.2.1 (congrArg Prod.fst hok)
  have hacc := h.call hc
  rw [hok] at hacc
  have hhost : p1.host =
      (rgArenaCreateShared page os p.host (p.arena a) (some path) n.toNat).2.1 :=
    (congrArg (fun x => x.2.host) hok).symm
  have harena1 : p1.arena a = ⟨r.base, r.len, r.len, 0, .file⟩ :=
    ((congrArg (fun x => x.2.arena a) hok).symm.trans (Function.update_self ..)).trans harena
  refine ⟨i, ⟨hacc, ?_, ?_, r, ?_, ?_, hfile, ?_⟩, ?_⟩
  · rw [hhost]
    exact hname
  · rw [harena1]
    exact hlive
  · rw [hhost, hregions]
    exact List.mem_cons_self
  · rw [harena1]
    exact ⟨rfl, rfl, by rw [hfile]; exact ⟨nofun, nofun⟩, nofun⟩
  · rw [hhost]
    exact hsize
  · rw [harena1]

/-- `rgArenaOpenShared` maps what is in the file. -/
theorem Keeps.opened {f : File} (h : Keeps page path i f p) {os : FileReply} {readOnly : Bool}
    (hc : p.Allowed page b (.openShared os (some path) readOnly))
    (hok : p.call page b (.openShared os (some path) readOnly) = (.ok, p1)) {s : ArenaState}
    (hpos : s.pos ≤ f.size) (hbytes : ∀ y, y < s.pos → f.bytes y = s.img y) :
    Mapped page s (p1.view b) := by
  obtain ⟨h0, hacc⟩ := h.accounted
  obtain ⟨j, r, hname, hfile, hlen, hlive, heq⟩ :=
    rgArenaOpenShared_ok (p.arena b) readOnly hc.2.1 (congrArg Prod.fst hok)
  cases hname.symm.trans h.named
  have hacc1 := hacc.call hc
  rw [hok] at hacc1
  have hhost : p1.host = p.host.addRegion r :=
    (congrArg (fun x => x.2.host) hok).symm.trans (congrArg (fun x => x.2.1) heq)
  have harena : p1.arena b = ⟨r.base, r.len, r.len, r.len, .file⟩ :=
    ((congrArg (fun x => x.2.arena b) hok).symm.trans (Function.update_self ..)).trans
      (congrArg (fun x => x.2.2) heq)
  have hok1 := hacc1.ok b
  have hsize : r.len = f.size := hlen.trans h.size
  have hv : p1.view b = ⟨⟨r.base, r.len, r.len, r.len, .file⟩, p1.host.load, p1.host.access⟩ := by
    rw [view, harena]
  have hr : r ∈ p1.host.regions := by
    rw [hhost]
    exact List.mem_cons_self
  refine ⟨hok1.base_page, ?_, hok1.fits, ?_, ?_, ?_, hok1.opened, fun y hy => ?_⟩
  · rw [hv]
    exact hlive
  · rw [hv]
  · rw [hv]
  · rw [hv]
    exact hsize ▸ hpos
  · have hx : r.Has (r.base + y) := by
      unfold Region.Has
      omega
    rw [hv]
    show p1.host.load (r.base + y) = s.img y
    rw [hacc1.wf.load_file hr hfile hx, Nat.add_sub_cancel_left, hhost, ← hbytes y hy]
    exact h.bytes y (by omega)

end

/-- **A saved map survives in its file.** A map is initialised on an arena from
`rgArenaCreateShared` and used, in any order with other calls that are not on the file. After a
successful save, made while no path of the map is longer than the validator accepts, the file keeps
it through every later call that is not on it, the destruction of the arena included, through the end
of the process and, once the arena was flushed, through a stop of the machine. Whenever the file is
then opened under its name, writable or not, `rgHashMapOpen` gives the saved map, with the value of
every key. -/
theorem file_map_survives {ν α : Type} [DecidableEq ν] [DecidableEq α] {page : Nat}
    (hpage : IsPageSize page) (hline : 64 ∣ page) {h0 : Host ν} (hwf : h0.Wf) {p0 p1 : Process ν α}
    (hrun0 : Relation.ReflTransGen (Process.Step page) (start h0) p0) {a : α} {os : FileReply}
    {path : ν} {n : BitVec 64} (hcreate : p0.Allowed page a (.createShared os (some path) n))
    (hok : p0.call page a (.createShared os (some path) n) = (.ok, p1)) {os1 : OsReply}
    {map0 map1 : HashMap} {s1 : ArenaState} {r1 : Region} (hr1 : r1 ∈ p1.host.regions)
    (hover1 : Over (p1.arena a) r1)
    (hinit : rgHashMapInit page os1 map0 (p1.view a) = (.ok, map1, s1)) :
    ∃ i, p1.host.names path = some i ∧ ∀ w : FileSession ν α,
      Relation.ReflTransGen (FileSession.Step page a i) ⟨p1.absorb a r1 s1, map1⟩ w →
      ∀ os2 s2 r2, rgHashMapSave page os2 w.map (w.process.view a) = (.ok, s2) →
        w.map.DepthLe (w.process.view a) rgmHashMapValidateMaxDepth →
        r2 ∈ w.process.host.regions → Over (w.process.arena a) r2 →
        (∀ y, y < (w.process.host.files i).size →
          (((w.process.absorb a r2 s2).call page a .flush).2.host.files i).dirty y = false) ∧
        ∀ p3, Relation.ReflTransGen (Later page i) (w.process.absorb a r2 s2) p3 →
          ∀ b os3 readOnly p4, p3.Allowed page b (.openShared os3 (some path) readOnly) →
            p3.call page b (.openShared os3 (some path) readOnly) = (.ok, p4) →
            ∀ map, ∃ s5, rgHashMapOpen map (p4.view b) = (.ok, w.map, s5) ∧ s5.pos = s2.pos ∧
              ∀ key, ∃ v, rgmHashMapValue w.map s5 key = .ok v ∧
                rgmHashMapValue w.map (w.process.view a) key = .ok v := by
  have hacc0 : p0.Accounted page h0 := (Accounted.start hwf).run hrun0
  obtain ⟨i, hfile1, hpos1⟩ := createShared_overFile hacc0 hcreate hok
  have hok1 := hfile1.accounted.ok a
  have hbuilt1 := rgHashMapInit_fresh hpage hline hok1 hfile1.live hpos1 hinit
  have hinside1 := rgHashMapInit_inside hpage os1 hok1 map0
  rw [hinit] at hinside1
  have hon1 : FileSession.OnFile page h0 a path i ⟨p1.absorb a r1 s1, map1⟩ :=
    .absorb hfile1 hr1 hover1 hinside1 ⟨_, hbuilt1, .nil _⟩
  refine ⟨i, hfile1.named, fun w hrun os2 s2 r2 hsave hdepth hr2 hover2 => ?_⟩
  have hon := hon1.run hpage hrun
  obtain ⟨forest, hb, -⟩ := hon.built
  have hon2 := hon.save hpage hsave hr2 hover2
  have hinside2 : Inside (w.process.view a) s2 := by
    have hinside := hb.save_inside hpage os2
    rw [hsave] at hinside
    exact hinside
  have harena2 : (w.process.absorb a r2 s2).arena a = s2.toArena := Function.update_self ..
  obtain ⟨hsize2, himg2⟩ := hon2.toOverFile.img_eq
  rw [harena2] at hsize2 himg2
  refine ⟨fun y hy => ?_, fun p3 hlater b os3 readOnly p4 hopen hok4 map => ?_⟩
  · refine hon2.toOverFile.flush_clean ?_
    rw [hsize2, hinside2.reserved]
    exact Nat.lt_of_lt_of_eq hy hon.toOverFile.img_eq.1
  · have hsaved := hb.saved hpage hsave
    have hle : s2.pos ≤ s2.reserved :=
      Nat.le_trans hsaved.built.ok.pos_le hsaved.built.ok.committed_le
    have hkeeps : Keeps page path i ((w.process.absorb a r2 s2).host.files i)
        (w.process.absorb a r2 s2) :=
      ⟨⟨h0, hon2.accounted⟩, hon2.named, rfl, fun _ _ => rfl⟩
    have hmap : Mapped page s2 (p4.view b) := by
      refine (hkeeps.run hlater).opened hopen hok4 (hsize2 ▸ hle) fun y hy => ?_
      rw [← himg2 y (by omega)]
      exact absorb_img hon.accounted hr2 hover2 hinside2 (by omega)
    obtain ⟨hreopen, hvalue⟩ :=
      hsaved.reopened_value hb hline (hb.rep.depthLe_iff.mp hdepth) hmap map
    refine ⟨_, hreopen, setPos_pos .., fun key => ?_⟩
    exact ⟨_, (hvalue key).trans (hb.placed.value_eq key), hb.placed.value_eq key⟩

/-! ## An example -/

/-- The mapping of the sample process. -/
def sampleRegion : Region := ⟨65536, 20480, some 0, true⟩

/-- A map on its arena. -/
def sampleBound : HashMap × ArenaState :=
  (rgHashMapInit 4096 sampleOs ⟨false, fun _ => 0⟩ (sampleProcess.view true)).2

def sampleOnFile : FileSession Nat Bool :=
  ⟨sampleProcess.absorb true sampleRegion sampleBound.2, sampleBound.1⟩

/-- The session after a step with the map. -/
def sampleUsedOnFile (w : FileSession Nat Bool) (used : Session) : FileSession Nat Bool :=
  ⟨w.process.absorb true sampleRegion used.arena, used.map⟩

def samplePutOnFile (w : FileSession Nat Bool) (key : List Byte) : Nat × Session :=
  sampleUpsert ⟨w.map, w.process.view true⟩ key

def sampleOneOnFile : FileSession Nat Bool :=
  sampleUsedOnFile sampleOnFile (samplePutOnFile sampleOnFile [107]).2

/-- Two keys, and a value for the second. -/
def sampleTwoOnFile : FileSession Nat Bool :=
  sampleUsedOnFile sampleOneOnFile (samplePutOnFile sampleOneOnFile [41, 8]).2

def sampleWrittenOnFile : FileSession Nat Bool :=
  sampleUsedOnFile sampleTwoOnFile ⟨sampleTwoOnFile.map, (sampleTwoOnFile.process.view true).setMem
    (store64 (sampleTwoOnFile.process.view true).mem
      (samplePutOnFile sampleOneOnFile [41, 8]).1 7)⟩

def sampleFileSaved : ArenaState :=
  (rgHashMapSave 4096 sampleOs sampleWrittenOnFile.map
    (sampleWrittenOnFile.process.view true)).2

theorem sampleProcess_regions : sampleProcess.host.regions = [sampleRegion] := rfl

theorem sampleProcess_over : Over (sampleProcess.arena true) sampleRegion :=
  ⟨rfl, rfl, ⟨nofun, nofun⟩, nofun⟩

theorem sampleBound_init :
    rgHashMapInit 4096 sampleOs ⟨false, fun _ => 0⟩ (sampleProcess.view true) =
      (.ok, sampleBound.1, sampleBound.2) :=
  Prod.ext (by decide) rfl

theorem sampleFileSaved_save :
    rgHashMapSave 4096 sampleOs sampleWrittenOnFile.map (sampleWrittenOnFile.process.view true) =
      (.ok, sampleFileSaved) :=
  Prod.ext (by decide) rfl

theorem sampleOnFile_onFile : FileSession.OnFile 4096 sampleHost true 7 0 sampleOnFile := by
  obtain ⟨i, hfile, hpos⟩ :=
    createShared_overFile (.start sampleHost_wf) sampleCall_allowed sampleCall_ok
  obtain rfl : i = 0 := Option.some.inj (hfile.named.symm.trans (by decide))
  have hok := hfile.accounted.ok true
  have hinside : Inside (sampleProcess.view true) sampleBound.2 := by
    have hinside := rgHashMapInit_inside samplePage sampleOs hok ⟨false, fun _ => 0⟩
    rw [sampleBound_init] at hinside
    exact hinside
  have hbuilt := rgHashMapInit_fresh samplePage (by decide) hok hfile.live hpos sampleBound_init
  exact .absorb hfile (sampleProcess_regions ▸ List.mem_cons_self) sampleProcess_over hinside
    ⟨_, hbuilt, .nil _⟩

section

variable {w : FileSession Nat Bool}

/-- The one mapping of the sample process is that of its arena. -/
theorem sampleRegion_over (h : FileSession.OnFile 4096 sampleHost true 7 0 w)
    (hregions : w.process.host.regions = [sampleRegion]) :
    Over (w.process.arena true) sampleRegion := by
  obtain ⟨r, hr, hover, -⟩ := h.region
  rw [hregions] at hr
  exact List.mem_singleton.mp hr ▸ hover

/-- A use of the map is a step. -/
theorem sample_after (h : FileSession.OnFile 4096 sampleHost true 7 0 w)
    (hregions : w.process.host.regions = [sampleRegion]) {used : Session}
    (huse : Session.Use 4096 ⟨w.map, w.process.view true⟩ used) :
    FileSession.Step 4096 true 0 w (sampleUsedOnFile w used) ∧
      FileSession.OnFile 4096 sampleHost true 7 0 (sampleUsedOnFile w used) ∧
      (sampleUsedOnFile w used).process.host.regions = [sampleRegion] := by
  have hmem : sampleRegion ∈ w.process.host.regions := hregions ▸ List.mem_cons_self
  have hover := sampleRegion_over h hregions
  exact ⟨.use huse hmem hover rfl, h.use samplePage huse hmem hover,
    (Host.write_regions ..).trans hregions⟩

theorem samplePutOnFile_use (h : FileSession.OnFile 4096 sampleHost true 7 0 w)
    (key : List Byte) :
    Session.Use 4096 ⟨w.map, w.process.view true⟩ (samplePutOnFile w key).2 := by
  obtain ⟨forest, hb, -⟩ := h.built
  exact sampleUpsert_use (w := ⟨w.map, w.process.view true⟩) hb.placed key

end

theorem sampleWrittenOnFile_run :
    Relation.ReflTransGen (FileSession.Step 4096 true 0) sampleOnFile sampleWrittenOnFile ∧
      FileSession.OnFile 4096 sampleHost true 7 0 sampleWrittenOnFile ∧
      sampleWrittenOnFile.process.host.regions = [sampleRegion] := by
  obtain ⟨hone, hon1, hregions1⟩ := sample_after sampleOnFile_onFile sampleProcess_regions
    (samplePutOnFile_use sampleOnFile_onFile [107])
  obtain ⟨htwo, hon2, hregions2⟩ :=
    sample_after hon1 hregions1 (samplePutOnFile_use hon1 [41, 8])
  have hget : rgHashMapGet sampleTwoOnFile.map (sampleTwoOnFile.process.view true)
      ⟨false, [41, 8]⟩ = .ok (samplePutOnFile sampleOneOnFile [41, 8]).1 := by decide
  obtain ⟨hwrite, hon, hregions⟩ :=
    sample_after hon2 hregions2 (.write hget (by decide))
  exact ⟨((Relation.ReflTransGen.single hone).tail htwo).tail hwrite, hon, hregions⟩

theorem sampleWrittenOnFile_depth : sampleWrittenOnFile.map.DepthLe
    (sampleWrittenOnFile.process.view true) rgmHashMapValidateMaxDepth := by
  obtain ⟨-, hon, -⟩ := sampleWrittenOnFile_run
  obtain ⟨forest, hb, -⟩ := hon.built
  exact hb.rep.depthLe_of_pos (by decide)

/-- The saved map is there after the destruction of its arena, with its keys and the value. -/
theorem sampleFileSaved_survives : ∃ i, sampleProcess.host.names 7 = some i ∧
    ∀ p3, Relation.ReflTransGen (Later 4096 i)
      (sampleWrittenOnFile.process.absorb true sampleRegion sampleFileSaved) p3 →
      ∀ os p4, p3.Allowed 4096 false (.openShared os (some 7) true) →
        p3.call 4096 false (.openShared os (some 7) true) = (.ok, p4) →
        ∃ s5, rgHashMapOpen ⟨false, fun _ => 0⟩ (p4.view false) =
            (.ok, sampleWrittenOnFile.map, s5) ∧
          rgmHashMapValue sampleWrittenOnFile.map s5 ⟨false, [107]⟩ = .ok (some 0) ∧
          rgmHashMapValue sampleWrittenOnFile.map s5 ⟨false, [41, 8]⟩ = .ok (some 7) ∧
          rgmHashMapValue sampleWrittenOnFile.map s5 ⟨false, [5]⟩ = .ok none := by
  obtain ⟨i, hname, hfile⟩ := file_map_survives samplePage (by decide) sampleHost_wf .refl
    sampleCall_allowed sampleCall_ok (sampleProcess_regions ▸ List.mem_cons_self)
    sampleProcess_over sampleBound_init
  obtain rfl : i = 0 := Option.some.inj (hname.symm.trans (by decide))
  obtain ⟨hrun, hon, hregions⟩ := sampleWrittenOnFile_run
  obtain ⟨-, hopen⟩ := hfile sampleWrittenOnFile hrun sampleOs sampleFileSaved sampleRegion
    sampleFileSaved_save sampleWrittenOnFile_depth (hregions ▸ List.mem_cons_self)
    (sampleRegion_over hon hregions)
  refine ⟨0, hname, fun p3 hlater os p4 hallowed hok => ?_⟩
  obtain ⟨s5, hreopen, -, hvalue⟩ :=
    hopen p3 hlater false os true p4 hallowed hok ⟨false, fun _ => 0⟩
  have hsame : ∀ key, rgmHashMapValue sampleWrittenOnFile.map s5 key =
      rgmHashMapValue sampleWrittenOnFile.map (sampleWrittenOnFile.process.view true) key := by
    intro key
    obtain ⟨v, hv, hbefore⟩ := hvalue key
    exact hv.trans hbefore.symm
  refine ⟨s5, hreopen, ?_, ?_, ?_⟩
  all_goals
    rw [hsame]
    decide

end RgMemory
