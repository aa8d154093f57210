import RgMemory.Arena.Process

/-!
# What a call leaves alone

The names, the files and the contents of the other arenas. A call on an arena touches a file if it
works in a mapping of it, or truncates it under its name (`ProcessCall.Spares`); everything else
stays, whatever fails.
-/

namespace RgMemory

open Bytes Files

section

variable {ν α : Type}

/-- The name that a call may change. -/
def ProcessCall.creates : ProcessCall ν → Option ν
  | .createShared _ path _ => path
  | _ => none

/-- The call neither truncates the file nor works in a mapping of it. -/
def ProcessCall.Spares (h : Host ν) (i : Nat) (c : ProcessCall ν) : Prop :=
  (∀ q, c.creates = some q → h.names q ≠ some i) ∧ ∀ r s, c = .work r s → r.file ≠ some i

namespace Process

variable {page : Nat} {h0 : Host ν} {p : Process ν α} {a b : α} {c : ProcessCall ν} {i : Nat}

section

variable [DecidableEq α]

/-- A reservation is refused, or maps private memory. -/
theorem reserve_cases (page : Nat) (p : Process ν α) (a : α) (os : OsReply) (n : Nat) :
    (p.reserve page a os n).2 = p ∨ os.reserveBase ≠ 0 ∧ (p.reserve page a os n).1 = .ok ∧ ∃ s,
      (p.reserve page a os n).2 =
        { p with host := (p.host.addRegion ⟨os.reserveBase, rgmAlignUp n page, none, true⟩) }.absorb a
          ⟨os.reserveBase, rgmAlignUp n page, none, true⟩ s := by
  unfold reserve rgArenaCreate
  by_cases hn : n = 0
  · subst hn
    exact .inl rfl
  by_cases hbase : os.reserveBase = 0
  · simp only [hn, hbase, if_true, if_false, true_or]
  · refine .inr ⟨hbase, ?_⟩
    simp only [hn, hbase, if_false]
    exact ⟨trivial, _, rfl⟩

end

theorem flush_cases (h : Host ν) (a : Arena) :
    rgArenaFlush h a = h ∨ rgArenaFlush h a = h.sync a.base a.committed := by
  unfold rgArenaFlush
  split
  · exact .inl rfl
  · exact .inr rfl

theorem destroy_cases (h : Host ν) (a : Arena) :
    a.base = 0 ∧ rgArenaDestroy h a = (h, a) ∨
      a.base ≠ 0 ∧ rgArenaDestroy h a = (h.unmap a.base a.reserved, ⟨0, 0, 0, 0, .anon⟩) := by
  unfold rgArenaDestroy
  by_cases hbase : a.base = 0
  · have hinert : rgmArenaIsLive a = false := decide_eq_false (not_not.mpr hbase)
    rw [hinert]
    exact .inl ⟨hbase, rfl⟩
  · have hlive : rgmArenaIsLive a = true := decide_eq_true hbase
    rw [hlive]
    exact .inr ⟨hbase, rfl⟩

section

variable [DecidableEq ν]

/-- What a call on a file does to names and files. -/
theorem renamed_of_outcome {path : Option ν} {answer : Status × Host ν × Arena}
    (ho : FileOutcome page p.host (p.arena a) path answer) :
    ∃ h', Renamed p.host path h' ∧ answer.2.1.names = h'.names ∧ answer.2.1.files = h'.files ∧
      answer.2.1.next = h'.next ∧ answer.2.1.mem = h'.mem := by
  cases ho with
  | failed ne_ok renamed _ => exact ⟨_, renamed, rfl, rfl, rfl, rfl⟩
  | mapped renamed file found exists_file live free pos_le => exact ⟨_, renamed, rfl, rfl, rfl, rfl⟩

/-- What a call does to the file system, as far as a name and a file are concerned. -/
structure Leaves (h h' : Host ν) (c : ProcessCall ν) : Prop where
  next_le : h.next ≤ h'.next
  names : ∀ q, c.creates ≠ some q → h'.names q = h.names q
  named : ∀ i, h'.Named i → h.Named i ∨ h.next ≤ i
  files : ∀ i, i < h.next → c.Spares h i → (h.files i).Kept (h'.files i)

omit [DecidableEq ν] in
theorem Leaves.of_eq {h h' : Host ν} (hnext : h'.next = h.next) (hnames : h'.names = h.names)
    (hfiles : ∀ i, i < h.next → c.Spares h i → (h.files i).Kept (h'.files i)) : Leaves h h' c :=
  ⟨Nat.le_of_eq hnext.symm, fun q _ => congrFun hnames q,
    fun _ ⟨q, hq⟩ => .inl ⟨q, (congrFun hnames q).symm.trans hq⟩, hfiles⟩

omit [DecidableEq ν] in
theorem Leaves.refl (h : Host ν) (c : ProcessCall ν) : Leaves h h c :=
  .of_eq rfl rfl fun _ _ _ => .refl _

theorem Leaves.of_renamed {h : Host ν} {answer : Status × Host ν × Arena}
    (hr : ∃ h', Renamed h c.creates h' ∧ answer.2.1.names = h'.names ∧
      answer.2.1.files = h'.files ∧ answer.2.1.next = h'.next ∧ answer.2.1.mem = h'.mem) :
    Leaves h answer.2.1 c := by
  obtain ⟨h', hrenamed, hnames, hfiles, hnext, -⟩ := hr
  refine ⟨hnext ▸ hrenamed.next_le, fun q hq => ?_, fun i hnamed => ?_, fun i hi hspares => ?_⟩
  · rw [hnames]
    exact hrenamed.names hq
  · obtain ⟨q, hq⟩ := hnamed
    exact hrenamed.named ((congrFun hnames q).symm.trans hq)
  · rw [hfiles, hrenamed.files hi hspares.1]
    exact .refl _

variable [DecidableEq α]

theorem call_leaves (h : p.Accounted page h0) (hc : p.Allowed page a c) :
    Leaves p.host (p.call page a c).2.host c := by
  cases c with
  | create os n =>
    rcases reserve_cases page p a os n.toNat with heq | ⟨-, -, s, heq⟩
    · show Leaves _ (p.reserve page a os n.toNat).2.host _
      rw [heq]
      exact .refl ..
    · show Leaves _ (p.reserve page a os n.toNat).2.host _
      rw [heq]
      refine .of_eq (Host.write_next ..) (Host.write_names ..) fun i _ _ => ?_
      have hfile := (p.host.addRegion ⟨os.reserveBase, rgmAlignUp n.toNat page, none, true⟩).write_files
        ⟨os.reserveBase, rgmAlignUp n.toNat page, none, true⟩ (i := i) s.mem nofun
      exact ⟨congrArg File.size hfile, congrArg File.bytes hfile, fun y hy =>
        (congrFun (congrArg File.dirty hfile) y).trans hy⟩
  | createShared os path n =>
    exact .of_renamed (renamed_of_outcome
      (rgArenaCreateShared_outcome h.wf hc.2.1 path n.toNat hc.2.2))
  | createSharedTemp os path n =>
    obtain ⟨hnames, hfiles⟩ := rgArenaCreateSharedTemp_temp page (p.arena a) hc.2.1 path n.toNat
    obtain ⟨h', hrenamed, -, -, hnext, -⟩ := renamed_of_outcome
      (rgArenaCreateSharedTemp_outcome h.wf hc.2.1 path n.toNat hc.2.2)
    refine ⟨?_, fun q _ => congrFun hnames q,
      fun i ⟨q, hq⟩ => .inl ⟨q, (congrFun hnames q).symm.trans hq⟩, fun i hi _ => ?_⟩
    · exact Nat.le_trans hrenamed.next_le (Nat.le_of_eq hnext.symm)
    · show File.Kept _ ((rgArenaCreateSharedTemp page os p.host (p.arena a) path n.toNat).2.1.files i)
      rw [hfiles i hi]
      exact .refl _
  | openShared os path readOnly =>
    exact .of_renamed (renamed_of_outcome
      (rgArenaOpenShared_outcome h.wf hc.2.1 path readOnly hc.2.2))
  | flush =>
    show Leaves _ (rgArenaFlush p.host (p.arena a)) _
    rcases flush_cases p.host (p.arena a) with heq | heq
    · rw [heq]
      exact .refl ..
    · rw [heq]
      exact .of_eq rfl rfl fun i _ _ => Host.sync_kept ..
  | destroy =>
    show Leaves _ (rgArenaDestroy p.host (p.arena a)).1 _
    rcases destroy_cases p.host (p.arena a) with ⟨-, heq⟩ | ⟨-, heq⟩
    · rw [heq]
      exact .refl ..
    · rw [heq]
      exact .of_eq rfl rfl fun i _ _ => .refl _
  | work r s =>
    refine .of_eq (Host.write_next ..) (Host.write_names ..) fun i _ hspares => ?_
    have hfile := p.host.write_files r (i := i) s.mem (hspares.2 r s rfl)
    exact ⟨congrArg File.size hfile, congrArg File.bytes hfile, fun y hy =>
      (congrFun (congrArg File.dirty hfile) y).trans hy⟩

/-- The control block of another arena. -/
theorem call_arena (page : Nat) (p : Process ν α) {a b : α} (hb : b ≠ a) (c : ProcessCall ν) :
    (p.call page a c).2.arena b = p.arena b := by
  cases c with
  | create os n =>
    show (p.reserve page a os n.toNat).2.arena b = _
    rcases reserve_cases page p a os n.toNat with heq | ⟨-, -, s, heq⟩
    · rw [heq]
    · rw [heq]
      exact Function.update_of_ne hb ..
  | _ => exact Function.update_of_ne hb ..

/-- The mapping of another arena, and the private memory in it. -/
theorem call_region (h : p.Accounted page h0) (hc : p.Allowed page a c) (hb : b ≠ a)
    (hlive : 0 < (p.arena b).base) {r : Region} (hr : r ∈ p.host.regions)
    (hover : Over (p.arena b) r) :
    r ∈ (p.call page a c).2.host.regions ∧
      ∀ x, r.Has x → (p.call page a c).2.host.mem x = p.host.mem x := by
  have hfile : ∀ {path : Option ν} {answer : Status × Host ν × Arena},
      FileOutcome page p.host (p.arena a) path answer →
      r ∈ answer.2.1.regions ∧ ∀ x, r.Has x → answer.2.1.mem x = p.host.mem x := by
    intro path answer ho
    cases ho with
    | failed ne_ok renamed _ =>
      exact ⟨renamed.regions ▸ hr, fun x _ => congrFun renamed.mem x⟩
    | mapped renamed file found exists_file live free pos_le =>
      exact ⟨List.mem_cons_of_mem _ (renamed.regions ▸ hr), fun x _ => congrFun renamed.mem x⟩
  -- the range of the arena of the call is apart
  have hapart : 0 < (p.arena a).base → ∀ x, r.Has x →
      Out (p.arena a).base (p.arena a).reserved x := by
    intro ha x hx
    have := h.apart a b (Ne.symm hb) ha hlive
    unfold Region.Has at hx
    rw [hover.base, hover.len] at hx
    unfold Apart at this
    unfold Out
    omega
  cases c with
  | create os n =>
    show r ∈ (p.reserve page a os n.toNat).2.host.regions ∧
      ∀ x, _ → (p.reserve page a os n.toNat).2.host.mem x = _
    rcases reserve_cases page p a os n.toNat with heq | ⟨hbase, -, s, heq⟩
    · rw [heq]
      exact ⟨hr, fun _ _ => rfl⟩
    · rw [heq]
      refine ⟨?_, fun x hx => ?_⟩
      · exact (Host.write_regions ..).symm ▸ List.mem_cons_of_mem _ hr
      · have hclear := (hc.2 hbase).clear r hr
        refine (p.host.addRegion _).write_mem_out
          ⟨os.reserveBase, rgmAlignUp n.toNat page, none, true⟩ s.mem fun hx' => ?_
        unfold Region.Has at hx hx'
        unfold Apart at hclear
        simp only at hx'
        omega
  | createShared os path n =>
    exact hfile (rgArenaCreateShared_outcome h.wf hc.2.1 path n.toNat hc.2.2)
  | createSharedTemp os path n =>
    exact hfile (rgArenaCreateSharedTemp_outcome h.wf hc.2.1 path n.toNat hc.2.2)
  | openShared os path readOnly =>
    exact hfile (rgArenaOpenShared_outcome h.wf hc.2.1 path readOnly hc.2.2)
  | flush =>
    show r ∈ (rgArenaFlush p.host (p.arena a)).regions ∧
      ∀ x, _ → (rgArenaFlush p.host (p.arena a)).mem x = _
    rcases flush_cases p.host (p.arena a) with heq | heq
    · rw [heq]
      exact ⟨hr, fun _ _ => rfl⟩
    · rw [heq]
      exact ⟨hr, fun _ _ => rfl⟩
  | destroy =>
    show r ∈ (rgArenaDestroy p.host (p.arena a)).1.regions ∧
      ∀ x, _ → (rgArenaDestroy p.host (p.arena a)).1.mem x = _
    rcases destroy_cases p.host (p.arena a) with ⟨-, heq⟩ | ⟨hbase, heq⟩
    · rw [heq]
      exact ⟨hr, fun _ _ => rfl⟩
    · rw [heq]
      refine ⟨List.mem_filter.mpr ⟨hr, decide_eq_true ?_⟩, fun _ _ => rfl⟩
      have := h.apart a b (Ne.symm hb) (Nat.pos_of_ne_zero hbase) hlive
      rw [hover.base, hover.len]
      unfold Apart at this
      omega
  | work r' s =>
    refine ⟨(Host.write_regions ..).symm ▸ hr, fun x hx => ?_⟩
    show (p.host.write r' s.mem).mem x = p.host.mem x
    refine Host.write_mem_out _ _ fun hx' => ?_
    have hout : Out r'.base r'.len x := by
      rw [hc.2.1.base, hc.2.1.len]
      by_cases ha : 0 < (p.arena a).base
      · exact hapart ha x hx
      · have hzero : (p.arena a).reserved = 0 := (h.ok a).inert (Nat.eq_zero_of_not_pos ha)
        unfold Out
        omega
    unfold Region.Has at hx'
    unfold Out at hout
    omega

/-- A mapping that a call makes is of a file that had a name, or is new. -/
theorem call_new_region (h : p.Accounted page h0) (hc : p.Allowed page a c) {r : Region}
    (hr : r ∈ (p.call page a c).2.host.regions) :
    r ∈ p.host.regions ∨ ∀ i, r.file = some i → p.host.Named i ∨ p.host.next ≤ i := by
  have hfile : ∀ {path : Option ν} {answer : Status × Host ν × Arena},
      FileOutcome page p.host (p.arena a) path answer → r ∈ answer.2.1.regions →
      r ∈ p.host.regions ∨ ∀ i, r.file = some i → p.host.Named i ∨ p.host.next ≤ i := by
    intro path answer ho hr
    cases ho with
    | failed ne_ok renamed _ => exact .inl (renamed.regions ▸ hr)
    | @mapped h' r' j pos renamed file found exists_file live free pos_le =>
      rcases List.mem_cons.mp hr with rfl | hr
      · refine .inr fun i hi => ?_
        cases file.symm.trans hi
        exact found
      · exact .inl (renamed.regions ▸ hr)
  cases c with
  | create os n =>
    replace hr : r ∈ (p.reserve page a os n.toNat).2.host.regions := hr
    rcases reserve_cases page p a os n.toNat with heq | ⟨-, -, s, heq⟩
    · rw [heq] at hr
      exact .inl hr
    · rw [heq] at hr
      replace hr := (Host.write_regions ..) ▸ hr
      rcases List.mem_cons.mp hr with rfl | hr
      · exact .inr nofun
      · exact .inl hr
  | createShared os path n =>
    exact hfile (rgArenaCreateShared_outcome h.wf hc.2.1 path n.toNat hc.2.2) hr
  | createSharedTemp os path n =>
    exact hfile (rgArenaCreateSharedTemp_outcome h.wf hc.2.1 path n.toNat hc.2.2) hr
  | openShared os path readOnly =>
    exact hfile (rgArenaOpenShared_outcome h.wf hc.2.1 path readOnly hc.2.2) hr
  | flush =>
    replace hr : r ∈ (rgArenaFlush p.host (p.arena a)).regions := hr
    rcases flush_cases p.host (p.arena a) with heq | heq
    · exact .inl (heq ▸ hr)
    · exact .inl ((congrArg Host.regions heq) ▸ hr)
  | destroy =>
    replace hr : r ∈ (rgArenaDestroy p.host (p.arena a)).1.regions := hr
    rcases destroy_cases p.host (p.arena a) with ⟨-, heq⟩ | ⟨-, heq⟩
    · rw [heq] at hr
      exact .inl hr
    · rw [heq] at hr
      exact .inl (List.mem_of_mem_filter hr)
  | work r' s => exact .inl ((Host.write_regions ..) ▸ hr)

end

/-- A host without files, and answers that let every call succeed. -/
def sampleHost : Host Nat :=
  ⟨fun _ => none, fun _ => zeroFile 0, 0, fun _ => none, [], fun _ => 0, fun _ => false⟩

def sampleReply : FileReply := ⟨some 3, true, true, 65536⟩

theorem sampleHost_wf : sampleHost.Wf := by
  refine ⟨fun i hi => ?_, fun _ _ _ hq => (nomatch hq), .nil⟩
  rcases hi with ⟨_, hq⟩ | ⟨_, hfd⟩ | ⟨_, hr, -⟩
  · cases hq
  · cases hfd
  · exact absurd hr List.not_mem_nil

theorem sampleReply_free :
    FreeRange 4096 sampleHost 65536 (rgmAlignUp (20000 : BitVec 64).toNat 4096) :=
  ⟨by decide, by decide, by decide, fun _ hr => absurd hr List.not_mem_nil⟩

def sampleCall : ProcessCall Nat := .createShared sampleReply (some 7) 20000

theorem sampleCall_allowed : (start sampleHost : Process Nat Bool).Allowed 4096 true sampleCall :=
  ⟨rfl, fun _ _ => rfl, fun _ => sampleReply_free⟩

/-- One arena over a file. -/
def sampleProcess : Process Nat Bool := ((start sampleHost).call 4096 true sampleCall).2

theorem sampleCall_ok :
    (start sampleHost : Process Nat Bool).call 4096 true sampleCall = (.ok, sampleProcess) :=
  Prod.ext (by decide) rfl

/-- A private arena beside it. -/
def samplePrivate : ProcessCall Nat := .create ⟨131072, true, false, fun _ => 0⟩ 20000

/-- Two arenas. -/
def samplePair : Process Nat Bool := (sampleProcess.call 4096 false samplePrivate).2

end Process

end

end RgMemory
