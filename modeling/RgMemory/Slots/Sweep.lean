import Mathlib.Data.Set.Finite.Basic
import RgMemory.Lib.Sweep
import RgMemory.Slots.Run

/-!
# ForEach beside writers

A ForEach reads the slots at different times, while other threads fill them. It has two mechanisms, a
stack of 64 frames and, for what is deeper, recursion; `slotIterStep_moves` says that the two are one
sweep (`Links.Sweep`), whose frames are those of both. The structure that it sweeps only grows and
links no node twice (`Slots.Sound`), so a ForEach reports each node at most once, and every node that
was published when it was called.

`slot_sweep` is the result for a whole run; a ForEach ends when its thread gets to run
(`IterEnds.of_sound`).
-/

namespace RgMemory

open Bytes Links Concurrent

section

variable {ω β ι κ τ : Type} {K : SlotKeys β κ} {page : Nat} {s s' : Slots β τ}

/-! ## Two mechanisms, one sweep -/

def TrieIterFrame.sweep (f : TrieIterFrame) : SweepFrame Nat := ⟨f.node, f.visited, f.nextChild⟩

namespace SlotIter

/-- The frames of both mechanisms, innermost first. -/
def frames (it : SlotIter ι) : List (SweepFrame Nat) :=
  (it.recs.map TrieRecFrame.toTrieIterFrame ++ it.stack).map TrieIterFrame.sweep

def sweep (it : SlotIter ι) (visited : List Nat) : Sweep Nat := ⟨it.top, it.frames, visited⟩

/-- A recursive call counts its node when it visits it, and it calls itself after that. -/
def Counted (it : SlotIter ι) : Prop :=
  match it.recs with
  | [] => True
  | f :: recs => (f.visited = false → f.count = 0) ∧ ∀ g ∈ recs, g.visited = true

end SlotIter

/-- What a step of a ForEach does whose callback never stops it. -/
inductive IterMoves (code : SlotCode ω β ι) (s : Slots β τ) (it : SlotIter ι) (visited : List Nat) :
    SlotIter ι ⊕ SlotResult ι → Prop
  | read {it' : SlotIter ι} (counted : it'.Counted) (total : it'.total = it.total)
      (reports : it'.reports = it.reports)
      (step : Sweep.Step s.read (it.sweep visited) (it'.sweep visited)) :
      IterMoves code s it visited (.inl it')
  | visit {it' : SlotIter ι} {a : Nat} {r : ι} (counted : it'.Counted)
      (total : it'.total = it.total + 1) (told : slotVisit code s a = some r)
      (reports : it'.reports = it.reports ++ [r])
      (step : Sweep.Step s.read (it.sweep visited) (it'.sweep (visited ++ [a]))) :
      IterMoves code s it visited (.inl it')
  | fault {a : Nat} (met : a ∈ (it.sweep visited).met) (untold : slotVisit code s a = none) :
      IterMoves code s it visited (.inr .fault)
  | through (frames : it.frames = []) (top : 4096 ≤ it.top) :
      IterMoves code s it visited (.inr (.visited it.total it.reports))

theorem slotIterStep_moves (code : SlotCode ω β ι) (s : Slots β τ) {it : SlotIter ι}
    (hcounted : it.Counted) (visited : List Nat) :
    IterMoves code s it visited (slotIterStep code (fun _ => false) s it) := by
  obtain ⟨top, stack, recs, count, reports⟩ := it
  cases recs with
  | cons f recs =>
    obtain ⟨⟨a, v, k⟩, n⟩ := f
    obtain ⟨hhead, htail⟩ := hcounted
    cases v with
    | false =>
      obtain rfl : n = 0 := hhead rfl
      cases hvisit : slotVisit code s a with
      | none =>
        simp only [slotIterStep, hvisit, Bool.not_false, if_true]
        refine .fault (a := a) ?_ hvisit
        exact List.mem_append_right _ (by simp [SlotIter.sweep, SlotIter.frames, TrieIterFrame.sweep])
      | some r =>
        simp only [slotIterStep, hvisit, Bool.not_false, if_true, Bool.false_eq_true, if_false]
        refine .visit ⟨nofun, htail⟩ ?_ hvisit rfl .visit
        simp only [SlotIter.total, List.map_cons, List.sum_cons]
        omega
    | true =>
      by_cases hk : k < 4
      · cases hread : s.read (.child a ⟨k, hk⟩) with
        | none =>
          simp only [slotIterStep, hread, hk, Bool.not_true, Bool.false_eq_true, if_false, dif_pos]
          exact .read ⟨nofun, htail⟩ rfl rfl (.skip hk hread)
        | some c =>
          simp only [slotIterStep, hread, hk, Bool.not_true, Bool.false_eq_true, if_false, dif_pos]
          refine .read ⟨fun _ => rfl, List.forall_mem_cons.mpr ⟨rfl, htail⟩⟩ ?_ rfl ?_
          · simp [SlotIter.total]
          · exact .enter hk hread
      · have hleave : ∀ rest, Sweep.Step s.read ⟨top, ⟨a, true, k⟩ :: rest, visited⟩
            ⟨top, rest, visited⟩ := fun rest => .leave (Nat.le_of_not_lt hk)
        simp only [slotIterStep, hk, Bool.not_true, Bool.false_eq_true, if_false, dite_false]
        cases recs with
        | nil =>
          refine .read trivial ?_ rfl (hleave _)
          simp [SlotIter.total]
        | cons g recs =>
          obtain ⟨hvisited, hothers⟩ := List.forall_mem_cons.mp htail
          refine .read ⟨fun hv => ?_, hothers⟩ ?_ rfl (hleave _)
          · exact absurd (hv.symm.trans hvisited) Bool.false_ne_true
          · simp only [SlotIter.total, List.map_cons, List.sum_cons]
            omega
  | nil =>
    cases stack with
    | cons f stack =>
      obtain ⟨a, v, k⟩ := f
      cases v with
      | false =>
        cases hvisit : slotVisit code s a with
        | none =>
          simp only [slotIterStep, hvisit, Bool.not_false, if_true]
          refine .fault (a := a) ?_ hvisit
          exact List.mem_append_right _
            (by simp [SlotIter.sweep, SlotIter.frames, TrieIterFrame.sweep])
        | some r =>
          simp only [slotIterStep, hvisit, Bool.not_false, if_true, Bool.false_eq_true, if_false]
          refine .visit trivial ?_ hvisit rfl .visit
          simp [SlotIter.total]
      | true =>
        by_cases hk : k < 4
        · cases hread : s.read (.child a ⟨k, hk⟩) with
          | none =>
            simp only [slotIterStep, hread, hk, Bool.not_true, Bool.false_eq_true, if_false, dif_pos]
            exact .read trivial rfl rfl (.skip hk hread)
          | some c =>
            -- at the depth of the stack the recursion takes over
            simp only [slotIterStep, hread, hk, Bool.not_true, Bool.false_eq_true, if_false, dif_pos]
            split
            · exact .read trivial rfl rfl (.enter hk hread)
            · refine .read ⟨fun _ => rfl, nofun⟩ ?_ rfl (.enter hk hread)
              simp [SlotIter.total]
        · simp only [slotIterStep, hk, Bool.not_true, Bool.false_eq_true, if_false, dite_false]
          exact .read trivial rfl rfl (.leave (Nat.le_of_not_lt hk))
    | nil =>
      by_cases ht : top < 4096
      · cases hread : s.read (.root ⟨top, ht⟩) with
        | none =>
          simp only [slotIterStep, hread, ht, dif_pos]
          exact .read trivial rfl rfl (.skipRoot ht hread)
        | some c =>
          simp only [slotIterStep, hread, ht, dif_pos]
          exact .read trivial rfl rfl (.enterRoot ht hread)
      · simp only [slotIterStep, ht, dite_false]
        exact .through rfl (Nat.le_of_not_lt ht)

/-! ## A ForEach on its way -/

/-- A Put of the key that has ended has stored the value. -/
def StoredBy (K : SlotKeys β κ) (code : SlotCode ω β ι) (log : List (Nat × ω × SlotResult ι))
    (k : κ) (v : BitVec 64) : Prop :=
  ∃ id put, (id, put, .answer .ok none) ∈ log ∧ (code.op put).toMap K = .put k v

/-- What the callback was told of the node at `a`. -/
def Told (K : SlotKeys β κ) (code : SlotCode ω β ι) (s : Slots β τ)
    (log : List (Nat × ω × SlotResult ι)) (a : Nat) (r : ι) : Prop :=
  ∃ n v, s.heap a = some n ∧ code.report a n.body v = some r ∧
    StoredBy K code log (K.keyOf n.body) v

theorem Told.mono {code : SlotCode ω β ι} {log log' : List (Nat × ω × SlotResult ι)} {a : Nat}
    {r : ι} (h : Told K code s log a r) (hs : s.Extends s') (hlog : log ⊆ log') :
    Told K code s' log' a r := by
  obtain ⟨n, v, hn, hr, id, put, hmem, hput⟩ := h
  obtain ⟨n', hn', hb⟩ := hs.body a n hn
  refine ⟨n', v, hn', ?_, id, put, hlog hmem, ?_⟩
  · rw [hb]
    exact hr
  · rw [hb]
    exact hput

/-- A ForEach that was called in the state `s₀` and has visited these nodes. -/
structure Sweeping (K : SlotKeys β κ) (code : SlotCode ω β ι) (s₀ s : Slots β τ)
    (log : List (Nat × ω × SlotResult ι)) (it : SlotIter ι) (visited : List Nat) : Prop where
  counted : it.Counted
  sound : (it.sweep visited).Sound s₀.read s.read
  told : List.Forall₂ (Told K code s log) visited it.reports
  total : it.total = it.reports.length

/-- A ForEach that was called in the state `s₀` and has ended. -/
structure Swept (K : SlotKeys β κ) (code : SlotCode ω β ι) (s₀ s : Slots β τ)
    (log : List (Nat × ω × SlotResult ι)) (visited : List Nat) (reports : List ι) : Prop where
  nodup : visited.Nodup
  linked : ∀ a ∈ visited, s.Linked a
  all : ∀ a, s₀.Linked a → a ∈ visited
  told : List.Forall₂ (Told K code s log) visited reports

variable {s₀ : Slots β τ} {code : SlotCode ω β ι} {log log' : List (Nat × ω × SlotResult ι)}
  {it : SlotIter ι} {visited : List Nat}

theorem Sweeping.mono (h : Sweeping K code s₀ s log it visited) (hs : s.Extends s')
    (hlog : log ⊆ log') : Sweeping K code s₀ s' log' it visited :=
  ⟨h.counted, h.sound.grows hs.read, h.told.imp fun _ _ ht => ht.mono hs hlog, h.total⟩

theorem Swept.mono {reports : List ι} (h : Swept K code s₀ s log visited reports)
    (hs : s.Extends s') (hlog : log ⊆ log') : Swept K code s₀ s' log' visited reports :=
  ⟨h.nodup, fun a ha => hs.linked (h.linked a ha), h.all, h.told.imp fun _ _ ht => ht.mono hs hlog⟩

theorem Swept.told_of_mem {reports : List ι} (h : Swept K code s₀ s log visited reports) {r : ι}
    (hr : r ∈ reports) : ∃ a, Told K code s log a r := by
  have htold := h.told
  clear h
  induction htold with
  | nil => cases hr
  | cons htold _ ih =>
    rcases List.mem_cons.mp hr with rfl | hr
    · exact ⟨_, htold⟩
    · exact ih hr

theorem Sweeping.start : Sweeping K code s₀ s log .start [] :=
  ⟨trivial, Sweep.Sound.start _ _, .nil, rfl⟩

/-- What the next step of a ForEach leads to. -/
def SweepYields (K : SlotKeys β κ) (code : SlotCode ω β ι) (s₀ s : Slots β τ)
    (log : List (Nat × ω × SlotResult ι)) (it : SlotIter ι) (visited : List Nat) :
    SlotIter ι ⊕ SlotResult ι → Prop
  | .inl it' => ∃ visited', Sweeping K code s₀ s log it' visited' ∧
      Sweep.Step s.read (it.sweep visited) (it'.sweep visited')
  | .inr r => ∃ reports, r = .visited reports.length reports ∧
      Swept K code s₀ s log visited reports

variable [DecidableEq κ]

/-- A step of a ForEach, when every published node has a value that some Put stored. -/
theorem Sweeping.step (hs₀ : s₀.Sound K page) (hs : s.Sound K page) (hext : s₀.Extends s)
    (hcode : code.Lawful K)
    (hstored : ∀ a n, s.Linked a → s.heap a = some n → StoredBy K code log (K.keyOf n.body) n.value)
    (h : Sweeping K code s₀ s log it visited) :
    SweepYields K code s₀ s log it visited (slotIterStep code (fun _ => false) s it) := by
  have hnode : ∀ a ∈ (it.sweep visited).met, ∃ n, s.Linked a ∧ s.heap a = some n ∧
      ∃ r, code.report a n.body n.value = some r := by
    intro a ha
    obtain ⟨x, hx, -⟩ := h.sound.seated a ha
    obtain ⟨n, hn, hgenuine⟩ := hs.linked_node ⟨x, hx⟩
    exact ⟨n, ⟨x, hx⟩, hn, hcode.report a n.body n.value hgenuine⟩
  have hmoves := slotIterStep_moves code s h.counted visited
  generalize slotIterStep code (fun _ => false) s it = out at hmoves
  cases hmoves with
  | @read it' counted total reports step =>
    refine ⟨visited, ⟨counted, h.sound.step hext.read hs.placed.once step, ?_, ?_⟩, step⟩
    · rw [reports]
      exact h.told
    · rw [total, reports, h.total]
  | @visit it' a r counted total told reports step =>
    have hsound := h.sound.step hext.read hs.placed.once step
    refine ⟨visited ++ [a], ⟨counted, hsound, ?_, ?_⟩, step⟩
    · have ha : a ∈ (it'.sweep (visited ++ [a])).met :=
        List.mem_append_left _ (List.mem_append_right _ (List.mem_singleton_self _))
      obtain ⟨x, hx, -⟩ := hsound.seated a ha
      obtain ⟨n, hn, hr⟩ := Option.bind_eq_some_iff.mp told
      rw [reports]
      exact List.rel_append h.told (.cons ⟨n, n.value, hn, hr, hstored a n ⟨x, hx⟩ hn⟩ .nil)
    · rw [total, reports, List.length_append, List.length_singleton, h.total]
  | @fault a met untold =>
    obtain ⟨n, -, hn, r, hr⟩ := hnode a met
    rw [slotVisit, hn, Option.bind_some, hr] at untold
    cases untold
  | through frames top =>
    have hmet : (it.sweep visited).met = visited := by
      simp [Sweep.met, SlotIter.sweep, frames]
    refine ⟨it.reports, by rw [h.total], ?_, fun a ha => ?_, fun a ha => ?_, h.told⟩
    · rw [← hmet]
      exact h.sound.nodup
    · rw [← hmet] at ha
      obtain ⟨n, hlinked, -⟩ := hnode a ha
      exact hlinked
    · obtain ⟨x, hx⟩ := ha
      obtain ⟨k, -, hpath⟩ := hs₀.placed.onPath x a hx
      exact h.sound.visited_of_onPath frames top hpath

/-! ## The end of a ForEach -/

/-- The steps of a ForEach, in a state that does not change, lead to its result. -/
inductive IterEnds (code : SlotCode ω β ι) (fn : List ι → Bool) (s : Slots β τ) : SlotIter ι → Prop
  | result {it : SlotIter ι} {r : SlotResult ι} (step : slotIterStep code fn s it = .inr r) :
      IterEnds code fn s it
  | next {it it' : SlotIter ι} (step : slotIterStep code fn s it = .inl it')
      (rest : IterEnds code fn s it') : IterEnds code fn s it

omit [DecidableEq κ] in
/-- A sweep is through after finitely many steps of its own: each does some of the work. -/
theorem IterEnds.of_sound (hs : s.Sound K page) (hg : Grows s₀.read s.read) {nodes : List Nat}
    (hnodes : ∀ x a, s.read x = some a → a ∈ nodes) (hcounted : it.Counted)
    (hsound : (it.sweep visited).Sound s₀.read s.read) :
    IterEnds code (fun _ => false) s it := by
  induction hw : (it.sweep visited).work 4096 4 nodes.length using Nat.strong_induction_on
    generalizing it visited with
  | _ w ih =>
    have hless : ∀ {it' : SlotIter ι} {visited'}, it'.Counted →
        Sweep.Step s.read (it.sweep visited) (it'.sweep visited') →
        IterEnds code (fun _ => false) s it' := by
      intro it' visited' hcounted' hstep
      have hsound' := hsound.step hg hs.placed.once hstep
      exact ih _ (hw ▸ hstep.work_lt (hsound'.met_le hnodes)) hcounted' hsound' rfl
    have hmoves := slotIterStep_moves code s hcounted visited
    generalize hout : slotIterStep code (fun _ => false) s it = out at hmoves
    cases hmoves with
    | read counted _ _ step => exact .next hout (hless counted step)
    | visit counted _ _ _ step => exact .next hout (hless counted step)
    | fault => exact .result hout
    | through => exact .result hout

/-! ## Runs -/

omit [DecidableEq κ] in
theorem slotStep_iter (page : Nat) [DecidableEq τ] {op : ω}
    (hop : code.op op = .forEach fun _ => false) (t : τ) (os : OsReply) (s : Slots β τ) (it : SlotIter ι) :
    slotStep page code t os op (.iter it) s =
      (s, (slotIterStep code (fun _ => false) s it).map SlotPhase.iter id) := by
  simp only [slotStep, hop]

/-- A value in the map of a legal sequence was stored by a Put of its key. -/
theorem SlotSpec.stored {m : κ → Option (BitVec 64)} {xs : List (Nat × ω × SlotResult ι)}
    (h : Legal (SlotSpec K code) (fun _ => none) xs m) {k : κ} {v : BitVec 64}
    (hm : m k = some v) : StoredBy K code xs k v := by
  induction h generalizing v with
  | nil => cases hm
  | @snoc xs m₁ m₂ id op r before last ih =>
    have hkeep : ∀ {v}, m₁ k = some v → StoredBy K code (xs ++ [(id, op, r)]) k v := by
      intro v hv
      obtain ⟨id', put, hmem, hput⟩ := ih hv
      exact ⟨id', put, List.mem_append_left _ hmem, hput⟩
    unfold SlotSpec at last
    cases hmap : (code.op op).toMap K with
    | settled r' =>
      rw [hmap] at last
      exact hkeep (last.2 ▸ hm)
    | put k' v' =>
      rw [hmap] at last
      rcases last with ⟨rfl, rfl⟩ | ⟨-, rfl⟩
      · by_cases heq : k = k'
        · subst heq
          rw [Function.update_self, Option.some.injEq] at hm
          subst hm
          exact ⟨id, op, List.mem_append_right _ (List.mem_singleton_self _), hmap⟩
        · rw [Function.update_of_ne heq] at hm
          exact hkeep hm
      · exact hkeep hm
    | get k' out =>
      rw [hmap] at last
      exact hkeep (last.2 ▸ hm)
    | forEach =>
      rw [hmap] at last
      exact hkeep (last ▸ hm)

/-- Finitely many keys have a value: each one was put. -/
theorem SlotSpec.finite {m : κ → Option (BitVec 64)} {xs : List (Nat × ω × SlotResult ι)}
    (h : Legal (SlotSpec K code) (fun _ => none) xs m) : {k | m k ≠ none}.Finite := by
  let keys : List κ := xs.filterMap fun x =>
    match (code.op x.2.1).toMap K with
    | .put k _ => some k
    | _ => none
  refine (keys.finite_toSet).subset fun k hk => ?_
  obtain ⟨v, hv⟩ := Option.ne_none_iff_exists'.mp hk
  obtain ⟨id, put, hmem, hput⟩ := SlotSpec.stored h hv
  exact List.mem_filterMap.mpr ⟨_, hmem, by simp only [hput]⟩

omit [DecidableEq κ] in
/-- Then the published nodes are finitely many. -/
theorem Slots.Sound.nodes (hs : s.Sound K page) {m : κ → Option (BitVec 64)} (hm : s.Holds K m)
    (hfinite : {k | m k ≠ none}.Finite) :
    ∃ nodes : List Nat, ∀ x a, s.read x = some a → a ∈ nodes := by
  have hlinked : {a | s.Linked a}.Finite := by
    refine Set.Finite.of_finite_image (f := s.key K) ?_ ?_
    · refine (hfinite.image some).subset ?_
      rintro _ ⟨a, ha, rfl⟩
      obtain ⟨n, hn, -⟩ := hs.linked_node ha
      refine ⟨K.keyOf n.body, ?_, ?_⟩
      · exact Option.ne_none_iff_exists'.mpr ⟨n.value, (hm _ _).mpr ⟨a, n, ha, hn, rfl, rfl⟩⟩
      · simp [Slots.key, hn]
    · rintro a ⟨x, hx⟩ a' ⟨x', hx'⟩ heq
      exact hs.placed.unique x x' a a' hx hx' heq
  refine ⟨hlinked.toFinset.toList, fun x a hx => ?_⟩
  rw [Finset.mem_toList, Set.Finite.mem_toFinset]
  exact ⟨x, hx⟩

section

variable [DecidableEq τ] {c c' : Config τ (Slots β τ) ω (SlotPhase ι) (SlotResult ι)}

/-- What holds in every configuration of a run. -/
abbrev SlotFollows (K : SlotKeys β κ) (code : SlotCode ω β ι) (page : Nat)
    (c : Config τ (Slots β τ) ω (SlotPhase ι) (SlotResult ι)) : Prop :=
  Follows (SlotSpec K code) (fun s m => s.Sound K page ∧ s.Holds K m) (SlotRelies K code)
    (fun _ => none) c

omit [DecidableEq τ] in
theorem SlotFollows.sound (hc : SlotFollows K code page c) : c.shared.Sound K page := by
  obtain ⟨m, -, hsound, -⟩ := hc.log
  exact hsound

omit [DecidableEq τ] in
/-- The value of a published node was stored by a Put of its key. -/
theorem SlotFollows.stored (hc : SlotFollows K code page c) {a : Nat} {n : SlotNode β}
    (ha : c.shared.Linked a) (hn : c.shared.heap a = some n) :
    StoredBy K code c.log (K.keyOf n.body) n.value := by
  obtain ⟨m, hlegal, -, hm⟩ := hc.log
  exact SlotSpec.stored hlegal ((hm _ _).mpr ⟨a, n, ha, hn, rfl, rfl⟩)

omit [DecidableEq τ] in
/-- The published nodes are finitely many: each key was put. -/
theorem SlotFollows.nodes (hc : SlotFollows K code page c) :
    ∃ nodes : List Nat, ∀ x a, c.shared.read x = some a → a ∈ nodes := by
  obtain ⟨m, hlegal, hs, hm⟩ := hc.log
  exact hs.nodes hm (SlotSpec.finite hlegal)

theorem SlotFollows.extends_next (hpage : IsPageSize page) (hcode : code.Lawful K)
    (hc : SlotFollows K code page c) (hnext : c.Next (slotMachine page code τ) c') :
    c.shared.Extends c'.shared := by
  rcases hnext.shared_cases with heq | ⟨t, os, id, op, p, out, hrun, hstep⟩
  · rw [heq]
    exact .refl _
  · exact (slotStep_spec hpage hcode hc.sound os (hc.running t id op p hrun) hstep).1.grows

/-- What a running ForEach relies on. -/
def SweepRelies (K : SlotKeys β κ) (code : SlotCode ω β ι) (s₀ : Slots β τ)
    (c : Config τ (Slots β τ) ω (SlotPhase ι) (SlotResult ι)) : SlotPhase ι → Prop
  | .enter => True
  | .iter it => ∃ visited, Sweeping K code s₀ c.shared c.log it visited
  | _ => False

/-- What the result of a ForEach means. -/
def SweepResult (K : SlotKeys β κ) (code : SlotCode ω β ι) (s₀ : Slots β τ)
    (c : Config τ (Slots β τ) ω (SlotPhase ι) (SlotResult ι)) (r : SlotResult ι) : Prop :=
  ∃ visited reports, r = .visited reports.length reports ∧
    Swept K code s₀ c.shared c.log visited reports

/-- A configuration after a ForEach was called in the state `s₀`. -/
structure SweepGoes (K : SlotKeys β κ) (code : SlotCode ω β ι) (page : Nat) (s₀ : Slots β τ) (t : τ)
    (id : Nat) (op : ω) (c : Config τ (Slots β τ) ω (SlotPhase ι) (SlotResult ι)) : Prop where
  follows : SlotFollows K code page c
  grows : s₀.Extends c.shared
  goes : Config.Goes (SweepRelies K code s₀) (SweepResult K code s₀) t id op c

variable {t : τ} {id : Nat} {op : ω}

/-- A step of the ForEach keeps what it relies on, and ends with the result. -/
theorem SweepGoes.step (hcode : code.Lawful K) (hs₀ : s₀.Sound K page)
    (hop : code.op op = .forEach fun _ => false) (h : SweepGoes K code page s₀ t id op c)
    {os : OsReply} {p : SlotPhase ι} (hp : SweepRelies K code s₀ c p) {s' : Slots β τ}
    {out : SlotPhase ι ⊕ SlotResult ι}
    (hstep : slotStep page code t os op p c.shared = (s', out)) :
    Sum.elim (SweepRelies K code s₀ c) (SweepResult K code s₀ c) out := by
  cases p with
  | iter it =>
    obtain ⟨visited, hsw⟩ := hp
    have hyields := hsw.step hs₀ h.follows.sound h.grows hcode fun a n => h.follows.stored
    rw [slotStep_iter page hop t os c.shared it] at hstep
    generalize slotIterStep code (fun _ => false) c.shared it = it' at hyields hstep
    cases it' with
    | inl it' =>
      cases hstep
      obtain ⟨visited', hsw', -⟩ := hyields
      exact ⟨visited', hsw'⟩
    | inr r =>
      cases hstep
      obtain ⟨reports, hr, hswept⟩ := hyields
      exact ⟨visited, reports, hr, hswept⟩
  | enter =>
    simp only [slotStep, hop] at hstep
    cases hstep
    exact ⟨[], Sweeping.start⟩
  | load | create | cas | inspect | access => exact hp.elim

theorem SweepGoes.next (hpage : IsPageSize page) (hcode : code.Lawful K)
    (hs₀ : s₀.Sound K page) (hop : code.op op = .forEach fun _ => false)
    (h : SweepGoes K code page s₀ t id op c) (hnext : c.Next (slotMachine page code τ) c') :
    SweepGoes K code page s₀ t id op c' := by
  have hext := h.follows.extends_next hpage hcode hnext
  have hlog : c.log ⊆ c'.log := fun x hx => hnext.mem_log hx
  refine ⟨(slot_simulation hpage hcode).follows_next h.follows hnext, h.grows.trans hext,
    h.goes.next hnext ?_ ?_ ?_ ?_⟩
  · intro p hp
    cases p with
    | iter it =>
      obtain ⟨visited, hsw⟩ := hp
      exact ⟨visited, hsw.mono hext hlog⟩
    | enter => trivial
    | load | create | cas | inspect | access => exact hp
  · rintro r ⟨visited, reports, hr, hsw⟩
    exact ⟨visited, reports, hr, hsw.mono hext hlog⟩
  · intro os p p' s' hp hmove
    exact h.step hcode hs₀ hop hp hmove
  · intro os p r s' hp hcommit
    exact h.step hcode hs₀ hop hp hcommit

omit [DecidableEq κ] in
/-- However the other threads have left the state, a ForEach whose thread gets to run ends. -/
theorem IterEnds.run (hop : code.op op = .forEach fun _ => false) (os : OsReply)
    (h : IterEnds code (fun _ => false) s it) :
    ∃ n, ∀ c : Config τ (Slots β τ) ω (SlotPhase ι) (SlotResult ι), c.shared = s →
      c.thread t = .running id op (.iter it) →
      ∃ r, (c.run (slotMachine page code τ) (List.replicate n (.step t os))).thread t =
        .done id op r := by
  have hact : ∀ {it} (c : Config τ (Slots β τ) ω (SlotPhase ι) (SlotResult ι)), c.shared = s →
      c.thread t = .running id op (.iter it) →
      c.act (slotMachine page code τ) (.step t os) =
        match slotIterStep code (fun _ => false) s it with
        | .inl it' => c.moved t id op s (.iter it')
        | .inr r => c.committed t id op s r := by
    rintro it c rfl hthread
    simp only [Config.act, hthread, slotMachine, slotStep_iter page hop]
    cases slotIterStep code (fun _ => false) c.shared it <;> rfl
  induction h with
  | @result it r step =>
    refine ⟨1, fun c hshared hthread => ⟨r, ?_⟩⟩
    have hcommitted := hact c hshared hthread
    rw [step] at hcommitted
    show (c.act (slotMachine page code τ) (.step t os)).thread t = _
    rw [hcommitted]
    exact Function.update_self ..
  | @next it it' step rest ih =>
    obtain ⟨n, hn⟩ := ih
    refine ⟨n + 1, fun c hshared hthread => ?_⟩
    have hmoved := hact c hshared hthread
    rw [step] at hmoved
    rw [List.replicate_succ, Config.run, List.foldl_cons, hmoved]
    exact hn _ rfl (Function.update_self ..)

theorem SweepGoes.ends (hop : code.op op = .forEach fun _ => false)
    (h : SweepGoes K code page s₀ t id op c) (os : OsReply) :
    ∃ n r, Event.ret id r ∈ (c.run (slotMachine page code τ)
      (List.replicate n (.step t os) ++ [.ret t])).history := by
  have hdone : ∀ n, (∃ r, (c.run (slotMachine page code τ)
      (List.replicate n (.step t os))).thread t = .done id op r) →
      ∃ n r, Event.ret id r ∈ (c.run (slotMachine page code τ)
        (List.replicate n (.step t os) ++ [.ret t])).history := by
    rintro n ⟨r, hr⟩
    refine ⟨n, r, ?_⟩
    unfold Config.run at hr ⊢
    rw [List.foldl_append, List.foldl_cons, List.foldl_nil]
    simp only [Config.act, hr]
    exact List.mem_append_right _ (List.mem_singleton_self _)
  obtain ⟨nodes, hnodes⟩ := h.follows.nodes
  have hiter : ∀ {it visited}, Sweeping K code s₀ c.shared c.log it visited →
      IterEnds code (fun _ => false) c.shared it := fun hsw =>
    .of_sound h.follows.sound h.grows.read hnodes hsw.counted hsw.sound
  cases h.goes with
  | @returned r ret result =>
    exact ⟨0, r, (Config.act_next (slotMachine page code τ) c (.ret t)).mem_history ret⟩
  | @done r thread result => exact hdone 0 ⟨r, thread⟩
  | @running p thread relies =>
    cases p with
    | iter it =>
      obtain ⟨visited, hsw⟩ := relies
      obtain ⟨n, hn⟩ := (hiter hsw).run hop os
      exact hdone n (hn c rfl thread)
    | enter =>
      obtain ⟨n, hn⟩ := (hiter Sweeping.start).run hop os
      refine hdone (n + 1) ?_
      have hact : c.act (slotMachine page code τ) (.step t os) =
          c.moved t id op c.shared (.iter .start) := by
        simp only [Config.act, thread, slotMachine, slotStep, hop]
      rw [List.replicate_succ, Config.run, List.foldl_cons, hact]
      exact hn _ rfl (Function.update_self ..)
    | load | create | cas | inspect | access => exact relies.elim

/-- **A ForEach beside writers** reports each key once that was published when it was called, no key
twice, and only values that were stored; it counts its reports; and it ends when its thread gets to
run. `keyOf` and `valueOf` read the key and the value off a report. -/
theorem slot_sweep (hpage : IsPageSize page) (hcode : code.Lawful K) (hs : s.Fresh page)
    (hop : code.op op = .forEach fun _ => false) {keyOf : ι → κ} {valueOf : ι → BitVec 64}
    (hreport : ∀ a b v r, K.Genuine b → code.report a b v = some r →
      keyOf r = K.keyOf b ∧ valueOf r = v) (t : τ) (before after : List (Action τ OsReply ω)) :
    let c₁ := (Config.start s).run (slotMachine page code τ) before
    let c₂ := (c₁.act (slotMachine page code τ) (.call t op)).run (slotMachine page code τ) after
    c₁.thread t = .idle →
      (∀ r, Event.ret c₁.next r ∈ c₂.history → ∃ reports, r = .visited reports.length reports ∧
        (∀ a k, c₁.shared.Linked a → c₁.shared.key K a = some k → k ∈ reports.map keyOf) ∧
        (reports.map keyOf).Nodup ∧
        ∀ rep ∈ reports, StoredBy K code c₂.log (keyOf rep) (valueOf rep)) ∧
      ∀ os, ∃ n r, Event.ret c₁.next r ∈ (c₂.run (slotMachine page code τ)
        (List.replicate n (.step t os) ++ [.ret t])).history := by
  intro c₁ c₂ hidle
  have hfollows : SlotFollows K code page c₁ := slot_follows hpage hcode hs before
  have hs₁ := hfollows.sound
  have hcalled : SweepGoes K code page c₁.shared t c₁.next op
      (c₁.act (slotMachine page code τ) (.call t op)) := by
    have hact : c₁.act (slotMachine page code τ) (.call t op) =
        c₁.called (slotMachine page code τ) t op := by
      simp only [Config.act, hidle]
    rw [hact]
    exact ⟨(slot_simulation hpage hcode).follows_next hfollows (.call hidle), .refl _,
      .running (Function.update_self ..) trivial⟩
  have hgoes : SweepGoes K code page c₁.shared t c₁.next op c₂ :=
    Config.run_induction (Q := SweepGoes K code page c₁.shared t c₁.next op) _
      (fun c c' h hnext => h.next hpage hcode hs₁ hop hnext) hcalled after
  refine ⟨fun r hret => ?_, hgoes.ends hop⟩
  obtain ⟨visited, reports, rfl, hswept⟩ := hgoes.goes.of_ret hgoes.follows.wf hret
  have hs₂ := hgoes.follows.sound
  -- the reports tell the keys of the visited nodes, in their order
  have hkeys : visited.map (c₂.shared.key K) = reports.map fun rep => some (keyOf rep) := by
    rw [← List.forall₂_eq_eq_eq, List.forall₂_map_left_iff, List.forall₂_map_right_iff]
    refine hswept.told.imp fun a rep htold => ?_
    obtain ⟨n, v, hn, hrep, -⟩ := htold
    rw [(hreport a n.body v rep (hs₂.genuine a n hn) hrep).1]
    simp [Slots.key, hn]
  have hnodup : (reports.map keyOf).Nodup := by
    have hvisited : (visited.map (c₂.shared.key K)).Nodup := by
      refine hswept.nodup.map_on fun a ha a' ha' heq => ?_
      obtain ⟨x, hx⟩ := hswept.linked a ha
      obtain ⟨x', hx'⟩ := hswept.linked a' ha'
      exact hs₂.placed.unique x x' a a' hx hx' heq
    rw [hkeys] at hvisited
    refine List.Nodup.of_map some ?_
    rwa [List.map_map]
  refine ⟨reports, rfl, fun a k ha hk => ?_, hnodup, fun rep hrep => ?_⟩
  · have hmem : some k ∈ visited.map (c₂.shared.key K) :=
      List.mem_map.mpr ⟨a, hswept.all a ha, hgoes.grows.key hk⟩
    rw [hkeys] at hmem
    obtain ⟨rep, hrep, heq⟩ := List.mem_map.mp hmem
    exact List.mem_map.mpr ⟨rep, hrep, Option.some.inj heq⟩
  · obtain ⟨a, n, v, hn, hr, hstored⟩ := hswept.told_of_mem hrep
    obtain ⟨hkey, hvalue⟩ := hreport a n.body v rep (hs₂.genuine a n hn) hr
    rw [hkey, hvalue]
    exact hstored

end

end

end RgMemory
