import RgMemory.Lib.Callback
import RgMemory.Lib.Preorder
import RgMemory.Slots.Call

/-!
# ForEach in a state at rest

When no other thread does anything, a ForEach reports the nodes in pre-order, root after root, up to
the report at which its callback asks to stop (`slotCall_forEach`). The explicit stack and the
recursion below it are one sweep (`slotIterStep_moves`), and what a sweep has visited and has to
visit is the list of all nodes in every step (`Sweep.Step.visits`).
-/

namespace RgMemory

open Links Trie Concurrent Callback

section

variable {ω β ι κ τ : Type} {K : SlotKeys β κ} {page : Nat} {s : Slots β τ}
  {code : SlotCode ω β ι}

/-- The reports of a list of nodes. -/
def slotReports (code : SlotCode ω β ι) (s : Slots β τ) (nodes : List Nat) : List ι :=
  nodes.filterMap (slotVisit code s)

theorem slotReports_cons {a : Nat} {r : ι} (h : slotVisit code s a = some r) (nodes : List Nat) :
    slotReports code s (a :: nodes) = r :: slotReports code s nodes :=
  List.filterMap_cons_some h

variable [DecidableEq τ] {fn : List ι → Bool} {t : τ} {op : ω} {T : NodeSlot → Trie 4 Nat}

theorem slotCall_iter_last (hop : code.op op = .forEach fn) {it : SlotIter ι} {r : SlotResult ι}
    (hstep : slotIterStep code fn s it = .inr r) (os : Nat → OsReply) :
    slotCall page code t op 1 os (.iter it) s = some (s, r) := by
  simp only [slotCall, slotStep, hop, hstep, Sum.map_inr, id]

theorem slotCall_iter_more (hop : code.op op = .forEach fn) {it it' : SlotIter ι}
    (hstep : slotIterStep code fn s it = .inl it') (n : Nat) (os : Nat → OsReply) :
    slotCall page code t op (n + 1) os (.iter it) s =
      slotCall page code t op n (fun i => os (i + 1)) (.iter it') s := by
  simp only [slotCall, slotStep, hop, hstep, Sum.map_inl]

variable [DecidableEq κ]

/-- From any point of a ForEach on, the callback is told what the sweep has to visit, in order. -/
theorem IterEnds.calls (hop : code.op op = .forEach fn) (hs : s.Sound K page)
    (hcode : code.Lawful K) (hT : Hangs s.read T) {it : SlotIter ι} {visited : List Nat}
    (hcounted : it.Counted) (hsound : (it.sweep visited).Sound s.read s.read)
    (htotal : it.total = it.reports.length) (hends : IterEnds code (fun _ => false) s it) :
    ∃ n reports, (∀ os, slotCall page code t op n os (.iter it) s =
        some (s, .visited reports.length reports)) ∧
      reports = cut fn it.reports (slotReports code s ((it.sweep visited).todo T)) := by
  induction hends generalizing visited with
  | @result it r step =>
    have hmoves := slotIterStep_moves code s hcounted visited
    have hobeys := slotIterStep_obeys code fn s it
    rw [step] at hmoves hobeys
    cases hmoves with
    | @fault a met untold =>
      obtain ⟨x, hx, -⟩ := hsound.seated a met
      obtain ⟨n, hn, hgenuine⟩ := hs.linked_node ⟨x, hx⟩
      obtain ⟨rep, hrep⟩ := hcode.report a n.body n.value hgenuine
      rw [slotVisit, hn, Option.bind_some, hrep] at untold
      cases untold
    | through frames top =>
      have htodo : (it.sweep visited).todo T = [] := Sweep.todo_through T frames top
      generalize hout : slotIterStep code fn s it = out at hobeys
      cases hobeys
      refine ⟨1, it.reports, fun os => ?_, ?_⟩
      · rw [slotCall_iter_last hop hout, htotal]
      · rw [htodo]
        rfl
  | @next it it' step rest ih =>
    have hmoves := slotIterStep_moves code s hcounted visited
    have hobeys := slotIterStep_obeys code fn s it
    rw [step] at hmoves hobeys
    generalize hout : slotIterStep code fn s it = out at hobeys
    cases hmoves with
    | read counted total reports move =>
      have hsound' := hsound.step (Grows.refl s.read) hs.placed.once move
      have htodo : (it'.sweep visited).todo T = (it.sweep visited).todo T :=
        List.append_cancel_left (move.visits hT)
      obtain ⟨n, result, hcall, hresult⟩ := ih counted hsound' (by rw [total, reports, htotal])
      cases hobeys with
      | untold same =>
        refine ⟨n + 1, result, fun os => ?_, ?_⟩
        · rw [slotCall_iter_more hop hout, hcall]
        · rw [hresult, htodo, reports]
      | told more =>
        rw [reports] at more
        exact absurd (congrArg List.length more) (by simp)
    | @visit _ a r counted total told reports move =>
      have hsound' := hsound.step (Grows.refl s.read) hs.placed.once move
      have htotal' : it'.total = it'.reports.length := by
        rw [total, reports, List.length_append, List.length_singleton, htotal]
      have htodo : (it.sweep visited).todo T = a :: (it'.sweep (visited ++ [a])).todo T := by
        have hvisits : (visited ++ [a]) ++ (it'.sweep (visited ++ [a])).todo T =
          visited ++ (it.sweep visited).todo T := move.visits hT
        rw [List.append_assoc] at hvisits
        exact (List.append_cancel_left hvisits).symm
      rw [htodo, slotReports_cons told, cut, ← reports]
      cases hobeys with
      | untold same =>
        have hsame := same it' rfl
        rw [reports] at hsame
        exact absurd (congrArg List.length hsame) (by simp)
      | told more =>
        cases hask : fn it'.reports with
        | true =>
          rw [hask] at hout
          refine ⟨1, it'.reports, fun os => ?_, (if_pos rfl).symm⟩
          rw [slotCall_iter_last hop hout, htotal']
        | false =>
          rw [hask] at hout
          obtain ⟨n, result, hcall, hresult⟩ := ih counted hsound' htotal'
          refine ⟨n + 1, result, fun os => ?_, ?_⟩
          · rw [slotCall_iter_more hop hout, hcall]
          · rw [if_neg (by decide)]
            exact hresult

/-- **A ForEach at rest** calls its callback on the nodes in pre-order, up to the one at which it
asks to stop, and counts the calls. -/
theorem slotCall_forEach (hop : code.op op = .forEach fn) (hs : s.Sound K page)
    (hcode : code.Lawful K) {nodes : List Nat} (hnodes : ∀ x a, s.read x = some a → a ∈ nodes)
    (hT : Hangs s.read T) (t : τ) :
    ∃ n reports, (∀ os, slotCall page code t op n os .enter s =
        some (s, .visited reports.length reports)) ∧
      reports = cut fn [] (slotReports code s (listAll fun i => T (.root i))) := by
  have hcounted : (SlotIter.start : SlotIter ι).Counted := trivial
  have hsound : ((SlotIter.start : SlotIter ι).sweep []).Sound s.read s.read :=
    Sweep.Sound.start s.read s.read
  have hends : IterEnds code (fun _ => false) s .start :=
    .of_sound hs (Grows.refl s.read) hnodes hcounted hsound
  obtain ⟨n, reports, hcall, hreports⟩ := hends.calls hop hs hcode hT hcounted hsound rfl
  have htodo : ((SlotIter.start : SlotIter ι).sweep []).todo T = listAll fun i => T (.root i) :=
    Sweep.todo_start T
  rw [htodo] at hreports
  refine ⟨n + 1, reports, fun os => ?_, hreports⟩
  have hfirst : slotStep page code t (os 0) op .enter s = (s, .inl (.iter .start)) := by
    simp only [slotStep, hop]
  rw [slotCall, hfirst]
  exact hcall _

omit [DecidableEq τ] in
/-- The reports of all nodes are the entries: each key once, with its value. `keyOf` and `valueOf`
read them off a report. -/
theorem slotReports_entries (hs : s.Sound K page) (hcode : code.Lawful K) {nodes : List Nat}
    (hnodes : ∀ x a, s.read x = some a → a ∈ nodes) (hT : Hangs s.read T) {keyOf : ι → κ}
    {valueOf : ι → BitVec 64} (hreport : ∀ a b v r, K.Genuine b → code.report a b v = some r →
      keyOf r = K.keyOf b ∧ valueOf r = v) {m : κ → Option (BitVec 64)} (hm : s.Holds K m) :
    ((slotReports code s (listAll fun i => T (.root i))).map keyOf).Nodup ∧
      ∀ k v, m k = some v ↔
        ∃ r ∈ slotReports code s (listAll fun i => T (.root i)), keyOf r = k ∧ valueOf r = v := by
  obtain ⟨hnodup, hlinked⟩ := hT.listAll hs.placed hnodes
  have hvisit : ∀ a, s.Linked a → ∃ n r, s.heap a = some n ∧ slotVisit code s a = some r ∧
      keyOf r = K.keyOf n.body ∧ valueOf r = n.value := by
    intro a ha
    obtain ⟨n, hn, hgenuine⟩ := hs.linked_node ha
    obtain ⟨r, hr⟩ := hcode.report a n.body n.value hgenuine
    refine ⟨n, r, hn, ?_, hreport a n.body n.value r hgenuine hr⟩
    rw [slotVisit, hn, Option.bind_some, hr]
  constructor
  · refine List.pairwise_map.mpr (List.pairwise_filterMap.mpr ?_)
    refine hnodup.imp_of_mem fun {a a'} ha ha' hne r hr r' hr' hkeys => hne ?_
    obtain ⟨n, rn, hn, hrn, hkey, -⟩ := hvisit a ((hlinked a).mp ha)
    obtain ⟨n', rn', hn', hrn', hkey', -⟩ := hvisit a' ((hlinked a').mp ha')
    cases hr.symm.trans hrn
    cases hr'.symm.trans hrn'
    obtain ⟨x, hx⟩ := (hlinked a).mp ha
    obtain ⟨x', hx'⟩ := (hlinked a').mp ha'
    refine hs.placed.unique x x' a a' hx hx' ?_
    simp only [Slots.key, hn, hn', Option.map_some, ← hkey, ← hkey', hkeys]
  · intro k v
    rw [hm k v]
    constructor
    · rintro ⟨a, n, ha, hn, rfl, rfl⟩
      obtain ⟨n', r, hn', hr, hkey, hvalue⟩ := hvisit a ha
      cases hn.symm.trans hn'
      exact ⟨r, List.mem_filterMap.mpr ⟨a, (hlinked a).mpr ha, hr⟩, hkey, hvalue⟩
    · rintro ⟨r, hr, rfl, rfl⟩
      obtain ⟨a, ha, hra⟩ := List.mem_filterMap.mp hr
      obtain ⟨n, r', hn, hr', hkey, hvalue⟩ := hvisit a ((hlinked a).mp ha)
      cases hra.symm.trans hr'
      exact ⟨a, n, (hlinked a).mp ha, hn, hkey.symm, hvalue.symm⟩

end

end RgMemory
