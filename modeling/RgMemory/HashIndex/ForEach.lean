import RgMemory.HashIndex.Run
import RgMemory.HashMap.Failed
import RgMemory.HashMap.ForEach
import RgMemory.Slots.Preorder

/-!
# The order of ForEach

`rgHashMapForEach` and `rgHashIndexForEach` are the same machine, a stack of 64 frames with recursion
below it, over offsets and over pointers. Both are the recursive traversal of the top slots in order:
the nodes of each slot in pre-order (`Trie.listAll`), and the callback is called on their entries up
to the one at which it asks to stop (`Callback.callUntil`). So neither the bound of the stack nor a
stop inside the recursion can be seen in the calls.

The release build is modelled: the trap at the overflow of the stack does nothing.
-/

namespace RgMemory

open Bytes Trie Concurrent Callback

/-! ## The hash map -/

/-- The entries of a list of nodes: key and value. -/
def mapEntries (img : Mem) (nodes : List (BitVec 32)) : List (List Byte × BitVec 64) :=
  nodes.map fun off => (HashMapNode.keyBytes img off, HashMapNode.value img off)

/-- The reports over a list of nodes are the calls over its entries. -/
theorem over_eq_callUntil {σ : Type} (fn : σ → List Byte → BitVec 64 → Bool × σ) (img : Mem)
    (nodes : List (BitVec 32)) {r : Report σ} (hr : r.stop = false) :
    (r.over fn img nodes).count =
        r.count + (callUntil (fun u e => fn u e.1 e.2) r.user (mapEntries img nodes)).1.length ∧
      (r.over fn img nodes).user =
        (callUntil (fun u e => fn u e.1 e.2) r.user (mapEntries img nodes)).2 := by
  induction nodes generalizing r with
  | nil => exact ⟨rfl, rfl⟩
  | cons a rest ih =>
    have hcons : mapEntries img (a :: rest) =
      (HashMapNode.keyBytes img a, HashMapNode.value img a) :: mapEntries img rest := rfl
    rw [over_cons hr, hcons]
    cases hask : (r.add fn img a).stop with
    | true =>
      rw [over_stop hask, callUntil_stop hask]
      exact ⟨rfl, rfl⟩
    | false =>
      obtain ⟨hcount, huser⟩ := ih hask
      rw [callUntil_go hask]
      refine ⟨?_, huser⟩
      rw [hcount, List.length_cons]
      exact (Nat.add_right_comm ..).trans (Nat.add_assoc ..)

/-- The entries of all nodes are those that lookups find, each key once. -/
theorem mapEntries_spec {page : Nat} {map : HashMap} {s : ArenaState}
    {forest : Fin 4096 → Trie 4 (BitVec 32)} (hs : s.Ok page) (hlive : 0 < s.base)
    (h : map.Rep s forest) (hseated : Seated s.img forest) :
    ((mapEntries s.img (listAll forest)).map Prod.fst).Nodup ∧
      ∀ key v, rgmHashMapValue map s ⟨false, key⟩ = .ok (some v) ↔
        (key, v) ∈ mapEntries s.img (listAll forest) := by
  constructor
  · rw [mapEntries, List.map_map]
    refine h.nodup.map_on fun a ha b hb hkeys => ?_
    have hfound := hseated a ha
    have hkeys' : HashMapNode.keyBytes s.img a = HashMapNode.keyBytes s.img b := hkeys
    rw [hkeys', hseated b hb] at hfound
    exact (Option.some.inj hfound).symm
  · intro key v
    have hlen : ∀ a, (HashMapNode.keyBytes s.img a).length < 2 ^ 32 := fun a => by
      rw [HashMapNode.keyBytes, slice_length]
      exact (HashMapNode.keyLen s.img a).isLt
    rw [h.value_eq hs hlive, mapEntries, List.mem_map]
    constructor
    · intro hvalue
      cases hr : KeyArg.refused ⟨false, key⟩ with
      | true =>
        rw [hr] at hvalue
        cases hvalue
      | false =>
        rw [hr] at hvalue
        obtain ⟨a, hfound, hv⟩ := Option.map_eq_some_iff.mp (Except.ok.inj hvalue)
        obtain ⟨hmem, hkey⟩ := mem_of_nodeOf hfound
        exact ⟨a, hmem, by rw [hkey, hv]⟩
    · rintro ⟨a, ha, heq⟩
      obtain ⟨rfl, rfl⟩ := Prod.mk.inj heq
      have hr : KeyArg.refused ⟨false, HashMapNode.keyBytes s.img a⟩ = false := by
        have := hlen a
        simp only [KeyArg.refused, Bool.false_and, Bool.false_or, decide_eq_false_iff_not]
        omega
      rw [hr, hseated a ha]
      rfl

/-! ## The hash index -/

/-- A report has the digests and the value of its node. -/
theorem hashIndexCode_report {a : Nat} {b : IndexBody} {v : BitVec 64} {r : IndexReport}
    (hr : hashIndexCode.report a b v = some r) :
    (r.h1, r.h2) = indexKeys.keyOf b ∧ r.value = v := by
  cases hr
  exact ⟨rfl, rfl⟩

/-- **ForEach is a complete pre-order visit**, at every depth and for every callback.

For a map that a client can hold, and for an index after any run of calls, there are the tries that
hang on the top slots; their nodes in pre-order, slot after slot, have the stored entries, each key
once. The callback is called on these entries in this order, up to the one at which it asks to stop,
and the answer is the number of the calls. The index is left alone meanwhile: `slotCall` runs the
steps of the call one after the other. -/
theorem for_each_preorder {page : Nat} (hpage : IsPageSize page) (hline : 64 ∣ page) :
    (∀ {map : HashMap} {s : ArenaState}, map.Reached page s →
      ∃ forest : Fin 4096 → Trie 4 (BitVec 32),
        (∀ i, Unfolds (hashMapLinks s.img) (forest i) (slotLink (map.top i))) ∧
        ((mapEntries s.img (listAll forest)).map Prod.fst).Nodup ∧
        (∀ key v, rgmHashMapValue map s ⟨false, key⟩ = .ok (some v) ↔
          (key, v) ∈ mapEntries s.img (listAll forest)) ∧
        ∀ (σ : Type) (fn : σ → List Byte → BitVec 64 → Bool × σ) (user : σ) (calls user'),
          callUntil (fun u e => fn u e.1 e.2) user (mapEntries s.img (listAll forest)) =
            (calls, user') →
          ∃ N, ∀ fuel ≥ N, rgHashMapForEach fn fuel map s user = .ok (calls.length, user')) ∧
    ∀ {τ : Type} [DecidableEq τ] {s : Slots IndexBody τ}, s.Fresh page →
      ∀ actions : List (Action τ OsReply HashIndexOp),
      let c := (Config.start s).run (slotMachine page hashIndexCode τ) actions
      ∃ (forest : Fin 4096 → Trie 4 Nat) (m : BitVec 64 × BitVec 64 → Option (BitVec 64)),
        (∀ i, Unfolds (fun a k => c.shared.read (.child a k)) (forest i) (c.shared.top i)) ∧
        Legal HashIndexSpec (fun _ => none) c.log m ∧
        ((slotReports hashIndexCode c.shared (listAll forest)).map fun r => (r.h1, r.h2)).Nodup ∧
        (∀ k v, m k = some v ↔
          ⟨k.1, k.2, v⟩ ∈ slotReports hashIndexCode c.shared (listAll forest)) ∧
        ∀ (σ : Type) (fn : σ → IndexReport → Bool × σ) (user : σ) (calls user'),
          callUntil fn user (slotReports hashIndexCode c.shared (listAll forest)) =
            (calls, user') →
          ∀ t, ∃ n, ∀ os, slotCall page hashIndexCode t (.forEach (some (stopsIn fn user))) n os
            .enter c.shared = some (c.shared, .visited calls.length calls) := by
  refine ⟨fun {map s} hreach => ?_, fun {τ _ s} hs actions => ?_⟩
  · obtain ⟨hok, hlive, forest, hrep, hseated⟩ := hreach.rep hpage hline
    obtain ⟨hnodup, hstored⟩ := mapEntries_spec hok hlive hrep hseated
    have hread : map.Readable s forest := ⟨hrep.isLive hlive, hrep.unfolds, hrep.inside⟩
    refine ⟨forest, hrep.unfolds, hnodup, hstored, fun σ fn user calls user' hcalls => ?_⟩
    refine ⟨6 * (listAll forest).length, fun fuel hfuel => ?_⟩
    obtain ⟨hcount, huser⟩ :=
      over_eq_callUntil fn s.img (listAll forest) (r := ⟨0, user, false⟩) rfl
    rw [hcalls] at hcount huser
    rw [rgHashMapForEach_eq hread hfuel, hcount, huser, Nat.zero_add]
  · intro c
    have hfollows : SlotFollows indexKeys hashIndexCode page c :=
      slot_follows hpage hashIndexCode_lawful hs actions
    obtain ⟨m, hlegal, hsound, hm⟩ := hfollows.log
    obtain ⟨nodes, hnodes⟩ := hfollows.nodes
    obtain ⟨T, hT⟩ := hsound.placed.exists_hangs hnodes
    obtain ⟨hnodup, hstored⟩ := slotReports_entries hsound hashIndexCode_lawful hnodes hT
      (fun _ _ _ _ _ hr => hashIndexCode_report hr) hm
    refine ⟨fun i => T (.root i), m, fun i => hT.unfolds (.root i), ?_, hnodup, ?_, ?_⟩
    · refine hlegal.imp fun m op r m' hspec => ?_
      rw [HashIndexSpec, ← HashIndexOp.toMap_eq]
      exact hspec
    · intro k v
      rw [hstored k v]
      constructor
      · rintro ⟨r, hr, rfl, rfl⟩
        exact hr
      · exact fun hr => ⟨_, hr, rfl, rfl⟩
    · intro σ fn user calls user' hcalls t
      have hop : hashIndexCode.op (.forEach (some (stopsIn fn user))) =
        .forEach (stopsIn fn user) := rfl
      obtain ⟨n, reports, hcall, hreports⟩ :=
        slotCall_forEach hop hsound hashIndexCode_lawful hnodes hT t
      rw [cut_stopsIn rfl, List.nil_append, List.foldl_nil, hcalls] at hreports
      rw [hreports] at hcall
      exact ⟨n, hcall⟩

/-- Puts of three pairs. The second goes below the first, the third has a root of its own. -/
def sampleIndexPuts : List (Action (Fin 2) OsReply HashIndexOp) :=
  let steps := List.replicate 6 (.step threadA ⟨0, true, true, fun _ => 0⟩)
  [.call threadA (.putH 0 1 10)] ++ steps ++ [.ret threadA, .call threadA (.putH 0 2 20)] ++ steps ++
    [.ret threadA, .call threadA (.putH 0x8000000000000000 3 30)] ++ steps

def sampleIndexFilled :=
  (Config.start sampleIndex).run (slotMachine 4096 hashIndexCode (Fin 2)) sampleIndexPuts

theorem sampleIndexFilled_log : sampleIndexFilled.log =
    [(0, .putH 0 1 10, .answer .ok none), (1, .putH 0 2 20, .answer .ok none),
      (2, .putH 0x8000000000000000 3 30, .answer .ok none)] := rfl

/-- The pairs that are in the index after that. -/
theorem sampleIndexFilled_pairs {m : BitVec 64 × BitVec 64 → Option (BitVec 64)}
    (h : Legal HashIndexSpec (fun _ => none) sampleIndexFilled.log m) :
    m (0, 1) = some 10 ∧ m (0, 2) = some 20 ∧ m (0x8000000000000000, 3) = some 30 := by
  have hput : ∀ {m m' h1 h2 v}, HashIndexSpec m (.putH h1 h2 v) (.answer .ok none) m' →
      m' = Function.update m (h1, h2) (some v) := by
    rintro m m' h1 h2 v (⟨-, rfl⟩ | ⟨hno, -⟩)
    · rfl
    · cases hno
  rw [sampleIndexFilled_log] at h
  obtain ⟨m2, h, hthird⟩ := Legal.concat [_, _] h
  obtain ⟨m1, h, hsecond⟩ := Legal.concat [_] h
  obtain ⟨m0, h, hfirst⟩ := Legal.concat [] h
  rw [hput hthird, hput hsecond, hput hfirst]
  refine ⟨?_, ?_, ?_⟩
  all_goals simp

/-- All entries of a map of three keys and of an index of three pairs are reported, and a callback
that asks to stop is called once. -/
theorem sample_for_each_preorder :
    (∃ calls, ([107], 0) ∈ calls ∧ ([41, 8], 7) ∈ calls ∧ ([5], 0) ∈ calls ∧
      (calls.map Prod.fst).Nodup ∧
      (∃ N, ∀ fuel ≥ N, rgHashMapForEach (fun user key v => (false, user ++ [(key, v)])) fuel
        sampleFilled.map sampleFilled.arena [] = .ok (calls.length, calls)) ∧
      ∃ N, ∀ fuel ≥ N, rgHashMapForEach (fun user _ _ => (true, user + 1)) fuel
        sampleFilled.map sampleFilled.arena 0 = .ok (1, 1)) ∧
    ∃ calls n, ⟨0, 1, 10⟩ ∈ calls ∧ ⟨0, 2, 20⟩ ∈ calls ∧ ⟨0x8000000000000000, 3, 30⟩ ∈ calls ∧
      (calls.map fun r : IndexReport => (r.h1, r.h2)).Nodup ∧
      ∀ os, slotCall 4096 hashIndexCode threadA
        (.forEach (some (stopsIn (fun _ _ => (false, ())) ()))) n os .enter sampleIndexFilled.shared =
          some (sampleIndexFilled.shared, .visited calls.length calls) := by
  obtain ⟨hmap, hindex⟩ := for_each_preorder samplePage (by decide)
  constructor
  · obtain ⟨forest, -, hnodup, hstored, hcalls⟩ :=
      hmap (.session sampleSession_fresh sampleFilled_run)
    have hfirst := (hstored [107] 0).mp (by decide)
    have hsecond := (hstored [41, 8] 7).mp (by decide)
    have hthird := (hstored [5] 0).mp (by decide)
    -- collecting the calls
    have hcollect : ∀ (l user : List (List Byte × BitVec 64)),
        callUntil (fun user e => (false, user ++ [(e.1, e.2)])) user l = (l, user ++ l) := by
      intro l
      induction l with
      | nil => exact fun user => by rw [callUntil, List.append_nil]
      | cons e rest ih => exact fun user => by rw [callUntil_go rfl, ih]; simp
    have hall := hcalls _ (fun user key v => (false, user ++ [(key, v)])) [] _ _ (hcollect _ [])
    rw [List.nil_append] at hall
    refine ⟨_, hfirst, hsecond, hthird, hnodup, hall, ?_⟩
    obtain ⟨e, rest, hcons⟩ := List.exists_cons_of_ne_nil (List.ne_nil_of_mem hfirst)
    have hstop := hcalls Nat (fun user _ _ => (true, user + 1)) 0 [e] 1
    rw [hcons] at hstop
    exact hstop (callUntil_stop rfl rest)
  · obtain ⟨forest, m, -, hlegal, hnodup, hstored, hcalls⟩ :=
      hindex sampleIndex_fresh sampleIndexPuts
    obtain ⟨hfirst, hsecond, hthird⟩ := sampleIndexFilled_pairs hlegal
    have hall : ∀ l : List IndexReport, callUntil (fun _ _ => (false, ())) () l = (l, ()) :=
      fun l => Prod.ext (callUntil_all (fun _ _ => rfl) () l) rfl
    obtain ⟨n, hcall⟩ := hcalls Unit _ () _ _ (hall _) threadA
    exact ⟨_, n, (hstored _ _).mp hfirst, (hstored _ _).mp hsecond, (hstored _ _).mp hthird, hnodup,
      hcall⟩

end RgMemory
