import RgMemory.HashTrie.Run
import RgMemory.Slots.Sweep

/-!
# ForEach of a hash trie beside Puts

`Slots.slot_sweep` for the byte keys of a trie, copying or NOCOPY.
-/

namespace RgMemory

open Bytes Concurrent

/-- A report has the key of its node, and the value that was loaded. -/
theorem hashTrieCode_report {mem : Mem} {nocopy : Bool} {a : Nat} {b : TrieBody} {v : BitVec 64}
    {r : TrieReport} (hb : GenuineBody mem nocopy b)
    (hr : (hashTrieCode mem nocopy).report a b v = some r) :
    r.bytes = trieKeyOf mem b ∧ r.value = v := by
  obtain ⟨p, m, hext, hslice⟩ := keyExt_genuine hb a
  simp only [hashTrieCode, hext, Option.map_some, Option.some.injEq] at hr
  subst hr
  refine ⟨?_, rfl⟩
  rw [← hslice, hb.keyLen]

/-- **ForEach neither drops nor repeats entries.** A thread calls ForEach on a trie with a callback
that never stops it, and its steps interleave with those of any other calls. The call ends when its
thread gets to run. It reports each key once whose node was published when it was called, and no key
twice, whatever the depth of the trie; a value that it reports was stored by a Put of the key; and
the count that it returns is the number of the reports. -/
theorem hash_trie_for_each_sweeps {page : Nat} (hpage : IsPageSize page) {τ : Type} [DecidableEq τ]
    {mem : Mem} {nocopy : Bool} {s : Slots TrieBody τ} (hs : s.Fresh page) (t : τ)
    (before after : List (Action τ OsReply (HashTrieOp mem nocopy))) :
    let M := slotMachine page (hashTrieCode mem nocopy) τ
    let c₁ := (Config.start s).run M before
    let c₂ := (c₁.act M (.call t (.forEach (some fun _ => false)))).run M after
    c₁.thread t = .idle →
      (∀ r, Event.ret c₁.next r ∈ c₂.history → ∃ reports, r = .visited reports.length reports ∧
        (∀ a n, c₁.shared.Linked a → c₁.shared.heap a = some n →
          (reports.map TrieReport.bytes).count (trieKeyOf mem n.body) = 1) ∧
        (reports.map TrieReport.bytes).Nodup ∧
        ∀ rep ∈ reports, ∃ id put, (id, put, .answer .ok none) ∈ c₂.log ∧
          put.toMap = .put rep.bytes rep.value) ∧
      ∀ os, ∃ n r, Event.ret c₁.next r ∈
        (c₂.run M (List.replicate n (.step t os) ++ [.ret t])).history := by
  intro M c₁ c₂ hidle
  have hop : (hashTrieCode mem nocopy).op (.forEach (some fun _ => false)) =
    .forEach fun _ => false := rfl
  obtain ⟨hresult, hends⟩ := slot_sweep hpage (hashTrieCode_lawful mem nocopy) hs hop
    (fun a b v r => hashTrieCode_report) t before after hidle
  refine ⟨fun r hret => ?_, hends⟩
  obtain ⟨reports, hr, hall, hnodup, hstored⟩ := hresult r hret
  refine ⟨reports, hr, fun a n ha hn => ?_, hnodup, fun rep hrep => ?_⟩
  · refine List.count_eq_one_of_mem hnodup (hall a _ ha ?_)
    exact congrArg (Option.map fun n : SlotNode TrieBody => trieKeyOf mem n.body) hn
  · obtain ⟨id, put, hmem, hput⟩ := hstored rep hrep
    exact ⟨id, put, hmem, HashTrieOp.toMap_eq put ▸ hput⟩

/-- A Put of the key 7 by one thread. -/
def samplePut : List (Action (Fin 2) OsReply (HashTrieOp (fun _ => 0) false)) :=
  let a : Action (Fin 2) OsReply _ := .step threadA ⟨0, true, true, fun _ => 0⟩
  [.call threadA (.putU64 7 1), a, a, a, a, .ret threadA]

def samplePutDone : Config (Fin 2) (Slots TrieBody (Fin 2)) (HashTrieOp (fun _ => 0) false)
    (SlotPhase TrieReport) (SlotResult TrieReport) :=
  (Config.start sampleTrie).run (slotMachine 4096 (hashTrieCode (fun _ => 0) false) (Fin 2))
    samplePut

theorem samplePutDone_idle : samplePutDone.thread threadB = .idle := by
  rfl

theorem samplePutDone_linked : samplePutDone.shared.Linked 65536 ∧
    (samplePutDone.shared.heap 65536).map SlotNode.body = some (u64TrieProbe 7).body :=
  ⟨⟨.root (u64TrieProbe 7).root, rfl⟩, rfl⟩

/-- The first thread puts the key 9 while the other one is at its ForEach. -/
def sampleBeside : List (Action (Fin 2) OsReply (HashTrieOp (fun _ => 0) false)) :=
  let a : Action (Fin 2) OsReply _ := .step threadA ⟨0, true, true, fun _ => 0⟩
  let b : Action (Fin 2) OsReply _ := .step threadB ⟨0, true, true, fun _ => 0⟩
  [b, .call threadA (.putU64 9 2), a, b, a, b, b, a, b, a, b, .ret threadA]

def sampleSweeping :=
  (samplePutDone.act (slotMachine 4096 (hashTrieCode (fun _ => 0) false) (Fin 2))
    (.call threadB (.forEach (some fun _ => false)))).run
      (slotMachine 4096 (hashTrieCode (fun _ => 0) false) (Fin 2)) sampleBeside

example : sampleSweeping.history =
    [.call 0 (.putU64 7 1), .ret 0 (.answer .ok none), .call 1 (.forEach (some fun _ => false)),
      .call 2 (.putU64 9 2), .ret 2 (.answer .ok none)] := rfl

/-- That ForEach ends, and reports the key that was there once and no key twice. -/
theorem samplePutDone_swept :
    ∃ n reports, Event.ret 1 (.visited (List.length reports) reports) ∈
        (sampleSweeping.run (slotMachine 4096 (hashTrieCode (fun _ => 0) false) (Fin 2))
          (List.replicate n (.step threadB ⟨0, true, true, fun _ => 0⟩) ++
            [.ret threadB])).history ∧
      (reports.map TrieReport.bytes).count (leBytes 7) = 1 ∧
      (reports.map TrieReport.bytes).Nodup := by
  have hpage : IsPageSize 4096 := ⟨12, by decide, rfl⟩
  obtain ⟨hlinked, hbody⟩ := samplePutDone_linked
  obtain ⟨node, hnode, hnodeBody⟩ := Option.map_eq_some_iff.mp hbody
  obtain ⟨n, r, hret⟩ := (hash_trie_for_each_sweeps hpage sampleTrie_fresh threadB samplePut
    sampleBeside samplePutDone_idle).2 ⟨0, true, true, fun _ => 0⟩
  have hret' := hret
  rw [Config.run, Config.run, ← List.foldl_append] at hret'
  obtain ⟨reports, rfl, hall, hnodup, -⟩ := (hash_trie_for_each_sweeps hpage sampleTrie_fresh
    threadB samplePut _ samplePutDone_idle).1 r hret'
  refine ⟨n, reports, hret, ?_, hnodup⟩
  have hcount := hall 65536 node hlinked hnode
  rw [hnodeBody] at hcount
  exact hcount

end RgMemory
