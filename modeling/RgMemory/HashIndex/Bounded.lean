import RgMemory.HashIndex.Run
import RgMemory.HashTrie.Run
import RgMemory.Slots.Progress

/-!
# Puts and Gets of the lock-free tries are bounded

`Slots.slot_calls_bounded` for the two containers.
-/

namespace RgMemory

open Bytes Concurrent

/-- **No Put or Get waits for another thread.** In any run of a trie, copying or NOCOPY, or of an
index, a call of Put or Get that has no result yet has taken at most four steps for each Put that has
ended, and three more, whatever the other threads do; and the nodes that it created and lost the race
for, which stay in the arena of its thread, are no more than the nodes that were published while it
ran. -/
theorem put_get_bounded {page : Nat} (hpage : IsPageSize page) {τ : Type} [DecidableEq τ] (mem : Mem)
    (nocopy : Bool) {s : Slots TrieBody τ} (hs : s.Fresh page) {s' : Slots IndexBody τ}
    (hs' : s'.Fresh page) :
    CallsBounded page (hashTrieCode mem nocopy) s ∧ CallsBounded page hashIndexCode s' :=
  ⟨slot_calls_bounded hpage (hashTrieCode_lawful mem nocopy) hs,
    slot_calls_bounded hpage hashIndexCode_lawful hs'⟩

/-- A thread has created a node for the key 7. -/
def sampleRaceBefore : List (Action (Fin 2) OsReply (HashTrieOp (fun _ => 0) false)) :=
  let a : Action (Fin 2) OsReply _ := .step threadA ⟨0, true, true, fun _ => 0⟩
  [.call threadA (.putU64 7 1), a, a, a]

/-- The other thread creates one too, and loses the race. -/
def sampleRaceAfter : List (Action (Fin 2) OsReply (HashTrieOp (fun _ => 0) false)) :=
  let a : Action (Fin 2) OsReply _ := .step threadA ⟨0, true, true, fun _ => 0⟩
  let b : Action (Fin 2) OsReply _ := .step threadB ⟨0, true, true, fun _ => 0⟩
  [b, b, b, a, b]

def sampleRaceMachine := slotMachine 4096 (hashTrieCode (fun _ => 0) false) (Fin 2)

def sampleRaceStart : Config (Fin 2) (Slots TrieBody (Fin 2)) (HashTrieOp (fun _ => 0) false)
    (SlotPhase TrieReport) (SlotResult TrieReport) :=
  (Config.start sampleTrie).run sampleRaceMachine sampleRaceBefore

def sampleRace : Config (Fin 2) (Slots TrieBody (Fin 2)) (HashTrieOp (fun _ => 0) false)
    (SlotPhase TrieReport) (SlotResult TrieReport) :=
  (sampleRaceStart.act sampleRaceMachine (.call threadB (.put sampleTrieKey 2))).run
    sampleRaceMachine sampleRaceAfter

theorem sampleRace_thread : sampleRace.thread threadB = .running 1 (.put sampleTrieKey 2)
    (.inspect 65536 (bytesTrieProbe sampleTrieKey).descend) := by
  rfl

/-- The loser has taken four steps of its own, and it has at most two nodes. -/
theorem sampleRace_bounded :
    ownSteps threadB sampleRaceAfter ≤
        4 * putCount (hashTrieCode (fun _ => 0) false) sampleRace.log + 3 ∧
      (sampleRace.shared.nodesOf threadB).encard ≤ (sampleRaceStart.shared.nodesOf threadB).encard +
        (sampleRaceStart.shared.publishedSince sampleRace.shared).encard + 1 :=
  ((put_get_bounded ⟨12, by decide, rfl⟩ (fun _ => 0) false sampleTrie_fresh
    sampleIndex_fresh).1 threadB (.put sampleTrieKey 2) sampleRaceBefore sampleRaceAfter nofun rfl).1
    _ sampleRace_thread

end RgMemory
