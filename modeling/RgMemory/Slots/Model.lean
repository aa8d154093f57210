import RgMemory.HashMap.Model
import RgMemory.Lib.Concurrent
import RgMemory.Lib.Links

/-!
# Lock-free tries

`rg_hash_trie.c` and `rg_hash_index.c` are one algorithm over two kinds of node, with the top-level
index enabled. A node has four child slots and a value; its `body` is what a Put writes once and
nobody changes. Slots hold absolute pointers, which are addresses here, and null is `none`. Memory is
seen node by node: `heap` has the node at an address, so that what a thread has allocated and not yet
published is there too. Which addresses are free is decided by the arenas, one for each thread.

The atomic steps are the slot load, the creation of a private node, the CAS that gives back the prior
pointer, the store and the load of a value; the comparison with a node, which reads what never
changes, is a step of its own. A thread that dereferences an address without a node stops with
`fault`, which is not in the source.

What distinguishes the two containers is in `SlotCode`: how a call becomes a `SlotProbe`, which code
answers an absent key, and what ForEach tells its callback about a node.
-/

namespace RgMemory

open Links Concurrent

/-- A node. -/
structure SlotNode (β : Type) where
  child : Fin 4 → Option Nat
  value : BitVec 64
  body : β

/-- A slot of the top-level index, or a child slot of the node at an address. -/
abbrev NodeSlot := Seat (Fin 4096) Nat 4

/-- The top-level index, the nodes, and the arena of each thread. -/
structure Slots (β τ : Type) where
  top : Fin 4096 → Option Nat
  heap : Nat → Option (SlotNode β)
  arenas : τ → ArenaState

/-- What an operation knows of its key: the digest that drives the descent, the reseed, the
comparison with the node at an address (`none` when it faults), and how a node for the key is
made. -/
structure SlotProbe (β : Type) where
  hfull : BitVec 64
  reseed : BitVec 32 → BitVec 64
  test : Nat → β → Option Bool
  body : β
  size : Nat

/-- The slot of the top-level index that the digest selects. -/
def SlotProbe.root {β : Type} (pr : SlotProbe β) : Fin 4096 := rgmHashMapRoot pr.hfull

/-- The register past the bits of the index. -/
def SlotProbe.descend {β : Type} (pr : SlotProbe β) : Descent := ⟨pr.hfull <<< rgHashTopBits, 0⟩

/-- The result of an operation: a status with what was put into `*_outValue`, or the count of a
ForEach with what the callback was told. -/
inductive SlotResult (ι : Type)
  | fault
  | answer (st : Status) (out : Option (BitVec 64))
  | visited (count : Nat) (reports : List ι)

/-- An operation after its arguments are checked, which may have settled its result. `out` says
whether a Get has somewhere to put the value; the callback of ForEach sees what it has been told so
far, and answers whether to stop. -/
inductive SlotOp (β ι : Type)
  | refused (r : SlotResult ι)
  | put (pr : SlotProbe β) (value : BitVec 64)
  | get (pr : SlotProbe β) (out : Bool)
  | forEach (fn : List ι → Bool)

structure SlotCode (ω β ι : Type) where
  op : ω → SlotOp β ι
  missing : Status
  report : Nat → β → BitVec 64 → Option ι

/-! ## Slots -/

namespace Slots

variable {β τ : Type}

/-- The pointer in a slot. -/
def read (s : Slots β τ) : NodeSlot → Option Nat
  | .root i => s.top i
  | .child a i => (s.heap a).bind fun n => n.child i

/-- Store a pointer into a slot. -/
def write (s : Slots β τ) (node : Nat) : NodeSlot → Slots β τ
  | .root i => { s with top := fun j => if j = i then some node else s.top j }
  | .child a i =>
    { s with
      heap := Function.update s.heap a
        ((s.heap a).map fun n => { n with child := Function.update n.child i (some node) }) }

/-- Store the value of the node at an address. -/
def store (s : Slots β τ) (a : Nat) (value : BitVec 64) : Slots β τ :=
  { s with heap := Function.update s.heap a ((s.heap a).map fun n => { n with value }) }

/-- `rgm_hash_node_create` and `rgm_hash_index_node_create`: allocate in the thread's own arena, and
fill in. -/
def create [DecidableEq τ] (page : Nat) (os : OsReply) (t : τ) (pr : SlotProbe β)
    (value : BitVec 64) (s : Slots β τ) : Option Nat × Slots β τ :=
  match rgArenaAllocAligned page os (s.arenas t) pr.size rgmCacheLine with
  | (node, a) =>
    let s := { s with arenas := Function.update s.arenas t a }
    if node = 0 then (none, s)
    else
      (some node,
        { s with heap := Function.update s.heap node (some ⟨fun _ => none, value, pr.body⟩) })

end Slots

/-! ## ForEach -/

/-- A frame of the iteration. -/
structure TrieIterFrame where
  node : Nat
  visited : Bool
  nextChild : Nat

/-- A frame of the recursive fallback, with the count of its call. -/
structure TrieRecFrame extends TrieIterFrame where
  count : Nat

def rgmHashTrieIterStackDepth : Nat := 64

/-- A ForEach on its way: the next slot of the top-level index, the explicit stack and above it the
recursive calls, each with the innermost frame first. -/
structure SlotIter (ι : Type) where
  top : Nat
  stack : List TrieIterFrame
  recs : List TrieRecFrame
  count : Nat
  reports : List ι

namespace SlotIter

variable {ι : Type}

def start : SlotIter ι := ⟨0, [], [], 0, []⟩

/-- What `count` will be when all recursive calls have returned. -/
def total (it : SlotIter ι) : Nat := it.count + (it.recs.map TrieRecFrame.count).sum

end SlotIter

/-- Visit a node: load its value and call the callback. -/
def slotVisit {ω β ι τ : Type} (code : SlotCode ω β ι) (s : Slots β τ) (node : Nat) : Option ι :=
  (s.heap node).bind fun n => code.report node n.body n.value

/-- A step of ForEach. -/
def slotIterStep {ω β ι τ : Type} (code : SlotCode ω β ι) (fn : List ι → Bool) (s : Slots β τ)
    (it : SlotIter ι) : SlotIter ι ⊕ SlotResult ι :=
  match it.recs, it.stack with
  | f :: recs, _ =>
    if !f.visited then
      match slotVisit code s f.node with
      | none => .inr .fault
      | some r =>
        let it := { it with
          recs := { f with visited := true, count := 1 } :: recs
          reports := it.reports ++ [r] }
        if fn it.reports then .inr (.visited it.total it.reports) else .inl it
    else if h : f.nextChild < 4 then
      let f' := { f with nextChild := f.nextChild + 1 }
      match s.read (.child f.node ⟨f.nextChild, h⟩) with
      | none => .inl { it with recs := f' :: recs }
      | some cur => .inl { it with recs := ⟨⟨cur, false, 0⟩, 0⟩ :: f' :: recs }
    else
      -- the call returns, and its caller adds the count
      match recs with
      | [] => .inl { it with recs := [], count := it.count + f.count }
      | g :: recs => .inl { it with recs := { g with count := g.count + f.count } :: recs }
  | [], f :: stack =>
    if !f.visited then
      match slotVisit code s f.node with
      | none => .inr .fault
      | some r =>
        let it := { it with
          stack := { f with visited := true } :: stack
          count := it.count + 1
          reports := it.reports ++ [r] }
        if fn it.reports then .inr (.visited it.total it.reports) else .inl it
    else if h : f.nextChild < 4 then
      let f' := { f with nextChild := f.nextChild + 1 }
      match s.read (.child f.node ⟨f.nextChild, h⟩) with
      | none => .inl { it with stack := f' :: stack }
      | some cur =>
        if it.stack.length < rgmHashTrieIterStackDepth then
          .inl { it with stack := ⟨cur, false, 0⟩ :: f' :: stack }
        else .inl { it with stack := f' :: stack, recs := [⟨⟨cur, false, 0⟩, 0⟩] }
    else .inl { it with stack := stack }
  | [], [] =>
    if h : it.top < 4096 then
      let it' := { it with top := it.top + 1 }
      match s.read (.root ⟨it.top, h⟩) with
      | none => .inl it'
      | some cur => .inl { it' with stack := [⟨cur, false, 0⟩] }
    else .inr (.visited it.total it.reports)

/-! ## Put and Get -/

/-- Where an operation stands: before the load of a slot, the creation of a node for it, the CAS,
the comparison with a node, or the access to the value of the node that matched. -/
inductive SlotPhase (ι : Type)
  | enter
  | load (slot : NodeSlot) (d : Descent)
  | create (slot : NodeSlot) (d : Descent)
  | cas (slot : NodeSlot) (d : Descent) (node : Nat)
  | inspect (cur : Nat) (d : Descent)
  | access (cur : Nat)
  | iter (it : SlotIter ι)

section

variable {ω β ι τ : Type} [DecidableEq τ]

/-- A step of Put. -/
def slotPutStep (page : Nat) (os : OsReply) (t : τ) (pr : SlotProbe β) (value : BitVec 64)
    (s : Slots β τ) : SlotPhase ι → Slots β τ × (SlotPhase ι ⊕ SlotResult ι)
  | .enter =>
    if (s.arenas t).base = 0 then (s, .inr (.answer .errInvalid none))
    else (s, .inl (.load (.root pr.root) pr.descend))
  | .load slot d =>
    match s.read slot with
    | none => (s, .inl (.create slot d))
    | some cur => (s, .inl (.inspect cur d))
  | .create slot d =>
    match s.create page os t pr value with
    | (none, s) => (s, .inr (.answer .errNoMemory none))
    | (some node, s) => (s, .inl (.cas slot d node))
  | .cas slot d node =>
    match s.read slot with
    | none => (s.write node slot, .inr (.answer .ok none))
    | some prior => (s, .inl (.inspect prior d))
  | .inspect cur d =>
    match (s.heap cur).bind fun n => pr.test cur n.body with
    | none => (s, .inr .fault)
    | some true => (s, .inl (.access cur))
    | some false => (s, .inl (.load (.child cur d.digit) (d.next pr.reseed)))
  | .access cur => (s.store cur value, .inr (.answer .ok none))
  | .iter _ => (s, .inr .fault)

/-- A step of Get. -/
def slotGetStep (missing : Status) (pr : SlotProbe β) (out : Bool) (s : Slots β τ) :
    SlotPhase ι → SlotPhase ι ⊕ SlotResult ι
  | .enter => .inl (.load (.root pr.root) pr.descend)
  | .load slot d =>
    match s.read slot with
    | none => .inr (.answer missing none)
    | some cur => .inl (.inspect cur d)
  | .inspect cur d =>
    match (s.heap cur).bind fun n => pr.test cur n.body with
    | none => .inr .fault
    | some true => if out then .inl (.access cur) else .inr (.answer .ok none)
    | some false => .inl (.load (.child cur d.digit) (d.next pr.reseed))
  | .access cur =>
    match s.heap cur with
    | none => .inr .fault
    | some n => .inr (.answer .ok (some n.value))
  | _ => .inr .fault

/-- A step of an operation. -/
def slotStep (page : Nat) (code : SlotCode ω β ι) (t : τ) (os : OsReply) (op : ω)
    (p : SlotPhase ι) (s : Slots β τ) : Slots β τ × (SlotPhase ι ⊕ SlotResult ι) :=
  match code.op op with
  | .refused r => (s, .inr r)
  | .put pr value => slotPutStep page os t pr value s p
  | .get pr out => (s, slotGetStep code.missing pr out s p)
  | .forEach fn =>
    match p with
    | .enter => (s, .inl (.iter .start))
    | .iter it => (s, (slotIterStep code fn s it).map SlotPhase.iter id)
    | _ => (s, .inr .fault)

/-- A container shared by the threads in `τ`; the environment gives the answers of the operating
system. -/
def slotMachine (page : Nat) (code : SlotCode ω β ι) (τ : Type) [DecidableEq τ] :
    Machine τ OsReply (Slots β τ) ω (SlotPhase ι) (SlotResult ι) where
  start _ := .enter
  step t os op p s := slotStep page code t os op p s

end

end RgMemory
