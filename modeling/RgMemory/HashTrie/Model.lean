import RgMemory.Slots.Model

/-!
# The hash trie

`rg_hash_trie.c` and `rg_hash_node.h`: the lock-free trie of byte keys. A node has the full digest of
its key and the length; behind them, in a copying trie, lies the key itself, and in a NOCOPY trie a
pointer to the caller's buffer. `rgmHashNodeKeyExt` is the one way to the key of a node, and reading
the one as the other is a fault.

`mem` is the memory where the callers' buffers are. A NOCOPY trie reads it when it compares keys, and
its contract is that a buffer passed to Put keeps its bytes: `mem` does not change during a run, and
`TrieKey` says that a buffer has its bytes there. The null `HashTrie*`, which every entry point
refuses, is not modelled.
-/

namespace RgMemory

open Bytes

/-! ## Nodes -/

/-- What lies behind a node at `node + 1`. -/
inductive NodeTail
  | inline (key : List Byte)
  | pointer (addr : Nat)

/-- The part of a `HashNode` that never changes. -/
structure TrieBody where
  hash : BitVec 64
  keyLen : BitVec 32
  tail : NodeTail

def hashNodeSize : Nat := 56

/-- The pointer to the inline key of a node, and the bytes behind it. -/
def rgmHashNodeKey (node : Nat) (b : TrieBody) : Option (Nat × Mem) :=
  match b.tail with
  | .inline key => some (node + hashNodeSize, ptr key)
  | .pointer _ => none

/-- The pointer to the key of a node in either mode, and the bytes behind it. -/
def rgmHashNodeKeyExt (mem : Mem) (nocopy : Bool) (node : Nat) (b : TrieBody) :
    Option (Nat × Mem) :=
  if nocopy then
    match b.tail with
    | .inline _ => none
    | .pointer addr => some (addr, fun i => mem (addr + i))
  else rgmHashNodeKey node b

/-! ## Probes -/

/-- A key in a buffer: its address, which may be null, and its bytes. What lies at the address later
matters to a NOCOPY trie only. -/
structure TrieKey (mem : Mem) (nocopy : Bool) where
  addr : Nat
  bytes : List Byte
  stable : nocopy = true → slice mem addr bytes.length = bytes

section

variable {mem : Mem} {nocopy : Bool}

/-- The arguments that Put and Get refuse. -/
def TrieKey.refused (key : TrieKey mem nocopy) : Bool :=
  (key.addr = 0 && key.bytes.length ≠ 0) || key.bytes.length > 2 ^ 32 - 1

/-- The probe of a byte key. A new node gets a copy of the key, or the pointer to it. -/
def bytesTrieProbe (key : TrieKey mem nocopy) : SlotProbe TrieBody where
  hfull := rgmHashWyhash (ptr key.bytes) key.bytes.length
  reseed := rgmHashReseedBytes (ptr key.bytes) key.bytes.length
  test node b :=
    if b.hash = rgmHashWyhash (ptr key.bytes) key.bytes.length ∧
        b.keyLen = BitVec.ofNat 32 key.bytes.length then
      if key.bytes.length = 0 then some true
      else
        (rgmHashNodeKeyExt mem nocopy node b).map fun p =>
          rgmHashKeysEqual p.2 (ptr key.bytes) key.bytes.length
    else some false
  body :=
    { hash := rgmHashWyhash (ptr key.bytes) key.bytes.length
      keyLen := BitVec.ofNat 32 key.bytes.length
      tail := if nocopy then .pointer key.addr else .inline key.bytes }
  size := if nocopy then hashNodeSize + 8 else hashNodeSize + key.bytes.length

/-- The probe of a 64-bit key. Its nodes have the key inline. -/
def u64TrieProbe (key : BitVec 64) : SlotProbe TrieBody where
  hfull := rgmHashU64 key
  reseed := rgmHashReseedU64 key
  test node b :=
    if b.hash = rgmHashU64 key ∧ b.keyLen = 8 then
      (rgmHashNodeKey node b).map fun p => rgmHashLoadU64 p.2 0 == key
    else some false
  body := { hash := rgmHashU64 key, keyLen := 8, tail := .inline (leBytes key) }
  size := hashNodeSize + 8

/-! ## Entry points -/

/-- What the callback of ForEach is told: the pointer to the key, the bytes behind it, the length and
the value. -/
structure TrieReport where
  key : Nat
  bytes : List Byte
  keyLen : BitVec 32
  value : BitVec 64

/-- A call. `out` says whether `_outValue` is there; a ForEach may have no callback. -/
inductive HashTrieOp (mem : Mem) (nocopy : Bool)
  | put (key : TrieKey mem nocopy) (value : BitVec 64)
  | putU64 (key value : BitVec 64)
  | get (key : TrieKey mem nocopy) (out : Bool)
  | getU64 (key : BitVec 64) (out : Bool)
  | forEach (fn : Option (List TrieReport → Bool))

/-- A call with its arguments checked. The 64-bit entry points refuse a NOCOPY trie. -/
def HashTrieOp.op : HashTrieOp mem nocopy → SlotOp TrieBody TrieReport
  | .put key value =>
    if key.refused then .refused (.answer .errInvalid none)
    else .put (bytesTrieProbe key) value
  | .putU64 key value =>
    if nocopy then .refused (.answer .errInvalid none) else .put (u64TrieProbe key) value
  | .get key out =>
    if key.refused then .refused (.answer .errInvalid none)
    else .get (bytesTrieProbe key) out
  | .getU64 key out =>
    if nocopy then .refused (.answer .errInvalid none) else .get (u64TrieProbe key) out
  | .forEach fn =>
    match fn with
    | none => .refused (.visited 0 [])
    | some fn => .forEach fn

end

/-- `rg_hash_trie.c`. An absent key is answered as invalid arguments are. -/
def hashTrieCode (mem : Mem) (nocopy : Bool) :
    SlotCode (HashTrieOp mem nocopy) TrieBody TrieReport where
  op := HashTrieOp.op
  missing := .errInvalid
  report node b value :=
    (rgmHashNodeKeyExt mem nocopy node b).map fun p =>
      ⟨p.1, slice p.2 0 b.keyLen.toNat, b.keyLen, value⟩

end RgMemory
