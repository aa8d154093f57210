import RgMemory.Hash.Wide
import RgMemory.Slots.Model

/-!
# The hash index

`rg_hash_index.c`: the lock-free trie whose nodes have two digests and no key. The first digest drives
the descent; both are compared at a node and both go into the reseed. The byte-key entry points
compute the two digests in one pass.

The null `HashIndex*`, which every entry point refuses, is not modelled.
-/

namespace RgMemory

open Bytes

/-- `RGM_HASH_INDEX_H2_SEED`. -/
def rgmHashIndexH2Seed : BitVec 64 := rgmHashWyp2

/-- The part of a `HashIndexNode` that never changes. -/
structure IndexBody where
  h1 : BitVec 64
  h2 : BitVec 64

def hashIndexNodeSize : Nat := 56

/-- The probe of a digest pair. -/
def indexProbe (h1 h2 : BitVec 64) : SlotProbe IndexBody where
  hfull := h1
  reseed := rgmHashReseedH h1 h2
  test _ b := some (b.h1 == h1 && b.h2 == h2)
  body := { h1, h2 }
  size := hashIndexNodeSize

/-- What the callback of ForEach is told. -/
structure IndexReport where
  h1 : BitVec 64
  h2 : BitVec 64
  value : BitVec 64

/-- A call. `out` says whether `_outValue` is there; a ForEach may have no callback. -/
inductive HashIndexOp
  | putH (h1 h2 value : BitVec 64)
  | getH (h1 h2 : BitVec 64) (out : Bool)
  | put (key : KeyArg) (value : BitVec 64)
  | get (key : KeyArg) (out : Bool)
  | forEach (fn : Option (List IndexReport → Bool))

/-- The digests of a byte key. -/
def rgmHashIndexPair (key : List Byte) : BitVec 64 × BitVec 64 :=
  rgmHashWyhashDualSeeded (ptr key) key.length rgmHashWyp0 rgmHashIndexH2Seed

/-- A call with its arguments checked. -/
def HashIndexOp.op : HashIndexOp → SlotOp IndexBody IndexReport
  | .putH h1 h2 value => .put (indexProbe h1 h2) value
  | .getH h1 h2 out => .get (indexProbe h1 h2) out
  | .put key value =>
    if key.null && key.bytes.length ≠ 0 then .refused (.answer .errInvalid none)
    else
      match rgmHashIndexPair key.bytes with
      | (h1, h2) => .put (indexProbe h1 h2) value
  | .get key out =>
    if key.null && key.bytes.length ≠ 0 then .refused (.answer .errInvalid none)
    else
      match rgmHashIndexPair key.bytes with
      | (h1, h2) => .get (indexProbe h1 h2) out
  | .forEach none => .refused (.visited 0 [])
  | .forEach (some fn) => .forEach fn

/-- `rg_hash_index.c`. -/
def hashIndexCode : SlotCode HashIndexOp IndexBody IndexReport where
  op := HashIndexOp.op
  missing := .errNotFound
  report _ b value := some ⟨b.h1, b.h2, value⟩

end RgMemory
