import RgMemory.Arena.Model
import RgMemory.Hash.Func

/-!
# The hash map

`rg_hash_map.c`, with the top-level index enabled: a 4-ary trie of nodes in one arena, whose links
are 32-bit offsets into the arena. Functions take the map together with the state of the arena it is
bound to; `s.img` is the arena's memory by offset.

`Get` and `Put` and their 64-bit variants are one walk. What distinguishes them is the `Probe`: the
digest, the test of a node's key, and the reseed of the descent. A walk that dereferences a node
outside the part of the arena between the sentinel line and the position stops with `fault`; one
that never ends stops with `diverge`. Neither is in the source, where the one reads whatever is
there and the other does not return.
-/

namespace RgMemory

open Bytes

def rgmCacheLine : Nat := 64
def rgHashTopBits : Nat := 12

/-- The control block. `bound` says that the map has an arena; `top` is the index of roots. -/
structure HashMap where
  bound : Bool
  top : Fin 4096 → BitVec 32

def rgmMapIsLive (map : HashMap) (a : Arena) : Bool := map.bound && a.base ≠ 0

/-! ## Nodes -/

namespace HashMapNode

/-- The size of a node without its key. -/
def size : Nat := 40

def child (img : Mem) (off : BitVec 32) (i : Nat) : BitVec 32 := load32 img (off.toNat + 4 * i)
def hash (img : Mem) (off : BitVec 32) : BitVec 64 := load64 img (off.toNat + 16)
def value (img : Mem) (off : BitVec 32) : BitVec 64 := load64 img (off.toNat + 24)
def keyLen (img : Mem) (off : BitVec 32) : BitVec 32 := load32 img (off.toNat + 32)

/-- The pointer to the inline key, `rgm_hash_map_node_key`. -/
def key (img : Mem) (off : BitVec 32) : Mem := fun i => img (off.toNat + size + i)

end HashMapNode

/-- The stores that fill in a fresh node at the address `node`. -/
def rgmHashMapNodeFill (m : Mem) (node : Nat) (hash : BitVec 64) (key : List Byte) : Mem :=
  let m := store32 m node 0
  let m := store32 m (node + 4) 0
  let m := store32 m (node + 8) 0
  let m := store32 m (node + 12) 0
  let m := store64 m (node + 16) hash
  let m := store64 m (node + 24) 0
  let m := store32 m (node + 32) (BitVec.ofNat 32 key.length)
  if key.length ≠ 0 then copy m (node + HashMapNode.size) (ptr key) key.length else m

/-- Allocate a node and fill it in; the offset, unless the arena is exhausted or the offset does not
fit 32 bits. -/
def rgmHashMapNodeCreate (page : Nat) (os : OsReply) (s : ArenaState) (hash : BitVec 64)
    (key : List Byte) : Option (BitVec 32) × ArenaState :=
  let total := HashMapNode.size + key.length
  match rgArenaAllocAligned page os s total rgmCacheLine with
  | (node, s) =>
    if node = 0 then (none, s)
    else
      let off := node - s.base
      if off > 2 ^ 32 - 1 then (none, rgArenaPop s total)
      else
        (some (BitVec.ofNat 32 off), { s with mem := rgmHashMapNodeFill s.mem node hash key })

/-- Bind a map to an arena. A fresh arena gives up its first cache line, so that offset 0 can mean an
empty slot; a failure to do so leaves the map bound but its index as it was. -/
def rgHashMapInit (page : Nat) (os : OsReply) (map : HashMap) (s : ArenaState) :
    Status × HashMap × ArenaState :=
  if s.base = 0 then (.errInvalid, map, s)
  else
    let map := { map with bound := true }
    if rgArenaUsed s.toArena = 0 then
      match rgArenaAllocAligned page os s rgmCacheLine rgmCacheLine with
      | (sentinel, s) =>
        if sentinel = 0 then (.errNoMemory, map, s)
        else
          (.ok, { map with top := fun _ => 0 },
            { s with mem := copy s.mem sentinel (fun _ => 0) rgmCacheLine })
    else (.ok, { map with top := fun _ => 0 }, s)

/-! ## The walk -/

/-- What a walk knows of its key. `sameKey` is the test of a node's inline key, made when digest and
length agree. -/
structure Probe where
  hfull : BitVec 64
  keyLen : Nat
  sameKey : Mem → Bool
  reseed : BitVec 32 → BitVec 64

def bytesProbe (key : List Byte) : Probe where
  hfull := rgmHashWyhash (ptr key) key.length
  keyLen := key.length
  sameKey p := key.length = 0 || rgmHashKeysEqual p (ptr key) key.length
  reseed := rgmHashReseedBytes (ptr key) key.length

def u64Probe (key : BitVec 64) : Probe where
  hfull := rgmHashU64 key
  keyLen := 8
  sameKey p := rgmHashLoadU64 p 0 == key
  reseed := rgmHashReseedU64 key

theorem ushiftRight_lt {h : BitVec 64} {k n : Nat} (hn : 2 ^ 64 = 2 ^ k * n) :
    (h >>> k).toNat < n := by
  rw [BitVec.toNat_ushiftRight, Nat.shiftRight_eq_div_pow]
  exact Nat.div_lt_of_lt_mul (hn ▸ h.isLt)

/-- The register of a descent and the number of its reseeds. -/
structure Descent where
  h : BitVec 64
  round : BitVec 32

/-- The child that the next step takes. -/
def Descent.digit (d : Descent) : Fin 4 := ⟨(d.h >>> 62).toNat, ushiftRight_lt (by decide)⟩

/-- Consume two bits; an exhausted register is reseeded. -/
def Descent.next (reseed : BitVec 32 → BitVec 64) (d : Descent) : Descent :=
  let h := d.h <<< 2
  if h = 0 then ⟨reseed (d.round + 1), d.round + 1⟩ else ⟨h, d.round⟩

/-- `RGM_HASH_MAP_ROOT`: the index of the root that a digest selects. -/
def rgmHashMapRoot (hfull : BitVec 64) : Fin 4096 :=
  ⟨(hfull >>> (64 - rgHashTopBits)).toNat, ushiftRight_lt (by decide)⟩

/-- `RGM_HASH_MAP_DESCEND`: the register past the bits of the root. -/
def Probe.descend (pr : Probe) : Descent := ⟨pr.hfull <<< rgHashTopBits, 0⟩

/-- A slot: a root, or a child of a node. -/
inductive Slot
  | root (i : Fin 4096)
  | child (off : BitVec 32) (i : Fin 4)
  deriving DecidableEq

def Slot.read (map : HashMap) (img : Mem) : Slot → BitVec 32
  | root i => map.top i
  | child off i => HashMapNode.child img off i

/-- Why a walk has no result. -/
inductive Stop
  | fault
  | diverge
  deriving DecidableEq

/-- The result of a walk: the node of the key, or the empty slot where it belongs. -/
inductive Found
  | hit (off : BitVec 32)
  | miss (slot : Slot)

/-- The match test at a node. The inline key is read when digest and length agree. -/
def rgmHashMapMatches (s : ArenaState) (pr : Probe) (off : BitVec 32) : Except Stop Bool :=
  if off.toNat < rgmCacheLine ∨ s.pos < off.toNat + HashMapNode.size then .error .fault
  else if HashMapNode.hash s.img off = pr.hfull ∧
      HashMapNode.keyLen s.img off = BitVec.ofNat 32 pr.keyLen then
    if s.pos < off.toNat + HashMapNode.size + pr.keyLen then .error .fault
    else .ok (pr.sameKey (HashMapNode.key s.img off))
  else .ok false

/-- The walk from a slot. -/
def rgmHashMapWalk (map : HashMap) (s : ArenaState) (pr : Probe) :
    Nat → Slot → Descent → Except Stop Found
  | 0, _, _ => .error .diverge
  | fuel + 1, slot, d =>
    let cur := slot.read map s.img
    if cur = 0 then .ok (.miss slot)
    else
      match rgmHashMapMatches s pr cur with
      | .error e => .error e
      | .ok true => .ok (.hit cur)
      | .ok false => rgmHashMapWalk map s pr fuel (.child cur d.digit) (d.next pr.reseed)

/-- A walk that has taken this many steps has been twice at one offset with one register and one
round, and never ends. -/
def rgmHashMapWalkFuel : Nat := 2 ^ 128

def rgmHashMapLookup (map : HashMap) (s : ArenaState) (pr : Probe) : Except Stop Found :=
  rgmHashMapWalk map s pr rgmHashMapWalkFuel (.root (rgmHashMapRoot pr.hfull)) pr.descend

/-! ## Get and Put -/

/-- The address of the value of a node. -/
def ArenaState.valuePtr (s : ArenaState) (off : BitVec 32) : Nat := s.base + off.toNat + 24

/-- A lookup as `Get` answers it: the address of the value, or 0. -/
def rgmHashMapGet (map : HashMap) (s : ArenaState) (pr : Probe) : Except Stop Nat :=
  match rgmHashMapLookup map s pr with
  | .error e => .error e
  | .ok (.hit off) => .ok (s.valuePtr off)
  | .ok (.miss _) => .ok 0

/-- Store the offset of a new node into an empty slot. -/
def Slot.publish (map : HashMap) (s : ArenaState) (off : BitVec 32) :
    Slot → HashMap × ArenaState
  | root i => ({ map with top := fun j => if j = i then off else map.top j }, s)
  | child n i => (map, { s with mem := store32 s.mem (s.base + n.toNat + 4 * i) off })

/-- An upsert: the value of the existing node, or of a fresh one put into the empty slot. -/
def rgmHashMapPut (page : Nat) (os : OsReply) (map : HashMap) (s : ArenaState) (pr : Probe)
    (key : List Byte) : Except Stop (Nat × HashMap × ArenaState) :=
  match rgmHashMapLookup map s pr with
  | .error e => .error e
  | .ok (.hit off) => .ok (s.valuePtr off, map, s)
  | .ok (.miss slot) =>
    match rgmHashMapNodeCreate page os s pr.hfull key with
    | (none, s) => .ok (0, map, s)
    | (some off, s) =>
      match slot.publish map s off with
      | (map, s) => .ok (s.valuePtr off, map, s)

/-- The arguments that `Get` and `Put` refuse. -/
def rgmHashMapRefuses (map : HashMap) (a : Arena) (key : KeyArg) : Bool :=
  !rgmMapIsLive map a || (key.null && key.bytes.length ≠ 0) || key.bytes.length > 2 ^ 32 - 1

def rgHashMapGet (map : HashMap) (s : ArenaState) (key : KeyArg) : Except Stop Nat :=
  if rgmHashMapRefuses map s.toArena key then .ok 0
  else rgmHashMapGet map s (bytesProbe key.bytes)

def rgHashMapPut (page : Nat) (os : OsReply) (map : HashMap) (s : ArenaState) (key : KeyArg) :
    Except Stop (Nat × HashMap × ArenaState) :=
  if rgmHashMapRefuses map s.toArena key then .ok (0, map, s)
  else rgmHashMapPut page os map s (bytesProbe key.bytes) key.bytes

def rgHashMapGetU64 (map : HashMap) (s : ArenaState) (key : BitVec 64) : Except Stop Nat :=
  if !rgmMapIsLive map s.toArena then .ok 0 else rgmHashMapGet map s (u64Probe key)

def rgHashMapPutU64 (page : Nat) (os : OsReply) (map : HashMap) (s : ArenaState)
    (key : BitVec 64) : Except Stop (Nat × HashMap × ArenaState) :=
  if !rgmMapIsLive map s.toArena then .ok (0, map, s)
  else rgmHashMapPut page os map s (u64Probe key) (leBytes key)

end RgMemory
