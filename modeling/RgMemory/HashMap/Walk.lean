import RgMemory.Lib.Trie
import RgMemory.HashMap.Model

/-!
# What a walk finds

A walk over nodes that lie inside the arena is a search of the trie that the links unfold to
(`rgmHashMapWalk_eq`), whatever the nodes hold: it ends, faults nowhere, and its answer is the
trie's. The nodes need not be genuine, so the same statement serves a map built by `Put` and one
read from a file.

The four entry points are two: the 64-bit probe is the probe of the eight little-endian bytes
(`u64Probe_eq`).
-/

namespace RgMemory

open Bytes Trie

/-! ## Links -/

/-- A slot's content as a link. -/
def slotLink (c : BitVec 32) : Option (BitVec 32) := if c = 0 then none else some c

/-- The links of the nodes in an arena image. -/
def hashMapLinks (img : Mem) (off : BitVec 32) (i : Fin 4) : Option (BitVec 32) :=
  slotLink (HashMapNode.child img off i)

@[simp] theorem slotLink_zero : slotLink 0 = none := rfl

theorem slotLink_of_ne {c : BitVec 32} (h : c ≠ 0) : slotLink c = some c := if_neg h

theorem slotLink_eq_none {c : BitVec 32} : slotLink c = none ↔ c = 0 := by
  unfold slotLink
  split <;> simp_all

theorem slotLink_eq_some {c a : BitVec 32} (h : slotLink c = some a) : c = a ∧ c ≠ 0 := by
  unfold slotLink at h
  split at h
  · cases h
  · next hc => exact ⟨Option.some.inj h, hc⟩

theorem slotLink_inj {c d : BitVec 32} (h : slotLink c = slotLink d) : c = d := by
  by_cases hd : d = 0
  · rw [hd] at h ⊢
    exact slotLink_eq_none.mp h
  · rw [slotLink_of_ne hd] at h
    exact (slotLink_eq_some h).1

/-- The slot of a seat: a child of a node, or the slot that the walk started from. -/
def Slot.ofSeat (start : Slot) : Option (BitVec 32 × Fin 4) → Slot
  | none => start
  | some (a, i) => .child a i

theorem Slot.ofSeat_child (start : Slot) (a : BitVec 32) (i : Fin 4)
    (seat : Option (BitVec 32 × Fin 4)) :
    (Slot.child a i).ofSeat seat = start.ofSeat (some (seat.getD (a, i))) := by
  cases seat <;> rfl

/-- The digits that a descent consumes. -/
def Descent.digits (reseed : BitVec 32 → BitVec 64) (d : Descent) : Digits 4 :=
  fun n => ((Descent.next reseed)^[n] d).digit

theorem Descent.digits_tail (reseed : BitVec 32 → BitVec 64) (d : Descent) :
    (d.digits reseed).tail = (d.next reseed).digits reseed := rfl

/-- The digits of a probe below its root. -/
def Probe.digits (pr : Probe) : Digits 4 := pr.descend.digits pr.reseed

/-! ## The match test -/

/-- A node with its inline key lies between the sentinel line and `hi`. -/
def NodeInside (img : Mem) (hi : Nat) (off : BitVec 32) : Prop :=
  rgmCacheLine ≤ off.toNat ∧ off.toNat + HashMapNode.size + (HashMapNode.keyLen img off).toNat ≤ hi

/-- The match test of a walk, as a predicate on nodes. -/
def Probe.test (pr : Probe) (img : Mem) (off : BitVec 32) : Bool :=
  (HashMapNode.hash img off = pr.hfull ∧ HashMapNode.keyLen img off = BitVec.ofNat 32 pr.keyLen) &&
    pr.sameKey (HashMapNode.key img off)

theorem rgmHashMapMatches_eq {s : ArenaState} {pr : Probe} {off : BitVec 32}
    (hlen : pr.keyLen < 2 ^ 32) (hin : NodeInside s.img s.pos off) :
    rgmHashMapMatches s pr off = .ok (pr.test s.img off) := by
  obtain ⟨hlow, hhigh⟩ := hin
  unfold rgmHashMapMatches Probe.test
  rw [if_neg (by omega)]
  by_cases h : HashMapNode.hash s.img off = pr.hfull ∧
      HashMapNode.keyLen s.img off = BitVec.ofNat 32 pr.keyLen
  · have hkey : (HashMapNode.keyLen s.img off).toNat = pr.keyLen := by
      rw [h.2, BitVec.toNat_ofNat, Nat.mod_eq_of_lt hlen]
    rw [if_pos h, if_neg (by omega)]
    simp [h]
  · rw [if_neg h]
    simp [h]

/-- A key that is not refused has a length of 32 bits. -/
theorem length_lt_of_not_refused {map : HashMap} {a : Arena} {key : KeyArg}
    (h : rgmHashMapRefuses map a key = false) : key.bytes.length < 2 ^ 32 := by
  unfold rgmHashMapRefuses at h
  simp only [Bool.or_eq_false_iff, decide_eq_false_iff_not] at h
  omega

/-! ## The walk -/

/-- The answer of a search, as a walk gives it. -/
def Found.ofSearch (start : Slot) (ds : Digits 4) (t : Trie 4 (BitVec 32)) :
    Option (BitVec 32) → Found
  | some a => .hit a
  | none => .miss (start.ofSeat (t.seat ds))

theorem rgmHashMapWalk_eq {map : HashMap} {s : ArenaState} {pr : Probe} (hlen : pr.keyLen < 2 ^ 32)
    {t : Trie 4 (BitVec 32)} (hin : ∀ a ∈ t.toList, NodeInside s.img s.pos a) {depth fuel : Nat}
    (hdepth : t.DepthLe depth) (hfuel : depth < fuel) {slot : Slot} {d : Descent}
    (h : Unfolds (hashMapLinks s.img) t (slotLink (slot.read map s.img))) :
    rgmHashMapWalk map s pr fuel slot d =
      .ok (Found.ofSearch slot (d.digits pr.reseed) t
        (t.find (pr.test s.img) (d.digits pr.reseed))) := by
  induction t generalizing slot d depth fuel with
  | nil =>
    obtain ⟨fuel, rfl⟩ : ∃ n, fuel = n + 1 := ⟨fuel - 1, by omega⟩
    have hzero : slot.read map s.img = 0 := slotLink_eq_none.mp h
    rw [rgmHashMapWalk, hzero]
    rfl
  | node a kids ih =>
    obtain ⟨depth, rfl⟩ : ∃ n, depth = n + 1 := by
      cases depth with
      | zero => exact absurd hdepth id
      | succ n => exact ⟨n, rfl⟩
    obtain ⟨fuel, rfl⟩ : ∃ n, fuel = n + 1 := ⟨fuel - 1, by omega⟩
    obtain ⟨hslot, hkids⟩ := h
    obtain ⟨hcur, hne⟩ := slotLink_eq_some hslot
    rw [rgmHashMapWalk, if_neg hne, hcur, rgmHashMapMatches_eq hlen (hin a List.mem_cons_self), find]
    cases htest : pr.test s.img a with
    | true => rfl
    | false =>
      have hstep : rgmHashMapWalk map s pr fuel (.child a d.digit) (d.next pr.reseed) = _ :=
        ih d.digit (fun c hc => hin c (mem_kid hc)) (hdepth d.digit)
          (Nat.lt_of_succ_lt_succ hfuel) (hkids d.digit)
      -- below the node the walk is the search of one child, from that child's slot
      show rgmHashMapWalk map s pr fuel (.child a d.digit) (d.next pr.reseed) =
        .ok (Found.ofSearch slot _ _ (find (pr.test s.img) (d.digits pr.reseed).tail (kids d.digit)))
      rw [hstep, Descent.digits_tail]
      cases find (pr.test s.img) ((d.next pr.reseed).digits pr.reseed) (kids d.digit) with
      | some c => rfl
      | none => exact congrArg (fun slot => Except.ok (Found.miss slot)) (Slot.ofSeat_child ..)

/-! ## The probes -/

/-- The 64-bit entry points walk as the generic ones do on the eight bytes of the key. -/
theorem u64Probe_eq (key : BitVec 64) : u64Probe key = bytesProbe (leBytes key) := by
  have hsame : (fun p => rgmHashLoadU64 p 0 == key) = fun p =>
      (leBytes key).length = 0 || rgmHashKeysEqual p (ptr (leBytes key)) (leBytes key).length := by
    funext p
    have hload : rgmHashLoadU64 p 0 = key ↔ rgmHashKeysEqual p (ptr (leBytes key)) 8 = true := by
      rw [rgmHashKeysEqual_iff, loadU64_eq, ← load64_leBytes key, load64_eq_iff, load64_leBytes]
      simp only [Nat.zero_add]
    rw [leBytes_length, Bool.eq_iff_iff, beq_iff_eq, hload]
    simp
  have hhash : rgmHashU64 key = rgmHashWyhash (ptr (leBytes key)) (leBytes key).length := by
    rw [leBytes_length]
    exact rgmHashU64Seeded_eq key rgmHashWyp0
  have hreseed : rgmHashReseedU64 key =
      rgmHashReseedBytes (ptr (leBytes key)) (leBytes key).length := by
    funext round
    rw [leBytes_length]
    exact rgmHashU64Seeded_eq key (rgmHashReseedSeed round)
  rw [u64Probe, bytesProbe, hsame, hhash, hreseed, leBytes_length]

/-- `PutU64` is `Put` of the eight little-endian bytes. -/
theorem rgHashMapPutU64_eq (page : Nat) (os : OsReply) (map : HashMap) (s : ArenaState)
    (key : BitVec 64) :
    rgHashMapPutU64 page os map s key = rgHashMapPut page os map s ⟨false, leBytes key⟩ := by
  simp [rgHashMapPutU64, rgHashMapPut, rgmHashMapRefuses, u64Probe_eq]

theorem rgHashMapGetU64_eq (map : HashMap) (s : ArenaState) (key : BitVec 64) :
    rgHashMapGetU64 map s key = rgHashMapGet map s ⟨false, leBytes key⟩ := by
  simp [rgHashMapGetU64, rgHashMapGet, rgmHashMapRefuses, u64Probe_eq]

end RgMemory
