import RgMemory.HashMap.ForEach
import RgMemory.HashMap.Batch
import RgMemory.HashMap.Session

/-!
# Reading an opened map

The bytes that `rgHashMapOpen` accepts may come from anywhere. Whatever they are, an accepted image
leads to a map whose nodes can be read (`Openable.readable`), and that is all that lookups, batched
lookups and iteration need: they end, and look at nothing outside the cache line at the start and
the high-water mark (`open_reads_safely`).
-/

namespace RgMemory

open Bytes Trie

namespace HashMap.Readable

variable {map : HashMap} {s : ArenaState} {forest : Fin 4096 → Trie 4 (BitVec 32)} {depth : Nat}

/-- A walk is a search of the trie of its root. -/
theorem lookup_eq (h : map.Readable s forest) (hdepth : ∀ i, (forest i).DepthLe depth)
    (hfuel : depth < rgmHashMapWalkFuel) {pr : Probe} (hlen : pr.keyLen < 2 ^ 32) :
    rgmHashMapLookup map s pr = .ok (Found.ofSearch (.root (rgmHashMapRoot pr.hfull)) pr.digits
      (forest (rgmHashMapRoot pr.hfull))
      ((forest (rgmHashMapRoot pr.hfull)).find (pr.test s.img) pr.digits)) :=
  rgmHashMapWalk_eq hlen (fun a ha => h.inside a (mem_listAll.mpr ⟨_, ha⟩)) (hdepth _) hfuel
    (h.unfolds _)

/-- A walk for any key ends at a node or an empty slot. -/
theorem lookup_returns (h : map.Readable s forest) (hdepth : ∀ i, (forest i).DepthLe depth)
    (hfuel : depth < rgmHashMapWalkFuel) {pr : Probe} (hlen : pr.keyLen < 2 ^ 32) :
    ∃ found, rgmHashMapLookup map s pr = .ok found :=
  ⟨_, h.lookup_eq hdepth hfuel hlen⟩

theorem get_returns (h : map.Readable s forest) (hdepth : ∀ i, (forest i).DepthLe depth)
    (hfuel : depth < rgmHashMapWalkFuel) (pr : Probe) (hlen : pr.keyLen < 2 ^ 32) :
    ∃ p, rgmHashMapGet map s pr = .ok p := by
  obtain ⟨found, hfound⟩ := h.lookup_returns hdepth hfuel hlen
  rw [rgmHashMapGet, hfound]
  cases found with
  | hit off => exact ⟨_, rfl⟩
  | miss slot => exact ⟨_, rfl⟩

/-- `Get` returns for any key. -/
theorem rgHashMapGet_returns (h : map.Readable s forest) (hdepth : ∀ i, (forest i).DepthLe depth)
    (hfuel : depth < rgmHashMapWalkFuel) (key : KeyArg) :
    ∃ p, rgHashMapGet map s key = .ok p := by
  unfold rgHashMapGet
  cases hrefuses : rgmHashMapRefuses map s.toArena key with
  | true => exact ⟨0, rfl⟩
  | false =>
    rw [if_neg (by decide)]
    exact h.get_returns hdepth hfuel (bytesProbe key.bytes) (length_lt_of_not_refused hrefuses)

/-- A pointer that `Get` answers is the one to the value of a node that passes the match test. -/
theorem get_node (h : map.Readable s forest) (hdepth : ∀ i, (forest i).DepthLe depth)
    (hfuel : depth < rgmHashMapWalkFuel) {key : KeyArg} {p : Nat}
    (hget : rgHashMapGet map s key = .ok p) (hp : p ≠ 0) :
    ∃ a ∈ listAll forest, p = s.valuePtr a ∧ (bytesProbe key.bytes).test s.img a = true := by
  unfold rgHashMapGet at hget
  cases hrefuses : rgmHashMapRefuses map s.toArena key with
  | true =>
    rw [hrefuses, if_pos rfl] at hget
    exact absurd (Except.ok.inj hget).symm hp
  | false =>
    rw [hrefuses, if_neg (by decide), rgmHashMapGet,
      h.lookup_eq hdepth hfuel (length_lt_of_not_refused hrefuses)] at hget
    cases hfind : (forest (rgmHashMapRoot (bytesProbe key.bytes).hfull)).find
        ((bytesProbe key.bytes).test s.img) (bytesProbe key.bytes).digits with
    | none =>
      rw [hfind] at hget
      exact absurd (Except.ok.inj hget).symm hp
    | some a =>
      rw [hfind] at hget
      obtain ⟨ha, htest⟩ := find_mem hfind
      exact ⟨a, mem_listAll.mpr ⟨_, ha⟩, (Except.ok.inj hget).symm, htest⟩

end HashMap.Readable

theorem Openable.depthLe {s : ArenaState} {forest : Fin 4096 → Trie 4 (BitVec 32)}
    (h : Openable s forest) (i : Fin 4096) : (forest i).DepthLe rgmHashMapValidateMaxDepth :=
  (h.accepted.checked i).depthLe

/-- **Open makes reading an untrusted image safe.** A refused open changes nothing. After a
successful one the position is the high-water mark, the bytes are as they were, and every read
returns without looking outside; iteration reports no more entries than nodes fit. -/
theorem open_reads_safely (map : HashMap) (s : ArenaState) :
    ((rgHashMapOpen map s).1 ≠ .ok → (rgHashMapOpen map s).2 = (map, s)) ∧
      ((rgHashMapOpen map s).1 = .ok → ∃ map' s', rgHashMapOpen map s = (.ok, map', s') ∧
        s'.pos = (PersistHeader.highWater s.img).toNat ∧ s'.img = s.img ∧
        (∀ key, ∃ p, rgHashMapGet map' s' key = .ok p) ∧
        (∀ key, ∃ p, rgHashMapGetU64 map' s' key = .ok p) ∧
        (∀ keys outValues outFound count fuel, (rgmHashBatchK + count.toNat) * 257 ≤ fuel →
          ∃ answer, rgHashMapGetBatchU64 fuel map' s' keys outValues outFound count = .ok answer) ∧
        (∀ (σ : Type) (fn : σ → List Byte → BitVec 64 → Bool × σ) user fuel,
          6 * (s'.pos / HashMapNode.size) ≤ fuel →
          ∃ n user', rgHashMapForEach fn fuel map' s' user = .ok (n, user') ∧
            n ≤ s'.pos / HashMapNode.size)) := by
  constructor
  · intro hrefused
    rcases rgHashMapOpen_cases map s with ⟨forest, h⟩ | ⟨-, e, heq, -⟩
    · rw [rgHashMapOpen_eq h] at hrefused
      exact absurd rfl hrefused
    · rw [heq]
  · intro hok
    obtain ⟨forest, h⟩ := (rgHashMapOpen_ok_iff map s).mp hok
    have hread := h.readable
    have hfuel : rgmHashMapValidateMaxDepth < rgmHashMapWalkFuel := by decide
    refine ⟨_, _, rgHashMapOpen_eq h map, opened_pos s, opened_img s,
      hread.rgHashMapGet_returns h.depthLe hfuel, fun key => ?_,
      fun keys outValues outFound count fuel hf =>
        rgHashMapGetBatchU64_returns hread h.depthLe keys outValues outFound count hf,
      fun σ fn user fuel hf => ?_⟩
    · rw [rgHashMapGetU64_eq]
      exact hread.rgHashMapGet_returns h.depthLe hfuel _
    · rw [opened_pos] at hf ⊢
      have hsize := h.accepted.size
      refine ⟨_, _, rgHashMapForEach_eq hread (Nat.le_trans (Nat.mul_le_mul_left 6 hsize) hf) user,
        ?_⟩
      have hcount := over_count_le fn s.opened.img (listAll forest) ⟨0, user, false⟩
      rw [Nat.zero_add] at hcount
      exact Nat.le_trans hcount hsize

theorem sampleFile_reads_safely :
    ∃ map s, rgHashMapOpen ⟨false, fun _ => 0⟩ sampleFile = (.ok, map, s) ∧
      ∀ key, ∃ p, rgHashMapGet map s key = .ok p := by
  obtain ⟨map, s, hopen, -, -, hget, -⟩ := (open_reads_safely ⟨false, fun _ => 0⟩ sampleFile).2
    ((rgHashMapOpen_ok_iff _ _).mpr sampleFile_openable)
  exact ⟨map, s, hopen, hget⟩

end RgMemory
