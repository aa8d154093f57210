import RgMemory.Lib.Windows
import RgMemory.Slots.Batch

/-!
# Batched insert into a lock-free trie

When no other thread does anything, a thread's Puts are calls run to their ends, one after the other.
`Slots.Stores` is a container with the finite map that it holds, whose keys are finitely many. A Put
updates the finite map, or fails and leaves it (`Slots.Stores.putEntry`); a walk of the lanes ends
(`Slots.Stores.warm`).
-/

namespace RgMemory

open Concurrent Windows

section

variable {ω β ι κ τ : Type} {K : SlotKeys β κ} {page : Nat} {s : Slots β τ}
  {code : SlotCode ω β ι} [DecidableEq τ]

/-- The body of the loop over a window: a Put, run to its end. -/
def slotPutEntry (page : Nat) (code : SlotCode ω β ι) (t : τ) (op : ω) (fuel : Nat)
    (os : Nat → OsReply) (s : Slots β τ) : Except Stop (Slots β τ × Option Status) :=
  match slotCall page code t op fuel os .enter s with
  | none => .error .diverge
  | some (s, .answer st _) => .ok (s, if st = .ok then none else some st)
  | some _ => .error .fault

/-- A container and what it stores. -/
structure Slots.Stores (K : SlotKeys β κ) (page : Nat) (s : Slots β τ)
    (m : κ → Option (BitVec 64)) : Prop where
  sound : s.Sound K page
  holds : s.Holds K m
  finite : {k | m k ≠ none}.Finite

variable [DecidableEq κ] {c : Config τ (Slots β τ) ω (SlotPhase ι) (SlotResult ι)}
  {m : κ → Option (BitVec 64)}

omit [DecidableEq τ] in
/-- A container after any run stores a finite map. -/
theorem SlotFollows.stores (hc : SlotFollows K code page c) :
    ∃ m, c.shared.Stores K page m := by
  obtain ⟨m, hlegal, hs, hm⟩ := hc.log
  exact ⟨m, hs, hm, SlotSpec.finite hlegal⟩

namespace Slots.Stores

variable (hpage : IsPageSize page) (hcode : code.Lawful K)

include hpage hcode in
/-- An entry is put, or fails for want of memory and changes no entry. -/
theorem putEntry (h : s.Stores K page m) (t : τ) {op : ω} {pr : SlotProbe β} {value : BitVec 64}
    (hop : code.op op = .put pr value) (os : Nat → OsReply) :
    ∃ s' r, Settles (fun fuel => slotPutEntry page code t op fuel os s) (s', r) ∧
      (r = none ∧ s'.Stores K page (Function.update m (K.keyOf pr.body) (some value)) ∨
        r = some .errNoMemory ∧ s'.Stores K page m) := by
  obtain ⟨nodes, hnodes⟩ := h.sound.nodes h.holds h.finite
  obtain ⟨n, ⟨s', r⟩, hcall⟩ := slotCall_ends hpage hcode h.sound hnodes t op os
  have hrelies := (slot_simulation hpage hcode).start s m t op ⟨h.sound, h.holds⟩
  obtain ⟨hs', m', hspec, hm'⟩ := slotCall_spec hpage hcode h.sound h.holds hrelies hcall
  have hsettles : ∀ fuel ≥ n, slotCall page code t op fuel os .enter s = some (s', r) :=
    fun fuel hfuel => slotCall_le hfuel hcall
  rw [SlotSpec, hop] at hspec
  rcases hspec with ⟨rfl, rfl⟩ | ⟨rfl, rfl⟩
  · refine ⟨s', none, ⟨n, fun fuel hfuel => ?_⟩, .inl ⟨rfl, hs', hm', ?_⟩⟩
    · dsimp only [slotPutEntry]
      rw [hsettles fuel hfuel]
      rfl
    · refine (h.finite.insert (K.keyOf pr.body)).subset fun k hk => ?_
      by_cases hkey : k = K.keyOf pr.body
      · exact .inl hkey
      · have hk' : Function.update m (K.keyOf pr.body) (some value) k ≠ none := hk
        rw [Function.update_of_ne hkey] at hk'
        exact .inr hk'
  · refine ⟨s', some .errNoMemory, ⟨n, fun fuel hfuel => ?_⟩, .inr ⟨rfl, hs', hm', h.finite⟩⟩
    dsimp only [slotPutEntry]
    rw [hsettles fuel hfuel]
    rfl

include hpage hcode in
/-- A lane walk over any keys ends. -/
theorem warm (h : s.Stores K page m) (t : τ) {probe : Nat → SlotProbe β} {ops : Nat → ω}
    (hops : ∀ j, code.op (ops j) = .get (probe j) true) {k : Nat} (hk : 0 < k) (count : Nat) :
    Settles (fun fuel => (Lanes.walk (slotWalker s probe) count .diverge k fuel none none).map
      fun _ => ()) () := by
  obtain ⟨nodes, hnodes⟩ := h.sound.nodes h.holds h.finite
  obtain ⟨N, hN⟩ :=
    slotBatchWalk_eq hpage hcode h.sound h.holds hnodes t hops hk count none none
  refine ⟨N, fun fuel hfuel => ?_⟩
  dsimp only
  rw [hN fuel hfuel]
  rfl

include hpage hcode in
/-- A single Get answers from the finite map. -/
theorem get (h : s.Stores K page m) (t : τ) {op : ω} {pr : SlotProbe β}
    (hop : code.op op = .get pr true) :
    ∃ n, ∀ os, slotCall page code t op n os .enter s =
      some (s, getAnswer code.missing true (m (K.keyOf pr.body))) := by
  obtain ⟨nodes, hnodes⟩ := h.sound.nodes h.holds h.finite
  exact (slotCall_get (fun _ => pr) hpage hcode h.sound h.holds hnodes t (j := 0) hop).1

include hpage hcode in
/-- **The windows put the entries one after the other**, up to the first for which there is no
memory. `reads` are the Gets whose lanes warm a window. -/
theorem windows (h : s.Stores K page m) (t : τ) {probe : Nat → SlotProbe β} {puts reads : Nat → ω}
    {values : Nat → BitVec 64} (hputs : ∀ i, code.op (puts i) = .put (probe i) (values i))
    (hreads : ∀ i, code.op (reads i) = .get (probe i) true) {k : Nat} (hk : 0 < k)
    {size : BitVec 32} (hsize : 0 < size) (os : Nat → Nat → OsReply) (count : BitVec 32) :
    ∃ s' r, ∃ n ≤ count.toNat,
      Settles (fun fuel => Windows.windows
        (fun i => slotPutEntry page code t (puts i) fuel (os i)) Stop.diverge
        (fun done n s => (Lanes.walk (slotWalker s fun j => probe (done.toNat + j)) n.toNat .diverge
          k fuel none none).map fun _ => ()) size count fuel fuel 0 s) (s', r) ∧
      Settles (fun fuel => inOrder (fun i => slotPutEntry page code t (puts i) fuel (os i))
        (List.range count.toNat) s) (s', r) ∧
      (r = none ∧ n = count.toNat ∨ r = some .errNoMemory ∧ n < count.toNat) ∧
      s'.Stores K page (stored (fun j => K.keyOf (probe j).body) values m n) := by
  let P : Nat → Slots β τ → Prop := fun i s =>
    s.Stores K page (stored (fun j => K.keyOf (probe j).body) values m i)
  let Q : Nat → Status → Slots β τ → Prop := fun i e s => e = .errNoMemory ∧ P i s
  have hput : ∀ i < count.toNat, ∀ s, P i s →
      ∃ y, Settles (fun fuel => slotPutEntry page code t (puts i) fuel (os i) s) y ∧
        Entered P Q i y := by
    intro i _ s hs
    obtain ⟨s', r, hsettles, hcases⟩ := hs.putEntry hpage hcode t (hputs i) (os i)
    refine ⟨(s', r), hsettles, ?_⟩
    rcases hcases with ⟨rfl, hstores⟩ | ⟨rfl, hstores⟩
    · exact hstores
    · exact ⟨rfl, hstores⟩
  obtain ⟨⟨s', r⟩, hafter, hserial, hwindows⟩ := windows_spec
    (fun fuel i => slotPutEntry page code t (puts i) fuel (os i))
    (fun fuel done n s => (Lanes.walk (slotWalker s fun j => probe (done.toNat + j)) n.toNat
      .diverge k fuel none none).map fun _ => ()) P Q Stop.diverge hsize
    (fun done n s hs => Slots.Stores.warm hpage hcode hs t (fun j => hreads (done.toNat + j)) hk
      n.toNat) hput (s := s) h
  cases r with
  | none =>
    exact ⟨s', none, count.toNat, Nat.le_refl _, hwindows, hserial, .inl ⟨rfl, rfl⟩, hafter⟩
  | some e =>
    obtain ⟨n, hn, rfl, hstores⟩ := hafter
    exact ⟨s', some .errNoMemory, n, Nat.le_of_lt hn, hwindows, hserial, .inr ⟨rfl, hn⟩, hstores⟩

end Slots.Stores

end

end RgMemory
