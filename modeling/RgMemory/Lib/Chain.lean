import RgMemory.Lib.Bytes

/-!
# Chains of links in memory

A singly linked list whose links live inside the linked blocks: the word at a block is the address
of the next block, and 0 ends the chain. `Chain m p l` says that the chain from `p` visits exactly
`l`, in that order.

A chain reads the link words of its blocks and nothing else (`Chain.congr`), so a write apart from
them leaves it alone; pushing a block is one store at that block (`Chain.push`).
-/

namespace RgMemory.Bytes

/-- The chain of links from `p` visits the blocks of `l` and ends. -/
def Chain (m : Mem) : Nat → List Nat → Prop
  | p, [] => p = 0
  | p, b :: rest => p = b ∧ b ≠ 0 ∧ Chain m (load64 m b).toNat rest

@[simp] theorem chain_nil {m : Mem} {p : Nat} : Chain m p [] ↔ p = 0 := Iff.rfl

theorem chain_cons {m : Mem} {p b : Nat} {rest : List Nat} :
    Chain m p (b :: rest) ↔ p = b ∧ b ≠ 0 ∧ Chain m (load64 m b).toNat rest := Iff.rfl

namespace Chain

variable {m m' : Mem} {p : Nat} {l : List Nat}

/-- A chain depends on the link words of its blocks and on no other byte. -/
theorem congr (h : Chain m p l) (hlinks : ∀ b ∈ l, load64 m' b = load64 m b) : Chain m' p l := by
  induction l generalizing p with
  | nil => exact h
  | cons b rest ih =>
    obtain ⟨hp, hb, hrest⟩ := h
    refine ⟨hp, hb, ?_⟩
    rw [hlinks b List.mem_cons_self]
    exact ih hrest fun c hc => hlinks c (List.mem_cons_of_mem b hc)

/-- A nonempty chain: its head block, and the chain that block links to. -/
theorem uncons (h : Chain m p l) (hp : p ≠ 0) :
    ∃ rest, l = p :: rest ∧ Chain m (load64 m p).toNat rest := by
  cases l with
  | nil => exact absurd h hp
  | cons b rest =>
    obtain ⟨rfl, _, hrest⟩ := h
    exact ⟨rest, rfl, hrest⟩

/-- Storing the head of a chain into a block apart from it puts that block in front. -/
theorem push {b : Nat} (h : Chain m p l) (hb : b ≠ 0) (hp : p < 2 ^ 64)
    (hapart : ∀ c ∈ l, Apart b 8 c 8) : Chain (store64 m b (BitVec.ofNat 64 p)) b (b :: l) := by
  refine ⟨rfl, hb, ?_⟩
  rw [load64_store64_self, BitVec.toNat_ofNat, Nat.mod_eq_of_lt hp]
  exact h.congr fun c hc => load64_storeLE_apart m (hapart c hc)

/-- Blocks that each link to the next one, the last to null, form a chain. -/
theorem of_links {f : Nat → Nat} {n : Nat} (hf : ∀ i, i < n → f i ≠ 0)
    (hlink : ∀ i, i < n → (load64 m (f i)).toNat = if i + 1 < n then f (i + 1) else 0) (i : Nat)
    (hi : i ≤ n) : Chain m (if i < n then f i else 0) ((List.range' i (n - i)).map f) := by
  -- the induction runs on what is left of the chain
  obtain ⟨k, hk⟩ : ∃ k, n - i = k := ⟨_, rfl⟩
  induction k generalizing i with
  | zero =>
    rw [hk, if_neg (by omega)]
    rfl
  | succ k ih =>
    have hlt : i < n := by omega
    rw [hk, if_pos hlt]
    refine ⟨rfl, hf i hlt, ?_⟩
    rw [hlink i hlt]
    have := ih (i + 1) (by omega) (by omega)
    rwa [show n - (i + 1) = k by omega] at this

end Chain

end RgMemory.Bytes
