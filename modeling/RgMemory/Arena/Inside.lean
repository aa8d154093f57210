import RgMemory.Arena.Run

/-!
# Staying inside an arena

The calls of the arena API change nothing outside the reservation of their arena, neither bytes nor
page protection (`Inside`), and on an arena over a file, which is committed as a whole, no byte at all
(`ArenaRun.call_quiet`). This is what lets several arenas live in one process.
-/

namespace RgMemory

open Bytes

/-- A change of an arena that stays inside it. An arena over a file stays committed as a whole. -/
structure Inside (s s' : ArenaState) : Prop where
  base : s'.base = s.base
  reserved : s'.reserved = s.reserved
  backing : s'.backing = s.backing
  full : s.backing = .file → s.committed = s.reserved → s'.committed = s'.reserved
  mem : ∀ x, Out s.base s.reserved x → s'.mem x = s.mem x
  access : ∀ x, Out s.base s.reserved x → s'.access x = s.access x

/-- A change that on an arena over a file leaves all bytes alone. -/
structure Quiet (s s' : ArenaState) : Prop extends Inside s s' where
  bytes : s.backing = .file → s.committed = s.reserved → s'.mem = s.mem

namespace Inside

variable {s s' s'' : ArenaState}

theorem refl (s : ArenaState) : Inside s s :=
  ⟨rfl, rfl, rfl, fun _ hfull => hfull, fun _ _ => rfl, fun _ _ => rfl⟩

theorem trans (h : Inside s s') (h' : Inside s' s'') : Inside s s'' where
  base := h'.base.trans h.base
  reserved := h'.reserved.trans h.reserved
  backing := h'.backing.trans h.backing
  full hfile hfull := h'.full (h.backing.trans hfile) (h.full hfile hfull)
  mem x hx := by rw [h'.mem x (by rwa [h.base, h.reserved]), h.mem x hx]
  access x hx := by rw [h'.access x (by rwa [h.base, h.reserved]), h.access x hx]

/-- Writes inside the arena. -/
theorem setMem {m : Mem} (hm : ∀ x, Out s.base s.reserved x → m x = s.mem x) :
    Inside s (s.setMem m) :=
  ⟨rfl, rfl, rfl, fun _ hfull => hfull, hm, fun _ _ => rfl⟩

end Inside

section

variable {page : Nat} {s s' : ArenaState}

theorem Quiet.refl (s : ArenaState) : Quiet s s := ⟨.refl s, fun _ _ => rfl⟩

/-- Moving the position. -/
theorem Quiet.setPos (s : ArenaState) (pos : Nat) : Quiet s { s with pos := pos } :=
  ⟨⟨rfl, rfl, rfl, fun _ hfull => hfull, fun _ _ => rfl, fun _ _ => rfl⟩, fun _ _ => rfl⟩

theorem Grown.quiet (h : Grown s s') (hs : s.Ok page) (hs' : s'.Ok page) : Quiet s s' := by
  have hle := hs.committed_le
  have hle' := hs'.committed_le
  have hgrow := h.committed
  have hreserved := h.reserved
  refine ⟨⟨h.base, hreserved, h.backing, fun _ hfull => ?_, fun x hx => h.mem x ?_,
    fun x hx => h.access x ?_⟩, fun _ hfull => funext fun x => h.mem x ?_⟩
  · omega
  · unfold Out at *
    omega
  · unfold Out at *
    omega
  · unfold Out
    omega

theorem Granted.quiet {p size align : Nat} (h : Granted page s s' p size align) (hs : s.Ok page) :
    Quiet s s' := h.grown.quiet hs h.ok

theorem rgArenaPop_quiet (s : ArenaState) (size : Nat) : Quiet s (rgArenaPop s size) := by
  unfold rgArenaPop
  split
  · exact .refl s
  · split
    · exact .refl s
    · exact .setPos s _

end

end RgMemory
