import RgMemory.Together.Blocks

/-!
# Making containers

The creators, as one function of an order. A creator that takes its buffer from an arena makes one
allocation there and writes inside what it got (`Built`); one that is given a buffer writes inside
it; and one that refuses leaves everything as it was.
-/

namespace RgMemory

open Bytes

/-- An order for a container: the control block to be populated, and the arguments. -/
inductive PartOrder
  | freeList (old : FreeList) (blockSize : BitVec 64) (maxBlocks : BitVec 32)
  | denseList (old : DenseList) (blockSize : BitVec 64) (maxBlocks : BitVec 32)
  | bloom (old : BloomFilter) (bits : BitVec 64) (hashCount : BitVec 32)

namespace PartOrder

/-- The creators that take the buffer from an arena. -/
def create (page : Nat) (os : OsReply) (s : ArenaState) : PartOrder → Status × ArenaState × Part
  | .freeList old blockSize maxBlocks =>
    match rgFreeListCreate page os s old blockSize.toNat maxBlocks.toNat with
    | (st, s, list) => (st, s, .inl (.inl ⟨list, []⟩))
  | .denseList old blockSize maxBlocks =>
    match rgDenseListCreate page os s old blockSize.toNat maxBlocks.toNat with
    | (st, s, list) => (st, s, .inl (.inr list))
  | .bloom old bits hashCount =>
    match rgBloomFilterCreate page os s old bits.toNat hashCount.toNat with
    | (st, s, bf) => (st, s, .inr bf)

/-- The creators that are given a buffer. -/
def createFromMemory (m : Mem) (b : Block) : PartOrder → Status × Mem × Part
  | .freeList old blockSize maxBlocks =>
    match rgFreeListCreateFromMemory m b.addr b.size old blockSize.toNat maxBlocks.toNat with
    | (st, m, list) => (st, m, .inl (.inl ⟨list, []⟩))
  | .denseList old blockSize maxBlocks =>
    match rgDenseListCreateFromMemory b.addr b.size old blockSize.toNat maxBlocks.toNat with
    | (st, list) => (st, m, .inl (.inr list))
  | .bloom old bits hashCount =>
    match rgBloomFilterCreateFromMemory m b.addr b.size old bits.toNat hashCount.toNat with
    | (st, m, bf) => (st, m, .inr bf)

end PartOrder

/-- The lazy variant for a free list. -/
def createLazy (page : Nat) (os : OsReply) (s : ArenaState) (old : FreeList)
    (blockSize : BitVec 64) (maxBlocks : BitVec 32) : Status × ArenaState × Part :=
  match rgFreeListCreateLazy page os s old blockSize.toNat maxBlocks.toNat with
  | (st, s, list) => (st, s, .inl (.inl ⟨list, []⟩))

/-- The block `b` is an allocation of the arena, and nothing was written outside it. -/
def Built (page : Nat) (os : OsReply) (s s' : ArenaState) (b : Block) : Prop :=
  ∃ (al : BitVec 64) (s1 : ArenaState) (m : Mem),
    rgArenaAllocAligned page os s b.size al.toNat = (b.addr, s1) ∧ b.addr ≠ 0 ∧
    b.size < 2 ^ 64 ∧ s' = s1.setMem m ∧ Set.EqOn m s1.mem (b.bytes)ᶜ

/-- What a creator leaves of an arena. -/
inductive PartMade (page : Nat) (os : OsReply) (s : ArenaState) : Status × ArenaState × Part → Prop
  | refused {e : Status} {part : Part} (error : e ≠ .ok) : PartMade page os s (e, s, part)
  | made {s' : ArenaState} {part : Part} (built : Built page os s s' part.buffer)
      (fresh : part.Fresh page s'.mem) : PartMade page os s (.ok, s', part)

/-- What a creator leaves of the memory when it is given the buffer `b`. -/
inductive PartPlaced (page : Nat) (m : Mem) (b : Block) : Status × Mem × Part → Prop
  | refused {e : Status} {part : Part} (error : e ≠ .ok) : PartPlaced page m b (e, m, part)
  | made {m' : Mem} {part : Part} (start : part.buffer.addr = b.addr)
      (size : part.buffer.size ≤ b.size) (out : Set.EqOn m' m (part.buffer.bytes)ᶜ)
      (fresh : part.Fresh page m') : PartPlaced page m b (.ok, m', part)

/-! ## Free lists -/

/-- The linking pass writes inside the buffer. -/
theorem rgmFreelistLink_out (m : Mem) {buffer size count x : Nat} (hsize : 8 ≤ size)
    (hcount : 0 < count) (hx : Out buffer (count * size) x) :
    rgmFreelistLink m buffer size count x = m x := by
  have hblock : ∀ {i}, i < count → Out (buffer + i * size) 8 x := by
    intro i hi
    have hmul := Nat.mul_le_mul_right size hi
    rw [Nat.succ_mul] at hmul
    unfold Out at hx ⊢
    omega
  have hloop : ∀ n, n ≤ count - 1 → (List.range n).foldl (fun m i =>
      store64 m (buffer + i * size) (BitVec.ofNat 64 (buffer + (i + 1) * size))) m x = m x := by
    intro n
    induction n with
    | zero => exact fun _ => rfl
    | succ n ih =>
      intro hn
      rw [List.range_succ, List.foldl_append, List.foldl_cons, List.foldl_nil, store64,
        storeLE_out _ (hblock (by omega))]
      exact ih (by omega)
  unfold rgmFreelistLink
  rw [store64, storeLE_out _ (hblock (by omega))]
  exact hloop _ (Nat.le_refl _)

/-- The block of an arena allocation that a pool got. -/
theorem rgArenaAlloc_built {page : Nat} {os : OsReply} {s s1 : ArenaState} {size : Nat}
    {b : Block} {m : Mem} (halloc : rgArenaAlloc page os s size = (b.addr, s1)) (hb : b.addr ≠ 0)
    (hsize : b.size = size) (hlt : size < 2 ^ 64) (hm : Set.EqOn m s1.mem (b.bytes)ᶜ) :
    Built page os s (s1.setMem m) b := by
  rw [rgArenaAlloc_eq] at halloc
  refine ⟨16, s1, m, ?_, hb, hsize ▸ hlt, rfl, hm⟩
  rw [hsize]
  exact halloc

/-- An allocation that is refused changes nothing. -/
theorem rgArenaAlloc_refused {page : Nat} (hpage : IsPageSize page) {os : OsReply}
    {s s1 : ArenaState} (hs : s.Ok page) {size : Nat} (hsize : size < 2 ^ 64) (al : BitVec 64)
    (halloc : rgArenaAllocAligned page os s size al.toNat = (0, s1)) : s1 = s := by
  rcases rgArenaAllocAligned_cases hpage os hs hsize al.isLt with hnull | ⟨p, s', hok, hg⟩
  · rw [hnull] at halloc
    exact (congrArg Prod.snd halloc).symm
  · rw [hok] at halloc
    have hp := hg.above
    have hlive := hg.live
    have hzero : p = 0 := congrArg Prod.fst halloc
    omega

section

variable {page : Nat} {os : OsReply} {s : ArenaState}

/-- What the creators of a free list share: an allocation for all blocks, or an error. -/
theorem rgmFreelistReserve_outcome (hpage : IsPageSize page) (hs : s.Ok page) (os : OsReply)
    (blockSize maxBlocks : Nat) :
    (∃ e, rgmFreelistReserve page os s blockSize maxBlocks = (.error e, s) ∧ e ≠ .ok) ∨
      ∃ buffer bs s1, rgmFreelistReserve page os s blockSize maxBlocks = (.ok (buffer, bs), s1) ∧
        rgArenaAlloc page os s (bs * maxBlocks) = (buffer, s1) ∧ buffer ≠ 0 ∧ 8 ≤ bs ∧
        0 < maxBlocks ∧ bs * maxBlocks < 2 ^ 64 := by
  unfold rgmFreelistReserve
  cases hcheck : rgmFreelistCheck blockSize maxBlocks with
  | error e => exact .inl ⟨e, rfl, FreeListRun.rgmFreelistCheck_error hcheck⟩
  | ok bs =>
    obtain ⟨hmax, hbs, hmul⟩ := FreeListRun.rgmFreelistCheck_spec hcheck
    dsimp only
    cases halloc : rgArenaAlloc page os s (bs * maxBlocks) with
    | mk buffer s1 =>
      dsimp only
      by_cases hbuffer : buffer = 0
      · subst hbuffer
        rw [if_pos rfl]
        rw [rgArenaAlloc_eq] at halloc
        rw [rgArenaAlloc_refused hpage hs hmul 16 halloc]
        exact .inl ⟨_, rfl, refusal_ne_ok _⟩
      · rw [if_neg hbuffer]
        exact .inr ⟨buffer, bs, s1, rfl, halloc, hbuffer, by omega, hmax, hmul⟩

theorem rgFreeListCreate_created (hpage : IsPageSize page) (hs : s.Ok page) (old : FreeList)
    (blockSize : BitVec 64) (maxBlocks : BitVec 32) :
    PartMade page os s ((PartOrder.freeList old blockSize maxBlocks).create page os s) := by
  have hmade : ∀ {out}, rgFreeListCreate page os s old blockSize.toNat maxBlocks.toNat = out →
      (PartOrder.freeList old blockSize maxBlocks).create page os s =
        (out.1, out.2.1, .inl (.inl ⟨out.2.2, []⟩)) := by
    rintro _ rfl
    rfl
  rcases rgmFreelistReserve_outcome hpage hs os blockSize.toNat maxBlocks.toNat with
    ⟨e, hres, he⟩ | ⟨buffer, bs, s1, hres, halloc, hbuffer, hbs, hmax, hmul⟩
  · have hgo : rgFreeListCreate page os s old blockSize.toNat maxBlocks.toNat = (e, s, old) := by
      unfold rgFreeListCreate
      rw [hres]
    rw [hmade hgo]
    exact .refused he
  · have hgo : rgFreeListCreate page os s old blockSize.toNat maxBlocks.toNat =
        (.ok, s1.setMem (rgmFreelistLink s1.mem buffer bs maxBlocks.toNat),
          (rgmFreelistInstall s1.mem buffer bs maxBlocks.toNat).2) := by
      unfold rgFreeListCreate
      rw [hres]
      rfl
    rw [hmade hgo]
    refine .made (rgArenaAlloc_built halloc hbuffer (Nat.mul_comm _ _) hmul fun x hx => ?_)
      (.create hs hgo)
    exact rgmFreelistLink_out _ hbs hmax (not_mem_bytes.mp hx)

theorem createLazy_created (hpage : IsPageSize page) (hs : s.Ok page) (old : FreeList)
    (blockSize : BitVec 64) (maxBlocks : BitVec 32) :
    PartMade page os s (createLazy page os s old blockSize maxBlocks) := by
  have hmade : ∀ {out}, rgFreeListCreateLazy page os s old blockSize.toNat maxBlocks.toNat = out →
      createLazy page os s old blockSize maxBlocks =
        (out.1, out.2.1, .inl (.inl ⟨out.2.2, []⟩)) := by
    rintro _ rfl
    rfl
  rcases rgmFreelistReserve_outcome hpage hs os blockSize.toNat maxBlocks.toNat with
    ⟨e, hres, he⟩ | ⟨buffer, bs, s1, hres, halloc, hbuffer, hbs, hmax, hmul⟩
  · have hgo : rgFreeListCreateLazy page os s old blockSize.toNat maxBlocks.toNat =
        (e, s, old) := by
      unfold rgFreeListCreateLazy
      rw [hres]
    rw [hmade hgo]
    exact .refused he
  · have hgo : rgFreeListCreateLazy page os s old blockSize.toNat maxBlocks.toNat =
        (.ok, s1, rgmFreelistInstallLazy buffer bs maxBlocks.toNat) := by
      unfold rgFreeListCreateLazy
      rw [hres]
    rw [hmade hgo]
    exact .made (rgArenaAlloc_built halloc hbuffer (Nat.mul_comm _ _) hmul (Set.eqOn_refl _ _))
      (.createLazy hs hgo)

/-! ## Dense lists and Bloom filters -/

theorem rgDenseListCreate_created (hpage : IsPageSize page) (hs : s.Ok page) (old : DenseList)
    (blockSize : BitVec 64) (maxBlocks : BitVec 32) :
    PartMade page os s ((PartOrder.denseList old blockSize maxBlocks).create page os s) := by
  have hmade : ∀ {out}, rgDenseListCreate page os s old blockSize.toNat maxBlocks.toNat = out →
      (PartOrder.denseList old blockSize maxBlocks).create page os s =
        (out.1, out.2.1, .inl (.inr out.2.2)) := by
    rintro _ rfl
    rfl
  rw [hmade rfl]
  cases hcheck : rgmDenselistCheck blockSize.toNat maxBlocks.toNat with
  | error e =>
    have hgo : rgDenseListCreate page os s old blockSize.toNat maxBlocks.toNat = (e, s, old) := by
      unfold rgDenseListCreate
      rw [hcheck]
    rw [hgo]
    exact .refused (rgmDenselistCheck_error hcheck)
  | ok bs =>
    obtain ⟨-, -, -, hmul⟩ := rgmDenselistCheck_spec hcheck
    cases halloc : rgArenaAlloc page os s (bs * maxBlocks.toNat) with
    | mk buffer s1 =>
      by_cases hbuffer : buffer = 0
      · subst hbuffer
        have hgo : rgDenseListCreate page os s old blockSize.toNat maxBlocks.toNat =
            (if rgArenaIsValid s1.toArena then .errNoMemory else .errInvalid, s1, old) := by
          unfold rgDenseListCreate
          rw [hcheck]
          dsimp only
          rw [halloc]
          exact if_pos rfl
        rw [hgo]
        rw [rgArenaAlloc_eq] at halloc
        rw [rgArenaAlloc_refused hpage hs hmul 16 halloc]
        exact .refused (refusal_ne_ok _)
      · have hgo : rgDenseListCreate page os s old blockSize.toNat maxBlocks.toNat =
            (.ok, s1, rgmDenselistInstall buffer bs maxBlocks.toNat) := by
          unfold rgDenseListCreate
          rw [hcheck]
          dsimp only
          rw [halloc]
          exact if_neg hbuffer
        rw [hgo]
        exact .made (rgArenaAlloc_built halloc hbuffer (Nat.mul_comm _ _) hmul (Set.eqOn_refl _ _))
          (.create hs hgo)

theorem rgBloomFilterCreate_created (hpage : IsPageSize page) (hs : s.Ok page)
    (old : BloomFilter) (bits : BitVec 64) (hashCount : BitVec 32) :
    PartMade page os s ((PartOrder.bloom old bits hashCount).create page os s) := by
  have hmade : ∀ {out}, rgBloomFilterCreate page os s old bits.toNat hashCount.toNat = out →
      (PartOrder.bloom old bits hashCount).create page os s = (out.1, out.2.1, .inr out.2.2) := by
    rintro _ rfl
    rfl
  rw [hmade rfl]
  cases hcheck : rgmBloomCheck bits.toNat hashCount.toNat with
  | error e =>
    have hgo : rgBloomFilterCreate page os s old bits.toNat hashCount.toNat = (e, s, old) := by
      unfold rgBloomFilterCreate
      rw [hcheck]
    rw [hgo]
    exact .refused (rgmBloomCheck_error hcheck)
  | ok blocks =>
    obtain ⟨-, hle, -⟩ := rgmBloomCheck_spec hcheck
    have hmul : blocks * rgmBloomBlockBytes < 2 ^ 64 := by
      unfold rgmBloomMaxBlocks at hle
      unfold rgmBloomBlockBytes
      omega
    cases halloc : rgArenaAllocAligned page os s (blocks * rgmBloomBlockBytes) 64 with
    | mk buffer s1 =>
      by_cases hbuffer : buffer = 0
      · subst hbuffer
        have hgo : rgBloomFilterCreate page os s old bits.toNat hashCount.toNat =
            (if rgArenaIsValid s1.toArena then .errNoMemory else .errInvalid, s1, old) := by
          unfold rgBloomFilterCreate
          rw [hcheck]
          dsimp only
          rw [halloc]
          exact if_pos rfl
        rw [hgo, rgArenaAlloc_refused hpage hs hmul 64 halloc]
        exact .refused (refusal_ne_ok _)
      · have hgo : rgBloomFilterCreate page os s old bits.toNat hashCount.toNat =
            (.ok, s1.setMem (rgmBloomZero s1.mem buffer blocks),
              (rgmBloomInstall s1.mem buffer blocks hashCount.toNat).2) := by
          unfold rgBloomFilterCreate
          rw [hcheck]
          dsimp only
          rw [halloc]
          exact if_neg hbuffer
        have hsize : 64 * blocks = blocks * rgmBloomBlockBytes := Nat.mul_comm _ _
        rw [hgo]
        refine .made ⟨64, s1, _, ?_, hbuffer, ?_, rfl, ?_⟩ (.create hs hgo)
        · show rgArenaAllocAligned page os s (64 * blocks) 64 = (buffer, s1)
          rw [hsize]
          exact halloc
        · show 64 * blocks < 2 ^ 64
          rw [hsize]
          exact hmul
        · exact ((rgmBloomInstall s1.mem buffer blocks hashCount.toNat).2.zero_stays s1.mem
            s1.mem).1

/-- Every creator makes its container in an allocation of its own, or leaves the arena alone. -/
theorem create_created (hpage : IsPageSize page) (hs : s.Ok page) (o : PartOrder) :
    PartMade page os s (o.create page os s) := by
  cases o with
  | freeList old blockSize maxBlocks => exact rgFreeListCreate_created hpage hs ..
  | denseList old blockSize maxBlocks => exact rgDenseListCreate_created hpage hs ..
  | bloom old bits hashCount => exact rgBloomFilterCreate_created hpage hs ..

end

/-! ## Buffers of the client -/

section

variable {page : Nat} {m : Mem} {b : Block}

theorem rgFreeListCreateFromMemory_placed (hb : b.addr + b.size ≤ 2 ^ 64) (old : FreeList)
    (blockSize : BitVec 64) (maxBlocks : BitVec 32) :
    PartPlaced page m b ((PartOrder.freeList old blockSize maxBlocks).createFromMemory m b) := by
  have hmade : ∀ {out}, rgFreeListCreateFromMemory m b.addr b.size old blockSize.toNat
      maxBlocks.toNat = out → (PartOrder.freeList old blockSize maxBlocks).createFromMemory m b =
        (out.1, out.2.1, .inl (.inl ⟨out.2.2, []⟩)) := by
    rintro _ rfl
    rfl
  have hfresh : ∀ {m' list}, rgFreeListCreateFromMemory m b.addr b.size old blockSize.toNat
      maxBlocks.toNat = (.ok, m', list) → FreeListRun.Fresh page ⟨list, m', []⟩ :=
    fun hgo => .createFromMemory hb hgo
  rw [hmade rfl]
  unfold rgFreeListCreateFromMemory at hfresh ⊢
  by_cases hnull : b.addr = 0
  · rw [if_pos hnull]
    exact .refused fun h => by cases h
  rw [if_neg hnull] at hfresh ⊢
  cases hcheck : rgmFreelistCheck blockSize.toNat maxBlocks.toNat with
  | error e => exact .refused (FreeListRun.rgmFreelistCheck_error hcheck)
  | ok bs =>
    obtain ⟨hmax, hbs, -⟩ := FreeListRun.rgmFreelistCheck_spec hcheck
    rw [hcheck] at hfresh
    dsimp only at hfresh ⊢
    by_cases hsmall : b.size < bs * maxBlocks.toNat
    · rw [if_pos hsmall]
      exact .refused fun h => by cases h
    · rw [if_neg hsmall] at hfresh ⊢
      have hsize : maxBlocks.toNat * bs ≤ b.size := by
        rw [Nat.mul_comm]
        omega
      refine .made rfl hsize (fun x hx => ?_) (hfresh rfl)
      exact rgmFreelistLink_out _ (by omega) hmax (not_mem_bytes.mp hx)

theorem rgDenseListCreateFromMemory_placed (hb : b.addr + b.size ≤ 2 ^ 64) (old : DenseList)
    (blockSize : BitVec 64) (maxBlocks : BitVec 32) :
    PartPlaced page m b ((PartOrder.denseList old blockSize maxBlocks).createFromMemory m b) := by
  have hmade : ∀ {out}, rgDenseListCreateFromMemory b.addr b.size old blockSize.toNat
      maxBlocks.toNat = out → (PartOrder.denseList old blockSize maxBlocks).createFromMemory m b =
        (out.1, m, .inl (.inr out.2)) := by
    rintro _ rfl
    rfl
  have hfresh : ∀ {list}, rgDenseListCreateFromMemory b.addr b.size old blockSize.toNat
      maxBlocks.toNat = (.ok, list) → DenseListRun.Fresh page ⟨list, m⟩ :=
    fun hgo => .createFromMemory hb hgo
  rw [hmade rfl]
  unfold rgDenseListCreateFromMemory at hfresh ⊢
  by_cases hnull : b.addr = 0
  · rw [if_pos hnull]
    exact .refused fun h => by cases h
  rw [if_neg hnull] at hfresh ⊢
  cases hcheck : rgmDenselistCheck blockSize.toNat maxBlocks.toNat with
  | error e => exact .refused (rgmDenselistCheck_error hcheck)
  | ok bs =>
    rw [hcheck] at hfresh
    dsimp only at hfresh ⊢
    by_cases hsmall : b.size < bs * maxBlocks.toNat
    · rw [if_pos hsmall]
      exact .refused fun h => by cases h
    · rw [if_neg hsmall] at hfresh ⊢
      have hsize : maxBlocks.toNat * bs ≤ b.size := by
        rw [Nat.mul_comm]
        omega
      exact .made rfl hsize (Set.eqOn_refl _ _) (hfresh rfl)

theorem rgBloomFilterCreateFromMemory_placed (hb : b.addr + b.size ≤ 2 ^ 64) (old : BloomFilter)
    (bits : BitVec 64) (hashCount : BitVec 32) :
    PartPlaced page m b ((PartOrder.bloom old bits hashCount).createFromMemory m b) := by
  have hmade : ∀ {out}, rgBloomFilterCreateFromMemory m b.addr b.size old bits.toNat
      hashCount.toNat = out → (PartOrder.bloom old bits hashCount).createFromMemory m b =
        (out.1, out.2.1, .inr out.2.2) := by
    rintro _ rfl
    rfl
  have hfresh : ∀ {m' bf}, rgBloomFilterCreateFromMemory m b.addr b.size old bits.toNat
      hashCount.toNat = (.ok, m', bf) → BloomFilter.Fresh page bf m' :=
    fun hgo => .createFromMemory hb hgo
  rw [hmade rfl]
  unfold rgBloomFilterCreateFromMemory at hfresh ⊢
  by_cases hnull : b.addr = 0
  · rw [if_pos hnull]
    exact .refused fun h => by cases h
  rw [if_neg hnull] at hfresh ⊢
  cases hcheck : rgmBloomCheck bits.toNat hashCount.toNat with
  | error e => exact .refused (rgmBloomCheck_error hcheck)
  | ok blocks =>
    rw [hcheck] at hfresh
    dsimp only at hfresh ⊢
    by_cases hsmall : b.size < blocks * rgmBloomBlockBytes
    · rw [if_pos hsmall]
      exact .refused fun h => by cases h
    · rw [if_neg hsmall] at hfresh ⊢
      have hsize : 64 * blocks ≤ b.size := by
        have hbytes : blocks * rgmBloomBlockBytes = 64 * blocks := Nat.mul_comm _ _
        omega
      exact .made rfl hsize
        ((rgmBloomInstall m b.addr blocks hashCount.toNat).2.zero_stays m m).1
        (hfresh rfl)

theorem createFromMemory_placed (hb : b.addr + b.size ≤ 2 ^ 64) (o : PartOrder) :
    PartPlaced page m b (o.createFromMemory m b) := by
  cases o with
  | freeList old blockSize maxBlocks => exact rgFreeListCreateFromMemory_placed hb ..
  | denseList old blockSize maxBlocks => exact rgDenseListCreateFromMemory_placed hb ..
  | bloom old bits hashCount => exact rgBloomFilterCreateFromMemory_placed hb ..

end

end RgMemory
