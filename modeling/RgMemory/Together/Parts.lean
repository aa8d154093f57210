import RgMemory.Bloom.Run
import RgMemory.DenseList.Run
import RgMemory.FreeList.Run
import RgMemory.Lib.Regions

/-!
# Containers as components

A free list, a dense list and a Bloom filter each keep what they store in one buffer. This module
says so: each is a component whose region is its buffer, and each is local there
(`freeListCalls_local`, `denseListCalls_local`, `bloomCalls_local`). The steps are those of
`FreeListRun`, `DenseListRun` and `BloomFilter.step`: library calls, and the writes of the client
into blocks that it holds. The answer of a step is the pointer that an allocation returns and the
result of a test, and 0 for a step that answers nothing.
-/

namespace RgMemory

open Bytes Regions

/-! ## Buffers -/

/-- The addresses of a block. -/
def Block.bytes (b : Block) : Set Nat := Set.Ico b.addr (b.addr + b.size)

theorem mem_bytes {b : Block} {x : Nat} : x ∈ b.bytes ↔ b.addr ≤ x ∧ x < b.addr + b.size := Iff.rfl

theorem not_mem_bytes {b : Block} {x : Nat} : x ∉ b.bytes ↔ Out b.addr b.size x := by
  rw [mem_bytes]
  unfold Out
  omega

/-- Memories that are one on a block have one word at each place of it. -/
theorem load64_of_eqOn {b : Block} {m m' : Mem} (hm : Set.EqOn m' m b.bytes) {a : Nat}
    (hlo : b.addr ≤ a) (hhi : a + 8 ≤ b.addr + b.size) : load64 m' a = load64 m a :=
  load64_congr fun i hi => hm (mem_bytes.mpr (by omega))

theorem storeLE_eqOn {s : Set Nat} {m m' : Mem} (hm : Set.EqOn m' m s) (n a v : Nat) :
    Set.EqOn (storeLE n m' a v) (storeLE n m a v) s := by
  intro x hx
  unfold storeLE
  split
  · rfl
  · exact hm hx

theorem copy_eqOn {s : Set Nat} {m m' : Mem} (hm : Set.EqOn m' m s) (a : Nat) {src src' : Mem}
    {n : Nat} (hsrc : ∀ i, i < n → src' i = src i) :
    Set.EqOn (copy m' a src' n) (copy m a src n) s := by
  intro x hx
  unfold copy
  split
  · exact hsrc _ (by omega)
  · exact hm hx

theorem set_eqOn {s : Set Nat} {m m' : Mem} (hm : Set.EqOn m' m s) (a : Nat) (v : Byte) :
    Set.EqOn (fun x => if x = a then v else m' x) (fun x => if x = a then v else m x) s := by
  intro x hx
  dsimp only
  split
  · rfl
  · exact hm hx

/-! ## Free lists -/

/-- A free list in use: the control block, and the blocks that the client holds. -/
structure FreeListPart where
  list : FreeList
  allocated : List Nat

namespace FreeListPart

/-- The list in a memory. -/
def within (p : FreeListPart) (m : Mem) : FreeListRun := ⟨p.list, m, p.allocated⟩

def buffer (p : FreeListPart) : Block := ⟨p.list.buffer, p.list.maxBlocks * p.list.blockSize⟩

def Good (p : FreeListPart) (m : Mem) : Prop := ∃ chain, (p.within m).Sound chain

end FreeListPart

/-- What a step on a free list answers. -/
def FreeListEvent.answer (r : FreeListRun) : FreeListEvent → Nat
  | .call .alloc => (rgFreeListAlloc r.mem r.list).1
  | .call .allocFast => (rgFreeListAllocFast r.mem r.list).1
  | _ => 0

def freeListCalls : Component Nat Byte FreeListPart FreeListEvent Nat where
  region p := p.buffer.bytes
  call p m e :=
    let r := (p.within m).step e
    some (e.answer (p.within m), ⟨r.list, r.allocated⟩, r.mem)

namespace FreeListPart

variable {p : FreeListPart} {m m' : Mem} {chain : List Nat}

/-- A block that is free or the client's lies in the buffer. -/
theorem block_inside (h : (p.within m).Sound chain) {b : Nat}
    (hb : b ∈ chain ∨ b ∈ p.allocated) :
    p.buffer.addr ≤ b ∧ b + p.list.blockSize ≤ p.buffer.addr + p.buffer.size := by
  obtain ⟨i, hi, rfl⟩ := (h.mem_iff b).mp hb
  exact ⟨Nat.le_add_right _ _, block_end_le p.list (Nat.lt_of_lt_of_le hi h.high_le)⟩

/-- The links lie in the buffer. -/
theorem sound_of_eqOn (h : (p.within m).Sound chain) (hm : Set.EqOn m' m p.buffer.bytes) :
    (p.within m').Sound chain := by
  refine ⟨h.live, h.link_fits, h.fits, h.max_lt, h.high_le, h.links.congr fun b hb => ?_,
    h.blocks, h.free⟩
  have hin := block_inside h (.inl hb)
  have hlink : 8 ≤ p.list.blockSize := h.link_fits
  exact load64_of_eqOn hm hin.1 (by omega)

theorem alloc_of_eqOn (h : (p.within m).Sound chain) (hm : Set.EqOn m' m p.buffer.bytes) :
    rgFreeListAlloc m' p.list = rgFreeListAlloc m p.list := by
  have hhead : p.list.next ≠ 0 → load64 m' p.list.next = load64 m p.list.next := by
    intro hnext
    obtain ⟨rest, rfl, -⟩ := h.links.uncons hnext
    obtain ⟨hlo, hhi⟩ : p.buffer.addr ≤ p.list.next ∧
        p.list.next + p.list.blockSize ≤ p.buffer.addr + p.buffer.size :=
      block_inside h (.inl List.mem_cons_self)
    have hlink : 8 ≤ p.list.blockSize := h.link_fits
    exact load64_of_eqOn hm hlo (by omega)
  unfold rgFreeListAlloc
  by_cases hnext : p.list.next = 0
  · simp only [hnext, ne_eq, not_true_eq_false, if_false]
  · simp only [hhead hnext]

/-- The inline copy depends on the buffer as the exported function does. -/
theorem allocFast_of_eqOn (h : (p.within m).Sound chain) (hm : Set.EqOn m' m p.buffer.bytes) :
    rgFreeListAllocFast m' p.list = rgFreeListAllocFast m p.list := by
  have hfast : rgFreeListAllocFast m p.list = rgFreeListAlloc m p.list := h.allocFast_eq
  have hfast' : rgFreeListAllocFast m' p.list = rgFreeListAlloc m' p.list :=
    (sound_of_eqOn h hm).allocFast_eq
  rw [hfast, hfast', alloc_of_eqOn h hm]

/-- What a step does: the same whatever the memory is outside the buffer, and inside it only. -/
structure Stays (p : FreeListPart) (m : Mem) (e : FreeListEvent) : Prop where
  out : Set.EqOn ((p.within m).step e).mem m (p.buffer.bytes)ᶜ
  same : ∀ {m'}, Set.EqOn m' m p.buffer.bytes →
    e.answer (p.within m') = e.answer (p.within m) ∧
      ((p.within m').step e).list = ((p.within m).step e).list ∧
      ((p.within m').step e).allocated = ((p.within m).step e).allocated ∧
      Set.EqOn ((p.within m').step e).mem ((p.within m).step e).mem p.buffer.bytes

theorem free_stays (h : (p.within m).Sound chain) (b : Nat) : Stays p m (.call (.free b)) := by
  by_cases hb : b ∈ p.allocated
  · have hin := block_inside h (.inr hb)
    have hlink : 8 ≤ p.list.blockSize := h.link_fits
    have hlive : rgmFreelistIsLive p.list = true := decide_eq_true h.live
    have hstep : ∀ m, (p.within m).step (.call (.free b)) =
        (p.within m).give b (store64 m b (BitVec.ofNat 64 p.list.next),
          { p.list with next := b, blocksFree := u32 (p.list.blocksFree + 1) }) := by
      intro m
      show (p.within m).call (.free b) = _
      rw [FreeListRun.call_free_of_mem (r := p.within m) hb]
      simp only [within, rgFreeListFree, hlive, Bool.not_true, Bool.false_eq_true, if_false]
    refine ⟨fun x hx => ?_, fun {m'} hm => ?_⟩
    · rw [hstep]
      have hout := not_mem_bytes.mp hx
      exact storeLE_out m (by unfold Out at hout ⊢; omega)
    · rw [hstep, hstep]
      exact ⟨rfl, rfl, rfl, storeLE_eqOn hm _ _ _⟩
  · have hstep : ∀ m, (p.within m).step (.call (.free b)) = p.within m :=
      fun m => FreeListRun.call_free_of_not_mem (r := p.within m) hb
    refine ⟨fun x _ => ?_, fun {m'} hm => ?_⟩
    · rw [hstep]
      rfl
    · rw [hstep, hstep]
      exact ⟨rfl, rfl, rfl, hm⟩

theorem write_stays (h : (p.within m).Sound chain) (b i : Nat) (v : Byte) :
    Stays p m (.write b i v) := by
  by_cases hb : b ∈ p.allocated ∧ i < p.list.blockSize
  · have hin := block_inside h (.inr hb.1)
    have hstep : ∀ m, (p.within m).step (.write b i v) =
        ⟨p.list, fun x => if x = b + i then v else m x, p.allocated⟩ := fun m => if_pos hb
    refine ⟨fun x hx => ?_, fun {m'} hm => ?_⟩
    · rw [hstep]
      have hout := not_mem_bytes.mp hx
      exact if_neg (by unfold Out at hout; omega)
    · rw [hstep, hstep]
      exact ⟨rfl, rfl, rfl, set_eqOn hm _ v⟩
  · have hstep : ∀ m, (p.within m).step (.write b i v) = p.within m := fun m => if_neg hb
    refine ⟨fun x _ => ?_, fun {m'} hm => ?_⟩
    · rw [hstep]
      rfl
    · rw [hstep, hstep]
      exact ⟨rfl, rfl, rfl, hm⟩

theorem step_stays (h : (p.within m).Sound chain) (e : FreeListEvent) : Stays p m e := by
  cases e with
  | write b i v => exact write_stays h b i v
  | call c =>
    cases c with
    | free b => exact free_stays h b
    | freeFast b =>
      have hfree := free_stays h b
      have hstep : ∀ m, (p.within m).step (.call (.freeFast b)) =
          (p.within m).step (.call (.free b)) := fun m => FreeListRun.call_freeFast _ b
      refine ⟨?_, fun {m'} hm => ?_⟩
      · rw [hstep]
        exact hfree.out
      · rw [hstep, hstep]
        exact hfree.same hm
    | alloc =>
      refine ⟨Set.eqOn_refl _ _, fun {m'} hm => ?_⟩
      have hsame := alloc_of_eqOn h hm
      have hstep : ∀ m, (p.within m).step (.call .alloc) =
          (p.within m).take (rgFreeListAlloc m p.list) := fun _ => rfl
      rw [hstep, hstep, hsame]
      exact ⟨congrArg Prod.fst hsame, rfl, rfl, hm⟩
    | allocFast =>
      refine ⟨Set.eqOn_refl _ _, fun {m'} hm => ?_⟩
      have hsame := allocFast_of_eqOn h hm
      have hstep : ∀ m, (p.within m).step (.call .allocFast) =
          (p.within m).take (rgFreeListAllocFast m p.list) := fun _ => rfl
      rw [hstep, hstep, hsame]
      exact ⟨congrArg Prod.fst hsame, rfl, rfl, hm⟩

/-- A step keeps the buffer. -/
theorem step_buffer (h : (p.within m).Sound chain) (e : FreeListEvent) :
    (⟨((p.within m).step e).list, ((p.within m).step e).allocated⟩ : FreeListPart).buffer =
      p.buffer := by
  have hshape : ((p.within m).step e).list.shape = p.list.shape := (h.run_sound [e]).2
  unfold FreeList.shape at hshape
  simp only [Prod.mk.injEq] at hshape
  obtain ⟨hbuffer, hsize, hmax⟩ := hshape
  simp only [buffer, hbuffer, hsize, hmax]

end FreeListPart

/-- A free list reads and writes its buffer only. -/
theorem freeListCalls_local : Local freeListCalls FreeListPart.Good where
  reads := fun ⟨chain, h⟩ hm => ⟨chain, FreeListPart.sound_of_eqOn h hm⟩
  call := by
    rintro p m ⟨chain, h⟩ e
    have hstays := FreeListPart.step_stays h e
    refine ⟨_, _, _, rfl, h.step_sound e, congrArg Block.bytes (FreeListPart.step_buffer h e),
      hstays.out, fun {m'} hm => ?_⟩
    obtain ⟨hanswer, hlist, hallocated, hmem⟩ := hstays.same hm
    refine ⟨_, ?_, hmem⟩
    show some (e.answer (p.within m'), _, _) = _
    rw [hanswer, hlist, hallocated]

/-! ## Dense lists -/

def DenseList.whole (dl : DenseList) : Block := ⟨dl.buffer, dl.maxBlocks * dl.blockSize⟩

/-- What a step on a dense list answers. -/
def DenseListEvent.answer (dl : DenseList) : DenseListEvent → Nat
  | .alloc => (rgDenseListAlloc dl).1
  | .allocFast => (rgDenseListAllocFast dl).1
  | _ => 0

def denseListCalls : Component Nat Byte DenseList DenseListEvent Nat where
  region dl := dl.whole.bytes
  call dl m e := (DenseListRun.step ⟨dl, m⟩ e).map fun r => (e.answer dl, r.list, r.mem)

namespace DenseList

variable {dl : DenseList} {m m' : Mem}

theorem slot_inside (dl : DenseList) {i : Nat} (hi : i < dl.maxBlocks) :
    dl.whole.addr ≤ dl.slot i ∧ dl.slot i + dl.blockSize ≤ dl.whole.addr + dl.whole.size := by
  have hmul := Nat.mul_le_mul_right dl.blockSize hi
  rw [Nat.succ_mul] at hmul
  unfold slot whole
  dsimp only
  omega

/-- A free moves a block of the buffer to another place of it. -/
theorem moved_stays (h : DenseListRun.Sound ⟨dl, m⟩) {i : Nat} (hi : i < dl.count) :
    Set.EqOn (DenseListRun.moved ⟨dl, m⟩ i) m (dl.whole.bytes)ᶜ ∧
      ∀ {m'}, Set.EqOn m' m dl.whole.bytes →
        Set.EqOn (DenseListRun.moved ⟨dl, m'⟩ i) (DenseListRun.moved ⟨dl, m⟩ i) dl.whole.bytes := by
  have hcount : dl.count ≤ dl.maxBlocks := h.count_le
  have hin := dl.slot_inside (i := i) (by omega)
  have hlast := dl.slot_inside (i := dl.count - 1) (by omega)
  constructor
  · intro x hx
    have hout := not_mem_bytes.mp hx
    unfold DenseListRun.moved
    split
    · rfl
    · exact copy_out m _ (by unfold Out at hout ⊢; dsimp only; omega)
  · intro m' hm
    unfold DenseListRun.moved
    dsimp only
    split
    · exact hm
    · exact copy_eqOn hm _ fun k hk => hm (mem_bytes.mpr (by omega))

end DenseList

/-- A dense list reads and writes its buffer only. -/
theorem denseListCalls_local :
    Local denseListCalls fun dl m => DenseListRun.Sound ⟨dl, m⟩ where
  reads := fun h _ => ⟨h.live, h.size_pos, h.size_dvd, h.size_lt, h.fits, h.max_lt, h.count_le⟩
  call := by
    intro dl m h e
    have hmove : ∀ m', DenseListRun.Sound ⟨dl, m'⟩ := fun _ =>
      ⟨h.live, h.size_pos, h.size_dvd, h.size_lt, h.fits, h.max_lt, h.count_le⟩
    obtain ⟨r, hstep, ⟨hsound, hbuffer, hsize, hmax⟩, -⟩ := h.step_refines e
    have hwhole : r.list.whole = dl.whole := by
      simp only [DenseList.whole, hbuffer, hsize, hmax]
    have hcall : ∀ {m r}, DenseListRun.step ⟨dl, m⟩ e = some r →
        denseListCalls.call dl m e = some (e.answer dl, r.list, r.mem) := by
      intro m r hr
      show (DenseListRun.step ⟨dl, m⟩ e).map _ = _
      rw [hr]
      rfl
    refine ⟨e.answer dl, r.list, r.mem, hcall hstep, hsound, congrArg Block.bytes hwhole, ?_⟩
    -- the steps that leave the memory alone
    have hquiet : ∀ list, (∀ m, DenseListRun.step ⟨dl, m⟩ e = some ⟨list, m⟩) →
        Set.EqOn r.mem m (denseListCalls.region dl)ᶜ ∧
          ∀ {m'}, Set.EqOn m' m (denseListCalls.region dl) →
            ∃ m1, denseListCalls.call dl m' e = some (e.answer dl, r.list, m1) ∧
              Set.EqOn m1 r.mem (denseListCalls.region dl) := by
      intro list hall
      rw [hall] at hstep
      cases hstep
      exact ⟨Set.eqOn_refl _ _, fun {m'} hm => ⟨m', hcall (hall m'), hm⟩⟩
    cases e with
    | alloc => exact hquiet (rgDenseListAlloc dl).2 fun _ => rfl
    | allocFast => exact hquiet (rgDenseListAllocFast dl).2 fun _ => rfl
    | clear => exact hquiet (rgDenseListClear dl) fun _ => rfl
    | free i =>
      by_cases hi : i < dl.count
      · have hfree : ∀ m, DenseListRun.step ⟨dl, m⟩ (.free i) =
            some ⟨{ dl with count := dl.count - 1 }, DenseListRun.moved ⟨dl, m⟩ i⟩ := by
          intro m
          have heq := (hmove m).free_eq hi
          exact (if_pos hi).trans (by rw [heq]; rfl)
        obtain ⟨hout, hsame⟩ := DenseList.moved_stays h hi
        rw [hfree] at hstep
        cases hstep
        refine ⟨hout, fun {m'} hm => ?_⟩
        have hcall' := hcall (hfree m')
        exact ⟨_, hcall', hsame hm⟩
      · exact hquiet dl fun _ => if_neg hi
    | write i off v =>
      by_cases hin : i < dl.count ∧ off < dl.blockSize
      · have hwrite : ∀ m, DenseListRun.step ⟨dl, m⟩ (.write i off v) =
            some ⟨dl, fun x => if x = dl.slot i + off then v else m x⟩ := fun _ => if_pos hin
        have hcount : dl.count ≤ dl.maxBlocks := h.count_le
        have hslot := dl.slot_inside (i := i) (by omega)
        rw [hwrite] at hstep
        cases hstep
        refine ⟨fun x hx => ?_, fun {m'} hm => ?_⟩
        · have hout := not_mem_bytes.mp hx
          exact if_neg (by unfold Out at hout; omega)
        · have hcall' := hcall (hwrite m')
          exact ⟨_, hcall', set_eqOn hm _ v⟩
      · exact hquiet dl fun _ => if_neg hin

/-! ## Bloom filters -/

def BloomFilter.whole (bf : BloomFilter) : Block := ⟨bf.bits, 64 * bf.blockCount⟩

/-- What a step on a Bloom filter answers. -/
def BloomEvent.answer (bf : BloomFilter) (m : Mem) : BloomEvent → Nat
  | .test key => bf.test m key
  | _ => 0

def bloomCalls : Component Nat Byte BloomFilter BloomEvent Nat where
  region bf := bf.whole.bytes
  call bf m e := some (e.answer bf m, bf, bf.step m e)

namespace BloomFilter

variable {bf : BloomFilter} {m m' : Mem}

/-- The block that a digest pair selects lies in the array. -/
theorem Sound.block_inside (h : bf.Sound) (d : Digests) :
    bf.whole.addr ≤ rgmBloomBlock bf d.1 ∧
      rgmBloomBlock bf d.1 + 64 ≤ bf.whole.addr + bf.whole.size := by
  have hlt := h.blockOf_lt d
  unfold blockOf at hlt
  unfold rgmBloomBlock rgmBloomBlockWords whole
  dsimp only
  omega

theorem Sound.add_stays (h : bf.Sound) (d : Digests) (atomic : Bool) :
    Set.EqOn (rgmBloomAddH bf m d.1 d.2 atomic) m (bf.whole.bytes)ᶜ ∧
      (Set.EqOn m' m bf.whole.bytes →
        Set.EqOn (rgmBloomAddH bf m' d.1 d.2 atomic) (rgmBloomAddH bf m d.1 d.2 atomic)
          bf.whole.bytes) := by
  have hin := h.block_inside d
  constructor
  · intro x hx
    have hout := not_mem_bytes.mp hx
    exact addH_out bf m d atomic (by unfold Out at hout ⊢; omega)
  · intro hm x hx
    by_cases hblock : Out (rgmBloomBlock bf d.1) 64 x
    · rw [addH_out bf m' d atomic hblock, addH_out bf m d atomic hblock]
      exact hm hx
    · have hagree : Agree (rgmBloomAddH bf m d.1 d.2 atomic) (rgmBloomAddH bf m' d.1 d.2 atomic)
          (rgmBloomBlock bf d.1) (rgmBloomBlock bf d.1 + 64) :=
        addH_congr bf d (fun y hlo hhi => hm (mem_bytes.mpr (by omega))) atomic
      unfold Out at hblock
      exact hagree x (by omega) (by omega)

/-- Zeroing writes the array, with no look at what it held. -/
theorem zero_stays (bf : BloomFilter) (m m' : Mem) :
    Set.EqOn (rgmBloomZero m bf.bits bf.blockCount) m (bf.whole.bytes)ᶜ ∧
      (Set.EqOn m' m bf.whole.bytes →
        Set.EqOn (rgmBloomZero m' bf.bits bf.blockCount) (rgmBloomZero m bf.bits bf.blockCount)
          bf.whole.bytes) := by
  have hcount : bf.blockCount * rgmBloomBlockWords % 2 ^ 32 ≤ 8 * bf.blockCount := by
    unfold rgmBloomBlockWords
    omega
  constructor
  · intro x hx
    have hout := not_mem_bytes.mp hx
    unfold Out whole at hout
    dsimp only at hout
    rw [rgmBloomZero, zero_loop_apply, if_neg (by omega)]
  · intro hm x hx
    rw [rgmBloomZero, zero_loop_apply, rgmBloomZero, zero_loop_apply, hm hx]

/-- A test reads the array only. -/
theorem Sound.test_of_eqOn (h : bf.Sound) (hm : Set.EqOn m' m bf.whole.bytes) (key : BloomKey) :
    bf.test m' key = bf.test m key := by
  rw [h.test_eq, h.test_eq]
  cases key.pair with
  | none => rfl
  | some d =>
    have hin := h.block_inside d
    exact rgmBloomTestLoop_congr (fun y hlo hhi => hm (mem_bytes.mpr (by omega))) _ _
      (rgmBloomStart_lt d.2)

theorem Sound.step_stays (h : bf.Sound) (m m' : Mem) (e : BloomEvent) :
    Set.EqOn (bf.step m e) m (bf.whole.bytes)ᶜ ∧
      (Set.EqOn m' m bf.whole.bytes → Set.EqOn (bf.step m' e) (bf.step m e) bf.whole.bytes) := by
  cases e with
  | add key unsync =>
    show Set.EqOn (bf.add m key unsync) m _ ∧
      (_ → Set.EqOn (bf.add m' key unsync) (bf.add m key unsync) _)
    rw [h.add_eq, h.add_eq]
    cases key.pair with
    | none => exact ⟨Set.eqOn_refl _ _, id⟩
    | some d => exact h.add_stays d _
  | clear =>
    have hclear : ∀ m, bf.step m .clear = rgmBloomZero m bf.bits bf.blockCount := by
      intro m
      have hlive : rgmBloomIsLive bf = true := decide_eq_true h.live
      simp only [step, rgBloomFilterClear, hlive, Bool.not_true, Bool.false_eq_true, if_false]
    rw [hclear, hclear]
    exact bf.zero_stays m m'
  | test key => exact ⟨Set.eqOn_refl _ _, id⟩

end BloomFilter

/-- A Bloom filter reads and writes its array only. -/
theorem bloomCalls_local : Local bloomCalls fun bf _ => bf.Sound where
  reads := fun h _ => h
  call := by
    intro bf m h e
    refine ⟨_, bf, _, rfl, h, rfl, (h.step_stays m m e).1, fun {m'} hm => ?_⟩
    refine ⟨bf.step m' e, ?_, (h.step_stays m m' e).2 hm⟩
    have hanswer : e.answer bf m' = e.answer bf m := by
      cases e with
      | test key => exact h.test_of_eqOn hm key
      | add key unsync => rfl
      | clear => rfl
    show some (e.answer bf m', bf, bf.step m' e) = _
    rw [hanswer]

/-! ## Any of them -/

/-- A container: a free list, a dense list or a Bloom filter. -/
abbrev Part := (FreeListPart ⊕ DenseList) ⊕ BloomFilter

abbrev PartEvent := (FreeListEvent ⊕ DenseListEvent) ⊕ BloomEvent

namespace Part

/-- Where it stores what it stores. -/
def buffer : Part → Block := Sum.elim (Sum.elim FreeListPart.buffer DenseList.whole)
  BloomFilter.whole

def Good : Part → Mem → Prop :=
  Sum.elim (Sum.elim FreeListPart.Good fun dl m => DenseListRun.Sound ⟨dl, m⟩) fun bf _ => bf.Sound

/-- One of the creators has just made it. -/
def Fresh (page : Nat) : Part → Mem → Prop :=
  Sum.elim (Sum.elim (fun p m => FreeListRun.Fresh page (p.within m)) fun dl m =>
    DenseListRun.Fresh page ⟨dl, m⟩) fun bf m => BloomFilter.Fresh page bf m

/-- The calls on it. -/
def calls : Component Nat Byte Part PartEvent Nat :=
  (freeListCalls.sum denseListCalls 0).sum bloomCalls 0

theorem calls_local : Local calls Good :=
  (freeListCalls_local.sum denseListCalls_local 0).sum bloomCalls_local 0

theorem calls_region (p : Part) : calls.region p = p.buffer.bytes := by
  rcases p with (p | dl) | bf <;> rfl

/-- A call keeps the buffer. -/
theorem call_buffer {p p' : Part} {m m' : Mem} {e : PartEvent} {r : Nat} (h : p.Good m)
    (hcall : calls.call p m e = some (r, p', m')) : p'.buffer = p.buffer := by
  rcases p with (p | dl) | bf
  · rcases e with (e | e) | e
    · obtain ⟨chain, hsound⟩ := h
      cases hcall
      exact FreeListPart.step_buffer hsound e
    · cases hcall
      rfl
    · cases hcall
      rfl
  · rcases e with (e | e) | e
    · cases hcall
      rfl
    · obtain ⟨r', hstep, ⟨-, hbuffer, hsize, hmax⟩, -⟩ := DenseListRun.Sound.step_refines h e
      have hgo : calls.call (.inl (.inr dl)) m (.inl (.inr e)) =
          some (e.answer dl, .inl (.inr r'.list), r'.mem) := by
        show (((DenseListRun.step ⟨dl, m⟩ e).map _).map _).map _ = _
        rw [hstep]
        rfl
      rw [hgo] at hcall
      cases hcall
      show r'.list.whole = dl.whole
      simp only [DenseList.whole, hbuffer, hsize, hmax]
    · cases hcall
      rfl
  · rcases e with (e | e) | e
    · cases hcall
      rfl
    · cases hcall
      rfl
    · cases hcall
      rfl

theorem good_of_fresh {page : Nat} (hpage : IsPageSize page) {p : Part} {m : Mem}
    (h : p.Fresh page m) : p.Good m := by
  rcases p with (p | dl) | bf
  · exact FreeListRun.fresh_sound hpage h
  · exact (DenseListRun.fresh_sound hpage h).1
  · exact (BloomFilter.fresh_sound hpage h).1

end Part

end RgMemory
