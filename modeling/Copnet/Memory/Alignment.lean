import Copnet.Memory.Growth

/-!
# Where the blocks of a pool are aligned

`ObjPool<T>` makes its objects in the blocks of a `MemPool<sizeof(T)>`, and a block that is free
holds a link. The first block of a slab comes eight bytes after the address that `malloc` has
answered, and the others follow in strides of the size of an object, or of a link if that is larger.
So the first block is never aligned to sixteen bytes, and the second is aligned to that of a link
only if the stride is.
-/

open ByteMemory Transition

namespace Copnet

/-- A type of objects, as far as its layout is concerned. -/
structure ObjType where
  /-- `sizeof(T)`. -/
  size : ℕ
  /-- `alignof(T)`. -/
  align : ℕ
  /-- Alignments are powers of two, and larger ones than that of `malloc` are left out. -/
  align_pow : ∃ k ≤ 4, align = 2 ^ k
  /-- The objects of an array are aligned. -/
  align_dvd : align ∣ size
  /-- The size is a `size_t`. -/
  size_lt : size < sizeTValues

def alignofMemBlockNode : ℕ := 8

/-- A `T` may be made at `b`, and a `MemBlockNode` may be stored there. -/
def Suitable (T : ObjType) (b : ℕ) : Prop := T.align ∣ b ∧ alignofMemBlockNode ∣ b

/-- All blocks that have been carved or returned so far are suitable for objects of the type. -/
def AllSuitable (T : ObjType) (tr : List (PoolAct × List PoolEvent)) (s : PoolState) : Prop :=
  (∀ b ∈ s.blocks, Suitable T b) ∧ ∀ ret, .allocated ret ∈ events tr → Suitable T ret

/-- `malloc` answers with multiples of sixteen. -/
def PoolState.MallocAligned (s : PoolState) : PoolAct → Prop
  | .alloc newMallocBlk => s.pool.freeListHead = 0 → 16 ∣ newMallocBlk
  | .free _ | .write _ _ => True

instance (s : PoolState) : (act : PoolAct) → Decidable (s.MallocAligned act)
  | .alloc newMallocBlk =>
    inferInstanceAs (Decidable (s.pool.freeListHead = 0 → 16 ∣ newMallocBlk))
  | .free _ | .write _ _ => isTrue trivial

/-- The runs in which `malloc` aligns what it answers, besides keeping to the rules of a pool. -/
def PoolState.AlignedGuard (s : PoolState) (act : PoolAct) : Prop :=
  s.Guard act ∧ s.MallocAligned act

instance (s : PoolState) (act : PoolAct) : Decidable (s.AlignedGuard act) :=
  inferInstanceAs (Decidable (s.Guard act ∧ s.MallocAligned act))

/-- Where the slabs are, and how blocks lie in them. -/
structure Layout (T : ObjType) (s : PoolState) : Prop where
  /-- The stride. -/
  stride : s.pool.objSize_ = max T.size sizeofMemBlockNode
  /-- The slabs are where `malloc` puts them. -/
  base : ∀ w ∈ s.slabs, 16 ∣ w.base
  /-- They have no fewer blocks than the first. -/
  cnt : ∀ w ∈ s.slabs, memPoolMallocObjCnt ≤ w.cnt

section Alignment

variable {T : ObjType} {s s' : PoolState} {act : PoolAct} {es : List PoolEvent} {b blk ret : ℕ}
  {mem : Mem} {tr : List (PoolAct × List PoolEvent)}

/-! ## Types -/

theorem ObjType.align_cases (T : ObjType) : T.align = 16 ∨ T.align ∣ alignofMemBlockNode := by
  obtain ⟨k, hk, hpow⟩ := T.align_pow
  rcases Nat.lt_or_ge k 4 with hlt | hge
  · right
    rw [hpow]
    exact Nat.pow_dvd_pow 2 (Nat.le_of_lt_succ hlt)
  · left
    rw [hpow, Nat.le_antisymm hk hge]
    rfl

/-! ## Slabs -/

theorem blocks_step (hs : s.step act = some (s', es)) (hb : b ∈ s.blocks) : b ∈ s'.blocks := by
  obtain ⟨hstride, hslabs⟩ := PoolState.slabs_step hs
  obtain ⟨w, hw, hbw⟩ := List.mem_flatMap.mp hb
  refine List.mem_flatMap.mpr ⟨w, hslabs w hw, ?_⟩
  rw [PoolState.blocksOf, hstride]
  exact hbw

theorem Layout.step (h : Layout T s) (hsound : Sound s) (hguard : s.AlignedGuard act)
    (hs : s.step act = some (s', es)) : Layout T s' := by
  have hstride := (PoolState.slabs_step hs).1.trans h.stride
  obtain ⟨⟨-, hfits⟩, hmalloc⟩ := hguard
  cases PoolState.Step.of_step hs with
  | alloc blk hfresh =>
    have hslabs : (s.alloc blk).1.slabs = s.slabsAfter blk := rfl
    rw [PoolState.slabsAfter] at hslabs
    by_cases hnull : s.pool.freeListHead = 0
    · rw [if_pos hnull] at hslabs
      refine ⟨hstride, ?_, ?_⟩
      · rw [hslabs, List.forall_mem_cons]
        exact ⟨hmalloc hnull, h.base⟩
      · rw [hslabs, List.forall_mem_cons]
        refine ⟨?_, h.cnt⟩
        rw [hfits.mallocCnt_eq hnull hsound.node]
        exact Nat.le_add_right _ _
    · rw [if_neg hnull] at hslabs
      exact ⟨hstride, hslabs ▸ h.base, hslabs ▸ h.cnt⟩
  | free block => exact ⟨hstride, h.base, h.cnt⟩
  | write x v => exact ⟨hstride, h.base, h.cnt⟩

/-! ## Runs -/

theorem layout_start (T : ObjType) (mem : Mem) : Layout T (.start T.size mem) := by
  refine ⟨?_, fun w hw ↦ absurd hw List.not_mem_nil, fun w hw ↦ absurd hw List.not_mem_nil⟩
  change (if T.size < sizeofMemBlockNode then sizeofMemBlockNode else T.size) = _
  split <;> omega

theorem layout_run (h : Run PoolState.machine PoolState.AlignedGuard (.start T.size mem) tr s) :
    Sound s ∧ Layout T s := by
  refine h.invariant (P := fun s ↦ Sound s ∧ Layout T s)
    ⟨sound_init ⟨T.size, T.size_lt, mem, rfl⟩, layout_start T mem⟩ fun hP hguard hs ↦ ?_
  exact ⟨hP.1.step hguard.1 hs, hP.2.step hP.1 hguard hs⟩

theorem returned_mem_blocks
    (h : Run PoolState.machine PoolState.AlignedGuard (.start T.size mem) tr s)
    (hret : .allocated ret ∈ events tr) : ret ∈ s.blocks := by
  induction h with
  | nil => exact absurd hret List.not_mem_nil
  | @snoc tr s s' act es hr hguard hs ih =>
    rw [events_append, events_singleton, List.mem_append] at hret
    rcases hret with hold | hnew
    · exact blocks_step hs (ih hold)
    · have hsound := (layout_run (hr.snoc hguard hs)).1
      apply hsound.mem_blocks
      cases PoolState.Step.of_step hs with
      | alloc blk hfresh =>
        rw [PoolState.alloc, List.mem_singleton, PoolEvent.allocated.injEq] at hnew
        rw [hnew]
        exact List.mem_cons_self
      | free block => exact absurd hnew List.not_mem_nil
      | write x v => exact absurd hnew List.not_mem_nil

/-! ## Blocks -/

theorem mem_blocks_iff (h : Sound s) :
    b ∈ s.blocks ↔ ∃ w ∈ s.slabs, ∃ i < w.cnt,
      b = w.base + sizeofMemBlockNode + s.pool.objSize_ * i := by
  rw [PoolState.blocks, List.mem_flatMap]
  refine exists_congr fun w ↦ and_congr_right fun hw ↦ ?_
  rw [(h.slabOk w hw).blocksOf_eq h.node, List.mem_range']

/-- **Which blocks are suitable**: those of a type that asks for no more than eight bytes, in
strides of a multiple of that. -/
theorem suitable_of_layout (h : Sound s) (hlay : Layout T s) (halign : T.align ≠ 16)
    (hstride : alignofMemBlockNode ∣ max T.size sizeofMemBlockNode) (hb : b ∈ s.blocks) :
    Suitable T b := by
  obtain ⟨w, hw, i, -, rfl⟩ := (mem_blocks_iff h).mp hb
  have hbase : alignofMemBlockNode ∣ w.base := Nat.dvd_trans (by decide) (hlay.base w hw)
  rw [← hlay.stride] at hstride
  have hall : alignofMemBlockNode ∣ w.base + sizeofMemBlockNode + s.pool.objSize_ * i :=
    Nat.dvd_add (Nat.dvd_add hbase (by decide)) (Nat.dvd_mul_right_of_dvd hstride i)
  exact ⟨Nat.dvd_trans (T.align_cases.resolve_left halign) hall, hall⟩

/-- The first two blocks of a slab tell. -/
theorem layout_of_suitable (h : Sound s) (hlay : Layout T s) {w : Slab} (hw : w ∈ s.slabs)
    (hall : ∀ b ∈ s.blocks, Suitable T b) :
    T.align ≠ 16 ∧ alignofMemBlockNode ∣ max T.size sizeofMemBlockNode := by
  have hcnt : 2 ≤ w.cnt := le_trans (by decide) (hlay.cnt w hw)
  have hfirst := hall _ ((mem_blocks_iff h).mpr ⟨w, hw, 0, by omega, rfl⟩)
  have hsecond := hall _ ((mem_blocks_iff h).mpr ⟨w, hw, 1, by omega, rfl⟩)
  rw [Nat.mul_zero, Nat.add_zero] at hfirst
  rw [Nat.mul_one] at hsecond
  constructor
  · intro halign
    have hnode : 16 ∣ sizeofMemBlockNode := by
      have := hfirst.1
      rw [halign] at this
      exact (Nat.dvd_add_right (hlay.base w hw)).mp this
    exact absurd hnode (by decide)
  · rw [← hlay.stride]
    exact (Nat.dvd_add_right hfirst.2).mp hsecond.2

/-- **When the blocks are aligned.** In every run of a pool of objects of a type in which clients
free what they hold and write to what they hold, the sizes of slabs do not wrap, and `malloc`
answers with multiples of sixteen: all blocks that have been carved or returned are aligned for the
objects and for links exactly if none was ever asked for, or the type asks for less than sixteen
bytes and the larger of its size and that of a link is a multiple of eight. -/
theorem memPool_aligned_iff (T : ObjType) (mem : Mem)
    (h : Run PoolState.machine PoolState.AlignedGuard (.start T.size mem) tr s) :
    AllSuitable T tr s ↔ (demand tr).peak = 0 ∨
      (T.align ≠ 16 ∧ alignofMemBlockNode ∣ max T.size sizeofMemBlockNode) := by
  obtain ⟨hsound, hlay⟩ := layout_run h
  have hgrown := grown_run ⟨T.size, T.size_lt, mem, rfl⟩ (h.mono fun _ _ hguard ↦ hguard.1)
  constructor
  · intro hall
    cases hslabs : s.slabs with
    | nil =>
      left
      have henough := hgrown.enough
      rw [← hgrown.slabs, hslabs, List.length_nil, carvedCount_zero] at henough
      exact Nat.le_zero.mp henough
    | cons w slabs =>
      exact .inr (layout_of_suitable hsound hlay (hslabs ▸ List.mem_cons_self) hall.1)
  · intro hcond
    have hblocks : ∀ b ∈ s.blocks, Suitable T b := by
      intro b hb
      rcases hcond with hzero | ⟨halign, hstride⟩
      -- without a demand there is no slab
      · have hslabs : s.slabs = [] := by
          by_contra hne
          have hpos : 0 < s.pool.mallocTimes := by
            rw [← hgrown.slabs]
            exact List.length_pos_iff.mpr hne
          have := hgrown.needed 0 hpos
          omega
        rw [PoolState.blocks, hslabs] at hb
        exact absurd hb List.not_mem_nil
      · exact suitable_of_layout hsound hlay halign hstride hb
    exact ⟨hblocks, fun ret hret ↦ hblocks ret (returned_mem_blocks h hret)⟩

end Alignment

def threePointers : ObjType := ⟨24, 8, ⟨3, by decide, rfl⟩, by decide, by decide⟩

theorem memPool_aligned_three_pointers :
    ∃ tr s, Run PoolState.machine PoolState.AlignedGuard (.start 24 fun _ ↦ 0) tr s ∧
      s.outstanding = [984, 1008] ∧ AllSuitable threePointers tr s := by
  have h := run_after (M := PoolState.machine) (C := PoolState.AlignedGuard)
    (s := .start 24 fun _ ↦ 0) [.alloc 64, .alloc 0]
  exact ⟨_, _, h, by decide +kernel,
    (memPool_aligned_iff threePointers _ h).mpr (.inr (by decide))⟩

def threeInts : ObjType := ⟨12, 4, ⟨2, by decide, rfl⟩, by decide, by decide⟩

/-- A block for three `int`s is returned, at which no link may be stored. -/
theorem memPool_misaligned_three_ints :
    ∃ tr s, Run PoolState.machine PoolState.AlignedGuard (.start 12 fun _ ↦ 0) tr s ∧
      .allocated 540 ∈ events tr ∧ ¬ AllSuitable threeInts tr s := by
  have h := run_after (M := PoolState.machine) (C := PoolState.AlignedGuard)
    (s := .start 12 fun _ ↦ 0) [.alloc 64]
  have hret : .allocated 540 ∈ events (PoolState.machine.after PoolState.AlignedGuard
      (.start 12 fun _ ↦ 0) [.alloc 64]).2 := by decide +kernel
  exact ⟨_, _, h, hret, fun hall ↦ absurd (hall.2 540 hret).2 (by decide)⟩

end Copnet
