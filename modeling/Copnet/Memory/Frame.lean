import Copnet.Memory.Blocks

/-!
# What the operations of a pool leave alone

An allocation writes to memory only where it carves a new slab, and a block that is freed is written
to where its link stands. So the blocks that are held before and after an operation keep their
bytes, and headers keep their links. The list of slabs is therefore at any time as `AllocAMemBlock`
has made it, and the destructor, which walks along it, comes to its end and frees every slab once,
whatever `free` does to the memory it is given.
-/

open ByteMemory Transition

namespace Copnet

/-- The operations of the pool itself. -/
def PoolAct.IsPool : PoolAct → Prop
  | .alloc _ | .free _ => True
  | .write _ _ => False

/-- What an operation `act` that leads from `s` to `s'` leaves alone. -/
structure Framed (s : PoolState) (act : PoolAct) (s' : PoolState) : Prop where
  /-- The bytes of the blocks held before and after it, if it is one of the pool. -/
  blocks : act.IsPool → ∀ b ∈ s.outstanding, b ∈ s'.outstanding →
    ∀ x, b ≤ x → x < b + s.pool.objSize_ → s'.mem x = s.mem x
  /-- The links of headers. -/
  headers : ∀ w ∈ s.slabs, MemPool.next s'.mem w.base = MemPool.next s.mem w.base

namespace MemPool

/-- The loop of `MemPool::~MemPool`, given up after some rounds: what it passes to `free`, in order.
`free(p)` leaves `scrub mem p` of the memory `mem`. -/
def destroyLoop (scrub : Mem → ℕ → Mem) : ℕ → Mem → ℕ → Option (List ℕ)
  | 0, _, mallocListHead => if mallocListHead = 0 then some [] else none
  | n + 1, mem, mallocListHead =>
    if mallocListHead = 0 then some []
    else (destroyLoop scrub n (scrub mem mallocListHead) (next mem mallocListHead)).map
      (mallocListHead :: ·)

end MemPool

/-- `free` touches no memory outside of the slab it is given. -/
def FreeSpares (slabs : List Slab) (scrub : Mem → ℕ → Mem) : Prop :=
  ∀ mem, ∀ w ∈ slabs, ∀ x, x < w.base ∨ w.base + w.size ≤ x → scrub mem w.base x = mem x

/-- `MemPool::~MemPool` comes to its end, and passes every pointer that `malloc` has answered to
`free`, once. -/
def TornDown (s : PoolState) : Prop :=
  (s.slabs.map Slab.base).Nodup ∧ ∀ scrub, FreeSpares s.slabs scrub → ∀ n, s.slabs.length ≤ n →
    MemPool.destroyLoop scrub n s.mem s.pool.mallocListHead = some (s.slabs.map Slab.base)

section Frame

variable {s s' : PoolState} {act : PoolAct} {es : List PoolEvent} {w : Slab} {b b' blk x : ℕ}
  {v : UInt8}

/-! ## Where an operation writes -/

theorem PoolState.mem_grown (hslab : SlabOk s.pool.objSize_ ⟨blk, s.pool.mallocSize,
      s.pool.mallocCnt⟩) (hnode : sizeofMemBlockNode ≤ s.pool.objSize_)
    (hnull : s.pool.freeListHead = 0) (hx : x < blk ∨ blk + s.pool.mallocSize ≤ x) :
    (s.grown blk).mem x = s.mem x := by
  have hsize := hslab.size
  have hend := hslab.fits
  simp only at hsize hend
  have hmem : _ = (s.grown blk).mem := congrArg Prod.fst (PoolState.carve_grown hslab hnode hnull)
  rw [← hmem, carve_of_notMem hnode (by omega) (by omega)]
  apply store_of_notMem
  omega

namespace Sound

theorem mem_alloc (h : Sound s) (hfresh : s.pool.freeListHead = 0 → s.MallocFresh blk)
    (hfits : s.Fits (.alloc blk)) (hw : w ∈ s.slabs) (hlow : w.base ≤ x)
    (hhigh : x < w.base + w.size) : (s.alloc blk).1.mem x = s.mem x := by
  rw [PoolState.alloc, MemPool.allocAMemBlock]
  by_cases hnull : s.pool.freeListHead = 0
  · rw [if_pos hnull]
    have hapart := (hfresh hnull).2.2 w hw
    apply PoolState.mem_grown (hfits.slabOk hnull (hfresh hnull) h.node) h.node hnull
    unfold Apart at hapart
    omega
  · rw [if_neg hnull]

theorem mem_free (hb : b = 0 ∨ b ∈ s.outstanding)
    (hx : b ∈ s.outstanding → x < b ∨ b + sizeofMemBlockNode ≤ x) :
    (s.free b).mem x = s.mem x := by
  rw [PoolState.free, MemPool.freeAMemBlock]
  by_cases hnull : b = 0
  · rw [if_pos hnull]
  · rw [if_neg hnull]
    exact store_of_notMem (hx (hb.resolve_left hnull))

theorem mem_free_block (h : Sound s) (hb : b = 0 ∨ b ∈ s.outstanding) (hb' : b' ∈ s.outstanding)
    (hne : b ≠ b') (hlow : b' ≤ x) (hhigh : x < b' + s.pool.objSize_) :
    (s.free b).mem x = s.mem x := by
  refine mem_free hb fun hout ↦ ?_
  have hapart := h.alone (h.mem_blocks hout) (h.mem_blocks hb') hne
  have hnode := h.node
  unfold Apart at hapart
  omega

theorem mem_free_header (h : Sound s) (hb : b = 0 ∨ b ∈ s.outstanding) (hw : w ∈ s.slabs)
    (hlow : w.base ≤ x) (hhigh : x < w.base + sizeofMemBlockNode) :
    (s.free b).mem x = s.mem x := by
  refine mem_free hb fun hout ↦ ?_
  have hapart := h.apart_header (h.mem_blocks hout) hw
  have hnode := h.node
  unfold Apart at hapart
  omega

theorem ne_header (h : Sound s) (hx : s.InSlab x → s.InUse x) (hw : w ∈ s.slabs) :
    x < w.base ∨ w.base + sizeofMemBlockNode ≤ x := by
  by_contra hin
  have hsize := (h.slabOk w hw).size
  obtain ⟨b, hb, hle, hlt⟩ := hx ⟨w, hw, by omega, by omega⟩
  have hapart := h.apart_header (h.mem_blocks hb) hw
  unfold Apart at hapart
  omega

theorem nodup_outstanding (h : Sound s) : s.outstanding.Nodup := by
  obtain ⟨l, -, hperm⟩ := h.conserved
  exact (h.nodup_append hperm).of_append_right

/-! ## The frame -/

/-- **What a step leaves alone**: the blocks held before and after, and the links of headers. -/
theorem framed (h : Sound s) (hguard : s.Guard act) (hs : s.step act = some (s', es)) :
    Framed s act s' := by
  obtain ⟨hrules, hfits⟩ := hguard
  cases PoolState.Step.of_step hs with
  | alloc blk hfresh =>
    constructor
    · intro _ b hb _ x hlow hhigh
      obtain ⟨w, hw, hbase, hend⟩ := h.inside (h.mem_blocks hb)
      exact h.mem_alloc hfresh hfits hw (by omega) (by omega)
    · intro w hw
      have hsize := (h.slabOk w hw).size
      exact load_congr fun x hlow hhigh ↦ h.mem_alloc hfresh hfits hw hlow (by omega)
  | free block =>
    constructor
    · intro _ b hb hkept x hlow hhigh
      have hne : block ≠ b := by
        rintro rfl
        exact h.nodup_outstanding.not_mem_erase hkept
      exact h.mem_free_block hrules hb hne hlow hhigh
    · intro w hw
      exact load_congr fun x hlow hhigh ↦ h.mem_free_header hrules hw hlow hhigh
  | write x v =>
    exact ⟨fun hpool ↦ hpool.elim, fun w hw ↦ load_update (h.ne_header hrules hw)⟩

end Sound

/-! ## The destructor -/

/-- **The walk of the destructor** goes along the slabs: a slab that is freed takes the headers of
the others with it as little as any other memory. -/
theorem destroyLoop_eq {scrub : Mem → ℕ → Mem} {slabs : List Slab} {mem : Mem} {head n : ℕ}
    (h : Threaded sizeofMemBlockNode mem head (slabs.map Slab.base))
    (happart : slabs.Pairwise fun w w' ↦ Apart w.base w.size w'.base w'.size)
    (hsize : ∀ w ∈ slabs, sizeofMemBlockNode ≤ w.size) (hscrub : FreeSpares slabs scrub)
    (hn : slabs.length ≤ n) :
    MemPool.destroyLoop scrub n mem head = some (slabs.map Slab.base) := by
  induction slabs generalizing mem head n with
  | nil =>
    obtain rfl : head = 0 := h
    cases n <;> rfl
  | cons w slabs ih =>
    obtain ⟨rfl, hne, hrest⟩ := h
    rw [List.pairwise_cons] at happart
    obtain ⟨hfirst, happart⟩ := happart
    cases n with
    | zero => exact absurd hn (Nat.not_succ_le_zero _)
    | succ n =>
      -- the next link was read before, and the rest of the list is not in the slab that is freed
      have hkept : Threaded sizeofMemBlockNode (scrub mem w.base) (MemPool.next mem w.base)
          (slabs.map Slab.base) := by
        apply hrest.congr
        intro a ha
        obtain ⟨w', hw', rfl⟩ := List.mem_map.mp ha
        have hle := hsize w' (List.mem_cons_of_mem _ hw')
        have hw := hfirst w' hw'
        apply load_congr
        intro x hlow hhigh
        apply hscrub mem w List.mem_cons_self
        unfold Apart at hw
        omega
      have hrec := ih hkept happart (fun w' hw' ↦ hsize w' (List.mem_cons_of_mem _ hw'))
        (fun mem w' hw' ↦ hscrub mem w' (List.mem_cons_of_mem _ hw')) (Nat.le_of_succ_le_succ hn)
      rw [MemPool.destroyLoop, if_neg hne, hrec]
      rfl

theorem Sound.tornDown (h : Sound s) : TornDown s := by
  have hnode : 0 < sizeofMemBlockNode := by decide
  have hsize : ∀ w ∈ s.slabs, sizeofMemBlockNode ≤ w.size := by
    intro w hw
    have := (h.slabOk w hw).size
    omega
  constructor
  · apply List.pairwise_map.mpr
    apply h.apart.imp_of_mem
    intro w w' hw hw' hapart heq
    have := hsize w hw
    have := hsize w' hw'
    unfold Apart at hapart
    omega
  · intro scrub hscrub n hn
    exact destroyLoop_eq h.headers h.apart hsize hscrub hn

end Frame

/-! ## Whole runs -/

section Runs

variable {s₀ s : PoolState} {tr : List (PoolAct × List PoolEvent)}

/-- **Live blocks and headers are left alone, and teardown frees every slab once.** In every run in
which clients free what they hold and write to what they hold, and in which the sizes of slabs do
not wrap: no operation of the pool changes a byte of a block that is held before and after it, no
operation and no client changes the link of a header, and if the pool is destroyed then, its
destructor comes to its end and frees every pointer that `malloc` has answered once. -/
theorem memPool_frame (h₀ : PoolState.machine.init s₀)
    (h : Run PoolState.machine PoolState.Guard s₀ tr s) :
    (∀ act s' es, s.Guard act → s.step act = some (s', es) → Framed s act s') ∧ TornDown s := by
  have hsound := sound_run h₀ h
  exact ⟨fun _ _ _ hguard hs ↦ hsound.framed hguard hs, hsound.tornDown⟩

theorem memPool_frame_taken_twice :
    ∃ tr s, Run PoolState.machine PoolState.Guard (.start 12 fun _ ↦ 0) tr s ∧
      s.slabs.map Slab.base = [64] ∧
      (∀ act s' es, s.Guard act → s.step act = some (s', es) → Framed s act s') ∧ TornDown s := by
  have h := run_after (M := PoolState.machine) (C := PoolState.Guard)
    (s := .start 12 fun _ ↦ 0) takenTwice
  exact ⟨_, _, h, by decide +kernel, memPool_frame ⟨12, by decide, _, rfl⟩ h⟩

/-- Six blocks are taken from a pool of four, whose free list runs in a circle. -/
def takenInACircle : List PoolAct := .alloc 64 :: List.replicate 5 (.alloc 0)

/-- The block that was handed out twice is freed once, and its last byte is not what it was. -/
theorem memPool_frame_fails_wrapped :
    ¬ ∀ (s₀ s : PoolState) (tr : List (PoolAct × List PoolEvent)), PoolState.machine.init s₀ →
      Run PoolState.machine PoolState.Disciplined s₀ tr s →
      (∀ act s' es, s.Disciplined act → s.step act = some (s', es) → Framed s act s') ∧
        TornDown s := by
  intro h
  have hrun := run_after (M := PoolState.machine) (C := PoolState.Disciplined) (s := hugeBlocks)
    takenInACircle
  have hblocks := ((h _ _ _ ⟨2 ^ 62, by decide, _, rfl⟩ hrun).1 (.free (72 + 3 * 2 ^ 62)) _ _
    (by decide +kernel) rfl).blocks trivial (72 + 3 * 2 ^ 62) (by decide +kernel)
    (by decide +kernel) (79 + 3 * 2 ^ 62) (by decide) (by decide +kernel)
  exact absurd hblocks (by decide +kernel)

end Runs

end Copnet
