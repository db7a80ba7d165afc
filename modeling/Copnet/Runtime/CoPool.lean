import Copnet.Foundation.Simulation
import Copnet.Memory.Pools
import Copnet.Runtime.Affinity

/-!
# The pools of the runtime

In the model of the runtime `new_obj` on a processor may answer with any address at which there is
no coroutine and of which no other processor's pool has the block. Here the pools are put in: the
coroutine objects of a processor are blocks of its `coPool_`, a `MemPool` of `sizeof(Coroutine)`
bytes a block, the pools of all processors stand in one memory, and `delete_obj` gives a block back
to the pool of the loop that has found it in `removedCo_`.

The blocks that the pools have given away are then the coroutine objects there are, each in the pool
of its own processor; so what a pool hands out is always an address that the model of the runtime
allows, and what a loop gives back is held and of its own pool.
-/

open ByteMemory Transition

namespace Copnet

/-- A program with the memory of its pools. -/
structure PooledSys where
  /-- The processors, the objects, and the rest of the program. -/
  sys : Sys
  /-- The pools of the processors. -/
  pools : Pools Pid

inductive PooledAction
  /-- A step of the runtime. Where it is a call of `goNewCo`, its address is not that of the object
  but what `malloc` answers if it is called. -/
  | run (act : Action)
  /-- Somebody writes a byte to memory. -/
  | write (x : ℕ) (v : UInt8)

/-- The step is a `new_obj` on a processor, for which `malloc` has the answer. -/
def Action.allocates : Action → Option (Pid × ℕ)
  | .user _ (.goNewCo q blk) | .extCall _ (.goNewCo q blk) => some (q, blk)
  | _ => none

/-- What the step does to the pools when it is over: `delete_obj` frees the block. -/
def Pools.collect (P : Pools Pid) : Event → Pools Pid
  | .delete p a _ => P.free p a
  | _ => P

namespace PooledSys

variable (S : PooledSys)

/-- `coPool_` of every processor has blocks of `sizeofCoroutine` bytes. -/
def start (s : Sys) (sizeofCoroutine : ℕ) (mem : Mem) : PooledSys :=
  ⟨s, .start (fun _ ↦ sizeofCoroutine) mem⟩

/-- The step of the runtime, with the object where the pool puts it. -/
def resolve : Action → Action
  | .user p (.goNewCo q blk) => .user p (.goNewCo q (S.pools.alloc q blk).2)
  | .extCall t (.goNewCo q blk) => .extCall t (.goNewCo q (S.pools.alloc q blk).2)
  | act => act

/-- The pools after a step that reports `es`. -/
def poolsAfter (act : Action) (es : List Event) : Pools Pid :=
  match act.allocates with
  | some (q, blk) => (S.pools.alloc q blk).1
  | none => es.foldl Pools.collect S.pools

/-- Where the pool needs a slab for the step, `malloc` may answer. -/
def Fresh (act : Action) : Prop :=
  ∀ e ∈ act.allocates, (S.pools.pool e.1).freeListHead = 0 → S.pools.MallocFresh e.1 e.2

instance (act : Action) : Decidable (S.Fresh act) :=
  inferInstanceAs (Decidable (∀ e ∈ act.allocates, _))

def step : PooledAction → Option (PooledSys × List Event)
  | .run act =>
    if S.Fresh act then
      (Copnet.step S.sys (S.resolve act)).map fun r ↦ (⟨r.1, S.poolsAfter act r.2⟩, r.2)
    else none
  | .write x v => some (⟨S.sys, S.pools.write x v⟩, [])

def machine : Machine PooledSys PooledAction Event where
  init S := ∃ s, Copnet.machine.init s ∧ ∃ sizeofCoroutine < sizeTValues, ∃ mem,
    S = start s sizeofCoroutine mem
  step := step

/-- The discipline of the program, as for the runtime alone; it writes to the pools' memory only
inside of coroutine objects. And the sizes of slabs do not wrap. -/
def Guard : PooledAction → Prop
  | .run act => Disciplined S.sys act ∧
      ∀ e ∈ act.allocates, (S.pools.part e.1).Fits (.alloc e.2)
  | .write x _ => S.pools.InSlab x → S.pools.InUse x

instance : (act : PooledAction) → Decidable (S.Guard act)
  | .run act => inferInstanceAs (Decidable (Disciplined S.sys act ∧ ∀ e ∈ act.allocates, _))
  | .write x _ => inferInstanceAs (Decidable (S.pools.InSlab x → S.pools.InUse x))

end PooledSys

/-! ## What a step does to the objects -/

section Objects

variable {s s' : Sys} {act : Action} {es : List Event} {a : Addr} {q : Pid}

/-- The processor of the object at an address. -/
def Sys.owner (s : Sys) (a : Addr) : Option Pid := (s.cos a).map Coroutine.pMyProcessor

/-- The events of a step build one object, or delete one, or neither. -/
inductive Objects (s : Sys) (act : Action) : List Event → Prop
  | make (q : Pid) (a : Addr) (h : act.allocates = some (q, a)) :
      Objects s act [.made a s.nextSerial q]
  | delete (p : Pid) (a : Addr) (n : ℕ) (h : act.allocates = none) : Objects s act [.delete p a n]
  | neither {es : List Event} (h : act.allocates = none) (hmade : ∀ a n q, .made a n q ∉ es)
      (hdelete : ∀ p a n, .delete p a n ∉ es) : Objects s act es

theorem Step.objects (hs : Step s act s' es) : Objects s act es := by
  cases hs with
  | goNewCo | extGoNewCo => exact .make _ _ rfl
  | reclaim => exact .delete _ _ _ rfl
  | timer hexec hpc ha hres | pop hexec hpc hcons hres | event hexec hpc hpCo hres =>
    cases hres <;> exact .neither rfl (by simp) (by simp)
  | _ => exact .neither rfl (by simp) (by simp)

theorem LifeStep.object {ℓ ℓ' : Life} (h : LifeStep s act a ℓ es ℓ') :
    (∃ n q, es = [.made a n q] ∧ ℓ.co = none ∧ ℓ'.co.map Coroutine.pMyProcessor = some q) ∨
      (∃ q n, es = [.delete q a n] ∧ ℓ.co.map Coroutine.pMyProcessor = some q ∧ ℓ'.co = none) ∨
        (∀ n q, .made a n q ∉ es) ∧ (∀ q n, .delete q a n ∉ es) ∧
          ℓ'.co.map Coroutine.pMyProcessor = ℓ.co.map Coroutine.pMyProcessor := by
  cases h with
  | make c maker hserial => exact .inl ⟨_, _, rfl, rfl, rfl⟩
  | delete c => exact .inr (.inl ⟨_, _, rfl, rfl, rfl⟩)
  | _ => exact .inr (.inr ⟨by simp, by simp, rfl⟩)

theorem Lives.objects {L : Addr → Life} (hL : Lives s L) (hdisc : Disciplined s act)
    (hs : Step s act s' es) (a : Addr) :
    (∃ n q, .made a n q ∈ es ∧ s.owner a = none ∧ s'.owner a = some q) ∨
      (∃ q n, .delete q a n ∈ es ∧ s.owner a = some q ∧ s'.owner a = none) ∨
        (∀ n q, .made a n q ∉ es) ∧ (∀ q n, .delete q a n ∉ es) ∧ s'.owner a = s.owner a := by
  obtain ⟨L', hL', hlife⟩ := hs.lives hdisc hL
  have hmade : ∀ n q, .made a n q ∈ es ↔ .made a n q ∈ lifeEvents a es := fun n q ↦ by
    simp [lifeEvents, Event.inLife]
  have hdelete : ∀ q n, .delete q a n ∈ es ↔ .delete q a n ∈ lifeEvents a es := fun q n ↦ by
    simp [lifeEvents, Event.inLife]
  simp only [hmade, hdelete, Sys.owner, (hL.fits a).co, (hL'.fits a).co]
  rcases (hlife a).object with ⟨n, q, hes, hco, hco'⟩ | ⟨q, n, hes, hco, hco'⟩ | hsame
  · exact .inl ⟨n, q, by simp [hes], by simp [hco], hco'⟩
  · exact .inr (.inl ⟨q, n, by simp [hes], hco, by simp [hco']⟩)
  · exact .inr (.inr hsame)

theorem Step.of_pool (hs : Step s act s' es) (h : s'.pool a = some q) :
    s.pool a = some q ∨ ∃ n, .made a n q ∈ es := by
  have hnew : ∀ {r b}, Function.update s.pool b (some r) a = some q →
      s.pool a = some q ∨ ∃ n, .made a n q ∈ [Event.made b s.nextSerial r] := by
    intro r b hupd
    by_cases hab : a = b
    · subst hab
      rw [Function.update_self, Option.some_inj] at hupd
      exact .inr ⟨s.nextSerial, by simp [hupd]⟩
    · exact .inl (by rwa [Function.update_of_ne hab] at hupd)
  cases hs with
  | goNewCo | extGoNewCo => exact hnew h
  | timer hexec hpc ha hres | pop hexec hpc hcons hres | event hexec hpc hpCo hres =>
    cases hres <;> exact .inl h
  | _ => exact .inl h

end Objects

/-! ## The pools and the objects -/

namespace PooledSys

/-- The blocks that the pools have given away are the objects. -/
structure Agrees (S : PooledSys) : Prop where
  /-- The pools do not share memory. -/
  separate : S.pools.Separate
  /-- A block is held where there is an object of the processor. -/
  held : ∀ q a, a ∈ S.pools.outstanding q ↔ S.sys.owner a = some q
  /-- What has been handed out has been carved. -/
  carved : ∀ q a, S.sys.pool a = some q → a ∈ (S.pools.part q).blocks

section Steps

variable {S S' : PooledSys} {act : Action} {pact : PooledAction} {es : List Event} {q : Pid}
  {blk : ℕ} {a b : Addr} {s' : Sys}

theorem allocates_resolve :
    (S.resolve act).allocates = act.allocates.map fun e ↦ (e.1, (S.pools.alloc e.1 e.2).2) := by
  cases act with
  | user p op | extCall t op => cases op <;> rfl
  | _ => rfl

theorem disciplined_resolve (h : Disciplined S.sys act) : Disciplined S.sys (S.resolve act) := by
  cases act with
  | user p op | extCall t op => cases op <;> exact h
  | _ => exact h

theorem eq_of_mem_blocks {P : Pools Pid} (h : P.Separate) {p : Pid} (hp : a ∈ (P.part p).blocks)
    (hq : a ∈ (P.part q).blocks) : p = q := by
  by_contra hne
  have hapart := h.blocks_of_ne hp hq hne
  have hnode : sizeofMemBlockNode ≤ (P.pool p).objSize_ := (h.part p).node
  have hnode' : sizeofMemBlockNode ≤ (P.pool q).objSize_ := (h.part q).node
  have hpos : 0 < sizeofMemBlockNode := by decide
  unfold Apart at hapart
  omega

/-- What a pool hands out is an address where the runtime may put an object. -/
theorem Agrees.mayAlloc (h : S.Agrees)
    (hfresh : (S.pools.pool q).freeListHead = 0 → S.pools.MallocFresh q blk)
    (hfits : (S.pools.part q).Fits (.alloc blk)) : S.sys.MayAlloc q (S.pools.alloc q blk).2 := by
  have hs : S.pools.Step (.alloc q blk) _ _ := .alloc q blk hfresh
  have hsep' := h.separate.alloc hfresh hfits
  have hret := h.separate.ret_mem_blocks hfresh hfits
  have hown : ∀ {p}, (S.pools.alloc q blk).2 ∈ (S.pools.part p).blocks → p = q :=
    fun hp ↦ eq_of_mem_blocks hsep' (hs.blocks hp) hret
  constructor
  · by_contra hco
    obtain ⟨c, hco⟩ := Option.ne_none_iff_exists'.mp hco
    have hheld := (h.held c.pMyProcessor _).mpr (by rw [Sys.owner, hco]; rfl)
    rw [hown ((h.separate.part _).mem_blocks hheld)] at hheld
    exact (h.separate.handedOut hfresh hfits).free hheld
  · rcases hpool : S.sys.pool (S.pools.alloc q blk).2 with _ | p
    · exact .inl rfl
    · exact .inr (congrArg some (hown (h.carved p _ hpool)))

theorem Agrees.make (h : S.Agrees) {n : ℕ}
    (hfresh : (S.pools.pool q).freeListHead = 0 → S.pools.MallocFresh q blk)
    (hfits : (S.pools.part q).Fits (.alloc blk)) {L : Addr → Life} (hL : Lives S.sys L)
    (hdisc : Disciplined S.sys act)
    (hs : Step S.sys act s' [.made (S.pools.alloc q blk).2 n q]) :
    Agrees ⟨s', (S.pools.alloc q blk).1⟩ := by
  refine ⟨h.separate.alloc hfresh hfits, fun p a ↦ ?_, fun p a hpool ↦ ?_⟩
  · simp only [Pools.mem_outstanding_alloc, h.held]
    rcases hL.objects hdisc hs a with ⟨m, r, hmem, hno, hown⟩ | ⟨r, m, hmem, -⟩ | ⟨hno, -, hown⟩
    · obtain ⟨rfl, rfl, rfl⟩ := by simpa using hmem
      simp [hno, hown, eq_comm]
    · simp at hmem
    · rw [hown]
      refine ⟨fun hor ↦ hor.resolve_left ?_, .inr⟩
      rintro ⟨rfl, rfl⟩
      exact hno n p (List.mem_singleton_self _)
  · rcases hs.of_pool hpool with hold | ⟨m, hmem⟩
    · exact (Pools.Step.alloc q blk hfresh).blocks (h.carved p a hold)
    · obtain ⟨rfl, -, rfl⟩ := by simpa using hmem
      exact h.separate.ret_mem_blocks hfresh hfits

/-- `delete_obj`: what it frees is held, and of the pool of the processor. -/
theorem Agrees.delete (h : S.Agrees) {p : Pid} {n : ℕ} {L : Addr → Life} (hL : Lives S.sys L)
    (hdisc : Disciplined S.sys act) (hs : Step S.sys act s' [.delete p b n]) :
    b ∈ S.pools.outstanding p ∧ Agrees ⟨s', S.pools.free p b⟩ := by
  have hheld : S.sys.owner b = some p := by
    rcases hL.objects hdisc hs b with ⟨m, r, hmem, -⟩ | ⟨r, m, hmem, hown, -⟩ | ⟨-, hno, -⟩
    · simp at hmem
    · obtain ⟨rfl, -⟩ := by simpa using hmem
      exact hown
    · exact absurd (List.mem_singleton_self _) (hno p n)
  have hmem : b ∈ S.pools.outstanding p := (h.held p b).mpr hheld
  refine ⟨hmem, h.separate.free (.inr hmem), fun r a ↦ ?_, fun r a hpool ↦ ?_⟩
  · rw [Pools.mem_outstanding_free (h.separate.part p).nodup_outstanding, h.held]
    rcases hL.objects hdisc hs a with ⟨m, q, hes, -⟩ | ⟨q, m, hes, hown, hno⟩ | ⟨-, hno, hown⟩
    · simp at hes
    · obtain ⟨rfl, rfl, rfl⟩ := by simpa using hes
      simp [hno, hown, eq_comm]
    · rw [hown]
      refine ⟨And.left, fun hr ↦ ⟨hr, ?_⟩⟩
      rintro ⟨rfl, rfl⟩
      exact hno r n (List.mem_singleton_self _)
  · rcases hs.of_pool hpool with hold | ⟨m, hes⟩
    · exact (Pools.Step.free p b).blocks (h.carved r a hold)
    · simp at hes

theorem Agrees.neither (h : S.Agrees) {L : Addr → Life} (hL : Lives S.sys L)
    (hdisc : Disciplined S.sys act) (hs : Step S.sys act s' es)
    (hmade : ∀ a n q, .made a n q ∉ es) (hdelete : ∀ p a n, .delete p a n ∉ es) :
    Agrees ⟨s', S.pools⟩ := by
  refine ⟨h.separate, fun q a ↦ ?_, fun q a hpool ↦ ?_⟩
  · rw [h.held]
    rcases hL.objects hdisc hs a with ⟨m, r, hes, -⟩ | ⟨r, m, hes, -⟩ | ⟨-, -, hown⟩
    · exact absurd hes (hmade a m r)
    · exact absurd hes (hdelete r a m)
    · rw [hown]
  · rcases hs.of_pool hpool with hold | ⟨m, hes⟩
    · exact h.carved q a hold
    · exact absurd hes (hmade a m q)

theorem foldl_collect {P : Pools Pid} (h : ∀ p a n, .delete p a n ∉ es) :
    es.foldl Pools.collect P = P := by
  induction es generalizing P with
  | nil => rfl
  | cons ev es ih =>
    have hev : P.collect ev = P := by
      cases ev with
      | delete p a n => exact absurd List.mem_cons_self (h p a n)
      | _ => rfl
    rw [List.foldl_cons, hev, ih fun p a n hmem ↦ h p a n (List.mem_cons_of_mem _ hmem)]

theorem sys_step (h : S.step (.run act) = some (S', es)) :
    S.Fresh act ∧ Copnet.step S.sys (S.resolve act) = some (S'.sys, es) ∧
      S'.pools = S.poolsAfter act es := by
  obtain ⟨hfresh, hmap⟩ := Option.ite_none_right_eq_some.mp h
  obtain ⟨⟨s', es'⟩, hstep, heq⟩ := Option.map_eq_some_iff.mp hmap
  obtain ⟨rfl, rfl⟩ := Prod.mk.inj heq
  exact ⟨hfresh, hstep, rfl⟩

theorem Agrees.run (h : S.Agrees) {L : Addr → Life} (hL : Lives S.sys L)
    (hguard : S.Guard (.run act)) (hstep : S.step (.run act) = some (S', es)) :
    S'.Agrees ∧ ∀ p a n, .delete p a n ∈ es → a ∈ S.pools.outstanding p := by
  obtain ⟨hdisc, hfits⟩ := hguard
  obtain ⟨hfresh, hstep, hpools⟩ := sys_step hstep
  obtain ⟨s', P'⟩ := S'
  obtain rfl : P' = S.poolsAfter act es := hpools
  have hs := Step.of_step hstep
  have hdisc' := disciplined_resolve hdisc
  cases hs.objects with
  | make q a hall =>
    rw [allocates_resolve, Option.map_eq_some_iff] at hall
    obtain ⟨⟨q, blk⟩, hall, heq⟩ := hall
    obtain ⟨rfl, rfl⟩ := Prod.mk.inj heq
    rw [poolsAfter, hall]
    exact ⟨h.make (hfresh _ hall) (hfits _ hall) hL hdisc' hs, by simp⟩
  | delete p b n hall =>
    rw [allocates_resolve, Option.map_eq_none_iff] at hall
    rw [poolsAfter, hall]
    obtain ⟨hmem, hagrees⟩ := h.delete hL hdisc' hs
    refine ⟨hagrees, fun r a m hes ↦ ?_⟩
    obtain ⟨rfl, rfl, -⟩ := by simpa using hes
    exact hmem
  | neither hall hmade hdelete =>
    rw [allocates_resolve, Option.map_eq_none_iff] at hall
    rw [poolsAfter, hall, foldl_collect hdelete]
    exact ⟨h.neither hL hdisc' hs hmade hdelete, fun p a n hes ↦ absurd hes (hdelete p a n)⟩

theorem Agrees.write (h : S.Agrees) {x : ℕ} {v : UInt8}
    (hx : S.pools.InSlab x → S.pools.InUse x) : Agrees ⟨S.sys, S.pools.write x v⟩ :=
  ⟨h.separate.write hx, h.held, h.carved⟩

end Steps

/-! ## Whole runs -/

section Runs

variable {S₀ S : PooledSys} {tr : List (PooledAction × List Event)}

/-- **The runtime with its pools implements the runtime.** -/
theorem simulation :
    Simulation machine Guard Copnet.machine Disciplined fun S s ↦ S.sys = s := by
  constructor
  · rintro S ⟨s, hinit, size, hsize, mem, rfl⟩
    exact ⟨s, hinit, rfl⟩
  · rintro S S' s pact es rfl hguard hstep
    cases pact with
    | run act =>
      obtain ⟨-, hstep, -⟩ := sys_step hstep
      obtain ⟨tr, hrun, hev⟩ := Run.one (M := Copnet.machine) (disciplined_resolve hguard.1) hstep
      exact ⟨tr, _, hrun, hev, rfl⟩
    | write x v =>
      obtain ⟨rfl, rfl⟩ := Prod.mk.inj (Option.some.inj hstep)
      exact ⟨[], _, .nil, rfl, rfl⟩

theorem lives_of_run (h₀ : machine.init S₀) (h : Run machine Guard S₀ tr S) :
    ∃ L, Lives S.sys L := by
  obtain ⟨s, hreach, rfl⟩ := simulation.reachable ⟨S₀, tr, h₀, h⟩
  exact lives_of_reachable (fun _ _ h ↦ h) hreach

theorem agrees_init (h₀ : machine.init S) : S.Agrees := by
  obtain ⟨_, ⟨clock, rfl⟩, size, hsize, mem, rfl⟩ := h₀
  refine ⟨Pools.separate_init ⟨_, fun _ ↦ hsize, mem, rfl⟩, ?_, ?_⟩
  · simp [start, Pools.start, Sys.owner, Sys.fresh]
  · simp [start, Sys.fresh]

theorem agrees_run (h₀ : machine.init S₀) (h : Run machine Guard S₀ tr S) : S.Agrees := by
  refine h.history (P := fun _ S ↦ S.Agrees) (agrees_init h₀) ?_
  rintro tr S S' pact es hrun hagrees hguard hstep
  cases pact with
  | run act =>
    obtain ⟨L, hL⟩ := lives_of_run h₀ hrun
    exact (hagrees.run hL hguard hstep).1
  | write x v =>
    obtain ⟨rfl, rfl⟩ := Prod.mk.inj (Option.some.inj hstep)
    exact hagrees.write hguard

/-- **The pools are what the runtime takes them for.** In every run of the runtime with its pools in
which the program keeps to its discipline and the sizes of slabs do not wrap, and which is a run of
the runtime with the same events: the blocks given away by a processor's pool are the coroutine
objects of the processor, no two objects overlap, whatever block a pool would hand out next is at an
address where the runtime may build an object, and what a loop gives back is held and of its own
pool. -/
theorem pools_agree (h₀ : machine.init S₀) (h : Run machine Guard S₀ tr S) :
    (∃ tr', Run Copnet.machine Disciplined S₀.sys tr' S.sys ∧ events tr' = events tr) ∧
      (∀ q a, a ∈ S.pools.outstanding q ↔ ∃ c, S.sys.cos a = some c ∧ c.pMyProcessor = q) ∧
      (∀ a b c d, S.sys.cos a = some c → S.sys.cos b = some d → a ≠ b →
        Apart a (S.pools.pool c.pMyProcessor).objSize_ b (S.pools.pool d.pMyProcessor).objSize_) ∧
      (∀ q blk, ((S.pools.pool q).freeListHead = 0 → S.pools.MallocFresh q blk) →
        (S.pools.part q).Fits (.alloc blk) → S.sys.MayAlloc q (S.pools.alloc q blk).2) ∧
      ∀ act S' es, S.Guard (.run act) → S.step (.run act) = some (S', es) →
        ∀ p a n, .delete p a n ∈ es → a ∈ S.pools.outstanding p := by
  have hagrees := agrees_run h₀ h
  have hheld : ∀ q a, a ∈ S.pools.outstanding q ↔ ∃ c, S.sys.cos a = some c ∧
      c.pMyProcessor = q := fun q a ↦ by rw [hagrees.held, Sys.owner, Option.map_eq_some_iff]
  refine ⟨?_, hheld, ?_, fun q blk ↦ hagrees.mayAlloc, ?_⟩
  · obtain ⟨tr', s, hrun, hev, rfl⟩ := simulation.run rfl h
    exact ⟨tr', hrun, hev⟩
  · intro a b c d ha hb hne
    have hblock : ∀ {a c}, S.sys.cos a = some c →
        a ∈ (S.pools.part c.pMyProcessor).blocks := fun {a c} hco ↦
      (hagrees.separate.part _).mem_blocks ((hheld _ a).mpr ⟨c, hco, rfl⟩)
    by_cases hp : c.pMyProcessor = d.pMyProcessor
    · have hb' := hblock hb
      rw [← hp] at hb' ⊢
      exact (hagrees.separate.part _).alone (hblock ha) hb' hne
    · exact hagrees.separate.blocks_of_ne (hblock ha) (hblock hb) hp
  · intro act S' es hguard hstep
    obtain ⟨L, hL⟩ := lives_of_run h₀ h
    exact (hagrees.run hL hguard hstep).2

/-- A coroutine is made by a thread outside the scheduler, runs to its end and is deleted. -/
def madeAndDeleted : List PooledAction :=
  (List.flatten [[.start 0 0, .extCall 0 (.goNewCo 0 64), .ext 0, .ext 0, .loop 0, .epoll 0 []],
    List.replicate 10 (.loop 0), [.epoll 0 []], List.replicate 7 (.loop 0), [.user 0 .ret],
    List.replicate 4 (.loop 0)]).map .run

theorem pools_agree_reused : ∃ tr S, Run machine Guard (start (Sys.fresh 0) 24 fun _ ↦ 0) tr S ∧
    .made 1008 0 0 ∈ events tr ∧ .delete 0 1008 0 ∈ events tr ∧ S.sys.MayAlloc 0 1008 := by
  let S₀ := start (Sys.fresh 0) 24 fun _ ↦ 0
  have h : Run machine Guard S₀ _ _ := run_after madeAndDeleted
  have hmade : .made 1008 0 0 ∈ events (machine.after Guard S₀ madeAndDeleted).2 := by
    decide +kernel
  have hdelete : .delete 0 1008 0 ∈ events (machine.after Guard S₀ madeAndDeleted).2 := by
    decide +kernel
  have hinit : machine.init S₀ := ⟨_, ⟨0, rfl⟩, 24, by decide, _, rfl⟩
  have hnext : ((machine.after Guard S₀ madeAndDeleted).1.pools.alloc 0 0).2 = 1008 := by
    decide +kernel
  have hmay := (pools_agree hinit h).2.2.2.1 0 0 (by decide +kernel) (by decide +kernel)
  exact ⟨_, _, h, hmade, hdelete, hnext ▸ hmay⟩

end Runs

end PooledSys

end Copnet
