import Copnet.Runtime.Lifecycle
import Copnet.Runtime.Mutex

/-!
# The waiters of the read-write lock

A failed `rlock` or `wlock` pushes the coroutine on `waitingCo_` and suspends it in separate steps,
and an unlock on another thread may fall in between. The coroutine is then handed over while it
still executes. That this does no harm rests on the loop of its processor being the only consumer of
the queue to which it goes, and on that loop not going on before the coroutine has switched away:
in the lives, a hand-over takes the source of a coroutine from the lock to the queue, whether it
still executes or not, and only a suspended coroutine is popped.
-/

open Transition Ledger

namespace Copnet

/-! ## One queue for each lock -/

/-- What the event pushes on `waitingCo_` of the lock `m`. -/
def Event.parked (m : MuId) : Event → List Addr
  | .park n a => if n = m then [a] else []
  | _ => []

/-- What the event pops from `waitingCo_` of the lock `m`. -/
def Event.handedOver (m : MuId) : Event → List Addr
  | .handOver n a _ => if n = m then [a] else []
  | _ => []

def parks (m : MuId) (evs : List Event) : List Addr := evs.flatMap (·.parked m)

def handOvers (m : MuId) (evs : List Event) : List Addr := evs.flatMap (·.handedOver m)

theorem parks_filter (m : MuId) (evs : List Event) :
    parks m (evs.filter (·.inLock m)) = parks m evs := by
  refine flatMap_filter (fun ev hev ↦ ?_) evs
  cases ev <;> simp_all [Event.inLock, Event.parked]

theorem handOvers_filter (m : MuId) (evs : List Event) :
    handOvers m (evs.filter (·.inLock m)) = handOvers m evs := by
  refine flatMap_filter (fun ev hev ↦ ?_) evs
  cases ev <;> simp_all [Event.inLock, Event.handedOver]

theorem LockEffect.waiters {m : MuId} {l l' : LockState} {es : List Event}
    (h : LockEffect m l l' es) :
    l.mu.waitingCo ++ parks m es = handOvers m es ++ l'.mu.waitingCo := by
  cases h with
  | rlock hfree hlock =>
    simp [parks, handOvers, RWMutex.waitingCo_of_rlock hlock]
  | wlock hfree hlock =>
    simp [parks, handOvers, RWMutex.waitingCo_of_wlock hlock]
  | park hfree hstate => simp [parks, handOvers, Event.parked, Event.handedOver, RWMutex.park]
  | runlock hfree hheld => simp [parks, handOvers, RWMutex.waitingCo_runlock]
  | wunlock hfree hheld => simp [parks, handOvers, RWMutex.wunlock, RWMutex.startFreeLock]
  | handOver hcons => simp [parks, handOvers, Event.parked, Event.handedOver, hcons]
  | keep | freeLockEnd hnil => simp [parks, handOvers]

/-- What has been parked is what has been handed over, followed by what waits. -/
theorem parks_run {C : Sys → Action → Prop} {s₀ s : Sys} {tr : List (Action × List Event)}
    (hinit : machine.init s₀) (h : Run machine C s₀ tr s) (m : MuId) :
    parks m (events tr) = handOvers m (events tr) ++ (s.mus m).waitingCo := by
  have hnil : (s₀.mus m).waitingCo = [] := by
    obtain ⟨clock, rfl⟩ := hinit
    rfl
  have hqueue := h.queue_conservation (I := fun _ ↦ True) (fun s ↦ (s.mus m).waitingCo)
    (·.parked m) (·.handedOver m) trivial (fun _ _ _ ↦ trivial) fun _ _ hstep ↦ by
      have hwait := ((Step.of_step hstep).lockEffect m).waiters
      rwa [parks_filter, handOvers_filter] at hwait
  rwa [hnil, List.nil_append] at hqueue

/-! ## One waiter -/

/-- The coroutine is suspended in a failed `rlock` or `wlock` of the lock `m`, or will be. -/
def Life.Waits (m : MuId) : Life → Prop
  | .exec _ code _ => code.goesOnAt = some (.rlock m) ∨ code.goesOnAt = some (.wlock m)
  | .parked c _ => c.ctx.2 = .rlock m ∨ c.ctx.2 = .wlock m
  | _ => False

section Lives

variable {s s' : Sys} {act : Action} {a : Addr} {m : MuId} {ℓ ℓ' : Life} {es : List Event}

/-- A waiter has its place among the waiters of the lock or in a queue. -/
theorem Life.Waits.source (h : ℓ.Waits m) (hok : ℓ.Ok a) : ∃ (c : Coroutine) (src : Source),
    ℓ.co = some c ∧ ℓ.places = .pro c.pMyProcessor .inSet :: src.places c.pMyProcessor ∧
      (src = .waiting m ∨ src = .queue) := by
  cases ℓ with
  | exec c code src =>
    refine ⟨c, src, rfl, rfl, ?_⟩
    have hallow := hok.2
    rcases h with hgoes | hgoes <;> cases code <;> simp_all [Code.goesOnAt, Code.Allows]
  | parked c src =>
    refine ⟨c, src, rfl, rfl, ?_⟩
    have hallow := hok.2.2
    rcases h with hk | hk <;> rw [hk] at hallow <;> exact hallow
  | _ => exact h.elim

theorem LifeStep.waits_of_park (h : LifeStep s act a ℓ es ℓ') (hpark : .park m a ∈ es) :
    ℓ'.Waits m := by
  cases h with
  | wait c n k hk =>
    simp only [List.mem_singleton, Event.park.injEq] at hpark
    obtain ⟨rfl, -⟩ := hpark
    simpa [Life.Waits, Code.goesOnAt] using hk
  | _ => simp at hpark

theorem LifeStep.waits (h : LifeStep s act a ℓ es ℓ') (hok : ℓ.Ok a) (hw : ℓ.Waits m)
    (hpop : ∀ q que, .pop q que a ∉ es) : ℓ'.Waits m := by
  cases h with
  | stay | handOver c n | collect c fd => exact hw
  | handOverEarly c code n => exact hw
  | code c code code' src hgoes =>
    simp only [Life.Waits, hgoes]
    exact hw
  | park c k src => simpa [Life.Waits, Code.goesOnAt] using hw
  | pop c que => exact absurd (List.mem_cons_self ..) (hpop c.pMyProcessor que)
  | resume c src hsrc =>
    have hallow := hok.2.2
    rcases hw with hk | hk <;> rw [hk] at hallow <;>
      rcases hallow with rfl | rfl <;> simp at hsrc
  | wait c n k hk => simp [Life.Waits, Code.goesOnAt] at hw
  | _ => simp [Life.Waits, Code.goesOnAt] at hw

theorem LifeStep.pop_waits (h : LifeStep s act a ℓ es ℓ') (hok : ℓ.Ok a) (hw : ℓ.Waits m) {q : Pid}
    {que : Bool} (hpop : .pop q que a ∈ es) :
    ∃ c, ℓ.co = some c ∧ c.pMyProcessor = q ∧ c.status = .waiting ∧ .switchTo q a ∈ es := by
  cases h with
  | enter c que' => exact hw.elim
  | pop c que' =>
    simp only [List.mem_cons, Event.pop.injEq, reduceCtorEq, List.not_mem_nil, or_false] at hpop
    obtain ⟨rfl, -⟩ := hpop
    exact ⟨c, rfl, rfl, hok.1, by simp⟩
  | _ => simp at hpop

end Lives

/-- The coroutine `c` at `a`, pushed by a failed `rlock` or `wlock` of the lock `m`, has not been
popped again. -/
structure Sys.Awaits (s : Sys) (m : MuId) (a : Addr) (c : Coroutine) : Prop where
  object : s.cos a = some c
  /-- It is present once, in the lock or in the queues of its own processor. -/
  once : (s.mus m).waitingCo.count a +
    ((s.pros c.pMyProcessor).queue.contents.map Entry.co).count a = 1
  noLock : ∀ n, n ≠ m → a ∉ (s.mus n).waitingCo
  noQueue : ∀ q, q ≠ c.pMyProcessor → a ∉ (s.pros q).queue.contents.map Entry.co
  /-- It waits for a lock that is held. -/
  held : a ∈ (s.mus m).waitingCo → (s.mus m).locked = false →
    s.readers m ≠ [] ∨ s.writers m ≠ []
  /-- When it is popped, it is by its own processor, and after it has yielded. -/
  popped : ∀ act s' es q que, machine.step s act = some (s', es) → .pop q que a ∈ es →
    q = c.pMyProcessor ∧ c.status = .waiting ∧ .switchTo q a ∈ es

theorem Step.disciplined_of_pop {s s' : Sys} {act : Action} {es : List Event} {q : Pid} {que : Bool}
    {a : Addr} (hs : Step s act s' es) (hpop : .pop q que a ∈ es) : Disciplined s act := by
  cases hs with
  | pop hexec hpc hcons hres => trivial
  | _ => trivial

theorem Lives.awaits {s : Sys} {L : Addr → Life} {m : MuId} {a : Addr} (hL : Lives s L)
    (hlock : LockInv (s.lock m)) (hw : (L a).Waits m) : ∃ c, s.Awaits m a c := by
  have hfit := hL.fits a
  obtain ⟨c, src, hco, hplaces, hsrc⟩ := hw.source hfit.ok
  have hcount : ∀ x, s.ledger x a = (Place.pro c.pMyProcessor .inSet ::
      src.places c.pMyProcessor).count x := fun x ↦ by rw [hfit.places, hplaces]
  refine ⟨c, by rw [hfit.co, hco], ?_, fun n hn ↦ ?_, fun q hq ↦ ?_, fun hmem hunlocked ↦ ?_,
    fun act s' es q que hstep hpop ↦ ?_⟩
  · have hmu := hcount (.mu m)
    have hqueue := hcount (.pro c.pMyProcessor .queue)
    simp only [Sys.ledger, Processor.ledger] at hmu hqueue
    rcases hsrc with rfl | rfl <;> simp [hmu, hqueue, Source.places]
  · have hmu := hcount (.mu n)
    rw [← List.count_eq_zero]
    simp only [Sys.ledger] at hmu
    rcases hsrc with rfl | rfl <;> simp [hmu, Source.places, hn.symm]
  · have hqueue := hcount (.pro q .queue)
    rw [← List.count_eq_zero]
    simp only [Sys.ledger, Processor.ledger] at hqueue
    rcases hsrc with rfl | rfl <;> simp [hqueue, Source.places, hq.symm]
  · cases hstate : (s.mus m).state with
    | free =>
      have hnil := hlock.waiting hstate (by simp [Sys.lock, hunlocked])
      simp only [Sys.lock] at hnil
      simp [hnil] at hmem
    | reading => exact .inl (hlock.reading hstate)
    | writing => exact .inr (hlock.writing hstate)
  · have hs := Step.of_step hstep
    obtain ⟨L', -, hlife⟩ := hs.lives (hs.disciplined_of_pop hpop) hL
    have hpop' : .pop q que a ∈ lifeEvents a es :=
      List.mem_filter.mpr ⟨hpop, by simp [Event.inLife]⟩
    obtain ⟨c', hco', hp, hst, hswitch⟩ := (hlife a).pop_waits hfit.ok hw hpop'
    obtain rfl := Option.some.inj (hco'.symm.trans hco)
    exact ⟨hp.symm, hst, List.mem_of_mem_filter hswitch⟩

theorem waits_run {s t : Sys} {tr : List (Action × List Event)} {L : Addr → Life} {m : MuId}
    {a : Addr} (hL : Lives s L) (hw : (L a).Waits m) (h : Run machine Disciplined s tr t)
    (hpop : ∀ q que, .pop q que a ∉ events tr) : ∃ L', Lives t L' ∧ (L' a).Waits m := by
  refine h.history (P := fun tr t ↦ (∀ q que, .pop q que a ∉ events tr) →
    ∃ L', Lives t L' ∧ (L' a).Waits m) (fun _ ↦ ⟨L, hL, hw⟩) ?_ hpop
  intro tr t u act es _ ih hdisc hstep hpop
  simp only [events_append, events_singleton, List.mem_append, not_or] at hpop
  obtain ⟨L', hL', hw'⟩ := ih fun q que ↦ (hpop q que).1
  obtain ⟨L'', hL'', hlife⟩ := (Step.of_step hstep).lives hdisc hL'
  refine ⟨L'', hL'', (hlife a).waits (hL'.fits a).ok hw' fun q que hmem ↦ ?_⟩
  exact (hpop q que).2 (List.mem_of_mem_filter hmem)

theorem Step.handOver_push {s s' : Sys} {act : Action} {es : List Event} {m : MuId} {a : Addr}
    {q : Pid} (hs : Step s act s' es) (hmem : .handOver m a q ∈ es) :
    .push q [a] ∈ es ∧ ∃ c, s.cos a = some c ∧ c.pMyProcessor = q := by
  cases hs with
  | handOver hexec hcons hco =>
    simp only [List.mem_cons, Event.handOver.injEq, reduceCtorEq, List.not_mem_nil, or_false]
      at hmem
    obtain ⟨rfl, rfl, rfl⟩ := hmem
    exact ⟨by simp, _, hco, rfl⟩
  | timer hexec hpc ha hres | pop hexec hpc hcons hres | event hexec hpc hpCo hres =>
    cases hres <;> simp at hmem
  | _ => simp at hmem

/-- **No waiter is lost and none is woken twice.** Nobody waits for a free lock; the lock hands its
waiters over in the order in which they came, each once and to its own processor; and a waiter that
has been pushed and not been popped since is present exactly once, in a lock that is held or in the
queue of its processor, from which it will be popped when it has yielded. -/
theorem rwmutex_waiters {s₀ s : Sys} {tr : List (Action × List Event)} (hinit : machine.init s₀)
    (h : Run machine Disciplined s₀ tr s) (m : MuId) :
    ((s.mus m).locked = false → (s.mus m).state = .free → (s.mus m).waitingCo = []) ∧
    parks m (events tr) = handOvers m (events tr) ++ (s.mus m).waitingCo ∧
    (∀ act s' es a q, machine.step s act = some (s', es) → .handOver m a q ∈ es →
      .push q [a] ∈ es ∧ ∃ c, s.cos a = some c ∧ c.pMyProcessor = q) ∧
    ∀ tr₁ s₁ act es s₂ tr₂ a, Run machine Disciplined s₀ tr₁ s₁ → Disciplined s₁ act →
      machine.step s₁ act = some (s₂, es) → Run machine Disciplined s₂ tr₂ s → .park m a ∈ es →
      (∀ q que, .pop q que a ∉ events tr₂) → ∃ c, s.Awaits m a c := by
  have hlock : LockInv (s.lock m) := lockInv_of_reachable ⟨s₀, tr, hinit, h⟩ m
  refine ⟨fun hunlocked hstate ↦ hlock.waiting hstate (by simp [Sys.lock, hunlocked]),
    parks_run hinit h m, fun act s' es a q hstep hmem ↦ (Step.of_step hstep).handOver_push hmem,
    fun tr₁ s₁ act es s₂ tr₂ a h₁ hdisc hstep h₂ hpark hpop ↦ ?_⟩
  obtain ⟨L, hL⟩ := lives_of_reachable (fun _ _ hc ↦ hc) ⟨s₀, tr₁, hinit, h₁⟩
  obtain ⟨L₂, hL₂, hlife⟩ := (Step.of_step hstep).lives hdisc hL
  have hpark' : .park m a ∈ lifeEvents a es :=
    List.mem_filter.mpr ⟨hpark, by simp [Event.inLife]⟩
  obtain ⟨L', hL', hw⟩ := waits_run hL₂ ((hlife a).waits_of_park hpark') h₂ hpop
  exact hL'.awaits hlock hw

/-- A coroutine takes the write lock and sleeps, and another one gets to run and asks for the
lock. -/
def thenContend : List Action :=
  [.user 0 (.wlock 5), .co 0, .user 0 (.sleep 5), .co 0, .co 0, .co 0,
    .extCall 0 (.goNewCo 0 8), .ext 0, .ext 0] ++ List.replicate 5 (.loop 0) ++ [.epoll 0 []] ++
    List.replicate 7 (.loop 0) ++ [.user 0 (.wlock 5)]

theorem rwmutex_waiters_contended : ∃ s tr, Run machine Disciplined (Sys.fresh 0) tr s ∧
    parks 5 (events tr) = handOvers 5 (events tr) ++ (s.mus 5).waitingCo ∧
      ∃ c, s.Awaits 5 8 c := by
  let r := machine.after Disciplined (Sys.fresh 0) (toUser ++ thenContend)
  have h₁ : Run machine Disciplined (Sys.fresh 0) r.2 r.1 := run_after _
  have hes : (machine.step r.1 (.co 0)).map Prod.snd = some [.park 5 8] := by decide
  obtain ⟨⟨s, es⟩, hstep, rfl⟩ := Option.map_eq_some_iff.mp hes
  have h : Run machine Disciplined (Sys.fresh 0) (r.2 ++ [(.co 0, [.park 5 8])]) s :=
    h₁.snoc trivial hstep
  obtain ⟨-, hqueue, -, hwait⟩ := rwmutex_waiters ⟨0, rfl⟩ h 5
  exact ⟨s, _, h, hqueue, hwait _ _ (.co 0) _ _ [] 8 h₁ trivial hstep .nil (by simp) (by simp)⟩

end Copnet
