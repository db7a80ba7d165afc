import Copnet.Runtime.Step

/-!
# What a step can do

`step` is written to be run. Proofs about it want the opposite: for a given step, which one of the
finitely many things the code does has happened, with everything that was tested on the way.
`Step` lists these, one constructor for each path through the code, and `Step.of_step` is the only
place where the definitions of `Copnet.Runtime.Step` are taken apart. Every invariant is proved by
cases on `Step`.
-/

namespace Copnet

/-- What `Processor::resume` can do. -/
inductive Resumes (s : Sys) (p : Pid) : Option Addr → Sys → List Event → Prop
  /-- A null pointer is skipped. -/
  | null : Resumes s p none s [.resume p none]
  /-- A coroutine that is not in `coSet_` is skipped. -/
  | unknown {a : Addr} (hset : a ∉ (s.pros p).coSet) :
      Resumes s p (some a) s [.resume p (some a)]
  /-- A new coroutine is started. -/
  | start {a x : Addr} {c : Coroutine} (hset : a ∈ (s.pros p).coSet) (hco : s.cos a = some c)
      (hstatus : c.status = .ready)
      (hcur : ((s.setCur p a).pros c.pMyProcessor).pCurCoroutine = some x) :
      Resumes s p (some a)
        (((s.setCur p a).setCo a (some { c with status := .running, ctx := (x, .user) })).setExec p
          (some (x, .run .user)))
        [.resume p (some a), .switchTo p a, .enter a c.serial]
  /-- A suspended coroutine goes on. -/
  | goOn {a : Addr} {c : Coroutine} (hset : a ∈ (s.pros p).coSet) (hco : s.cos a = some c)
      (hstatus : c.status = .waiting) :
      Resumes s p (some a)
        (((s.setCur p a).setCo a (some { c with status := .running })).setExec p
          (some (c.ctx.1, .run c.ctx.2)))
        [.resume p (some a), .switchTo p a]
  /-- A coroutine that is neither new nor suspended is dropped. -/
  | drop {a : Addr} {c : Coroutine} (hset : a ∈ (s.pros p).coSet) (hco : s.cos a = some c)
      (hready : c.status ≠ .ready) (hwaiting : c.status ≠ .waiting) :
      Resumes s p (some a) (s.setCur p a) [.resume p (some a)]

theorem Resumes.of_resume {s s' : Sys} {p : Pid} {pCo : Option Addr} {es : List Event}
    (h : s.resume p pCo = some (s', es)) : Resumes s p pCo s' es := by
  cases pCo with
  | none =>
    simp only [Sys.resume, Option.some.injEq, Prod.mk.injEq] at h
    obtain ⟨rfl, rfl⟩ := h
    exact .null
  | some a =>
    by_cases hset : a ∈ (s.pros p).coSet
    · simp only [Sys.resume, if_pos hset] at h
      obtain ⟨⟨s₁, es₁⟩, hres, hpair⟩ := Option.map_eq_some_iff.mp h
      simp only [Prod.mk.injEq] at hpair
      obtain ⟨rfl, rfl⟩ := hpair
      cases hco : s.cos a with
      | none => simp [Sys.coResume, Sys.setCur, hco] at hres
      | some c =>
        have hco' : (s.setCur p a).cos a = some c := hco
        simp only [Sys.coResume, hco'] at hres
        split at hres
        · next hstatus =>
          cases hcur : ((s.setCur p a).pros c.pMyProcessor).pCurCoroutine with
          | none => simp [hcur] at hres
          | some x =>
            simp only [hcur, Option.some.injEq, Prod.mk.injEq] at hres
            obtain ⟨rfl, rfl⟩ := hres
            exact .start hset hco hstatus hcur
        · next hstatus =>
          simp only [Option.some.injEq, Prod.mk.injEq] at hres
          obtain ⟨rfl, rfl⟩ := hres
          exact .goOn hset hco hstatus
        · next hready hwaiting =>
          simp only [Option.some.injEq, Prod.mk.injEq] at hres
          obtain ⟨rfl, rfl⟩ := hres
          exact .drop hset hco hready hwaiting
    · simp only [Sys.resume, if_neg hset, Option.some.injEq, Prod.mk.injEq] at h
      obtain ⟨rfl, rfl⟩ := h
      exact .unknown hset

theorem Sys.coYield_eq_some {s s' : Sys} {p : Pid} (h : s.coYield p = some s') :
    ∃ a c, (s.pros p).pCurCoroutine = some a ∧ s.cos a = some c ∧
      s' = s.setCo a (some { c with status := .waiting }) := by
  obtain ⟨a, hcur, hmap⟩ := Option.bind_eq_some_iff.mp h
  obtain ⟨c, hco, heq⟩ := Option.map_eq_some_iff.mp hmap
  exact ⟨a, c, hcur, hco, heq.symm⟩

namespace Resumes

variable {s s' : Sys} {p : Pid} {pCo : Option Addr} {es : List Event}

theorem pros_of_ne (h : Resumes s p pCo s' es) {q : Pid} (hq : q ≠ p) : s'.pros q = s.pros q := by
  cases h <;> simp [Sys.setCur, Sys.setExec, Sys.pros_setPro_of_ne _ _ _ hq]

/-- On its own processor a resumption sets the current coroutine, and perhaps starts to execute
code at a point. -/
theorem pros_self (h : Resumes s p pCo s' es) : ∃ cur exec,
    s'.pros p = { s.pros p with pCurCoroutine := cur, exec } ∧
      (exec = (s.pros p).exec ∨ ∃ x k, exec = some (x, .run k)) := by
  cases h with
  | null | unknown _ => exact ⟨_, _, rfl, .inl rfl⟩
  | drop _ _ _ _ => exact ⟨_, _, by rw [Sys.setCur, Sys.pros_setPro_self], .inl rfl⟩
  | @start a x c hset hco hstatus hcur =>
    exact ⟨some a, some (x, .run .user), by simp [Sys.setCur, Sys.setExec], .inr ⟨_, _, rfl⟩⟩
  | @goOn a c hset hco hstatus =>
    exact ⟨some a, some (c.ctx.1, .run c.ctx.2), by simp [Sys.setCur, Sys.setExec],
      .inr ⟨_, _, rfl⟩⟩

theorem frame (h : Resumes s p pCo s' es) :
    s'.mus = s.mus ∧ s'.exts = s.exts ∧ s'.clock = s.clock ∧ s'.nextSerial = s.nextSerial ∧
      s'.nextCall = s.nextCall ∧ s'.openCalls = s.openCalls ∧ s'.readers = s.readers ∧
      s'.writers = s.writers := by
  cases h <;> exact ⟨rfl, rfl, rfl, rfl, rfl, rfl, rfl, rfl⟩

end Resumes

/-- What a step of the system can do. -/
inductive Step (s : Sys) : Action → Sys → List Event → Prop
  -- The loop of a processor.
  | start {p : Pid} {timeFd : Fd} (hexec : (s.pros p).exec = none)
      (hpc : (s.pros p).pc = .start) :
      Step s (.start p timeFd)
        (s.setPro p { s.pros p with
          epoller := ((s.pros p).epoller.addEv none timeFd true).1
          pc := .top }) []
  | top {p : Pid} (hexec : (s.pros p).exec = none) (hpc : (s.pros p).pc = .top) :
      Step s (.loop p)
        (s.setPro p { s.pros p with actCoroutines := [], timerExpiredCo := [], pc := .epollWait })
        []
  | epoll {p : Pid} {fds : List Fd} (hexec : (s.pros p).exec = none)
      (hpc : (s.pros p).pc = .epollWait) (hrep : (s.pros p).epoller.Reports fds) :
      Step s (.epoll p fds)
        (s.setPro p { s.pros p with
          actCoroutines := (s.pros p).actCoroutines ++ (s.pros p).epoller.active fds
          epoller := (s.pros p).epoller.grow fds
          pc := .getExpired }) []
  | getExpired {p : Pid} (hexec : (s.pros p).exec = none) (hpc : (s.pros p).pc = .getExpired) :
      Step s (.loop p)
        (s.setPro p { s.pros p with
          timerExpiredCo := (s.pros p).timerExpiredCo ++ (s.pros p).timer.expiredCo s.clock
          timer := (s.pros p).timer.popExpired s.clock
          pc := .readTimefd }) []
  | readTimefd {p : Pid} (hexec : (s.pros p).exec = none) (hpc : (s.pros p).pc = .readTimefd) :
      Step s (.loop p)
        (s.setPro p { s.pros p with timer := (s.pros p).timer.readTimefd, pc := .rearm }) []
  | rearm {p : Pid} (hexec : (s.pros p).exec = none) (hpc : (s.pros p).pc = .rearm) :
      Step s (.loop p)
        (s.setPro p { s.pros p with timer := (s.pros p).timer.rearm s.clock, pc := .timers 0 }) []
  | timer {p : Pid} {i : ℕ} {a : Addr} {s' : Sys} {es : List Event}
      (hexec : (s.pros p).exec = none) (hpc : (s.pros p).pc = .timers i)
      (ha : (s.pros p).timerExpiredCo[i]? = some a)
      (hres : Resumes (s.setPc p (.timers (i + 1))) p (some a) s' es) : Step s (.loop p) s' es
  | timersEnd {p : Pid} {i : ℕ} (hexec : (s.pros p).exec = none)
      (hpc : (s.pros p).pc = .timers i) (hend : (s.pros p).timerExpiredCo[i]? = none) :
      Step s (.loop p) (s.setPc p .readQue) []
  | readQue {p : Pid} (hexec : (s.pros p).exec = none) (hpc : (s.pros p).pc = .readQue) :
      Step s (.loop p) (s.setPc p (.drain (s.pros p).queue.running)) []
  | drain {p : Pid} {rq : Bool} (hexec : (s.pros p).exec = none)
      (hpc : (s.pros p).pc = .drain rq) (hne : (s.pros p).queue.bufs rq ≠ []) :
      Step s (.loop p) (s.setPc p (.pop rq)) []
  | drainEnd {p : Pid} {rq : Bool} (hexec : (s.pros p).exec = none)
      (hpc : (s.pros p).pc = .drain rq) (hnil : (s.pros p).queue.bufs rq = []) :
      Step s (.loop p) (s.setPc p (.flip rq)) []
  | pop {p : Pid} {rq : Bool} {e : Entry} {rest : List Entry} {s' : Sys} {es : List Event}
      (hexec : (s.pros p).exec = none) (hpc : (s.pros p).pc = .pop rq)
      (hcons : (s.pros p).queue.bufs rq = e :: rest)
      (hres : Resumes (s.setPro p { s.pros p with
          queue := (s.pros p).queue.pop rq
          coSet := insert e.co (s.pros p).coSet
          pc := .drain rq }) p (some e.co) s' es) : Step s (.loop p) s' (.pop p rq e.co :: es)
  | flip {p : Pid} {rq : Bool} (hexec : (s.pros p).exec = none) (hpc : (s.pros p).pc = .flip rq) :
      Step s (.loop p)
        (s.setPro p { s.pros p with queue := (s.pros p).queue.flip rq, pc := .events 0 })
        [.flip p]
  | event {p : Pid} {i : ℕ} {pCo : Option Addr} {s' : Sys} {es : List Event}
      (hexec : (s.pros p).exec = none) (hpc : (s.pros p).pc = .events i)
      (hpCo : (s.pros p).actCoroutines[i]? = some pCo)
      (hres : Resumes (s.setPc p (.events (i + 1))) p pCo s' es) : Step s (.loop p) s' es
  | eventsEnd {p : Pid} {i : ℕ} (hexec : (s.pros p).exec = none)
      (hpc : (s.pros p).pc = .events i) (hend : (s.pros p).actCoroutines[i]? = none) :
      Step s (.loop p) (s.setPc p (.reclaim 0)) []
  | reclaim {p : Pid} {i : ℕ} {a : Addr} {c : Coroutine} (hexec : (s.pros p).exec = none)
      (hpc : (s.pros p).pc = .reclaim i) (ha : (s.pros p).removedCo[i]? = some a)
      (hco : s.cos a = some c) :
      Step s (.loop p)
        ((s.setPro p { s.pros p with
          coSet := (s.pros p).coSet.erase a
          pc := .reclaim (i + 1) }).setCo a none) [.delete p a c.serial]
  | reclaimEnd {p : Pid} {i : ℕ} (hexec : (s.pros p).exec = none)
      (hpc : (s.pros p).pc = .reclaim i) (hend : (s.pros p).removedCo[i]? = none) :
      Step s (.loop p) (s.setPro p { s.pros p with removedCo := [], pc := .top }) [.top p]
  -- The function of a coroutine.
  | goNewCo {p q : Pid} {x a : Addr} (hexec : (s.pros p).exec = some (x, .run .user))
      (hfree : s.MayAlloc q a) :
      Step s (.user p (.goNewCo q a)) ((s.newObj q a).setExec p (some (x, .goCo q a)))
        [.made a s.nextSerial q]
  | goCoBatch {p q : Pid} {x : Addr} {cos : List Addr}
      (hexec : (s.pros p).exec = some (x, .run .user)) :
      Step s (.user p (.goCoBatch q cos))
        ((s.goCoBatch q cos).setExec p (some (x, .wake q s.nextCall))) [.push q cos]
  | sleep {p : Pid} {x a : Addr} {c : Coroutine} {time : ℤ}
      (hexec : (s.pros p).exec = some (x, .run .user))
      (hcur : (s.pros p).pCurCoroutine = some a) (hco : s.cos a = some c) :
      Step s (.user p (.sleep time))
        ((s.setCo a (some { c with status := .waiting })).setExec p (some (x, .sleep time))) []
  | waitEvent {p : Pid} {x : Addr} {fd : Fd} {canPoll : Bool}
      (hexec : (s.pros p).exec = some (x, .run .user)) :
      Step s (.user p (.waitEvent fd canPoll))
        (s.setPro p { s.pros p with
          epoller := ((s.pros p).epoller.addEv (s.pros p).pCurCoroutine fd canPoll).1
          exec := some (x, .yield (.removeEv fd)) }) []
  | callRlock {p : Pid} {x : Addr} {m : MuId} (hexec : (s.pros p).exec = some (x, .run .user)) :
      Step s (.user p (.rlock m)) (s.setExec p (some (x, .run (.rlock m)))) []
  | callWlock {p : Pid} {x : Addr} {m : MuId} (hexec : (s.pros p).exec = some (x, .run .user)) :
      Step s (.user p (.wlock m)) (s.setExec p (some (x, .run (.wlock m)))) []
  | runlock {p : Pid} {x : Addr} {m : MuId} {c : Coroutine}
      (hexec : (s.pros p).exec = some (x, .run .user)) (hco : s.cos x = some c)
      (hheld : c.serial ∈ s.readers m) (hfree : ¬(s.mus m).locked) :
      Step s (.user p (.runlock m))
        { (s.setMu m (s.mus m).runlock).setExec p
            (some (x, if (s.mus m).runlock.locked then .freeLock m else .run .user)) with
          readers := Function.update s.readers m ((s.readers m).erase c.serial) } []
  | wunlock {p : Pid} {x : Addr} {m : MuId} {c : Coroutine}
      (hexec : (s.pros p).exec = some (x, .run .user)) (hco : s.cos x = some c)
      (hheld : c.serial ∈ s.writers m) (hfree : ¬(s.mus m).locked) :
      Step s (.user p (.wunlock m))
        { (s.setMu m (s.mus m).wunlock).setExec p (some (x, .freeLock m)) with
          writers := Function.update s.writers m ((s.writers m).erase c.serial) } []
  | ret {p : Pid} {x a : Addr} {c : Coroutine} (hexec : (s.pros p).exec = some (x, .run .user))
      (hcur : (s.pros p).pCurCoroutine = some a) (hco : s.cos x = some c) :
      Step s (.user p .ret)
        (s.setPro p { s.pros p with removedCo := (s.pros p).removedCo ++ [a], exec := none })
        [.ret p x c.serial]
  -- A coroutine inside the runtime.
  | rlock {p : Pid} {x : Addr} {m : MuId} {μ : RWMutex} {c : Coroutine}
      (hexec : (s.pros p).exec = some (x, .run (.rlock m))) (hfree : ¬(s.mus m).locked)
      (hlock : (s.mus m).rlock = some μ) (hco : s.cos x = some c) :
      Step s (.co p)
        { (s.setMu m μ).setExec p (some (x, .run .user)) with
          readers := Function.update s.readers m (c.serial :: s.readers m) } []
  | rlockPark {p : Pid} {x a : Addr} {m : MuId}
      (hexec : (s.pros p).exec = some (x, .run (.rlock m))) (hfree : ¬(s.mus m).locked)
      (hlock : (s.mus m).rlock = none) (hcur : (s.pros p).pCurCoroutine = some a) :
      Step s (.co p)
        ((s.setMu m ((s.mus m).park a)).setExec p (some (x, .yield (.rlock m)))) [.park m a]
  | wlock {p : Pid} {x : Addr} {m : MuId} {μ : RWMutex} {c : Coroutine}
      (hexec : (s.pros p).exec = some (x, .run (.wlock m))) (hfree : ¬(s.mus m).locked)
      (hlock : (s.mus m).wlock = some μ) (hco : s.cos x = some c) :
      Step s (.co p)
        { (s.setMu m μ).setExec p (some (x, .run .user)) with
          writers := Function.update s.writers m (c.serial :: s.writers m) } []
  | wlockPark {p : Pid} {x a : Addr} {m : MuId}
      (hexec : (s.pros p).exec = some (x, .run (.wlock m))) (hfree : ¬(s.mus m).locked)
      (hlock : (s.mus m).wlock = none) (hcur : (s.pros p).pCurCoroutine = some a) :
      Step s (.co p)
        ((s.setMu m ((s.mus m).park a)).setExec p (some (x, .yield (.wlock m)))) [.park m a]
  | removeEv {p : Pid} {x : Addr} {fd : Fd}
      (hexec : (s.pros p).exec = some (x, .run (.removeEv fd))) :
      Step s (.co p)
        (s.setPro p { s.pros p with
          epoller := (s.pros p).epoller.removeEv fd
          exec := some (x, .run .user) }) []
  | goCo {p q : Pid} {x a : Addr} (hexec : (s.pros p).exec = some (x, .goCo q a)) :
      Step s (.co p) ((s.goCoBatch q [a]).setExec p (some (x, .wake q s.nextCall))) [.push q [a]]
  | wake {p q : Pid} {x : Addr} {call : ℕ} (hexec : (s.pros p).exec = some (x, .wake q call)) :
      Step s (.co p) ((s.finishCall q call).setExec p (some (x, .run .user))) []
  | handOver {p : Pid} {x wakeCo : Addr} {m : MuId} {rest : List Addr} {c : Coroutine}
      (hexec : (s.pros p).exec = some (x, .freeLock m))
      (hcons : (s.mus m).waitingCo = wakeCo :: rest) (hco : s.cos wakeCo = some c) :
      Step s (.co p)
        (((s.setMu m { s.mus m with waitingCo := rest }).goCoBatch c.pMyProcessor
          [wakeCo]).setExec p (some (x, .freeWake m c.pMyProcessor s.nextCall)))
        [.handOver m wakeCo c.pMyProcessor, .push c.pMyProcessor [wakeCo]]
  | freeLockEnd {p : Pid} {x : Addr} {m : MuId} (hexec : (s.pros p).exec = some (x, .freeLock m))
      (hnil : (s.mus m).waitingCo = []) :
      Step s (.co p)
        ((s.setMu m { s.mus m with locked := false }).setExec p (some (x, .run .user))) []
  | freeWake {p q : Pid} {x : Addr} {m : MuId} {call : ℕ}
      (hexec : (s.pros p).exec = some (x, .freeWake m q call)) :
      Step s (.co p) ((s.finishCall q call).setExec p (some (x, .freeLock m))) []
  | yield {p : Pid} {x a : Addr} {k : Point} {c : Coroutine}
      (hexec : (s.pros p).exec = some (x, .yield k))
      (hcur : (s.pros p).pCurCoroutine = some a) (hco : s.cos a = some c) :
      Step s (.co p)
        ((s.setCo a (some { c with status := .waiting })).setExec p (some (x, .swap k))) []
  | runAfter {p : Pid} {x a : Addr} {time : ℤ} (hexec : (s.pros p).exec = some (x, .sleep time))
      (hcur : (s.pros p).pCurCoroutine = some a) :
      Step s (.co p)
        (s.setPro p { s.pros p with
          timer := (s.pros p).timer.push (Timer.runTime s.clock time) a
          exec := some (x, .arm (Timer.runTime s.clock time)) }) []
  | arm {p : Pid} {x : Addr} {time : ℤ} (hexec : (s.pros p).exec = some (x, .arm time)) :
      Step s (.co p)
        (s.setPro p { s.pros p with
          timer := (s.pros p).timer.rearmFor s.clock time
          exec := some (x, .swap .user) }) []
  | swap {p : Pid} {x a : Addr} {k : Point} {c : Coroutine}
      (hexec : (s.pros p).exec = some (x, .swap k))
      (hcur : (s.pros p).pCurCoroutine = some a) (hco : s.cos a = some c) :
      Step s (.co p) ((s.setCo a (some { c with ctx := (x, k) })).setExec p none) []
  -- The rest of the world.
  | extGoNewCo {t : Tid} {q : Pid} {a : Addr} (hidle : s.exts t = .idle) (hfree : s.MayAlloc q a) :
      Step s (.extCall t (.goNewCo q a)) ((s.newObj q a).setExt t (.goCo q a))
        [.made a s.nextSerial q]
  | extGoCoBatch {t : Tid} {q : Pid} {cos : List Addr} (hidle : s.exts t = .idle) :
      Step s (.extCall t (.goCoBatch q cos)) ((s.goCoBatch q cos).setExt t (.wake q s.nextCall))
        [.push q cos]
  | extGoCo {t : Tid} {q : Pid} {a : Addr} (hext : s.exts t = .goCo q a) :
      Step s (.ext t) ((s.goCoBatch q [a]).setExt t (.wake q s.nextCall)) [.push q [a]]
  | extWake {t : Tid} {q : Pid} {call : ℕ} (hext : s.exts t = .wake q call) :
      Step s (.ext t) ((s.finishCall q call).setExt t .idle) []
  | wakeUp {q : Pid} : Step s (.wakeUp q) (s.wakeUpEpoller q) []
  | expire {q : Pid} {timer : Timer} (hexp : (s.pros q).timer.expire s.clock = some timer) :
      Step s (.expire q) (s.setPro q { s.pros q with timer }) []
  | tick {d : ℕ} : Step s (.tick d) { s with clock := s.clock + d } []

namespace Step

variable {s s' : Sys} {p : Pid} {x : Addr} {t : Tid} {es : List Event}

theorem of_loopStep (hexec : (s.pros p).exec = none) (h : s.loopStep p = some (s', es)) :
    Step s (.loop p) s' es := by
  cases hpc : (s.pros p).pc with
  | top =>
    simp only [Sys.loopStep, hpc, Option.some.injEq, Prod.mk.injEq] at h
    obtain ⟨rfl, rfl⟩ := h
    exact .top hexec hpc
  | start | epollWait => simp [Sys.loopStep, hpc] at h
  | getExpired =>
    simp only [Sys.loopStep, hpc, Option.some.injEq, Prod.mk.injEq] at h
    obtain ⟨rfl, rfl⟩ := h
    exact .getExpired hexec hpc
  | readTimefd =>
    simp only [Sys.loopStep, hpc, Option.some.injEq, Prod.mk.injEq] at h
    obtain ⟨rfl, rfl⟩ := h
    exact .readTimefd hexec hpc
  | rearm =>
    simp only [Sys.loopStep, hpc, Option.some.injEq, Prod.mk.injEq] at h
    obtain ⟨rfl, rfl⟩ := h
    exact .rearm hexec hpc
  | timers i =>
    cases ha : (s.pros p).timerExpiredCo[i]? with
    | some a =>
      simp only [Sys.loopStep, hpc, ha] at h
      exact .timer hexec hpc ha (.of_resume h)
    | none =>
      simp only [Sys.loopStep, hpc, ha, Option.some.injEq, Prod.mk.injEq] at h
      obtain ⟨rfl, rfl⟩ := h
      exact .timersEnd hexec hpc ha
  | readQue =>
    simp only [Sys.loopStep, hpc, Option.some.injEq, Prod.mk.injEq] at h
    obtain ⟨rfl, rfl⟩ := h
    exact .readQue hexec hpc
  | drain rq =>
    by_cases hnil : (s.pros p).queue.bufs rq = []
    · simp only [Sys.loopStep, hpc, if_pos hnil, Option.some.injEq, Prod.mk.injEq] at h
      obtain ⟨rfl, rfl⟩ := h
      exact .drainEnd hexec hpc hnil
    · simp only [Sys.loopStep, hpc, if_neg hnil, Option.some.injEq, Prod.mk.injEq] at h
      obtain ⟨rfl, rfl⟩ := h
      exact .drain hexec hpc hnil
  | pop rq =>
    cases hcons : (s.pros p).queue.bufs rq with
    | nil => simp [Sys.loopStep, hpc, hcons] at h
    | cons e rest =>
      simp only [Sys.loopStep, hpc, hcons] at h
      obtain ⟨⟨s₁, es₁⟩, hres, hpair⟩ := Option.map_eq_some_iff.mp h
      simp only [Prod.mk.injEq] at hpair
      obtain ⟨rfl, rfl⟩ := hpair
      exact .pop hexec hpc hcons (.of_resume hres)
  | flip rq =>
    simp only [Sys.loopStep, hpc, Option.some.injEq, Prod.mk.injEq] at h
    obtain ⟨rfl, rfl⟩ := h
    exact .flip hexec hpc
  | events i =>
    cases hpCo : (s.pros p).actCoroutines[i]? with
    | some pCo =>
      simp only [Sys.loopStep, hpc, hpCo] at h
      exact .event hexec hpc hpCo (.of_resume h)
    | none =>
      simp only [Sys.loopStep, hpc, hpCo, Option.some.injEq, Prod.mk.injEq] at h
      obtain ⟨rfl, rfl⟩ := h
      exact .eventsEnd hexec hpc hpCo
  | reclaim i =>
    cases ha : (s.pros p).removedCo[i]? with
    | some a =>
      cases hco : s.cos a with
      | none => simp [Sys.loopStep, hpc, ha, hco] at h
      | some c =>
        simp only [Sys.loopStep, hpc, ha, hco, Option.some.injEq, Prod.mk.injEq] at h
        obtain ⟨rfl, rfl⟩ := h
        exact .reclaim hexec hpc ha hco
    | none =>
      simp only [Sys.loopStep, hpc, ha, Option.some.injEq, Prod.mk.injEq] at h
      obtain ⟨rfl, rfl⟩ := h
      exact .reclaimEnd hexec hpc ha

theorem of_startStep {timeFd : Fd} (hexec : (s.pros p).exec = none)
    (h : s.startStep p timeFd = some (s', es)) : Step s (.start p timeFd) s' es := by
  simp only [Sys.startStep, Option.ite_none_right_eq_some, Option.some.injEq, Prod.mk.injEq] at h
  obtain ⟨hpc, rfl, rfl⟩ := h
  exact .start hexec hpc

theorem of_epollStep {fds : List Fd} (hexec : (s.pros p).exec = none)
    (h : s.epollStep p fds = some (s', es)) : Step s (.epoll p fds) s' es := by
  simp only [Sys.epollStep, Option.ite_none_right_eq_some, Option.some.injEq, Prod.mk.injEq] at h
  obtain ⟨⟨hpc, hrep⟩, rfl, rfl⟩ := h
  exact .epoll hexec hpc hrep

theorem of_userStep {op : Sys.Op} (hexec : (s.pros p).exec = some (x, .run .user))
    (h : s.userStep p x op = some (s', es)) : Step s (.user p op) s' es := by
  cases op with
  | goNewCo q a =>
    simp only [Sys.userStep, Option.ite_none_right_eq_some, Option.some.injEq,
      Prod.mk.injEq] at h
    obtain ⟨hfree, rfl, rfl⟩ := h
    exact .goNewCo hexec hfree
  | goCoBatch q cos =>
    simp only [Sys.userStep, Option.some.injEq, Prod.mk.injEq] at h
    obtain ⟨rfl, rfl⟩ := h
    exact .goCoBatch hexec
  | sleep time =>
    obtain ⟨s₁, hyield, hpair⟩ := Option.map_eq_some_iff.mp h
    obtain ⟨a, c, hcur, hco, rfl⟩ := Sys.coYield_eq_some hyield
    simp only [Prod.mk.injEq] at hpair
    obtain ⟨rfl, rfl⟩ := hpair
    exact .sleep hexec hcur hco
  | waitEvent fd canPoll =>
    simp only [Sys.userStep, Option.some.injEq, Prod.mk.injEq] at h
    obtain ⟨rfl, rfl⟩ := h
    exact .waitEvent hexec
  | rlock m =>
    simp only [Sys.userStep, Option.some.injEq, Prod.mk.injEq] at h
    obtain ⟨rfl, rfl⟩ := h
    exact .callRlock hexec
  | wlock m =>
    simp only [Sys.userStep, Option.some.injEq, Prod.mk.injEq] at h
    obtain ⟨rfl, rfl⟩ := h
    exact .callWlock hexec
  | runlock m =>
    cases hco : s.cos x with
    | none => simp [Sys.userStep, hco] at h
    | some c =>
      simp only [Sys.userStep, hco, Option.ite_none_right_eq_some, Option.some.injEq,
        Prod.mk.injEq] at h
      obtain ⟨⟨hheld, hfree⟩, rfl, rfl⟩ := h
      exact .runlock hexec hco hheld hfree
  | wunlock m =>
    cases hco : s.cos x with
    | none => simp [Sys.userStep, hco] at h
    | some c =>
      simp only [Sys.userStep, hco, Option.ite_none_right_eq_some, Option.some.injEq,
        Prod.mk.injEq] at h
      obtain ⟨⟨hheld, hfree⟩, rfl, rfl⟩ := h
      exact .wunlock hexec hco hheld hfree
  | ret =>
    simp only [Sys.userStep] at h
    split at h
    · next a c hcur hco =>
      simp only [Option.some.injEq, Prod.mk.injEq] at h
      obtain ⟨rfl, rfl⟩ := h
      exact .ret hexec hcur hco
    · simp at h

theorem of_coStep {code : Code} (hexec : (s.pros p).exec = some (x, code))
    (h : s.coStep p x code = some (s', es)) : Step s (.co p) s' es := by
  cases code with
  | run k =>
    cases k with
    | user => simp [Sys.coStep] at h
    | rlock m =>
      simp only [Sys.coStep, Option.ite_none_left_eq_some] at h
      obtain ⟨hfree, h⟩ := h
      split at h
      · next μ c _ hlock hco =>
        simp only [Option.some.injEq, Prod.mk.injEq] at h
        obtain ⟨rfl, rfl⟩ := h
        exact .rlock hexec hfree hlock hco
      · next a hlock hcur =>
        simp only [Option.some.injEq, Prod.mk.injEq] at h
        obtain ⟨rfl, rfl⟩ := h
        exact .rlockPark hexec hfree hlock hcur
      · simp at h
    | wlock m =>
      simp only [Sys.coStep, Option.ite_none_left_eq_some] at h
      obtain ⟨hfree, h⟩ := h
      split at h
      · next μ c _ hlock hco =>
        simp only [Option.some.injEq, Prod.mk.injEq] at h
        obtain ⟨rfl, rfl⟩ := h
        exact .wlock hexec hfree hlock hco
      · next a hlock hcur =>
        simp only [Option.some.injEq, Prod.mk.injEq] at h
        obtain ⟨rfl, rfl⟩ := h
        exact .wlockPark hexec hfree hlock hcur
      · simp at h
    | removeEv fd =>
      simp only [Sys.coStep, Option.some.injEq, Prod.mk.injEq] at h
      obtain ⟨rfl, rfl⟩ := h
      exact .removeEv hexec
  | goCo q a =>
    simp only [Sys.coStep, Option.some.injEq, Prod.mk.injEq] at h
    obtain ⟨rfl, rfl⟩ := h
    exact .goCo hexec
  | wake q call =>
    simp only [Sys.coStep, Option.some.injEq, Prod.mk.injEq] at h
    obtain ⟨rfl, rfl⟩ := h
    exact .wake hexec
  | freeLock m =>
    simp only [Sys.coStep] at h
    split at h
    · next hnil =>
      simp only [Option.some.injEq, Prod.mk.injEq] at h
      obtain ⟨rfl, rfl⟩ := h
      exact .freeLockEnd hexec hnil
    · next wakeCo rest hcons =>
      split at h
      · simp at h
      · next c hco =>
        simp only [Option.some.injEq, Prod.mk.injEq] at h
        obtain ⟨rfl, rfl⟩ := h
        exact .handOver hexec hcons hco
  | freeWake m q call =>
    simp only [Sys.coStep, Option.some.injEq, Prod.mk.injEq] at h
    obtain ⟨rfl, rfl⟩ := h
    exact .freeWake hexec
  | yield k =>
    obtain ⟨s₁, hyield, hpair⟩ := Option.map_eq_some_iff.mp h
    obtain ⟨a, c, hcur, hco, rfl⟩ := Sys.coYield_eq_some hyield
    simp only [Prod.mk.injEq] at hpair
    obtain ⟨rfl, rfl⟩ := hpair
    exact .yield hexec hcur hco
  | sleep time =>
    simp only [Sys.coStep] at h
    split at h
    · simp at h
    · next a hcur =>
      simp only [Option.some.injEq, Prod.mk.injEq] at h
      obtain ⟨rfl, rfl⟩ := h
      exact .runAfter hexec hcur
  | arm time =>
    simp only [Sys.coStep, Option.some.injEq, Prod.mk.injEq] at h
    obtain ⟨rfl, rfl⟩ := h
    exact .arm hexec
  | swap k =>
    obtain ⟨s₁, hswap, hpair⟩ := Option.map_eq_some_iff.mp h
    obtain ⟨a, hcur, hmap⟩ := Option.bind_eq_some_iff.mp hswap
    obtain ⟨c, hco, rfl⟩ := Option.map_eq_some_iff.mp hmap
    simp only [Prod.mk.injEq] at hpair
    obtain ⟨rfl, rfl⟩ := hpair
    exact .swap hexec hcur hco

theorem of_extCall {op : Sys.Op} (h : s.extCall t op = some (s', es)) :
    Step s (.extCall t op) s' es := by
  cases op with
  | goNewCo q a =>
    simp only [Sys.extCall, Option.ite_none_right_eq_some, Option.some.injEq,
      Prod.mk.injEq] at h
    obtain ⟨⟨hidle, hfree⟩, rfl, rfl⟩ := h
    exact .extGoNewCo hidle hfree
  | goCoBatch q cos =>
    simp only [Sys.extCall, Option.ite_none_right_eq_some, Option.some.injEq,
      Prod.mk.injEq] at h
    obtain ⟨hidle, rfl, rfl⟩ := h
    exact .extGoCoBatch hidle
  | _ => simp [Sys.extCall] at h

theorem of_extStep (h : s.extStep t = some (s', es)) : Step s (.ext t) s' es := by
  cases hext : s.exts t with
  | idle => simp [Sys.extStep, hext] at h
  | goCo q a =>
    simp only [Sys.extStep, hext, Option.some.injEq, Prod.mk.injEq] at h
    obtain ⟨rfl, rfl⟩ := h
    exact .extGoCo hext
  | wake q call =>
    simp only [Sys.extStep, hext, Option.some.injEq, Prod.mk.injEq] at h
    obtain ⟨rfl, rfl⟩ := h
    exact .extWake hext

/-- **Inversion.** `Step` says everything that a step can do. -/
theorem of_step {a : Action} (h : step s a = some (s', es)) : Step s a s' es := by
  cases a with
  | start p timeFd =>
    obtain ⟨hexec, h⟩ := Option.ite_none_right_eq_some.mp h
    exact of_startStep hexec h
  | loop p =>
    obtain ⟨hexec, h⟩ := Option.ite_none_right_eq_some.mp h
    exact of_loopStep hexec h
  | epoll p fds =>
    obtain ⟨hexec, h⟩ := Option.ite_none_right_eq_some.mp h
    exact of_epollStep hexec h
  | user p op =>
    simp only [step] at h
    split at h
    · next x hexec => exact of_userStep hexec h
    · simp at h
  | co p =>
    simp only [step] at h
    split at h
    · next x code hexec => exact of_coStep hexec h
    · simp at h
  | extCall t op => exact of_extCall h
  | ext t => exact of_extStep h
  | wakeUp q =>
    simp only [step, Option.some.injEq, Prod.mk.injEq] at h
    obtain ⟨rfl, rfl⟩ := h
    exact .wakeUp
  | expire q =>
    obtain ⟨timer, hexp, hpair⟩ := Option.map_eq_some_iff.mp h
    simp only [Prod.mk.injEq] at hpair
    obtain ⟨rfl, rfl⟩ := hpair
    exact .expire hexp
  | tick d =>
    simp only [step, Option.some.injEq, Prod.mk.injEq] at h
    obtain ⟨rfl, rfl⟩ := h
    exact .tick

end Step

end Copnet
