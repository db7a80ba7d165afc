import Copnet.Foundation.Transition
import Copnet.Timer.Timer

/-!
# The timer descriptor covers every sleeper

A machine for one `Timer`: its own thread calls `runAt`, `runAfter` and `getExpiredCoroutines`, any
thread calls `wakeUp` at any point, the clock advances and armed expiries come due. `wakeUp` may
overwrite the armed deadline and `getExpiredCoroutines` consumes expiries, so the descriptor is not
always armed for the top of the heap. What survives every order of these steps is that the top is
*covered*: the descriptor is readable, or fires within a millisecond after the top is due.

The exception is a deadline so long over that its distance from now does not fit an `int64_t`: the
subtraction overflows, and the descriptor is programmed for the far future. No such deadline is
asked for, but an overflow in `runAfter` makes one of a very long sleep.

The invariant is about the top only. `CoveredAt` is monotone in the deadline, which carries it to
every other entry of the heap, and it is monotone in the clock, which carries it through time.
-/

open Transition

namespace Copnet

/-- Where the timer's own thread stands. -/
inductive TimerPc
  /-- In neither function. -/
  | idle
  /-- In `runAt(time, _)`, after the push. -/
  | arm (time : ℤ)
  /-- In `getExpiredCoroutines`, after the pops. -/
  | read
  /-- In `getExpiredCoroutines`, after the read. -/
  | rearm
deriving DecidableEq

/-- A timer, its clock and its thread. -/
structure TimerState where
  /-- The timer. -/
  timer : Timer
  /-- The present instant, in microseconds. -/
  clock : ℤ
  /-- The thread that owns the timer. -/
  pc : TimerPc

inductive TimerAct
  /-- The owner calls `runAt` and pushes. -/
  | runAt (time : ℤ) (pCo : Addr)
  /-- The owner calls `runAfter`, and `runAt` in it, and pushes. -/
  | runAfter (time : ℤ) (pCo : Addr)
  /-- The owner finishes `runAt`. -/
  | arm
  /-- The owner calls `getExpiredCoroutines` and pops. -/
  | getExpired
  /-- The owner reads the descriptor. -/
  | read
  /-- The owner finishes `getExpiredCoroutines`. -/
  | rearm
  /-- Some thread calls `wakeUp`. -/
  | wakeUp
  /-- The armed expiry comes due. -/
  | expire
  /-- The clock advances. -/
  | tick (d : ℕ)
deriving DecidableEq

/-- One step; the events are the coroutines put into the output of `getExpiredCoroutines`. -/
def timerStep (s : TimerState) : TimerAct → Option (TimerState × List Addr)
  | .runAt time pCo =>
    match s.pc with
    | .idle => some ({ s with timer := s.timer.push time pCo, pc := .arm time }, [])
    | _ => none
  | .runAfter time pCo =>
    match s.pc with
    | .idle =>
      let runTime := Timer.runTime s.clock time
      some ({ s with timer := s.timer.push runTime pCo, pc := .arm runTime }, [])
    | _ => none
  | .arm =>
    match s.pc with
    | .arm time => some ({ s with timer := s.timer.rearmFor s.clock time, pc := .idle }, [])
    | _ => none
  | .getExpired =>
    match s.pc with
    | .idle =>
      some ({ s with timer := s.timer.popExpired s.clock, pc := .read },
        s.timer.expiredCo s.clock)
    | _ => none
  | .read =>
    match s.pc with
    | .read => some ({ s with timer := s.timer.readTimefd, pc := .rearm }, [])
    | _ => none
  | .rearm =>
    match s.pc with
    | .rearm => some ({ s with timer := s.timer.rearm s.clock, pc := .idle }, [])
    | _ => none
  | .wakeUp => some ({ s with timer := s.timer.wakeUp s.clock }, [])
  | .expire => (s.timer.expire s.clock).map fun timer ↦ ({ s with timer }, [])
  | .tick d => some ({ s with clock := s.clock + d }, [])

/-- The timer machine starts with an initialised timer at any instant. -/
def timerMachine : Machine TimerState TimerAct Addr where
  init s := s.timer = .created ∧ s.pc = .idle
  step := timerStep

inductive TimerStep (s : TimerState) : TimerAct → TimerState → List Addr → Prop
  | runAt {time : ℤ} {pCo : Addr} (hpc : s.pc = .idle) :
      TimerStep s (.runAt time pCo) { s with timer := s.timer.push time pCo, pc := .arm time } []
  | runAfter {time : ℤ} {pCo : Addr} (hpc : s.pc = .idle) :
      TimerStep s (.runAfter time pCo)
        { s with
          timer := s.timer.push (Timer.runTime s.clock time) pCo
          pc := .arm (Timer.runTime s.clock time) } []
  | arm {time : ℤ} (hpc : s.pc = .arm time) :
      TimerStep s .arm { s with timer := s.timer.rearmFor s.clock time, pc := .idle } []
  | getExpired (hpc : s.pc = .idle) :
      TimerStep s .getExpired { s with timer := s.timer.popExpired s.clock, pc := .read }
        (s.timer.expiredCo s.clock)
  | read (hpc : s.pc = .read) :
      TimerStep s .read { s with timer := s.timer.readTimefd, pc := .rearm } []
  | rearm (hpc : s.pc = .rearm) :
      TimerStep s .rearm { s with timer := s.timer.rearm s.clock, pc := .idle } []
  | wakeUp : TimerStep s .wakeUp { s with timer := s.timer.wakeUp s.clock } []
  | expire {a : Arming} (harmed : s.timer.fd.armed = some a) (hdue : a.fireAt ≤ s.clock) :
      TimerStep s .expire { s with timer := ⟨s.timer.heap, ⟨none, true⟩⟩ } []
  | tick {d : ℕ} : TimerStep s (.tick d) { s with clock := s.clock + d } []

theorem TimerStep.of_step {s s' : TimerState} {a : TimerAct} {out : List Addr}
    (hs : timerStep s a = some (s', out)) : TimerStep s a s' out := by
  cases a with
  | runAt time pCo =>
    cases hpc : s.pc <;> simp only [timerStep, hpc, reduceCtorEq, Option.some.injEq,
      Prod.mk.injEq] at hs
    obtain ⟨rfl, rfl⟩ := hs
    exact .runAt hpc
  | runAfter time pCo =>
    cases hpc : s.pc <;> simp only [timerStep, hpc, reduceCtorEq, Option.some.injEq,
      Prod.mk.injEq] at hs
    obtain ⟨rfl, rfl⟩ := hs
    exact .runAfter hpc
  | arm =>
    cases hpc : s.pc <;> simp only [timerStep, hpc, reduceCtorEq, Option.some.injEq,
      Prod.mk.injEq] at hs
    obtain ⟨rfl, rfl⟩ := hs
    exact .arm hpc
  | getExpired =>
    cases hpc : s.pc <;> simp only [timerStep, hpc, reduceCtorEq, Option.some.injEq,
      Prod.mk.injEq] at hs
    obtain ⟨rfl, rfl⟩ := hs
    exact .getExpired hpc
  | read =>
    cases hpc : s.pc <;> simp only [timerStep, hpc, reduceCtorEq, Option.some.injEq,
      Prod.mk.injEq] at hs
    obtain ⟨rfl, rfl⟩ := hs
    exact .read hpc
  | rearm =>
    cases hpc : s.pc <;> simp only [timerStep, hpc, reduceCtorEq, Option.some.injEq,
      Prod.mk.injEq] at hs
    obtain ⟨rfl, rfl⟩ := hs
    exact .rearm hpc
  | wakeUp =>
    simp only [timerStep, Option.some.injEq, Prod.mk.injEq] at hs
    obtain ⟨rfl, rfl⟩ := hs
    exact .wakeUp
  | expire =>
    obtain ⟨timer, htimer, hpair⟩ := Option.map_eq_some_iff.mp hs
    obtain ⟨hheap, hfd, a, harmed, hdue⟩ := Timer.expire_eq_some s.clock htimer
    obtain ⟨heap, fd⟩ := timer
    simp only [Prod.mk.injEq] at hpair hheap hfd
    obtain ⟨rfl, rfl⟩ := hpair
    rw [hheap, hfd]
    exact .expire harmed hdue
  | tick d =>
    simp only [timerStep, Option.some.injEq, Prod.mk.injEq] at hs
    obtain ⟨rfl, rfl⟩ := hs
    exact .tick

/-! ## Coverage of one deadline -/

/-- The descriptor is readable, or armed to fire within a millisecond after the later of the
present instant and the deadline. -/
def CoveredAt (fd : TimerFd) (clock deadline : ℤ) : Prop :=
  fd.readable = true ∨ ∃ a, fd.armed = some a ∧ a.fireAt ≤ max clock (1000 * deadline) + 1000

theorem CoveredAt.mono {fd : TimerFd} {clock clock' deadline deadline' : ℤ}
    (h : CoveredAt fd clock deadline) (hc : clock ≤ clock') (hd : deadline ≤ deadline') :
    CoveredAt fd clock' deadline' := by
  rcases h with h | ⟨a, ha, hle⟩
  · exact .inl h
  · have hmax : max clock (1000 * deadline) ≤ max clock' (1000 * deadline') :=
      max_le_max hc (by omega)
    exact .inr ⟨a, ha, by omega⟩

/-- Programming the descriptor for a deadline covers it, exactly if the distance to the deadline
does not overflow at the lower end. -/
theorem coveredAt_resetTimeOfTimefd_iff (t : Timer) {clock time : ℤ}
    (hrange : -2 ^ 64 + 1 < time - Time.now clock) :
    CoveredAt (t.resetTimeOfTimefd clock time).fd clock time ↔
      -2 ^ 63 ≤ time - Time.now clock := by
  rw [Timer.fd_resetTimeOfTimefd]
  constructor
  · rintro (hread | ⟨a, ha, hle⟩)
    · exact absurd hread Bool.false_ne_true
    · obtain rfl := Option.some.inj ha
      by_contra hlow
      -- the difference has wrapped around to two milliseconds or more
      have hwrap : int64 (time - Time.now clock) = time - Time.now clock + 2 ^ 64 := by
        rw [int64, Int.bmod_def]
        split <;> omega
      have hone : 1 ≤ int64 (time - Time.now clock) := by omega
      have hmicros := Time.micros_of_one_le hone
      have hnow := Time.lt_now_succ clock
      rw [Arming.fireAt] at hle
      dsimp only at hle
      rw [Time.now_eq] at *
      omega
  · exact fun hlow ↦ .inr ⟨_, rfl, (Time.add_micros_lt hlow).le⟩

theorem coveredAt_resetTimeOfTimefd (t : Timer) {clock time : ℤ}
    (hlow : -2 ^ 63 ≤ time - Time.now clock) :
    CoveredAt (t.resetTimeOfTimefd clock time).fd clock time :=
  (coveredAt_resetTimeOfTimefd_iff t (by omega)).mpr hlow

theorem coveredAt_wakeUp (t : Timer) (clock deadline : ℤ) :
    CoveredAt (t.wakeUp clock).fd clock deadline := by
  rw [Timer.fd_wakeUp]
  refine .inr ⟨_, rfl, ?_⟩
  have := le_max_left clock (1000 * deadline)
  rw [Arming.fireAt, Timespec.micros_immediate]
  dsimp only
  omega

theorem coveredAt_readable {fd : TimerFd} (h : fd.readable = true) (clock deadline : ℤ) :
    CoveredAt fd clock deadline := .inl h

/-! ## The invariant -/

/-- The deadline for which the step re-arms the descriptor, if it does. -/
def TimerState.rearmedFor (s : TimerState) : TimerAct → Option ℤ
  | .arm =>
    match s.pc with
    | .arm time => if s.timer.heap.top?.map Prod.fst = some time then some time else none
    | _ => none
  | .rearm => s.timer.heap.top?.map Prod.fst
  | _ => none

/-- The step does not re-arm the descriptor for a deadline whose distance from now overflows at
the lower end of `int64_t`. -/
def NotTooLate (s : TimerState) (a : TimerAct) : Prop :=
  ∀ d ∈ s.rearmedFor a, -2 ^ 63 ≤ d - Time.now s.clock

instance (s : TimerState) (a : TimerAct) : Decidable (NotTooLate s a) := by
  unfold NotTooLate
  infer_instance

/-- The top of the heap is covered, or about to be: in `runAt` the top may still be the new entry,
and `getExpiredCoroutines` re-arms at its end whatever the heap then holds. -/
def TimerInv (s : TimerState) : Prop :=
  match s.pc with
  | .idle => ∀ e, s.timer.heap.top? = some e → CoveredAt s.timer.fd s.clock e.1
  | .arm time => ∀ e, s.timer.heap.top? = some e → e.1 = time ∨ CoveredAt s.timer.fd s.clock e.1
  | .read => True
  | .rearm => True

/-- A push leaves the old top covered if it stays the top, and otherwise the new entry is the
top or ties with it. -/
theorem top_push {t : Timer} {clock time : ℤ} {pCo : Addr}
    (h : ∀ e, t.heap.top? = some e → CoveredAt t.fd clock e.1) :
    ∀ e, (t.push time pCo).heap.top? = some e →
      e.1 = time ∨ CoveredAt (t.push time pCo).fd clock e.1 := by
  intro e he
  have hmem : e ∈ (t.push time pCo).heap.entries := List.mem_of_mem_head? he
  rw [Timer.heap_push] at hmem
  rcases TimerHeap.mem_push.mp hmem with rfl | hold
  · exact .inl rfl
  · right
    cases htop : t.heap.top? with
    | none => simp [TimerHeap.top?_eq_none.mp htop] at hold
    | some e₀ => exact (h e₀ htop).mono le_rfl (TimerHeap.le_of_top? htop hold)

theorem top_rearmFor {t : Timer} {clock time : ℤ}
    (hlow : t.heap.top?.map Prod.fst = some time → -2 ^ 63 ≤ time - Time.now clock)
    (h : ∀ e, t.heap.top? = some e → e.1 = time ∨ CoveredAt t.fd clock e.1) :
    ∀ e, (t.rearmFor clock time).heap.top? = some e →
      CoveredAt (t.rearmFor clock time).fd clock e.1 := by
  intro e he
  rw [Timer.heap_rearmFor] at he
  by_cases htime : e.1 = time
  · have htop : t.heap.top?.map Prod.fst = some time := by rw [he, Option.map_some, htime]
    rw [Timer.rearmFor, if_pos htop, htime]
    exact coveredAt_resetTimeOfTimefd t (hlow htop)
  · have hif : t.rearmFor clock time = t :=
      if_neg (by rw [he, Option.map_some, Option.some_inj]; exact htime)
    rw [hif]
    exact (h e he).resolve_left htime

theorem top_rearm {t : Timer} {clock : ℤ}
    (hlow : ∀ d ∈ t.heap.top?.map Prod.fst, -2 ^ 63 ≤ d - Time.now clock) (e : ℤ × Addr)
    (he : (t.rearm clock).heap.top? = some e) : CoveredAt (t.rearm clock).fd clock e.1 := by
  rw [Timer.heap_rearm] at he
  rw [Timer.rearm, he]
  exact coveredAt_resetTimeOfTimefd t (hlow e.1 (by simp [he]))

theorem TimerInv.of_covers {s : TimerState} {timer : Timer}
    (hfd : ∀ deadline, CoveredAt timer.fd s.clock deadline) : TimerInv { s with timer } := by
  unfold TimerInv
  split
  · exact fun e _ ↦ hfd e.1
  · exact fun e _ ↦ .inr (hfd e.1)
  · trivial
  · trivial

theorem timerInv_step {s s' : TimerState} {a : TimerAct} {out : List Addr} (h : TimerInv s)
    (hlow : NotTooLate s a) (hs : timerStep s a = some (s', out)) : TimerInv s' := by
  cases TimerStep.of_step hs with
  | runAt hpc =>
    simp only [TimerInv, hpc] at h ⊢
    exact top_push h
  | runAfter hpc =>
    simp only [TimerInv, hpc] at h ⊢
    exact top_push h
  | arm hpc =>
    simp only [TimerInv, hpc] at h ⊢
    exact top_rearmFor (fun htop ↦ hlow _ (by simp [TimerState.rearmedFor, hpc, htop])) h
  | getExpired hpc => trivial
  | read hpc => trivial
  | rearm hpc => exact top_rearm hlow
  -- whatever the owner is at, a wake-up and an expiry cover every deadline
  | wakeUp => exact .of_covers fun deadline ↦ coveredAt_wakeUp s.timer s.clock deadline
  | expire harmed hdue => exact .of_covers fun deadline ↦ coveredAt_readable rfl s.clock deadline
  -- what fires in time for a deadline still does when the clock has moved on
  | @tick d =>
    have hle : s.clock ≤ s.clock + d := by omega
    cases hpc : s.pc <;> simp only [TimerInv, hpc] at h ⊢
    · exact fun e he ↦ (h e he).mono hle le_rfl
    · exact fun e he ↦ (h e he).imp_right fun hcov ↦ hcov.mono hle le_rfl

theorem timerInv_of_reachable {s : TimerState} (h : Reachable timerMachine NotTooLate s) :
    TimerInv s := by
  refine h.invariant ?_ fun hinv hlow hs ↦ timerInv_step hinv hlow hs
  rintro s ⟨htimer, hpc⟩
  simp [TimerInv, hpc, htimer, Timer.created, TimerHeap.top?]

/-- **Sleepers are never forgotten**, in every run that re-arms the descriptor for no deadline too
long over. Between the functions of its own thread, a timer with a sleeper in its heap has a
descriptor that is readable, or armed to fire no later than a millisecond after the later of the
present instant and the deadline of any entry, the earliest included. -/
theorem sleepers_covered {s : TimerState} (h : Reachable timerMachine NotTooLate s)
    (hidle : s.pc = .idle) (hne : s.timer.heap.entries ≠ []) :
    s.timer.fd.readable = true ∨ ∃ a, s.timer.fd.armed = some a ∧
      ∀ e ∈ s.timer.heap.entries, a.fireAt ≤ max s.clock (1000 * e.1) + 1000 := by
  have hinv := timerInv_of_reachable h
  simp only [TimerInv, hidle] at hinv
  cases htop : s.timer.heap.top? with
  | none => exact absurd (TimerHeap.top?_eq_none.mp htop) hne
  | some e₀ =>
    rcases hinv e₀ htop with hread | ⟨a, ha, hle⟩
    · exact .inl hread
    · refine .inr ⟨a, ha, fun e he ↦ ?_⟩
      have hdead : e₀.1 ≤ e.1 := TimerHeap.le_of_top? htop he
      have hmax : max s.clock (1000 * e₀.1) ≤ max s.clock (1000 * e.1) :=
        max_le_max le_rfl (by omega)
      omega

/-- Two sleepers are due at `50` and `60`, and a wake-up has overwritten the armed deadline. -/
def afterWakeUp : TimerState :=
  (timerMachine.after NotTooLate ⟨.created, 0, .idle⟩
    [.runAfter 60 3, .arm, .runAfter 50 4, .arm, .wakeUp, .tick 7]).1

theorem sleepers_covered_after_wakeUp :
    afterWakeUp.timer.heap.entries = [(50, 4), (60, 3)] ∧
      (afterWakeUp.timer.fd.readable = true ∨ ∃ a, afterWakeUp.timer.fd.armed = some a ∧
        ∀ e ∈ afterWakeUp.timer.heap.entries,
          a.fireAt ≤ max afterWakeUp.clock (1000 * e.1) + 1000) :=
  ⟨by decide, sleepers_covered ⟨_, _, ⟨rfl, rfl⟩, run_after _⟩ (by decide) (by decide)⟩

/-- One second after the epoch a coroutine sleeps for `20` milliseconds, and another for as long
as an `int64_t` can say. -/
def sleptTooLong : TimerState :=
  (timerMachine.after Always ⟨.created, 1000000, .idle⟩
    [.runAfter 20 3, .arm, .runAfter (2 ^ 63 - 1) 4, .arm]).1

/-- The deadline of the long sleep overflows, and the descriptor is programmed for the far future
on account of it, though the other sleeper is due in `20` milliseconds. -/
theorem sleepers_forgotten : ¬∀ s, Reachable timerMachine Always s → s.pc = .idle →
    s.timer.heap.entries ≠ [] → s.timer.fd.readable = true ∨ ∃ a, s.timer.fd.armed = some a ∧
      ∀ e ∈ s.timer.heap.entries, a.fireAt ≤ max s.clock (1000 * e.1) + 1000 := by
  intro hall
  have h : Reachable timerMachine Always sleptTooLong := ⟨_, _, ⟨rfl, rfl⟩, run_after _⟩
  have hentries : sleptTooLong.timer.heap.entries = [(999 - 2 ^ 63, 4), (1020, 3)] := by decide
  have harmed : sleptTooLong.timer.fd =
      ⟨some ⟨1000000, ⟨9223372036854775, 807000000⟩⟩, false⟩ := by decide
  rcases hall _ h (by decide) (by rw [hentries]; simp) with hread | ⟨a, ha, hle⟩
  · rw [harmed] at hread
    exact absurd hread Bool.false_ne_true
  · rw [harmed] at ha
    obtain rfl := Option.some.inj ha
    exact absurd (hle (1020, 3) (by rw [hentries]; simp)) (by decide)

end Copnet
