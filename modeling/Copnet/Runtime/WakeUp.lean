import Copnet.Runtime.RunQueue

/-!
# Sleeping on runnable work

`goCo` announces what it pushed by programming the timer descriptor for a microsecond ahead. The
announcement is a single token, and others take it: `getExpiredCoroutines` reads it away or
re-arms over it, and `runAt` re-arms over it. That does no harm when everything announced is popped
before the loop next sleeps. It does harm when something announced sits in the receiving queue,
since that queue is only flipped in the current iteration and popped in the next, after a sleep.
And before `Timer::init` there is no descriptor that could carry a token at all.

So the loop can sleep on runnable work, and `sleeps_on_runnable` is a run in which it does.
`Processor.takesToken` singles out the steps that take the token and `Processor.leftover` the
entries that the loop will not pop before it sleeps; in every run in which nothing is announced
before the descriptor exists, and no step takes the token while something announced is left over,
the loop never sleeps on runnable work.
-/

open Transition

namespace Copnet

/-- The descriptor will end a wait at once: it is readable, or armed as `wakeUp` arms it. -/
def TimerFd.Hot (fd : TimerFd) : Prop :=
  fd.readable = true ∨ ∃ a, fd.armed = some a ∧ a.interval = .immediate

/-- The call that pushed the entry has returned. -/
def Sys.Announced (s : Sys) (e : Entry) : Prop := e.call ∉ s.openCalls

instance (s : Sys) (e : Entry) : Decidable (s.Announced e) :=
  inferInstanceAs (Decidable (e.call ∉ s.openCalls))

/-- The entries that the loop will not pop before its next `epoll_wait`. -/
def leftover (queue : DoubleBuffer Entry) : LoopPc → List Entry
  | .getExpired | .readTimefd | .rearm | .timers _ | .readQue | .drain _ | .pop _ | .flip _ =>
    queue.back
  | .events _ | .reclaim _ | .start | .top | .epollWait => queue.contents

def Processor.leftover (P : Processor) : List Entry := Copnet.leftover P.queue P.pc

/-- The next step of the thread reads an expiry away, or re-arms the descriptor for something other
than an immediate expiry. -/
def Processor.takesToken (P : Processor) (clock : ℤ) : Prop :=
  match P.exec, P.pc with
  | none, .readTimefd => P.timer.fd.readable = true
  | none, .rearm =>
    match P.timer.heap.top? with
    | some e => Time.timeIntervalFromNow e.1 clock ≠ .immediate
    | none => False
  | some (_, .arm time), _ =>
    P.timer.heap.top?.map Prod.fst = some time ∧
      Time.timeIntervalFromNow time clock ≠ .immediate
  | _, _ => False

/-- Nothing is announced before the descriptor exists, and no step takes the token while something
announced is left over. -/
def KeepsToken (s : Sys) : Action → Prop
  | .start p _ => ∀ e ∈ (s.pros p).leftover, e.call ∈ s.openCalls
  | .loop p | .co p =>
    (s.pros p).takesToken s.clock → ∀ e ∈ (s.pros p).leftover, e.call ∈ s.openCalls
  | _ => True

instance (P : Processor) (clock : ℤ) : Decidable (P.takesToken clock) := by
  unfold Processor.takesToken
  repeat' split
  all_goals infer_instance

instance (s : Sys) : (act : Action) → Decidable (KeepsToken s act)
  | .start p _ =>
    inferInstanceAs (Decidable (∀ e ∈ (s.pros p).leftover, e.call ∈ s.openCalls))
  | .loop p | .co p => inferInstanceAs (Decidable
      ((s.pros p).takesToken s.clock → ∀ e ∈ (s.pros p).leftover, e.call ∈ s.openCalls))
  | .epoll _ _ | .user _ _ | .extCall _ _ | .ext _ | .wakeUp _ | .expire _ | .tick _ =>
    isTrue trivial

/-! ## The descriptor -/

theorem hot_wakeUp (t : Timer) (clock : ℤ) : (t.wakeUp clock).fd.Hot := by
  rw [Timer.fd_wakeUp]
  exact .inr ⟨_, rfl, rfl⟩

section Effects

variable {clock : ℤ} {call : ℕ} {q : Pid} {P : Processor} {act : Action} {L : LoopState}
  {es : List Event}

/-- Only a step that takes the token cools the descriptor. -/
theorem Effect.hot (h : Effect clock call q P act L es) (hhot : P.timer.fd.Hot) :
    L.timer.fd.Hot ∨ (P.takesToken clock ∧ (act = .loop q ∨ act = .co q)) := by
  cases h with
  | wakeUp => exact .inl (hot_wakeUp _ _)
  | @arm x time hexec =>
    by_cases htop : P.timer.heap.top?.map Prod.fst = some time
    · by_cases himm : Time.timeIntervalFromNow time clock = .immediate
      · have hfd : (P.timer.rearmFor clock time).fd = ⟨some ⟨clock, .immediate⟩, false⟩ := by
          rw [Timer.rearmFor, if_pos htop, Timer.fd_resetTimeOfTimefd, himm]
        exact .inl (.inr ⟨_, congrArg TimerFd.armed hfd, rfl⟩)
      · exact .inr ⟨by simp [Processor.takesToken, hexec, htop, himm], .inr rfl⟩
    · have hfd : P.timer.rearmFor clock time = P.timer := if_neg htop
      exact .inl (by rwa [← hfd] at hhot)
  | expire hexp =>
    obtain ⟨-, hfd, -⟩ := Timer.expire_eq_some clock hexp
    exact .inl (.inl (congrArg TimerFd.readable hfd))
  | readTimefd hexec hpc =>
    rcases hhot with hread | harmed
    · exact .inr ⟨by simp [Processor.takesToken, hexec, hpc, hread], .inl rfl⟩
    · exact .inl (.inr harmed)
  | rearm hexec hpc =>
    cases htop : P.timer.heap.top? with
    | none =>
      have hfd : P.timer.rearm clock = P.timer := by rw [Timer.rearm, htop]
      exact .inl (by rwa [← hfd] at hhot)
    | some e =>
      by_cases himm : Time.timeIntervalFromNow e.1 clock = .immediate
      · have hfd : (P.timer.rearm clock).fd = ⟨some ⟨clock, .immediate⟩, false⟩ := by
          rw [Timer.rearm, htop, Timer.fd_resetTimeOfTimefd, himm]
        exact .inl (.inr ⟨_, congrArg TimerFd.armed hfd, rfl⟩)
      · exact .inr ⟨by simp [Processor.takesToken, hexec, hpc, htop, himm], .inl rfl⟩
  | _ => exact .inl hhot

theorem mem_leftover_push {queue : DoubleBuffer Entry} {xs : List Entry} {pc : LoopPc} {e : Entry}
    (he : e ∈ Copnet.leftover (queue.push xs) pc) : e ∈ Copnet.leftover queue pc ∨ e ∈ xs := by
  cases pc <;> simpa only [Copnet.leftover, DoubleBuffer.back_push, DoubleBuffer.contents_push,
    List.mem_append] using he

theorem Effect.leftover (h : Effect clock call q P act L es) (hP : P.loopState.Drains)
    {e : Entry} (he : e ∈ Copnet.leftover L.queue L.pc) : e ∈ P.leftover ∨ e.call = call := by
  cases h with
  | push cos =>
    apply (mem_leftover_push he).imp_right
    intro hnew
    obtain ⟨a, -, rfl⟩ := List.mem_map.mp hnew
    rfl
  | pop hexec hpc hcons hes =>
    simp only [LoopState.Drains, Processor.loopState, hpc] at hP
    obtain ⟨rfl, -⟩ := hP
    left
    simpa only [Processor.leftover, Copnet.leftover, hpc, DoubleBuffer.back_pop] using he
  | flip hexec hpc =>
    simp only [LoopState.Drains, Processor.loopState, hpc] at hP
    obtain ⟨rfl, hnil⟩ := hP
    left
    simpa only [Processor.leftover, Copnet.leftover, hpc, DoubleBuffer.contents,
      DoubleBuffer.front_flip, DoubleBuffer.back_flip, hnil, List.append_nil] using he
  | epoll hexec hpc =>
    left
    simp only [Processor.leftover, Copnet.leftover, hpc]
    exact List.mem_append_right _ he
  | stay | wakeUp | runAfter _ | arm _ | expire _ => exact .inl he
  | start _ hpc | top _ hpc | getExpired _ hpc | readTimefd _ hpc | rearm _ hpc | timer _ hpc _ _
  | timersEnd _ hpc _ | readQue _ hpc | drain _ hpc _ | drainEnd _ hpc _ | event _ hpc _ _
  | eventsEnd _ hpc _ | reclaim _ hpc _ | reclaimEnd _ hpc _ =>
    left
    simpa only [Processor.leftover, Copnet.leftover, Processor.loopState, hpc] using he

theorem Effect.contents (h : Effect clock call q P act L es) (hP : P.loopState.Drains) {e : Entry}
    (he : e ∈ L.queue.contents) :
    e ∈ P.queue.contents ∨ (e.call = call ∧ ∃ cos, Event.push q cos ∈ es) := by
  cases h with
  | push cos =>
    simp only [DoubleBuffer.contents_push, List.mem_append] at he
    apply he.imp_right
    intro hnew
    obtain ⟨a, -, rfl⟩ := List.mem_map.mp hnew
    exact ⟨rfl, cos, List.mem_singleton_self _⟩
  | pop hexec hpc hcons hes =>
    simp only [LoopState.Drains, Processor.loopState, hpc] at hP
    obtain ⟨rfl, -⟩ := hP
    left
    rw [DoubleBuffer.contents_pop _ hcons]
    exact List.mem_cons_of_mem _ he
  | flip hexec hpc =>
    simp only [LoopState.Drains, Processor.loopState, hpc] at hP
    obtain ⟨rfl, hnil⟩ := hP
    left
    rwa [← DoubleBuffer.contents_flip _ hnil]
  | _ => exact .inl he

end Effects

/-! ## Calls in progress -/

/-- The `goCo` or `goCoBatch` call that the code is in, before its wake-up, and its processor. -/
def Code.call? : Code → Option (Pid × ℕ)
  | .wake q call | .freeWake _ q call => some (q, call)
  | _ => none

def ExtCode.call? : ExtCode → Option (Pid × ℕ)
  | .wake q call => some (q, call)
  | _ => none

/-- Some thread is in call number `call`, on processor `q`, before its wake-up. -/
def Sys.Calling (s : Sys) (q : Pid) (call : ℕ) : Prop :=
  (∃ p x code, (s.pros p).exec = some (x, code) ∧ code.call? = some (q, call)) ∨
    ∃ t, (s.exts t).call? = some (q, call)

/-- What a step does to the calls in progress. -/
inductive CallEffect (s s' : Sys) (es : List Event) : Prop
  /-- Nothing. -/
  | keep (hnext : s'.nextCall = s.nextCall) (hopen : s'.openCalls = s.openCalls)
      (hcalling : ∀ q call, s'.Calling q call → s.Calling q call)
      (hes : ∀ q cos, Event.push q cos ∉ es)
  /-- It begins a call, on processor `q`. -/
  | start (q : Pid) (hnext : s'.nextCall = s.nextCall + 1)
      (hopen : s'.openCalls = s.nextCall :: s.openCalls)
      (hcalling : ∀ r call, s'.Calling r call →
        s.Calling r call ∨ (r = q ∧ call = s.nextCall))
      (hes : ∀ r cos, Event.push r cos ∈ es → r = q)
  /-- It finishes a call on processor `q`, with the wake-up. -/
  | finish (q : Pid) (call : ℕ) (hcall : s.Calling q call)
      (hwake : (s'.pros q).timer = (s.pros q).wokenTimer s.clock)
      (hnext : s'.nextCall = s.nextCall) (hopen : s'.openCalls = s.openCalls.filter (· ≠ call))
      (hcalling : ∀ r n, s'.Calling r n → s.Calling r n)
      (hes : ∀ r cos, Event.push r cos ∉ es)

section Calls

variable {s s' : Sys} {p : Pid} {act : Action} {es : List Event}

/-- The calls in progress after a step that replaces the state of `p` and moves its thread, if at
all, to code that is in no call. -/
theorem Sys.Calling.of_setPro {q : Pid} {call : ℕ} {P : Processor} (h : s'.Calling q call)
    (hpros : s'.pros = (s.setPro p P).pros)
    (hP : P.exec = (s.pros p).exec ∨ ∀ x code, P.exec = some (x, code) → code.call? = none)
    (hexts : s'.exts = s.exts) : s.Calling q call := by
  rcases h with ⟨r, x, code, hexec, hcall⟩ | ⟨t, hcall⟩
  · rw [hpros] at hexec
    by_cases hr : r = p
    · subst hr
      rw [Sys.pros_setPro_self] at hexec
      rcases hP with hP | hP
      · exact .inl ⟨r, x, code, by rw [← hP, hexec], hcall⟩
      · simp [hP x code hexec] at hcall
    · rw [Sys.pros_setPro_of_ne _ _ _ hr] at hexec
      exact .inl ⟨r, x, code, hexec, hcall⟩
  · exact .inr ⟨t, by rw [← hexts, hcall]⟩

theorem CallEffect.of_setPro {P : Processor} (hpros : s'.pros = (s.setPro p P).pros)
    (hP : P.exec = (s.pros p).exec ∨ ∀ x code, P.exec = some (x, code) → code.call? = none)
    (hexts : s'.exts = s.exts) (hnext : s'.nextCall = s.nextCall)
    (hopen : s'.openCalls = s.openCalls) (hes : ∀ q cos, Event.push q cos ∉ es) :
    CallEffect s s' es :=
  .keep hnext hopen (fun _ _ h ↦ h.of_setPro hpros hP hexts) hes

theorem CallEffect.of_resumes {P : Processor} {pCo : Option Addr}
    (pre : List Event) (h : Resumes (s.setPro p P) p pCo s' es) (hP : P.exec = none)
    (hpre : ∀ q cos, Event.push q cos ∉ pre) : CallEffect s s' (pre ++ es) := by
  obtain ⟨cur, exec, hself, hexec⟩ := h.pros_self
  obtain ⟨-, hexts, -, -, hnext, hopen, -, -⟩ := h.frame
  have hpros : s'.pros = (s.setPro p (s'.pros p)).pros := by
    funext q
    by_cases hq : q = p
    · rw [hq, Sys.pros_setPro_self]
    · rw [h.pros_of_ne hq, Sys.pros_setPro_of_ne _ _ _ hq, Sys.pros_setPro_of_ne _ _ _ hq]
  refine .of_setPro hpros (.inr fun x code hcode ↦ ?_) hexts hnext hopen fun q cos hmem ↦ ?_
  · rw [hself] at hcode
    rcases hexec with rfl | ⟨y, k, rfl⟩
    · rw [Sys.pros_setPro_self, hP] at hcode
      exact absurd hcode (by simp)
    · obtain ⟨rfl, rfl⟩ := hcode
      rfl
  · rcases List.mem_append.mp hmem with hmem | hmem
    · exact hpre q cos hmem
    · cases h <;> simp at hmem

theorem CallEffect.of_goCoBatch {q : Pid} {cos : List Addr} {x : Addr} {code : Code} {u : Sys}
    (hu : u.pros = s.pros ∧ u.exts = s.exts ∧ u.nextCall = s.nextCall ∧ u.openCalls = s.openCalls)
    (hcode : code.call? = some (q, s.nextCall)) (hes : ∀ r cos, Event.push r cos ∈ es → r = q) :
    CallEffect s ((u.goCoBatch q cos).setExec p (some (x, code))) es := by
  obtain ⟨hpros, hexts, hnext, hopen⟩ := hu
  have hnext' : ((u.goCoBatch q cos).setExec p (some (x, code))).nextCall = s.nextCall + 1 :=
    congrArg (· + 1) hnext
  have hopen' : ((u.goCoBatch q cos).setExec p (some (x, code))).openCalls =
      s.nextCall :: s.openCalls := congrArg₂ List.cons hnext hopen
  refine .start q hnext' hopen' (fun r call h ↦ ?_) hes
  rcases h with ⟨r', y, code', hexec, hcall⟩ | ⟨t, hcall⟩
  · by_cases hr : r' = p
    · subst hr
      rw [Sys.pros_setExec_self] at hexec
      obtain ⟨rfl, rfl⟩ := hexec
      rw [hcode] at hcall
      obtain ⟨rfl, rfl⟩ := hcall
      exact .inr ⟨rfl, rfl⟩
    · rw [Sys.pros_setExec_of_ne _ _ _ hr, exec_goCoBatch, hpros] at hexec
      exact .inl (.inl ⟨r', y, code', hexec, hcall⟩)
  · exact .inl (.inr ⟨t, by rw [← hexts]; exact hcall⟩)

theorem CallEffect.of_extGoCoBatch {q : Pid} {cos : List Addr} {t : Tid} :
    CallEffect s ((s.goCoBatch q cos).setExt t (.wake q s.nextCall)) [.push q cos] := by
  refine .start q rfl rfl (fun r call h ↦ ?_) (by simp)
  rcases h with ⟨r', y, code', hexec, hcall⟩ | ⟨u, hcall⟩
  · rw [Sys.pros_setExt, exec_goCoBatch] at hexec
    exact .inl (.inl ⟨r', y, code', hexec, hcall⟩)
  · rw [Sys.exts_setExt] at hcall
    split at hcall
    · obtain ⟨rfl, rfl⟩ := hcall
      exact .inr ⟨rfl, rfl⟩
    · exact .inl (.inr ⟨u, hcall⟩)

theorem CallEffect.of_finishCall {q : Pid} {call : ℕ} {x : Addr} {code code' : Code}
    (hexec : (s.pros p).exec = some (x, code)) (hcode : code.call? = some (q, call))
    (hcode' : code'.call? = none) :
    CallEffect s ((s.finishCall q call).setExec p (some (x, code'))) [] := by
  have hcalling : ∀ r n, ((s.finishCall q call).setExec p (some (x, code'))).Calling r n →
      s.Calling r n := by
    rintro r n (⟨r', y, code'', hexec', hcall⟩ | ⟨t, hcall⟩)
    · by_cases hr : r' = p
      · subst hr
        rw [Sys.pros_setExec_self] at hexec'
        obtain ⟨rfl, rfl⟩ := hexec'
        simp [hcode'] at hcall
      · rw [Sys.pros_setExec_of_ne _ _ _ hr, exec_finishCall] at hexec'
        exact .inl ⟨r', y, code'', hexec', hcall⟩
    · exact .inr ⟨t, hcall⟩
  have hwake : (((s.finishCall q call).setExec p (some (x, code'))).pros q).timer =
      (s.pros q).wokenTimer s.clock := by
    have htimer : (((s.finishCall q call).setExec p (some (x, code'))).pros q).loopState =
        ((s.wakeUpEpoller q).pros q).loopState := loopState_setExec _ _ _ _
    have hself : (s.wakeUpEpoller q).pros q = { s.pros q with
        timer := (s.pros q).wokenTimer s.clock } := s.pros_setPro_self q _
    rw [hself] at htimer
    exact congrArg LoopState.timer htimer
  exact .finish q call (.inl ⟨p, x, code, hexec, hcode⟩) hwake rfl rfl hcalling (by simp)

theorem CallEffect.of_extFinishCall {q : Pid} {call : ℕ} {t : Tid}
    (hext : s.exts t = .wake q call) :
    CallEffect s ((s.finishCall q call).setExt t .idle) [] := by
  have hcalling : ∀ r n, ((s.finishCall q call).setExt t .idle).Calling r n →
      s.Calling r n := by
    rintro r n (⟨r', y, code'', hexec', hcall⟩ | ⟨u, hcall⟩)
    · rw [Sys.pros_setExt, exec_finishCall] at hexec'
      exact .inl ⟨r', y, code'', hexec', hcall⟩
    · rw [Sys.exts_setExt] at hcall
      split at hcall
      · simp [ExtCode.call?] at hcall
      · exact .inr ⟨u, hcall⟩
  have hwake : (((s.finishCall q call).setExt t .idle).pros q).timer =
      (s.pros q).wokenTimer s.clock :=
    congrArg Processor.timer (s.pros_setPro_self q _)
  exact .finish q call (.inr ⟨t, by rw [hext]; rfl⟩) hwake rfl rfl hcalling (by simp)

end Calls

theorem Step.callEffect {s s' : Sys} {act : Action} {es : List Event} (h : Step s act s' es) :
    CallEffect s s' es := by
  cases h with
  | timer hexec hpc ha hres => exact .of_resumes [] hres hexec (by simp)
  | @pop p rq e rest s' es hexec hpc hcons hres =>
    exact .of_resumes [.pop p rq e.co] hres hexec (by simp)
  | event hexec hpc hpCo hres => exact .of_resumes [] hres hexec (by simp)
  | goCoBatch hexec | goCo hexec => exact .of_goCoBatch ⟨rfl, rfl, rfl, rfl⟩ rfl (by simp)
  | handOver hexec hcons hco => exact .of_goCoBatch ⟨rfl, rfl, rfl, rfl⟩ rfl (by simp)
  | extGoCoBatch hidle | extGoCo hext => exact .of_extGoCoBatch
  | wake hexec | freeWake hexec => exact .of_finishCall hexec rfl rfl
  | extWake hext => exact .of_extFinishCall hext
  | wakeUp | expire _ => exact .of_setPro rfl (.inl rfl) rfl rfl rfl (by simp)
  | tick => exact .keep rfl rfl (fun _ _ h ↦ h) (by simp)
  | @runlock p x m c hexec hco hheld hfree =>
    refine .of_setPro rfl (.inr fun y code hcode ↦ ?_) rfl rfl rfl (by simp)
    obtain ⟨rfl, rfl⟩ := hcode
    split <;> rfl
  | @extGoNewCo t q a hidle hfree =>
    refine .keep rfl rfl (fun r n hcall ↦ ?_) (by simp)
    rcases hcall with hcall | ⟨u, hcall⟩
    · exact .inl hcall
    · rw [Sys.exts_setExt] at hcall
      split at hcall
      · simp [ExtCode.call?] at hcall
      · exact .inr ⟨u, hcall⟩
  | _ => exact .of_setPro rfl (by simp [Code.call?]) rfl rfl rfl (by simp)

/-! ## The invariant -/

/-- Nothing announced is left over without the descriptor being hot; the rest is what makes this
inductive, namely that a call pushes on one processor only, the one it will wake. -/
structure WakeInv (s : Sys) : Prop where
  /-- The loops drain as they should. -/
  drains : ∀ q, (s.pros q).loopState.Drains
  /-- Call numbers in the queues have been given out. -/
  fresh : ∀ q, ∀ e ∈ (s.pros q).queue.contents, e.call < s.nextCall
  /-- Call numbers of calls in progress have been given out. -/
  calling_lt : ∀ q call, s.Calling q call → call < s.nextCall
  /-- What a call in progress pushed is on the processor it will wake. -/
  target : ∀ q call, s.Calling q call → ∀ r, ∀ e ∈ (s.pros r).queue.contents, e.call = call → r = q
  /-- What is announced and left over keeps the descriptor hot, once it exists. -/
  hot : ∀ q, (s.pros q).pc ≠ .start → ∀ e ∈ (s.pros q).leftover, s.Announced e →
    (s.pros q).timer.fd.Hot

theorem wakeInv_init {s : Sys} (h : machine.init s) : WakeInv s := by
  have hdrains := drains_init h
  obtain ⟨clock, rfl⟩ := h
  refine ⟨hdrains, ?_, ?_, ?_, ?_⟩
  · intro q e he
    exact absurd he List.not_mem_nil
  · rintro q call (⟨r, x, code, hexec, -⟩ | ⟨t, hcall⟩)
    · exact absurd hexec (by simp [Sys.fresh, Sys.freshPro])
    · exact absurd hcall (by simp [Sys.fresh, ExtCode.call?])
  · exact fun q call _ r e he ↦ absurd he List.not_mem_nil
  · exact fun q hpc ↦ absurd rfl hpc

section Steps

variable {s s' : Sys} {act : Action} {es : List Event}

theorem leftover_subset (P : Processor) {e : Entry} (he : e ∈ P.leftover) :
    e ∈ P.queue.contents := by
  unfold Processor.leftover leftover at he
  split at he
  all_goals first | exact he | exact List.mem_append_right _ he

theorem Step.contents (h : Step s act s' es) (hinv : WakeInv s) {q : Pid} {e : Entry}
    (he : e ∈ (s'.pros q).queue.contents) :
    e ∈ (s.pros q).queue.contents ∨ (e.call = s.nextCall ∧ ∃ cos, Event.push q cos ∈ es) := by
  refine ((h.effect q).contents (hinv.drains q) he).imp_right fun ⟨hcall, cos, hmem⟩ ↦ ?_
  exact ⟨hcall, cos, List.mem_of_mem_filter hmem⟩

theorem Step.announced (h : Step s act s' es) (hinv : WakeInv s) {q : Pid} {e : Entry}
    (he : e ∈ (s'.pros q).leftover) (hann : s'.Announced e) :
    (e ∈ (s.pros q).leftover ∧ s.Announced e) ∨
      (s'.pros q).timer = (s.pros q).wokenTimer s.clock := by
  have hold : e ∈ (s.pros q).leftover ∨ e.call = s.nextCall :=
    (h.effect q).leftover (hinv.drains q) he
  have hcontents := h.contents hinv (leftover_subset _ he)
  cases h.callEffect with
  | keep hnext hopen hcalling hes =>
    rw [Sys.Announced, hopen] at hann
    have hmem : e ∈ (s.pros q).queue.contents :=
      hcontents.resolve_right fun ⟨_, cos, hpush⟩ ↦ hes q cos hpush
    have hlt := hinv.fresh q e hmem
    exact .inl ⟨hold.resolve_right (by omega), hann⟩
  | start r hnext hopen hcalling hes =>
    rw [Sys.Announced, hopen, List.mem_cons, not_or] at hann
    exact .inl ⟨hold.resolve_right hann.1, hann.2⟩
  | finish r call hcall hwake hnext hopen hcalling hes =>
    rw [Sys.Announced, hopen, List.mem_filter, not_and] at hann
    have hmem : e ∈ (s.pros q).queue.contents :=
      hcontents.resolve_right fun ⟨_, cos, hpush⟩ ↦ hes q cos hpush
    by_cases hc : e.call = call
    · have hq := hinv.target r call hcall q e hmem hc
      subst hq
      exact .inr hwake
    · have hlt := hinv.fresh q e hmem
      exact .inl ⟨hold.resolve_right (by omega), fun hopened ↦ hann hopened (by simpa using hc)⟩

theorem Step.fresh (h : Step s act s' es) (hinv : WakeInv s) {q : Pid} {e : Entry}
    (he : e ∈ (s'.pros q).queue.contents) : e.call < s'.nextCall := by
  rcases h.contents hinv he with hold | ⟨hcall, cos, hpush⟩
  · have hlt := hinv.fresh q e hold
    cases h.callEffect with
    | keep hnext _ _ _ => omega
    | start _ hnext _ _ _ => omega
    | finish _ _ _ _ hnext _ _ _ => omega
  · cases h.callEffect with
    | keep _ _ _ hes => exact absurd hpush (hes q cos)
    | start _ hnext _ _ _ => omega
    | finish _ _ _ _ _ _ _ hes => exact absurd hpush (hes q cos)

theorem Step.calling_lt (h : Step s act s' es) (hinv : WakeInv s) {q : Pid} {call : ℕ}
    (hcall : s'.Calling q call) : call < s'.nextCall := by
  cases h.callEffect with
  | keep hnext _ hcalling _ =>
    rw [hnext]
    exact hinv.calling_lt q call (hcalling q call hcall)
  | start r hnext _ hcalling _ =>
    rcases hcalling q call hcall with hold | ⟨-, rfl⟩
    · have := hinv.calling_lt q call hold
      omega
    · omega
  | finish _ _ _ _ hnext _ hcalling _ =>
    rw [hnext]
    exact hinv.calling_lt q call (hcalling q call hcall)

/-- The call that a step begins has a number that no entry and no other call has, so it cannot be
taken for one that pushed elsewhere. -/
theorem Step.target (h : Step s act s' es) (hinv : WakeInv s) {q r : Pid} {call : ℕ} {e : Entry}
    (hcall : s'.Calling q call) (he : e ∈ (s'.pros r).queue.contents) (hec : e.call = call) :
    r = q := by
  rcases h.contents hinv he with hold | ⟨hnew, cos, hpush⟩
  · have hlt := hinv.fresh r e hold
    cases h.callEffect with
    | keep _ _ hcalling _ => exact hinv.target q call (hcalling q call hcall) r e hold hec
    | start t _ _ hcalling _ =>
      rcases hcalling q call hcall with hcold | ⟨-, hcnew⟩
      · exact hinv.target q call hcold r e hold hec
      · omega
    | finish _ _ _ _ _ _ hcalling _ =>
      exact hinv.target q call (hcalling q call hcall) r e hold hec
  · cases h.callEffect with
    | keep _ _ _ hes => exact absurd hpush (hes r cos)
    | start t _ _ hcalling hes =>
      have hr := hes r cos hpush
      rcases hcalling q call hcall with hcold | ⟨hq, -⟩
      · have := hinv.calling_lt q call hcold
        omega
      · rw [hr, hq]
    | finish _ _ _ _ _ _ _ hes => exact absurd hpush (hes r cos)

theorem Step.not_announced_of_start {q : Pid} {timeFd : Fd} {e : Entry}
    (h : Step s (.start q timeFd) s' es) (hkeep : KeepsToken s (.start q timeFd))
    (he : e ∈ (s'.pros q).leftover) : ¬s'.Announced e := by
  cases h with
  | start hexec hpc =>
    have hold : e ∈ (s.pros q).leftover := by
      simpa only [Processor.leftover, Copnet.leftover, Sys.pros_setPro_self, hpc] using he
    exact fun hann ↦ hann (hkeep e hold)

/-- What is announced and left over was so before the step, and then the step may not take the
token, or else the step is the wake-up. -/
theorem Step.hot (h : Step s act s' es) (hinv : WakeInv s) (hkeep : KeepsToken s act) {q : Pid}
    (hpc' : (s'.pros q).pc ≠ .start) {e : Entry} (he : e ∈ (s'.pros q).leftover)
    (hann : s'.Announced e) : (s'.pros q).timer.fd.Hot := by
  by_cases hpc : (s.pros q).pc = .start
  · obtain ⟨timeFd, rfl, -⟩ := ((h.effect q).of_start hpc).resolve_right fun hno ↦ hpc' hno.2
    exact absurd hann (h.not_announced_of_start hkeep he)
  rcases h.announced hinv he hann with ⟨hleft, hold⟩ | hwake
  · have hhot := hinv.hot q hpc e hleft hold
    rcases (h.effect q).hot hhot with hhot' | ⟨htakes, rfl | rfl⟩
    · exact hhot'
    · exact absurd (hkeep htakes e hleft) hold
    · exact absurd (hkeep htakes e hleft) hold
  · rw [hwake, Processor.wokenTimer, if_neg hpc]
    exact hot_wakeUp _ _

theorem wakeInv_step (hinv : WakeInv s) (hkeep : KeepsToken s act) (h : Step s act s' es) :
    WakeInv s' where
  drains q := (h.effect q).drains (hinv.drains q)
  fresh _ _ he := h.fresh hinv he
  calling_lt _ _ hcall := h.calling_lt hinv hcall
  target _ _ hcall _ _ he hec := h.target hinv hcall he hec
  hot _ hpc _ he hann := h.hot hinv hkeep hpc he hann

end Steps

/-- **No sleeping on runnable work**, in every run in which nothing is announced before the
descriptor exists and no step takes the token while something announced is left over: when the loop
of `q` is at `epoll_wait` and a coroutine whose `goCo` has returned is in one of its queues, the
timer descriptor is readable or armed for an immediate expiry. -/
theorem no_sleep_on_runnable {s : Sys} (h : Reachable machine KeepsToken s) (q : Pid)
    (hpc : (s.pros q).pc = .epollWait) (e : Entry) (he : e ∈ (s.pros q).queue.contents)
    (hret : s.Announced e) :
    (s.pros q).timer.fd.readable = true ∨
      ∃ a, (s.pros q).timer.fd.armed = some a ∧ a.interval = .immediate := by
  have hinv : WakeInv s := h.invariant wakeInv_init fun hinv hkeep hstep ↦
    wakeInv_step hinv hkeep (.of_step hstep)
  refine hinv.hot q (by rw [hpc]; decide) e ?_ hret
  simpa only [Processor.leftover, leftover, hpc] using he

/-- A coroutine is made after `Timer::init`, before the loop of processor `0` first gets to
`epoll_wait`. -/
def madeBeforeWait : List Action :=
  [.start 0 0, .extCall 0 (.goNewCo 0 7), .ext 0, .ext 0, .tick 1, .loop 0]

theorem no_sleep_on_runnable_made_before_wait : ∃ s, Reachable machine KeepsToken s ∧
    (s.pros 0).queue.contents = [⟨7, 0⟩] ∧
      ((s.pros 0).timer.fd.readable = true ∨
        ∃ a, (s.pros 0).timer.fd.armed = some a ∧ a.interval = .immediate) := by
  have h : Reachable machine KeepsToken
      (machine.after KeepsToken (Sys.fresh 0) madeBeforeWait).1 :=
    ⟨_, _, ⟨0, rfl⟩, run_after madeBeforeWait⟩
  exact ⟨_, h, by decide, no_sleep_on_runnable h 0 (by decide) ⟨7, 0⟩ (by decide) (by decide)⟩

/-- The same, with the expiry come due, and the loop goes on to its next `epoll_wait`. -/
def madeThenWaitTwice : List Action :=
  madeBeforeWait ++ [.expire 0, .epoll 0 []] ++ List.replicate 10 (.loop 0)

/-- The loop sleeps on runnable work: the read has taken the announcement of a coroutine that has
only now come into the running queue. -/
theorem sleeps_on_runnable : ¬∀ s, Reachable machine Always s → ∀ q, (s.pros q).pc = .epollWait →
    ∀ e ∈ (s.pros q).queue.contents, s.Announced e →
      (s.pros q).timer.fd.readable = true ∨
        ∃ a, (s.pros q).timer.fd.armed = some a ∧ a.interval = .immediate := by
  intro hall
  have h : Reachable machine Always
      (machine.after Always (Sys.fresh 0) madeThenWaitTwice).1 :=
    ⟨_, _, ⟨0, rfl⟩, run_after madeThenWaitTwice⟩
  have hcold : ((machine.after Always (Sys.fresh 0) madeThenWaitTwice).1.pros 0).timer.fd =
      ⟨none, false⟩ := by decide
  rcases hall _ h 0 (by decide) ⟨7, 0⟩ (by decide) (by decide) with hread | ⟨a, harmed, -⟩
  · rw [hcold] at hread
    exact absurd hread (by decide)
  · rw [hcold] at harmed
    exact absurd harmed (by simp)

/-- It also does when the coroutine is made before `Timer::init`. -/
example :
    let s := (machine.after Always (Sys.fresh 0)
      [.extCall 0 (.goNewCo 0 7), .ext 0, .ext 0, .start 0 0, .loop 0]).1
    (s.pros 0).pc = .epollWait ∧ (s.pros 0).queue.contents = [⟨7, 0⟩] ∧ s.openCalls = [] ∧
      (s.pros 0).timer.fd = ⟨none, false⟩ := by decide

end Copnet
