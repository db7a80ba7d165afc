import Copnet.Runtime.NoStale

/-!
# One iteration of the loop

What an iteration resumes is settled before it resumes anything. The expired entries and the events
have been collected, and the running queue does not grow, since producers push on the other one. So
there is a list of the resumptions still to come, `LoopState.todo`, from which every step of the
loop only takes what it resumes, whatever the coroutines do that are resumed on the way. At the time
of the collection no coroutine is on that list twice, because each has one source of wake-ups at
most.

Apart from the resumptions an iteration takes a fixed number of steps and those that reclaim what
has returned, at most one for each resumption. So the steps of the loop are bounded by what is there
when the iteration starts, and as the loop can always go on while no coroutine executes, it gets
back to the top.
-/

open Transition Ledger

namespace Copnet

/-! ## What is resumed, and what is switched to -/

/-- The argument of a call of `resume` by the loop of `q`. -/
def Event.resumed (q : Pid) : Event → List (Option Addr)
  | .resume p pCo => if p = q then [pCo] else []
  | _ => []

/-- The coroutine that the thread of `q` switches into. -/
def Event.switched (q : Pid) : Event → List Addr
  | .switchTo p a => if p = q then [a] else []
  | _ => []

def resumes (q : Pid) (evs : List Event) : List (Option Addr) := evs.flatMap (·.resumed q)

def switches (q : Pid) (evs : List Event) : List Addr := evs.flatMap (·.switched q)

@[simp] theorem resumes_nil (q : Pid) : resumes q [] = [] := rfl

@[simp] theorem switches_nil (q : Pid) : switches q [] = [] := rfl

@[simp] theorem resumes_append (q : Pid) (evs evs' : List Event) :
    resumes q (evs ++ evs') = resumes q evs ++ resumes q evs' := List.flatMap_append

@[simp] theorem switches_append (q : Pid) (evs evs' : List Event) :
    switches q (evs ++ evs') = switches q evs ++ switches q evs' := List.flatMap_append

theorem resumes_filter (q : Pid) (evs : List Event) :
    resumes q (evs.filter (·.inLoop q)) = resumes q evs := by
  refine flatMap_filter (fun ev hev ↦ ?_) evs
  cases ev <;> simp_all [Event.inLoop, Event.resumed]

theorem switches_filter (q : Pid) (evs : List Event) :
    switches q (evs.filter (·.inLoop q)) = switches q evs := by
  refine flatMap_filter (fun ev hev ↦ ?_) evs
  cases ev <;> simp_all [Event.inLoop, Event.switched]

section ResumeEvents

variable {q : Pid} {pCo : Option Addr} {es : List Event}

theorem ResumeEvents.resumes (h : ResumeEvents q pCo es) : resumes q es = [pCo] := by
  rcases h with rfl | ⟨a, rfl, rfl⟩ <;> simp [Copnet.resumes, Event.resumed]

theorem ResumeEvents.switches (h : ResumeEvents q pCo es) :
    (switches q es).Sublist ([pCo].filterMap id) := by
  rcases h with rfl | ⟨a, rfl, rfl⟩ <;> simp [Copnet.switches, Event.switched]

theorem resumes_pop {rq : Bool} {a : Addr} : resumes q (.pop q rq a :: es) = resumes q es := rfl

theorem switches_pop {rq : Bool} {a : Addr} : switches q (.pop q rq a :: es) = switches q es := rfl

end ResumeEvents

/-! ## What is still to be resumed -/

def LoopPc.Collected : LoopPc → Prop
  | .start | .top | .epollWait | .getExpired => False
  | _ => True

def LoopPc.Undrained : LoopPc → Prop
  | .drain _ | .pop _ | .flip _ | .events _ | .reclaim _ => False
  | _ => True

def LoopPc.Drained : LoopPc → Prop
  | .flip _ | .events _ | .reclaim _ => True
  | _ => False

namespace LoopState

variable (L : LoopState)

/-- What the loop will still pop from the running queue in this iteration. -/
def toPop : List Addr :=
  match L.pc with
  | .events _ | .reclaim _ => []
  | _ => L.queue.front.map Entry.co

/-- What the loop will still resume in this iteration, once it has collected. -/
def todo : List (Option Addr) :=
  match L.pc with
  | .start | .top | .epollWait | .getExpired | .reclaim _ => []
  | .readTimefd | .rearm => L.timerExpiredCo.map some ++ L.toPop.map some ++ L.actCoroutines
  | .timers i => (L.timerExpiredCo.drop i).map some ++ L.toPop.map some ++ L.actCoroutines
  | .readQue | .drain _ | .pop _ | .flip _ => L.toPop.map some ++ L.actCoroutines
  | .events i => L.actCoroutines.drop i

end LoopState

section Effects

variable {clock : ℤ} {call : ℕ} {q : Pid} {P : Processor} {act : Action} {L : LoopState}
  {es : List Event}

theorem Effect.toPop (h : Effect clock call q P act L es) (hP : P.loopState.Drains)
    (htop : .top q ∉ es) : P.loopState.toPop = pops q es ++ L.toPop := by
  cases h with
  | push cos => simp [LoopState.toPop, Processor.loopState, pops, Event.popped]
  | @pop rq e rest es hexec hpc hcons hes =>
    simp only [LoopState.Drains, Processor.loopState, hpc] at hP
    obtain ⟨rfl, -⟩ := hP
    simp [LoopState.toPop, Processor.loopState, hpc, hes.pops_pop, DoubleBuffer.front, hcons,
      DoubleBuffer.pop]
  | flip hexec hpc =>
    simp only [LoopState.Drains, Processor.loopState, hpc] at hP
    simp [LoopState.toPop, Processor.loopState, hpc, hP.2, pops, Event.popped]
  | timer hexec hpc ha hes | event hexec hpc hpCo hes =>
    simp [LoopState.toPop, Processor.loopState, hpc, hes.pops]
  | reclaimEnd hexec hpc hend => simp at htop
  | stay | wakeUp | runAfter _ | arm _ | expire _ => rfl
  | start _ hpc | top _ hpc | epoll _ hpc | getExpired _ hpc | readTimefd _ hpc | rearm _ hpc
  | timersEnd _ hpc _ | readQue _ hpc | drain _ hpc _ | drainEnd _ hpc _ | eventsEnd _ hpc _
  | reclaim _ hpc _ => simp [LoopState.toPop, Processor.loopState, hpc]

/-- **Nothing re-enters the lists being walked.** Once the loop has collected, what leaves the list
of what is to be resumed is resumed, and nothing is added to it. -/
theorem Effect.todo (h : Effect clock call q P act L es) (hP : P.loopState.Drains)
    (hcol : P.pc.Collected) (htop : .top q ∉ es) :
    L.pc.Collected ∧ L.timerExpiredCo = P.timerExpiredCo ∧ L.actCoroutines = P.actCoroutines ∧
      P.loopState.todo = resumes q es ++ L.todo := by
  have hpop := h.toPop hP htop
  cases h with
  | stay | wakeUp | runAfter _ | arm _ | expire _ => exact ⟨hcol, rfl, rfl, rfl⟩
  | push cos =>
    refine ⟨hcol, rfl, rfl, ?_⟩
    rw [show pops q [Event.push q cos] = [] from rfl, List.nil_append] at hpop
    rw [LoopState.todo, hpop]
    rfl
  | start _ hpc | top _ hpc | epoll _ hpc | getExpired _ hpc =>
    simp [hpc, LoopPc.Collected] at hcol
  | reclaimEnd hexec hpc hend => simp at htop
  -- the head of what is left to resume is resumed
  | @timer i a es hexec hpc ha hes =>
    refine ⟨trivial, rfl, rfl, ?_⟩
    simp [LoopState.todo, LoopState.toPop, Processor.loopState, hpc, hes.resumes,
      Processor.drop_eq_cons ha]
  | @event i pCo es hexec hpc hpCo hes =>
    refine ⟨trivial, rfl, rfl, ?_⟩
    simp [LoopState.todo, Processor.loopState, hpc, hes.resumes, Processor.drop_eq_cons hpCo]
  | @pop rq e rest es hexec hpc hcons hes =>
    refine ⟨trivial, rfl, rfl, ?_⟩
    rw [hes.pops_pop] at hpop
    simp only [LoopState.todo, resumes_pop, hes.resumes]
    simp only [Processor.loopState, hpc] at hpop ⊢
    rw [hpop]
    rfl
  -- the loop turns to its next list, and resumes nothing
  | timersEnd hexec hpc hend =>
    refine ⟨trivial, rfl, rfl, ?_⟩
    simp [LoopState.todo, LoopState.toPop, Processor.loopState, hpc, Processor.drop_eq_nil hend]
  | flip hexec hpc =>
    refine ⟨trivial, rfl, rfl, ?_⟩
    simp only [LoopState.Drains, Processor.loopState, hpc] at hP
    simp [LoopState.todo, LoopState.toPop, Processor.loopState, hpc, hP.2, resumes, Event.resumed]
  | eventsEnd hexec hpc hend =>
    refine ⟨trivial, rfl, rfl, ?_⟩
    simp [LoopState.todo, Processor.loopState, hpc, Processor.drop_eq_nil hend]
  | readTimefd _ hpc | rearm _ hpc | readQue _ hpc | drain _ hpc _ | drainEnd _ hpc _
  | reclaim _ hpc _ =>
    refine ⟨trivial, rfl, rfl, ?_⟩
    simp [LoopState.todo, LoopState.toPop, Processor.loopState, hpc]

theorem Effect.of_not_collected (h : Effect clock call q P act L es) (hcol : ¬P.pc.Collected) :
    resumes q es = [] ∧ (L.pc.Collected → L.pc = .readTimefd) := by
  cases h with
  | timer _ hpc | pop _ hpc | event _ hpc | reclaimEnd _ hpc | flip _ hpc | readTimefd _ hpc
  | rearm _ hpc | timersEnd _ hpc | readQue _ hpc | drain _ hpc | drainEnd _ hpc
  | eventsEnd _ hpc | reclaim _ hpc => simp [hpc, LoopPc.Collected] at hcol
  | getExpired _ _ => exact ⟨rfl, fun _ ↦ rfl⟩
  | start _ _ | top _ _ | epoll _ _ _ => exact ⟨rfl, fun h ↦ h.elim⟩
  | stay | push _ _ | wakeUp | runAfter _ | arm _ | expire _ =>
    exact ⟨rfl, fun h ↦ absurd h hcol⟩

theorem Effect.of_undrained (h : Effect clock call q P act L es) (htop : .top q ∉ es)
    (hL : L.pc.Undrained) : P.pc.Undrained ∧ pops q es = [] := by
  cases h with
  | timer _ hpc _ hes => exact ⟨by simp [hpc, LoopPc.Undrained], hes.pops⟩
  | reclaimEnd _ _ _ => simp at htop
  | stay | push _ _ | wakeUp | runAfter _ | arm _ | expire _ => exact ⟨hL, rfl⟩
  | start _ hpc | top _ hpc | epoll _ hpc | getExpired _ hpc | readTimefd _ hpc | rearm _ hpc
  | timersEnd _ hpc => exact ⟨by simp [hpc, LoopPc.Undrained], rfl⟩
  | readQue | drain | drainEnd | pop | flip | event | eventsEnd | reclaim => exact hL.elim

theorem Effect.switches (h : Effect clock call q P act L es) :
    (switches q es).Sublist ((resumes q es).filterMap id) := by
  cases h with
  | timer _ _ _ hes | pop _ _ _ hes | event _ _ _ hes =>
    simpa only [resumes_pop, switches_pop, hes.resumes] using hes.switches
  | _ => exact .refl _

/-! ## How far the loop is -/

/-- The thread is in its loop, and where that is in its lists. -/
def LoopState.Indexed (L : LoopState) : Prop :=
  match L.pc with
  | .start => False
  | .timers i => i ≤ L.timerExpiredCo.length
  | .events i => i ≤ L.actCoroutines.length
  | _ => True

/-- How many steps of the loop lead from the top to here, if nothing is popped on the way. -/
def LoopState.depth (L : LoopState) : ℕ :=
  match L.pc with
  | .start | .top => 0
  | .epollWait => 1
  | .getExpired => 2
  | .readTimefd => 3
  | .rearm => 4
  | .timers i => 5 + i
  | .readQue => 6 + L.timerExpiredCo.length
  | .drain _ => 7 + L.timerExpiredCo.length
  | .pop _ | .flip _ => 8 + L.timerExpiredCo.length
  | .events i => 9 + L.timerExpiredCo.length + i
  | .reclaim i => 10 + L.timerExpiredCo.length + L.actCoroutines.length + i

/-- The lists of the iteration are no longer than what they are collected from. -/
def LoopState.Fed (heap maxEvents : ℕ) (L : LoopState) : Prop :=
  match L.pc with
  | .start | .top | .epollWait =>
    L.timer.heap.sleepers.length ≤ heap ∧ L.maxEvents ≤ maxEvents
  | .getExpired => L.timer.heap.sleepers.length ≤ heap ∧ L.actCoroutines.length ≤ maxEvents
  | _ => L.timerExpiredCo.length ≤ heap ∧ L.actCoroutines.length ≤ maxEvents

theorem Effect.depth (h : Effect clock call q P act L es) (hP : P.loopState.Indexed)
    (htop : .top q ∉ es) :
    L.Indexed ∧ P.loopState.depth + (if act.ofLoop q then 1 else 0) =
      L.depth + 2 * (pops q es).length := by
  cases h with
  | stay hact | push _ hact | wakeUp hact =>
    rw [hact]
    exact ⟨hP, rfl⟩
  | runAfter _ | arm _ | expire _ => exact ⟨hP, rfl⟩
  | reclaimEnd _ _ _ => simp at htop
  | start _ hpc => simp [LoopState.Indexed, Processor.loopState, hpc] at hP
  | @timer i a es hexec hpc ha hes =>
    obtain ⟨hlt, -⟩ := List.getElem?_eq_some_iff.mp ha
    refine ⟨hlt, ?_⟩
    simp [LoopState.depth, Processor.loopState, hpc, hes.pops, Action.ofLoop]
    omega
  | timersEnd hexec hpc hend =>
    have hle := List.getElem?_eq_none_iff.mp hend
    simp only [LoopState.Indexed, Processor.loopState, hpc] at hP
    refine ⟨trivial, ?_⟩
    simp [LoopState.depth, Processor.loopState, hpc, Action.ofLoop]
    omega
  | @event i pCo es hexec hpc hpCo hes =>
    obtain ⟨hlt, -⟩ := List.getElem?_eq_some_iff.mp hpCo
    refine ⟨hlt, ?_⟩
    simp [LoopState.depth, Processor.loopState, hpc, hes.pops, Action.ofLoop]
    omega
  | eventsEnd hexec hpc hend =>
    have hle := List.getElem?_eq_none_iff.mp hend
    simp only [LoopState.Indexed, Processor.loopState, hpc] at hP
    refine ⟨trivial, ?_⟩
    simp [LoopState.depth, Processor.loopState, hpc, Action.ofLoop]
    omega
  | pop hexec hpc hcons hes =>
    refine ⟨trivial, ?_⟩
    simp [LoopState.depth, Processor.loopState, hpc, hes.pops_pop, Action.ofLoop]
    omega
  | flip _ hpc =>
    refine ⟨Nat.zero_le _, ?_⟩
    simp [LoopState.depth, Processor.loopState, hpc, pops, Event.popped, Action.ofLoop]
    omega
  | rearm _ hpc =>
    refine ⟨Nat.zero_le _, ?_⟩
    simp [LoopState.depth, Processor.loopState, hpc, Action.ofLoop]
  | top _ hpc | epoll _ hpc | getExpired _ hpc | readTimefd _ hpc | readQue _ hpc | drain _ hpc
  | drainEnd _ hpc | reclaim _ hpc =>
    refine ⟨trivial, ?_⟩
    simp [LoopState.depth, Processor.loopState, hpc, Action.ofLoop]
    try omega

theorem Effect.fed (h : Effect clock call q P act L es) (hpaced : P.Paced)
    (hcleared : P.loopState.Cleared) (htop : .top q ∉ es) {heap maxEvents : ℕ}
    (hP : P.loopState.Fed heap maxEvents) : L.Fed heap maxEvents := by
  cases h with
  | stay | push _ _ => exact hP
  | reclaimEnd _ _ _ => simp at htop
  | wakeUp hact => exact hP
  | arm hexec => simpa only [LoopState.Fed, Processor.loopState, Timer.heap_rearmFor] using hP
  | expire hexp =>
    simpa only [LoopState.Fed, Processor.loopState, (Timer.expire_eq_some _ hexp).1] using hP
  | runAfter hexec =>
    -- the heap grows only after it has been collected from
    have hres : P.pc.Resuming := hpaced (by simp [hexec])
    cases hpc : P.pc <;> simp_all [LoopPc.Resuming, LoopState.Fed, Processor.loopState]
  | start hexec hpc | top hexec hpc => simpa only [LoopState.Fed, Processor.loopState, hpc] using hP
  | @epoll fds hexec hpc hrep =>
    simp only [LoopState.Fed, LoopState.Cleared, Processor.loopState, hpc] at hP hcleared ⊢
    refine ⟨hP.1, ?_⟩
    have hle : (P.epoller.active fds).length ≤ fds.length := List.length_filterMap_le _ _
    rw [hcleared.1, List.nil_append]
    have := hrep.2.1
    omega
  | getExpired hexec hpc =>
    simp only [LoopState.Fed, LoopState.Cleared, Processor.loopState, hpc] at hP hcleared ⊢
    refine ⟨?_, hP.2⟩
    have hsplit := congrArg List.length (P.timer.heap.expired_append (Time.now clock))
    rw [List.length_append] at hsplit
    rw [hcleared, List.nil_append, Timer.expiredCo]
    omega
  | readTimefd _ hpc | rearm _ hpc | timer _ hpc | timersEnd _ hpc | readQue _ hpc | drain _ hpc
  | drainEnd _ hpc | pop _ hpc | flip _ hpc | event _ hpc | eventsEnd _ hpc | reclaim _ hpc =>
    simpa only [LoopState.Fed, Processor.loopState, hpc] using hP

end Effects

/-! ## What is reclaimed -/

/-- No more than `n` coroutines have returned or may still return, and the loop is within its list
of those that have. -/
structure Processor.Reclaims (P : Processor) (n : ℕ) : Prop where
  returned : (P.removedCo.length + if P.exec = none then 0 else 1) ≤ n
  indexed : ∀ i, P.pc = .reclaim i → i ≤ P.removedCo.length

theorem Processor.Reclaims.mono {P : Processor} {n m : ℕ} (h : P.Reclaims n) (hnm : n ≤ m) :
    P.Reclaims m := ⟨h.returned.trans hnm, h.indexed⟩

theorem ThreadEffect.reclaims {q : Pid} {P P' : Processor} {es : List Event} {n : ℕ}
    (h : ThreadEffect q P P' es) (hP : P.Reclaims n) :
    P'.Reclaims (n + (switches q es).length) := by
  have hret := hP.returned
  cases h with
  | stay hexec hpc hrem =>
    have hold : P'.Reclaims n := by
      constructor
      · simpa only [hrem, hexec] using hret
      · intro i hi
        rw [hrem]
        exact hP.indexed i (hpc.symm.trans hi)
    exact hold.mono (Nat.le_add_right _ _)
  | suspend hexec hexec' hpc hrem =>
    constructor
    · rw [if_pos hexec', hrem]
      omega
    · intro i hi
      rw [hrem]
      exact hP.indexed i (hpc.symm.trans hi)
  | ret hexec hcur hexec' hpc hrem =>
    rw [if_neg hexec] at hret
    constructor
    · rw [if_pos hexec', hrem, List.length_append, List.length_singleton]
      omega
    · intro i hi
      have := hP.indexed i (hpc.symm.trans hi)
      rw [hrem, List.length_append]
      omega
  | init hexec hexec' hpc hpc' hrem =>
    constructor
    · rw [if_pos hexec', hrem]
      omega
    · intro i hi
      simp [hpc'] at hi
  | loop hexec hexec' hpc hindex hrem =>
    constructor
    · rw [if_pos hexec', hrem]
      omega
    · intro i hi
      rw [hrem]
      exact hindex i hi
  | resume hexec hexec' hpc hrem =>
    rw [if_pos hexec] at hret
    constructor
    · rcases hexec' with hnone | ⟨a, ha⟩
      · rw [if_pos hnone, hrem]
        omega
      · have hmem : a ∈ switches q es := List.mem_flatMap.mpr ⟨_, ha, by simp [Event.switched]⟩
        have hpos := List.length_pos_of_mem hmem
        rw [hrem]
        split <;> omega
    · intro i hi
      rw [hi] at hpc
      exact hpc.elim
  | top hexec hexec' hpc hrem =>
    constructor
    · simp [hexec', hrem]
    · intro i hi
      simp [hpc] at hi

/-! ## The course of an iteration -/

theorem Source.count_todo (src : Source) (p q : Pid) :
    (src.places p).count (.pro q .sleep) + (src.places p).count (.pro q .queue) +
      (src.places p).count (.pro q .act) ≤ 1 := by
  rcases src with _ | _ | _ | ⟨fd, _ | _⟩ | m
  all_goals by_cases hq : p = q <;> simp [Source.places, hq]

/-- In total a pointer is at most once among what sleeps, what is queued and what has been
reported. -/
theorem Fits.count_todo {s : Sys} {a : Addr} {ℓ : Life} (hf : Fits s a ℓ) (q : Pid) :
    s.ledger (.pro q .sleep) a + s.ledger (.pro q .queue) a + s.ledger (.pro q .act) a ≤ 1 := by
  rw [hf.places, hf.places, hf.places]
  cases ℓ with
  | exec c code src | parked c src => simpa [Life.places] using src.count_todo c.pMyProcessor q
  | queued c => exact Source.queue.count_todo c.pMyProcessor q
  | built c maker => cases maker <;> simp [Life.places, Maker.place]
  | free | returned c => simp [Life.places]

/-- When the loop has collected, no pointer is on its lists twice. -/
theorem Lives.nodup_collected {s : Sys} {L : Addr → Life} (hL : Lives s L) {p : Pid}
    (hpc : (s.pros p).pc = .readTimefd) :
    ((s.pros p).timerExpiredCo ++ (s.pros p).queue.front.map Entry.co ++
      (s.pros p).actCoroutines.filterMap id).Nodup := by
  rw [List.nodup_iff_count_le_one]
  intro a
  have hcount := (hL.fits a).count_todo p
  simp only [Sys.ledger, Processor.ledger, Processor.expiredRest, Processor.activeRest, hpc,
    DoubleBuffer.contents, List.map_append, List.count_append] at hcount ⊢
  omega

/-- Once the loop of `p` has collected, what it has resumed and what it is still to resume are what
it has collected, and that has no pointer twice; `new` is what the running queue held. -/
structure Processor.Listed (p : Pid) (new : List Addr) (evs : List Event) (P : Processor) :
    Prop where
  /-- Nothing is resumed before. -/
  collecting : ¬P.pc.Collected → resumes p evs = []
  /-- What has been resumed, and what is still to be. -/
  collected : P.pc.Collected → resumes p evs ++ P.loopState.todo =
    P.timerExpiredCo.map some ++ new.map some ++ P.actCoroutines
  /-- No pointer twice. -/
  distinct : P.pc.Collected → (P.timerExpiredCo ++ new ++ P.actCoroutines.filterMap id).Nodup

theorem Processor.Listed.step {p : Pid} {new : List Addr} {evs es : List Event}
    {P P' : Processor} {clock : ℤ} {call : ℕ} {act : Action} (h : P.Listed p new evs)
    (heff : Effect clock call p P act P'.loopState (es.filter (·.inLoop p)))
    (hdrains : P.loopState.Drains) (htop : .top p ∉ es.filter (·.inLoop p))
    (hpopped : new = pops p (evs ++ es) ++ P'.loopState.toPop)
    (hpops : P'.pc.Undrained → pops p (evs ++ es) = [])
    (hnodup : P'.pc = .readTimefd → (P'.timerExpiredCo ++ P'.queue.front.map Entry.co ++
      P'.actCoroutines.filterMap id).Nodup) : P'.Listed p new (evs ++ es) := by
  by_cases hcol : P.pc.Collected
  · obtain ⟨hcol', hexp, hact, htodo⟩ := heff.todo hdrains hcol htop
    rw [resumes_filter] at htodo
    have hexp' : P'.timerExpiredCo = P.timerExpiredCo := hexp
    have hact' : P'.actCoroutines = P.actCoroutines := hact
    refine ⟨fun hno ↦ absurd hcol' hno, ?_, ?_⟩
    · intro _
      rw [resumes_append, List.append_assoc, ← htodo, hexp', hact']
      exact h.collected hcol
    · intro _
      rw [hexp', hact']
      exact h.distinct hcol
  · obtain ⟨hres', hread⟩ := heff.of_not_collected hcol
    rw [resumes_filter] at hres'
    have hres : resumes p (evs ++ es) = [] := by
      rw [resumes_append, h.collecting hcol, hres', List.append_nil]
    have hfront : P'.pc = .readTimefd → new = P'.queue.front.map Entry.co := fun hpc ↦ by
      rw [hpops (by simp [hpc, LoopPc.Undrained]), List.nil_append] at hpopped
      simpa [LoopState.toPop, Processor.loopState, hpc] using hpopped
    refine ⟨fun _ ↦ hres, ?_, ?_⟩
    · intro hcol'
      have hpc : P'.pc = .readTimefd := hread hcol'
      simp [hres, hfront hpc, LoopState.todo, LoopState.toPop, Processor.loopState, hpc]
    · intro hcol'
      have hpc : P'.pc = .readTimefd := hread hcol'
      rw [hfront hpc]
      exact hnodup hpc

/-- How far an iteration of the loop of `p` has come in which the running queue held `new` and the
heap and the epoller could yield no more than `heap` and `maxEvents` entries. -/
structure Iteration (p : Pid) (new : List Addr) (heap maxEvents : ℕ)
    (tr : List (Action × List Event)) (s : Sys) : Prop where
  lives : ∃ L, Lives s L
  drains : (s.pros p).loopState.Drains
  /-- The drain pops what was there. -/
  popped : new = pops p (events tr) ++ (s.pros p).loopState.toPop
  undrained : (s.pros p).pc.Undrained → pops p (events tr) = []
  listed : (s.pros p).Listed p new (events tr)
  /-- Only what is resumed is switched into. -/
  switched : (switches p (events tr)).Sublist ((resumes p (events tr)).filterMap id)
  indexed : (s.pros p).loopState.Indexed
  /-- Where the loop stands tells how many steps it has taken. -/
  depth : tr.countP (·.1.ofLoop p) =
    (s.pros p).loopState.depth + 2 * (pops p (events tr)).length
  fed : (s.pros p).loopState.Fed heap maxEvents
  reclaims : (s.pros p).Reclaims (switches p (events tr)).length

namespace Iteration

variable {s s' : Sys} {p : Pid} {new : List Addr} {heap maxEvents : ℕ}
  {tr : List (Action × List Event)} {act : Action} {es : List Event}

theorem start (h : Reachable machine Disciplined s) (hpc : (s.pros p).pc = .top) :
    Iteration p ((s.pros p).queue.front.map Entry.co) (s.pros p).timer.heap.sleepers.length
      (s.pros p).epoller.maxEvents [] s := by
  obtain ⟨L, hL⟩ := lives_of_reachable (fun _ _ h ↦ h) h
  have hexec : (s.pros p).exec = none := by
    by_contra hne
    have hres := hL.paced p hne
    simp [hpc, LoopPc.Resuming] at hres
  have hcol : ¬(s.pros p).pc.Collected := by simp [hpc, LoopPc.Collected]
  obtain ⟨s₀, tr₀, hinit, hrun⟩ := h
  refine ⟨⟨L, hL⟩, drains_run hrun (drains_init hinit p), ?_,
    fun _ ↦ rfl, ⟨fun _ ↦ rfl, fun h ↦ absurd h hcol, fun h ↦ absurd h hcol⟩, .slnil,
    ?_, ?_, ?_, ?_, ?_⟩
  · simp [LoopState.toPop, Processor.loopState, hpc]
  · simp [LoopState.Indexed, Processor.loopState, hpc]
  · simp [LoopState.depth, Processor.loopState, hpc]
  · simp [LoopState.Fed, Processor.loopState, hpc]
  · simp [swept_of_reachable ⟨s₀, tr₀, hinit, hrun⟩ p (.inr hpc), hexec]
  · simp [hpc]

theorem step (h : Iteration p new heap maxEvents tr s) (hdisc : Disciplined s act)
    (hstep : machine.step s act = some (s', es)) (htop : .top p ∉ es) :
    Iteration p new heap maxEvents (tr ++ [(act, es)]) s' := by
  have hs := Step.of_step hstep
  have heff := hs.effect p
  have htop' : .top p ∉ es.filter (·.inLoop p) := fun hmem ↦ htop (List.mem_of_mem_filter hmem)
  obtain ⟨L, hL⟩ := h.lives
  obtain ⟨L', hL', -⟩ := hs.lives hdisc hL
  have hpop := heff.toPop h.drains htop'
  obtain ⟨hindexed, hdepth⟩ := heff.depth h.indexed htop'
  rw [pops_filter] at hpop hdepth
  have hsw := heff.switches
  rw [switches_filter, resumes_filter] at hsw
  -- what has been popped and what is still to be popped are the entries the iteration began with
  have hpopped : new = pops p (events tr ++ es) ++ (s'.pros p).loopState.toPop := by
    rw [pops_append, List.append_assoc, ← hpop]
    exact h.popped
  have hpops : (s'.pros p).pc.Undrained → pops p (events tr ++ es) = [] := fun hun ↦ by
    obtain ⟨hun', hnil⟩ := heff.of_undrained htop' hun
    rw [pops_filter] at hnil
    rw [pops_append, h.undrained hun', hnil, List.append_nil]
  have hevents : events (tr ++ [(act, es)]) = events tr ++ es := by
    rw [events_append, events_singleton]
  refine ⟨⟨L', hL'⟩, heff.drains h.drains, ?_, ?_, ?_, ?_, hindexed, ?_,
    heff.fed (hL.paced p) (hL.cleared p) htop' h.fed, ?_⟩
  all_goals rw [hevents]
  · exact hpopped
  · exact hpops
  · exact h.listed.step heff h.drains htop' hpopped hpops hL'.nodup_collected
  · rw [switches_append, resumes_append, List.filterMap_append]
    exact h.switched.append hsw
  · rw [List.countP_append, List.countP_singleton, h.depth, pops_append, List.length_append]
    dsimp only
    omega
  · rw [switches_append, List.length_append]
    exact (hs.threadEffect p).reclaims h.reclaims

/-- **The course of an iteration**, up to where it ends. -/
theorem of_run {s₁ : Sys} (h₁ : Reachable machine Disciplined s₁) (hpc : (s₁.pros p).pc = .top)
    (h : Run machine Disciplined s₁ tr s) (htop : .top p ∉ events tr) :
    Iteration p ((s₁.pros p).queue.front.map Entry.co) (s₁.pros p).timer.heap.sleepers.length
      (s₁.pros p).epoller.maxEvents tr s := by
  induction h with
  | nil => exact start h₁ hpc
  | snoc hr hc hst ih =>
    rw [events_append, events_singleton, List.mem_append, not_or] at htop
    exact (ih htop.1).step hc hst htop.2

theorem nodup_switches (h : Iteration p new heap maxEvents tr s) :
    (switches p (events tr)).Nodup := by
  refine h.switched.nodup ?_
  by_cases hcol : (s.pros p).pc.Collected
  · have hall := congrArg (List.filterMap id) (h.listed.collected hcol)
    simp only [List.filterMap_append, List.filterMap_map, Function.id_comp,
      List.filterMap_some] at hall
    have hdistinct := h.listed.distinct hcol
    rw [← hall] at hdistinct
    exact (List.nodup_append.mp hdistinct).1
  · rw [h.listed.collecting hcol]
    exact .nil

theorem depth_le (h : Iteration p new heap maxEvents tr s) :
    (s.pros p).loopState.depth ≤ 10 + heap + maxEvents + (s.pros p).removedCo.length := by
  have hindexed := h.indexed
  have hfed := h.fed
  have hreclaim := h.reclaims.indexed
  cases hpc : (s.pros p).pc with
  | start => simp [LoopState.Indexed, Processor.loopState, hpc] at hindexed
  | reclaim i =>
    have hle := hreclaim i hpc
    simp only [LoopState.Fed, LoopState.depth, Processor.loopState, hpc] at hfed ⊢
    omega
  | _ =>
    simp only [LoopState.Indexed, LoopState.Fed, LoopState.depth, Processor.loopState, hpc]
      at hindexed hfed ⊢
    omega

theorem length_resumes_le (h : Iteration p new heap maxEvents tr s) :
    (resumes p (events tr)).length ≤ heap + new.length + maxEvents := by
  by_cases hcol : (s.pros p).pc.Collected
  · have hlen := congrArg List.length (h.listed.collected hcol)
    simp only [List.length_append, List.length_map] at hlen
    have hfed := h.fed
    cases hpc : (s.pros p).pc
    case start | top | epollWait | getExpired => simp [hpc, LoopPc.Collected] at hcol
    all_goals
      simp only [LoopState.Fed, Processor.loopState, hpc] at hfed
      omega
  · rw [h.listed.collecting hcol]
    exact Nat.zero_le _

theorem countP_le (h : Iteration p new heap maxEvents tr s) :
    tr.countP (·.1.ofLoop p) ≤ 10 + 2 * heap + 3 * new.length + 2 * maxEvents := by
  have hpops : (pops p (events tr)).length ≤ new.length := by
    rw [h.popped, List.length_append]
    omega
  have hsw : (switches p (events tr)).length ≤ (resumes p (events tr)).length :=
    h.switched.length_le.trans (List.length_filterMap_le _ _)
  have hret := h.reclaims.returned
  have hdepth := h.depth_le
  have hres := h.length_resumes_le
  rw [h.depth]
  split at hret <;> omega

end Iteration

/-! ## The loop can always go on -/

theorem Sys.exists_resume {s : Sys} {p : Pid} (pCo : Option Addr)
    (h : ∀ a ∈ (s.pros p).coSet, ∃ c, s.cos a = some c ∧ c.pMyProcessor = p) :
    ∃ r, s.resume p pCo = some r := by
  cases pCo with
  | none => exact ⟨_, rfl⟩
  | some a =>
    by_cases hset : a ∈ (s.pros p).coSet
    · obtain ⟨c, hco, hp⟩ := h a hset
      have hco' : (s.setCur p a).cos a = some c := hco
      have hcur : ((s.setCur p a).pros c.pMyProcessor).pCurCoroutine = some a := by
        rw [hp, Sys.setCur, Sys.pros_setPro_self]
      simp only [Sys.resume, if_pos hset, Sys.coResume, hco']
      cases c.status <;> simp [hcur]
    · exact ⟨_, by rw [Sys.resume, if_neg hset]⟩

section Progress

variable {s : Sys} {L : Addr → Life} {p : Pid}

/-- Outside `epoll_wait` the loop can always take its next step: it finds something to pop where it
pops, and what it follows a pointer to is there. -/
theorem Lives.exists_loopStep (hL : Lives s L) (hdrains : (s.pros p).loopState.Drains)
    (hstart : (s.pros p).pc ≠ .start) (hpc : (s.pros p).pc ≠ .epollWait) :
    ∃ r, s.loopStep p = some r := by
  cases hpc' : (s.pros p).pc with
  | start => exact absurd hpc' hstart
  | epollWait => exact absurd hpc' hpc
  | timers i =>
    simp only [Sys.loopStep, hpc']
    cases (s.pros p).timerExpiredCo[i]? with
    | none => exact ⟨_, rfl⟩
    | some a =>
      apply Sys.exists_resume _
      intro b hb
      exact hL.of_coSet (by simpa [Sys.setPc] using hb)
  | events i =>
    simp only [Sys.loopStep, hpc']
    cases (s.pros p).actCoroutines[i]? with
    | none => exact ⟨_, rfl⟩
    | some pCo =>
      apply Sys.exists_resume _
      intro b hb
      exact hL.of_coSet (by simpa [Sys.setPc] using hb)
  -- the entry that `empty` has seen is still there, and nobody else pops
  | pop rq =>
    simp only [LoopState.Drains, Processor.loopState, hpc'] at hdrains
    obtain ⟨rfl, hne⟩ := hdrains
    obtain ⟨e, rest, hcons⟩ := List.exists_cons_of_ne_nil hne
    have hbufs : (s.pros p).queue.bufs (s.pros p).queue.running = e :: rest := hcons
    simp only [Sys.loopStep, hpc', hbufs]
    obtain ⟨r, hr⟩ := Sys.exists_resume (s := s.setPro p { s.pros p with
      queue := (s.pros p).queue.pop (s.pros p).queue.running
      coSet := insert e.co (s.pros p).coSet
      pc := .drain (s.pros p).queue.running }) (p := p) (some e.co) fun b hb ↦ by
        rw [Sys.pros_setPro_self, Finset.mem_insert] at hb
        rcases hb with rfl | hb
        · have hne : s.ledger (.pro p .queue) e.co ≠ 0 := by
            simp [Sys.ledger, Processor.ledger, DoubleBuffer.contents, hcons]
          exact hL.owner hne (by simp)
        · exact hL.of_coSet hb
    rw [hr]
    exact ⟨_, rfl⟩
  -- what is on `removedCo_` is a coroutine, so there is something to delete
  | reclaim i =>
    simp only [Sys.loopStep, hpc']
    cases hi : (s.pros p).removedCo[i]? with
    | none => exact ⟨_, rfl⟩
    | some a =>
      have hne : s.ledger (.pro p .dead) a ≠ 0 := by
        simp [Sys.ledger, Processor.ledger, Processor.removedRest, hpc',
          Processor.drop_eq_cons hi]
      obtain ⟨c, hco, -⟩ := hL.owner hne (by simp)
      simp only [hco]
      exact ⟨_, rfl⟩
  | drain rq =>
    simp only [Sys.loopStep, hpc']
    split <;> exact ⟨_, rfl⟩
  | _ =>
    simp only [Sys.loopStep, hpc']
    exact ⟨_, rfl⟩

/-- While no coroutine executes on its thread, the loop of `p` can take its next step. -/
theorem Lives.exists_step (hL : Lives s L) (hdrains : (s.pros p).loopState.Drains)
    (hexec : (s.pros p).exec = none) :
    ∃ act s' es, act.ofLoop p ∧ Disciplined s act ∧ machine.step s act = some (s', es) := by
  by_cases hstart : (s.pros p).pc = .start
  · have hstep : ∃ r, machine.step s (.start p 0) = some r :=
      ⟨_, (if_pos hexec).trans (if_pos hstart)⟩
    obtain ⟨⟨s', es⟩, hr⟩ := hstep
    exact ⟨.start p 0, s', es, by simp [Action.ofLoop], trivial, hr⟩
  by_cases hpc : (s.pros p).pc = .epollWait
  · have hstep : ∃ r, machine.step s (.epoll p []) = some r :=
      ⟨_, (if_pos hexec).trans (if_pos ⟨hpc, .nil, Nat.zero_le _, by simp⟩)⟩
    obtain ⟨⟨s', es⟩, hr⟩ := hstep
    exact ⟨.epoll p [], s', es, by simp [Action.ofLoop], trivial, hr⟩
  · obtain ⟨⟨s', es⟩, hr⟩ := hL.exists_loopStep hdrains hstart hpc
    exact ⟨.loop p, s', es, by simp [Action.ofLoop], trivial, (if_pos hexec).trans hr⟩

end Progress

/-! ## The iteration as a whole -/

theorem LoopState.toPop_of_drained {L : LoopState} (h : L.Drains) (hpc : L.pc.Drained) :
    L.toPop = [] := by
  cases hpc' : L.pc with
  | flip rq =>
    simp only [LoopState.Drains, hpc'] at h
    simp [LoopState.toPop, hpc', h.2]
  | events i | reclaim i => simp [LoopState.toPop, hpc']
  | _ => simp [hpc', LoopPc.Drained] at hpc

/-- **One iteration resumes each coroutine at most once and is bounded.** From any state at the top
of the loop on, whatever the coroutines do that are resumed and whatever other threads do, until the
loop is back at the top: no coroutine is switched into twice; the drain pops what the running queue
held when the drain began; in the end, the coroutines resumed are those that had expired, those
popped and those of the collected events; the steps of the loop are bounded by the sleepers, the
new coroutines and the event buffer at the start; and while no coroutine executes on the thread, the
loop can take its next step. So, if each coroutine resumed suspends or returns and the thread then
goes on, the loop gets back to the top. -/
theorem iteration_bounded {s₁ : Sys} {p : Pid} (h₁ : Reachable machine Disciplined s₁)
    (htop : (s₁.pros p).pc = .top) :
    (∀ tr s, Run machine Disciplined s₁ tr s → .top p ∉ events tr →
      (switches p (events tr)).Nodup ∧
      (∀ tr₁ s₂ tr₂, Run machine Disciplined s₁ tr₁ s₂ → Run machine Disciplined s₂ tr₂ s →
        tr = tr₁ ++ tr₂ → (s₂.pros p).pc = .readQue → (s.pros p).pc.Drained →
          pops p (events tr) = (s₂.pros p).queue.front.map Entry.co) ∧
      (∀ i, (s.pros p).pc = .reclaim i →
        resumes p (events tr) = (s.pros p).timerExpiredCo.map some ++
          (pops p (events tr)).map some ++ (s.pros p).actCoroutines) ∧
      tr.countP (·.1.ofLoop p) ≤ 10 + 2 * (s₁.pros p).timer.heap.sleepers.length +
        3 * (s₁.pros p).queue.front.length + 2 * (s₁.pros p).epoller.maxEvents ∧
      ((s.pros p).exec = none →
        ∃ act s' es, act.ofLoop p ∧ Disciplined s act ∧ machine.step s act = some (s', es))) ∧
    ∀ x : Execution machine Disciplined, x.state 0 = s₁ →
      (∀ n, ∃ m, n ≤ m ∧ ((x.state m).pros p).exec = none) →
      (∀ n, ((x.state n).pros p).exec = none → ∃ m, n ≤ m ∧ (x.action m).ofLoop p) →
      ∃ n, .top p ∈ x.out n := by
  constructor
  · intro tr s hrun hno
    have hiter := Iteration.of_run h₁ htop hrun hno
    obtain ⟨L, hL⟩ := hiter.lives
    refine ⟨hiter.nodup_switches, ?_, ?_, ?_, hL.exists_step hiter.drains⟩
    -- the queue that is drained is the one read, with what had been pushed by then
    · rintro tr₁ s₂ tr₂ hrun₁ - rfl hread hdrained
      have hno₁ : .top p ∉ events tr₁ := fun hmem ↦ hno (by
        rw [events_append]
        exact List.mem_append_left _ hmem)
      have hiter₁ := Iteration.of_run h₁ htop hrun₁ hno₁
      have hnew₁ := hiter₁.popped
      rw [hiter₁.undrained (by simp [hread, LoopPc.Undrained]), List.nil_append] at hnew₁
      have hnew := hiter.popped
      rw [LoopState.toPop_of_drained hiter.drains hdrained, List.append_nil, hnew₁] at hnew
      rw [← hnew]
      simp [LoopState.toPop, Processor.loopState, hread]
    · intro i hpc
      have hall := hiter.listed.collected (by simp [hpc, LoopPc.Collected])
      have hnew := hiter.popped
      rw [LoopState.toPop_of_drained hiter.drains (by simp [Processor.loopState, hpc,
        LoopPc.Drained]), List.append_nil] at hnew
      rw [hnew] at hall
      simpa [LoopState.todo, Processor.loopState, hpc] using hall
    · simpa only [List.length_map] using hiter.countP_le
  -- an iteration that never ends would take more steps than there are
  · rintro x rfl hreturns hgoes
    refine x.eventually (q := (·.ofLoop p)) (fun n ↦ ?_) fun n hno ↦
      (Iteration.of_run h₁ htop (x.run n) hno).countP_le
    obtain ⟨m, hm, hexec⟩ := hreturns n
    obtain ⟨k, hk, hof⟩ := hgoes m hexec
    exact ⟨k, hm.trans hk, hof⟩

/-- A coroutine is made for processor `0`, whose loop completes an iteration. -/
def toTop : List Action :=
  [.start 0 0, .extCall 0 (.goNewCo 0 7), .ext 0, .ext 0, .loop 0, .epoll 0 []] ++
    List.replicate 9 (.loop 0)

/-- The next iteration, as far as the drain. -/
def toReadQue : List Action := [.loop 0, .epoll 0 []] ++ List.replicate 4 (.loop 0)

/-- The coroutine is popped, calls `co_sleep(0)`, and the iteration comes to its end. -/
def toReclaim : List Action :=
  List.replicate 3 (.loop 0) ++ [.user 0 (.sleep 0), .co 0, .co 0, .co 0] ++
    List.replicate 3 (.loop 0)

theorem iteration_bounded_asleep : ∃ s₁ tr₁ s₂ tr₂ s, Reachable machine Disciplined s₁ ∧
    Run machine Disciplined s₁ tr₁ s₂ ∧ Run machine Disciplined s₂ tr₂ s ∧
      (s.pros 0).timer.heap.sleepers = [7] ∧ switches 0 (events (tr₁ ++ tr₂)) = [7] ∧
      (switches 0 (events (tr₁ ++ tr₂))).Nodup ∧
      pops 0 (events (tr₁ ++ tr₂)) = (s₂.pros 0).queue.front.map Entry.co := by
  let r₁ := machine.after Disciplined (Sys.fresh 0) toTop
  have h₁ : Reachable machine Disciplined r₁.1 := ⟨_, _, ⟨0, rfl⟩, run_after toTop⟩
  let r₂ := machine.after Disciplined r₁.1 toReadQue
  have h₂ : Run machine Disciplined r₁.1 r₂.2 r₂.1 := run_after toReadQue
  let r₃ := machine.after Disciplined r₂.1 toReclaim
  have h₃ : Run machine Disciplined r₂.1 r₃.2 r₃.1 := run_after toReclaim
  have hpc : (r₃.1.pros 0).pc = .reclaim 0 := by decide
  obtain ⟨hnodup, hpops, -⟩ :=
    (iteration_bounded h₁ (p := 0) (by decide)).1 _ _ (h₂.trans h₃) (by decide)
  refine ⟨_, _, _, _, _, h₁, h₂, h₃, by decide, by decide, hnodup, ?_⟩
  exact hpops _ _ _ h₂ h₃ rfl (by decide) (by rw [hpc]; trivial)

end Copnet
