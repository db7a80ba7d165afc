import Copnet.Runtime.Effect

/-!
# The run queue is one FIFO

The loop drains one buffer without the lock while producers, among them the coroutines it resumes
on the way, append to the other. What makes the two buffers one queue is that the index the loop
read before the drain is still the running index when it pops and when it flips, and that it flips
only a buffer it has found empty: `LoopState.Drains`. Nobody but the loop changes the running
index, so each step of anyone keeps this.

Conservation is then `Run.queue_conservation`, and the last part of the main theorem tracks one
prefix of everything pushed through two flips.
-/

open Transition

namespace Copnet

/-! ## What is pushed and popped -/

/-- What the event pushes on the receiving queue of `q`. -/
def Event.pushed (q : Pid) : Event → List Addr
  | .push p cos => if p = q then cos else []
  | _ => []

/-- What the event pops from a queue of `q`. -/
def Event.popped (q : Pid) : Event → List Addr
  | .pop p _ a => if p = q then [a] else []
  | _ => []

/-- The coroutines pushed on `q`, in lock order. -/
def pushes (q : Pid) (evs : List Event) : List Addr := evs.flatMap (·.pushed q)

/-- The coroutines popped by the loop of `q`. -/
def pops (q : Pid) (evs : List Event) : List Addr := evs.flatMap (·.popped q)

@[simp] theorem pushes_nil (q : Pid) : pushes q [] = [] := rfl

@[simp] theorem pops_nil (q : Pid) : pops q [] = [] := rfl

@[simp] theorem pushes_append (q : Pid) (evs evs' : List Event) :
    pushes q (evs ++ evs') = pushes q evs ++ pushes q evs' := List.flatMap_append

@[simp] theorem pops_append (q : Pid) (evs evs' : List Event) :
    pops q (evs ++ evs') = pops q evs ++ pops q evs' := List.flatMap_append

theorem pushes_filter (q : Pid) (evs : List Event) :
    pushes q (evs.filter (·.inLoop q)) = pushes q evs := by
  refine flatMap_filter (fun ev hev ↦ ?_) evs
  cases ev <;> simp_all [Event.inLoop, Event.pushed]

theorem pops_filter (q : Pid) (evs : List Event) :
    pops q (evs.filter (·.inLoop q)) = pops q evs := by
  refine flatMap_filter (fun ev hev ↦ ?_) evs
  cases ev <;> simp_all [Event.inLoop, Event.popped]

theorem ResumeEvents.pushes {q r : Pid} {pCo : Option Addr} {es : List Event}
    (h : ResumeEvents q pCo es) : pushes r es = [] := by
  rcases h with rfl | ⟨a, -, rfl⟩ <;> rfl

theorem ResumeEvents.pops {q r : Pid} {pCo : Option Addr} {es : List Event}
    (h : ResumeEvents q pCo es) : pops r es = [] := by
  rcases h with rfl | ⟨a, -, rfl⟩ <;> rfl

theorem ResumeEvents.pops_pop {q : Pid} {pCo : Option Addr} {es : List Event} {rq : Bool}
    {a : Addr} (h : ResumeEvents q pCo es) : Copnet.pops q (.pop q rq a :: es) = [a] := by
  rw [Copnet.pops, List.flatMap_cons, ← Copnet.pops, h.pops, Event.popped, if_pos rfl,
    List.append_nil]

/-! ## The invariant -/

/-- During a drain the loop holds the running index, pops only what is there and flips only when
nothing is left. -/
def LoopState.Drains (L : LoopState) : Prop :=
  match L.pc with
  | .drain rq => rq = L.queue.running
  | .pop rq => rq = L.queue.running ∧ L.queue.front ≠ []
  | .flip rq => rq = L.queue.running ∧ L.queue.front = []
  | _ => True

def LoopState.queued (L : LoopState) : List Addr := L.queue.contents.map Entry.co

section Effects

variable {clock : ℤ} {call : ℕ} {q : Pid} {P : Processor} {act : Action} {L : LoopState}
  {es : List Event}

theorem Effect.drains (h : Effect clock call q P act L es) (hP : P.loopState.Drains) :
    L.Drains := by
  cases h with
  | push cos =>
    unfold LoopState.Drains at hP ⊢
    cases hpc : P.pc <;> simp_all [Processor.loopState]
  | pop hexec hpc hcons hes =>
    simp only [LoopState.Drains, Processor.loopState, hpc] at hP ⊢
    exact hP.1
  | drain hexec hpc hne =>
    simp only [LoopState.Drains, Processor.loopState, hpc] at hP ⊢
    exact ⟨hP, by rwa [DoubleBuffer.front, ← hP]⟩
  | drainEnd hexec hpc hnil =>
    simp only [LoopState.Drains, Processor.loopState, hpc] at hP ⊢
    exact ⟨hP, by rwa [DoubleBuffer.front, ← hP]⟩
  | readQue hexec hpc => rfl
  | stay | wakeUp | runAfter _ | arm _ | expire _ => exact hP
  | _ => trivial

theorem Effect.queued (h : Effect clock call q P act L es) (hP : P.loopState.Drains) :
    P.loopState.queued ++ pushes q es = pops q es ++ L.queued := by
  cases h with
  | push cos =>
    simp [pushes, pops, Event.pushed, Event.popped, LoopState.queued, Processor.loopState,
      Function.comp_def]
  | @pop rq e rest es hexec hpc hcons hes =>
    simp only [LoopState.Drains, Processor.loopState, hpc] at hP
    obtain ⟨rfl, -⟩ := hP
    have hpush : pushes q (.pop q P.queue.running e.co :: es) = [] := hes.pushes
    rw [hpush, hes.pops_pop, List.append_nil, LoopState.queued, Processor.loopState,
      DoubleBuffer.contents_pop _ hcons]
    rfl
  | flip hexec hpc =>
    simp only [LoopState.Drains, Processor.loopState, hpc] at hP
    obtain ⟨rfl, hnil⟩ := hP
    simp [pushes, pops, Event.pushed, Event.popped, LoopState.queued, Processor.loopState,
      DoubleBuffer.contents_flip _ hnil]
  | timer hexec hpc ha hes | event hexec hpc hpCo hes =>
    rw [hes.pushes, hes.pops, List.append_nil, List.nil_append]
    rfl
  | _ => exact List.append_nil _

/-- Apart from a flip, which only comes on an empty running queue, what leaves the running queue
is popped. -/
theorem Effect.front (h : Effect clock call q P act L es) (hP : P.loopState.Drains) :
    (P.queue.front = [] ∧ L.queue.front = P.queue.back ∧ pops q es = []) ∨
      (P.queue.front.map Entry.co = pops q es ++ L.queue.front.map Entry.co ∧
        Event.flip q ∉ es) := by
  cases h with
  | push cos => exact .inr ⟨by simp [pops, Event.popped], by simp⟩
  | @pop rq e rest es hexec hpc hcons hes =>
    simp only [LoopState.Drains, Processor.loopState, hpc] at hP
    obtain ⟨rfl, -⟩ := hP
    have hfront : P.queue.front = e :: (P.queue.pop P.queue.running).front := by
      rw [DoubleBuffer.front_pop, DoubleBuffer.front, hcons, List.tail_cons]
    refine .inr ⟨?_, ?_⟩
    · rw [hes.pops_pop, hfront]
      rfl
    · rcases hes with rfl | ⟨a, -, rfl⟩ <;> simp
  | flip hexec hpc =>
    simp only [LoopState.Drains, Processor.loopState, hpc] at hP
    obtain ⟨rfl, hnil⟩ := hP
    exact .inl ⟨hnil, rfl, rfl⟩
  | timer hexec hpc ha hes | event hexec hpc hpCo hes =>
    refine .inr ⟨by rw [hes.pops]; rfl, ?_⟩
    rcases hes with rfl | ⟨a, -, rfl⟩ <;> simp
  | reclaimEnd hexec hpc hend => exact .inr ⟨rfl, by simp⟩
  | _ => exact .inr ⟨rfl, List.not_mem_nil⟩

end Effects

section Runs

variable {C : Sys → Action → Prop} {s₀ s t : Sys} {tr tr' : List (Action × List Event)}

theorem drains_init (hs : machine.init s) (q : Pid) : (s.pros q).loopState.Drains := by
  obtain ⟨clock, rfl⟩ := hs
  trivial

theorem drains_step {act : Action} {es : List Event} {q : Pid}
    (h : (s.pros q).loopState.Drains) (hs : step s act = some (t, es)) :
    (t.pros q).loopState.Drains := ((Step.of_step hs).effect q).drains h

theorem drains_run (h : Run machine C s tr t) {q : Pid} (hs : (s.pros q).loopState.Drains) :
    (t.pros q).loopState.Drains := h.invariant hs fun hP _ hstep ↦ drains_step hP hstep

theorem queued_step {act : Action} {es : List Event} {q : Pid}
    (h : (s.pros q).loopState.Drains) (hs : step s act = some (t, es)) :
    (s.pros q).loopState.queued ++ pushes q es = pops q es ++ (t.pros q).loopState.queued := by
  have heff := ((Step.of_step hs).effect q).queued h
  rwa [pushes_filter, pops_filter] at heff

theorem queued_run (h : Run machine C s tr t) {q : Pid} (hs : (s.pros q).loopState.Drains) :
    (s.pros q).loopState.queued ++ pushes q (events tr) =
      pops q (events tr) ++ (t.pros q).loopState.queued :=
  h.queue_conservation (fun s ↦ (s.pros q).loopState.queued) (·.pushed q) (·.popped q) hs
    (fun hP _ hstep ↦ drains_step hP hstep) fun hP _ hstep ↦ queued_step hP hstep

/-! ## Two flips -/

/-- Once the queues have been flipped, what was queued at the start has been popped or is in the
running queue. -/
theorem queued_prefix (h : Run machine C s tr t) {q : Pid} (hs : (s.pros q).loopState.Drains)
    (hflip : Event.flip q ∈ events tr) :
    (s.pros q).loopState.queued <+:
      pops q (events tr) ++ (t.pros q).queue.front.map Entry.co := by
  induction h with
  | nil => simp at hflip
  | @snoc tr t u act es hr hc hst ih =>
    have hdrains := drains_run hr hs
    have heff := ((Step.of_step hst).effect q).front hdrains
    rw [pops_filter] at heff
    rw [events_append, events_singleton, pops_append]
    rcases heff with ⟨hnil, hfront, hpops⟩ | ⟨hfront, hno⟩
    · -- the flip: everything not yet popped is now in the running queue
      have hqueued : (t.pros q).loopState.queued = (t.pros q).queue.back.map Entry.co := by
        simp [LoopState.queued, DoubleBuffer.contents, Processor.loopState, hnil]
      have hfront' : (u.pros q).queue.front = (t.pros q).queue.back := hfront
      rw [hpops, List.append_nil, hfront', ← hqueued, ← queued_run hr hs]
      exact List.prefix_append _ _
    · have hfront' : (t.pros q).queue.front.map Entry.co =
          pops q es ++ (u.pros q).queue.front.map Entry.co := hfront
      rw [events_append, events_singleton, List.mem_append] at hflip
      have hno' : Event.flip q ∉ es := fun hmem ↦
        hno (List.mem_filter.mpr ⟨hmem, by simp [Event.inLoop]⟩)
      rw [List.append_assoc, ← hfront']
      exact ih (hflip.resolve_right hno')

/-- **The run queue is one FIFO.** Over every run and for every processor: everything pushed, in
lock order, is everything popped followed by the running queue and the receiving queue; the loop
pops only from the running queue; at a flip, the queue that becomes the receiving one is empty; and
what had been pushed when a flip was due has been popped when the next one is. -/
theorem run_queue_fifo {s₀ s : Sys} {tr : List (Action × List Event)} (hinit : machine.init s₀)
    (hrun : Run machine Always s₀ tr s) (q : Pid) :
    pushes q (events tr) =
        pops q (events tr) ++ (s.pros q).queue.front.map Entry.co ++
          (s.pros q).queue.back.map Entry.co ∧
      (∀ rq, (s.pros q).pc = .pop rq →
        rq = (s.pros q).queue.running ∧ (s.pros q).queue.bufs rq ≠ []) ∧
      (∀ rq, (s.pros q).pc = .flip rq →
        rq = (s.pros q).queue.running ∧ (s.pros q).queue.bufs rq = []) ∧
      ∀ rq tr₁ s₁ tr₂, Run machine Always s₀ tr₁ s₁ → Run machine Always s₁ tr₂ s →
        tr = tr₁ ++ tr₂ → Event.flip q ∈ events tr₂ → (s.pros q).pc = .flip rq →
          pushes q (events tr₁) <+: pops q (events tr) := by
  have hinv := drains_run hrun (drains_init hinit q)
  have hnil : (s₀.pros q).loopState.queued = [] := by
    obtain ⟨clock, rfl⟩ := hinit
    rfl
  refine ⟨?_, ?_, ?_, ?_⟩
  · have hqueued := queued_run hrun (drains_init hinit q)
    rw [hnil, List.nil_append] at hqueued
    rw [hqueued, LoopState.queued, Processor.loopState, DoubleBuffer.contents, List.map_append,
      List.append_assoc]
  · intro rq hpc
    simp only [LoopState.Drains, Processor.loopState, hpc] at hinv
    obtain ⟨rfl, hne⟩ := hinv
    exact ⟨rfl, hne⟩
  · intro rq hpc
    simp only [LoopState.Drains, Processor.loopState, hpc] at hinv
    obtain ⟨rfl, hnil⟩ := hinv
    exact ⟨rfl, hnil⟩
  · rintro rq tr₁ s₁ tr₂ hrun₁ hrun₂ rfl hflip hpc
    have hqueued := queued_run hrun₁ (drains_init hinit q)
    rw [hnil, List.nil_append] at hqueued
    simp only [LoopState.Drains, Processor.loopState, hpc] at hinv
    have hprefix := queued_prefix hrun₂ (drains_run hrun₁ (drains_init hinit q)) hflip
    rw [hinv.2, List.map_nil, List.append_nil] at hprefix
    rw [hqueued, events_append, pops_append]
    exact (List.prefix_append_right_inj _).mpr hprefix

/-- A thread outside the scheduler makes a coroutine on processor `0`, whose loop then gets to its
first flip. -/
def toFirstFlip : List Action :=
  [.start 0 0, .extCall 0 (.goNewCo 0 7), .ext 0, .ext 0, .loop 0, .epoll 0 [], .loop 0, .loop 0,
    .loop 0, .loop 0, .loop 0, .loop 0]

/-- From there, past the flip, another coroutine, and on to the second flip. -/
def toSecondFlip : List Action :=
  [.loop 0, .extCall 0 (.goNewCo 0 8), .ext 0, .ext 0, .loop 0, .loop 0, .loop 0, .epoll 0 [],
    .loop 0, .loop 0, .loop 0, .loop 0, .loop 0, .loop 0, .loop 0, .user 0 .ret, .loop 0]

/-- What the coroutine pushed before the first flip is popped when the second flip is due. -/
theorem run_queue_fifo_two_flips : ∃ s₁ tr₁ s tr₂,
    Run machine Always (Sys.fresh 0) tr₁ s₁ ∧ Run machine Always s₁ tr₂ s ∧
      pushes 0 (events tr₁) = [7] ∧ pushes 0 (events (tr₁ ++ tr₂)) = [7, 8] ∧
      pushes 0 (events tr₁) <+: pops 0 (events (tr₁ ++ tr₂)) := by
  let r₁ := machine.after Always (Sys.fresh 0) toFirstFlip
  have h₁ : Run machine Always (Sys.fresh 0) r₁.2 r₁.1 := run_after toFirstFlip
  let r₂ := machine.after Always r₁.1 toSecondFlip
  have h₂ : Run machine Always r₁.1 r₂.2 r₂.1 := run_after toSecondFlip
  refine ⟨_, _, _, _, h₁, h₂, by decide, by decide, ?_⟩
  exact (run_queue_fifo ⟨0, rfl⟩ (h₁.trans h₂) 0).2.2.2 true _ _ _ h₁ h₂ rfl (by decide)
    (by decide)

end Runs

end Copnet
