import Copnet.Runtime.Starvation

/-!
# Waiting for a descriptor

`Processor::waitEvent` registers the coroutine with the epoller and suspends it. The descriptor may
become ready right after, and the loop may be anywhere; but it takes up reports only at the
beginning of an iteration, keeps them in `actCoroutines_` and resumes what is there before it gets
back to the top. Queues, timers and locks go on meanwhile and have no part in it.

So a coroutine that has registered its descriptor is resumed after a report of this descriptor and
not otherwise, and then in the same iteration, at the call of `removeEv`.
-/

open Transition Ledger

namespace Copnet

/-! ## What has been reported -/

/-- The reported coroutines that the loop is still to resume. -/
def LoopState.reported (L : LoopState) : List (Option Addr) :=
  match L.pc with
  | .start | .top | .epollWait | .reclaim _ => []
  | .events i => L.actCoroutines.drop i
  | _ => L.actCoroutines

theorem Processor.ledger_act (P : Processor) (a : Addr) :
    P.ledger .act a = (P.loopState.reported.filterMap id).count a := by
  cases hpc : P.pc <;> simp only [ledger, LoopState.reported, activeRest, loopState, hpc]

section Effects

variable {clock : ℤ} {call : ℕ} {q : Pid} {P : Processor} {act : Action} {L : LoopState}
  {es : List Event}

theorem Effect.reported (h : Effect clock call q P act L es) (hP : P.loopState.Cleared) :
    (∃ fds, act = .epoll q fds ∧ L.reported = P.epoller.active fds) ∨
      L.reported <:+ P.loopState.reported := by
  cases h with
  | epoll hexec hpc hrep =>
    simp only [LoopState.Cleared, Processor.loopState, hpc] at hP
    exact .inl ⟨_, rfl, by simp [LoopState.reported, hP.1]⟩
  | event hexec hpc hpCo hes =>
    right
    simp only [LoopState.reported, Processor.loopState, hpc]
    exact ⟨[_], (Processor.drop_eq_cons hpCo).symm⟩
  | stay _ | push _ _ | wakeUp _ | runAfter _ | arm _ | expire _ => exact .inr List.suffix_rfl
  | _ => exact .inr (by simp_all [LoopState.reported, Processor.loopState])

theorem Effect.reported_of_top (h : Effect clock call q P act L es) (htop : .top q ∈ es) :
    P.loopState.reported = [] := by
  cases h with
  | reclaimEnd _ hpc _ => simp [LoopState.reported, Processor.loopState, hpc]
  | timer _ _ _ hes | event _ _ _ hes | pop _ _ _ hes =>
    rcases hes with rfl | ⟨b, -, rfl⟩ <;> simp at htop
  | _ => simp at htop

end Effects

/-! ## Coroutines that wait for a report -/

/-- The coroutine has registered the descriptor with the epoller of `p`, which may have been
reported, and has not been resumed. -/
def Life.AwaitsFd (p : Pid) (fd : Fd) (reported : Bool) (ℓ : Life) : Prop :=
  ∃ c, c.pMyProcessor = p ∧
    ((∃ code, code.goesOnAt = some (.removeEv fd) ∧ ℓ = .exec c code (.event fd reported)) ∨
      c.ctx.2 = .removeEv fd ∧ ℓ = .parked c (.event fd reported))

/-- The coroutine at `a` waits on `p` for the descriptor. -/
def Sys.AwaitsFd (s : Sys) (p : Pid) (a : Addr) (fd : Fd) (reported : Bool) : Prop :=
  ∃ L, Lives s L ∧ (L a).AwaitsFd p fd reported

section Steps

variable {s s' : Sys} {act : Action} {es : List Event} {p : Pid} {a : Addr} {fd : Fd}
  {reported : Bool}

theorem LifeStep.awaits {ℓ ℓ' : Life} (h : LifeStep s act a ℓ es ℓ')
    (hℓ : ℓ.AwaitsFd p fd reported) :
    es = [] ∧ (ℓ'.AwaitsFd p fd reported ∨ reported = false ∧ ℓ'.AwaitsFd p fd true) ∨
      es = [.switchTo p a] ∧ reported = true ∧
        ∃ c src, c.pMyProcessor = p ∧ ℓ' = .exec c (.run (.removeEv fd)) src := by
  obtain ⟨c, hp, ⟨code, hgoes, rfl⟩ | ⟨hctx, rfl⟩⟩ := hℓ
  · cases h with
    | stay => exact .inl ⟨rfl, .inl ⟨c, hp, .inl ⟨code, hgoes, rfl⟩⟩⟩
    | code _ _ code' _ hgoes' =>
      exact .inl ⟨rfl, .inl ⟨{ c with status := code'.status }, hp,
        .inl ⟨code', hgoes'.trans hgoes, rfl⟩⟩⟩
    | removeEv => simp [Code.goesOnAt] at hgoes
    | park _ k =>
      obtain rfl : k = .removeEv fd := by simpa [Code.goesOnAt] using hgoes
      exact .inl ⟨rfl, .inl ⟨{ c with ctx := (a, .removeEv fd) }, hp, .inr ⟨rfl, rfl⟩⟩⟩
  · cases h with
    | stay => exact .inl ⟨rfl, .inl ⟨c, hp, .inr ⟨hctx, rfl⟩⟩⟩
    | collect => exact .inl ⟨rfl, .inr ⟨rfl, c, hp, .inr ⟨hctx, rfl⟩⟩⟩
    | resume _ _ hsrc =>
      obtain ⟨fd', ⟨⟩⟩ := hsrc.resolve_left Source.noConfusion
      exact .inr ⟨by rw [hp], rfl, { c with status := .running }, _, hp, by rw [hctx]⟩

/-- A coroutine whose descriptor has been reported is among what the loop is to resume. -/
theorem Fits.reported_pos {ℓ : Life} (hf : Fits s a ℓ) (hℓ : ℓ.AwaitsFd p fd true) :
    0 < ((s.pros p).loopState.reported.filterMap id).count a := by
  rw [← Processor.ledger_act, show (s.pros p).ledger .act a = _ from hf.places (.pro p .act)]
  obtain ⟨c, rfl, ⟨code, -, rfl⟩ | ⟨-, rfl⟩⟩ := hℓ <;> simp [Life.places, Source.places]

theorem Fits.reported_eq_zero {ℓ : Life} (hf : Fits s a ℓ) (hℓ : ℓ.AwaitsFd p fd false) :
    ((s.pros p).loopState.reported.filterMap id).count a = 0 := by
  rw [← Processor.ledger_act, show (s.pros p).ledger .act a = _ from hf.places (.pro p .act)]
  obtain ⟨c, rfl, ⟨code, -, rfl⟩ | ⟨-, rfl⟩⟩ := hℓ <;> simp [Life.places, Source.places]

theorem Fits.registered_iff {ℓ : Life} (hf : Fits s a ℓ) (hℓ : ℓ.AwaitsFd p fd reported)
    (fd' : Fd) :
    (s.pros p).epoller.registered fd' = some (some a) ↔ fd = fd' := by
  have hreg : s.ledger (.pro p (.reg fd')) a = if fd = fd' then 1 else 0 := by
    rw [hf.places]
    by_cases hfd : fd = fd' <;> obtain ⟨c, rfl, ⟨code, -, rfl⟩ | ⟨-, rfl⟩⟩ := hℓ <;>
      cases reported <;> simp [Life.places, Source.places, hfd]
  simp only [Sys.ledger, Processor.ledger] at hreg
  constructor
  · intro h
    by_contra hne
    simp [h, hne] at hreg
  · rintro rfl
    by_contra hne
    simp [hne] at hreg

/-- **What a step does to a coroutine that waits.** It goes on waiting, and becomes reported only by
a report of its own descriptor; or it has been reported, and its loop resumes it. -/
theorem Sys.AwaitsFd.next (h : s.AwaitsFd p a fd reported) (hdisc : Disciplined s act)
    (hs : Step s act s' es) :
    ((∀ q, .switchTo q a ∉ es) ∧ (s'.AwaitsFd p a fd reported ∨
        (∃ fds, act = .epoll p fds ∧ fd ∈ fds) ∧ s'.AwaitsFd p a fd true)) ∨
      reported = true ∧ .switchTo p a ∈ es ∧ (∀ q, .switchTo q a ∈ es → q = p) ∧
        (s'.pros p).exec = some (a, .run (.removeEv fd)) := by
  obtain ⟨L, hL, hℓ⟩ := h
  obtain ⟨L', hL', hlife⟩ := hs.lives hdisc hL
  have hmem := switchTo_mem_iff a es
  rcases (hlife a).awaits hℓ with ⟨hnil, hℓ'⟩ | ⟨hes, htrue, c, src, hp, hc⟩
  · refine .inl ⟨fun q ↦ by simp [hmem, hnil], ?_⟩
    rcases hℓ' with hℓ' | ⟨rfl, hℓ'⟩
    · exact .inl ⟨L', hL', hℓ'⟩
    · -- it is among the reported, where it was not
      right
      refine ⟨?_, L', hL', hℓ'⟩
      have hpos := (hL'.fits a).reported_pos hℓ'
      have hzero := (hL.fits a).reported_eq_zero hℓ
      rcases (hs.effect p).reported (hL.cleared p) with ⟨fds, hact, hrep⟩ | hsub
      · rw [hrep] at hpos
        obtain ⟨_, hmem, rfl⟩ := List.mem_filterMap.mp (List.count_pos_iff.mp hpos)
        obtain ⟨fd', hfd', hreg⟩ := List.mem_filterMap.mp hmem
        obtain rfl := ((hL.fits a).registered_iff hℓ fd').mp hreg
        exact ⟨fds, hact, hfd'⟩
      · have := (hsub.sublist.filterMap id).count_le a
        omega
  · refine .inr ⟨htrue, by simp [hmem, hes], fun q hq ↦ by simpa [hmem, hes] using hq, ?_⟩
    have hfit := hL'.fits a
    rw [hc] at hfit
    exact hp ▸ hfit.exec_eq

theorem Sys.AwaitsFd.report {fds : List Fd} (h : s.AwaitsFd p a fd reported)
    (hs : Step s (.epoll p fds) s' es) (hfd : fd ∈ fds) : s'.AwaitsFd p a fd true := by
  obtain ⟨L, hL, hℓ⟩ := h
  obtain ⟨L', hL', hlife⟩ := hs.lives trivial hL
  refine ⟨L', hL', ?_⟩
  have hreg := ((hL.fits a).registered_iff hℓ fd).mpr rfl
  rcases (hlife a).awaits hℓ with ⟨-, hℓ' | ⟨-, hℓ'⟩⟩ | ⟨hes, -⟩
  · cases reported with
    | true => exact hℓ'
    | false =>
      have hno := List.count_eq_zero.mp ((hL'.fits a).reported_eq_zero hℓ')
      have hmem : some a ∈ (s'.pros p).loopState.reported := by
        cases hs with
        | epoll hexec hpc hrep =>
          rw [Sys.pros_setPro_self]
          exact List.mem_append_right _ (List.mem_filterMap.mpr ⟨fd, hfd, hreg⟩)
      exact absurd (List.mem_filterMap.mpr ⟨some a, hmem, id_eq _⟩) hno
  · exact hℓ'
  · cases hs with
    | epoll => simp [lifeEvents] at hes

theorem Sys.AwaitsFd.start (h : Reachable machine Disciplined s)
    (hexec : (s.pros p).exec = some (a, .run .user))
    (hfree : (s.pros p).epoller.registered fd = none)
    (hs : Step s (.user p (.waitEvent fd true)) s' es) : s'.AwaitsFd p a fd false := by
  obtain ⟨L, hL⟩ := lives_of_reachable (fun _ _ h ↦ h) h
  obtain ⟨L', hL', -⟩ := hs.lives trivial hL
  have hcur := hL.current p a _ hexec
  cases hs with
  | @waitEvent _ x _ _ hexec' =>
    obtain rfl : a = x := by simpa using hexec.symm.trans hexec'
    obtain ⟨c, src, hc, hp, -, -, -, hallows⟩ :=
      hL'.executing (show ((Sys.setPro _ p _).pros p).exec = some (a, .yield (.removeEv fd)) by
        rw [Sys.pros_setPro_self])
    have hfit := hL'.fits a
    rw [hc] at hfit
    have hreg : (Sys.ledger _) (.pro p (.reg fd)) a = _ := hfit.places (.pro p (.reg fd))
    obtain rfl : src = .event fd false := by
      refine hallows.resolve_right ?_
      rintro rfl
      simp [Sys.ledger, Processor.ledger, Epoller.addEv, hfree, hcur, Life.places, Source.places]
        at hreg
    exact ⟨L', hL', c, hp, .inl ⟨_, rfl, hc⟩⟩

end Steps

/-! ## Over a run -/

section Runs

variable {s t : Sys} {tr : List (Action × List Event)} {p : Pid} {a : Addr} {fd : Fd}
  {reported : Bool}

/-- The trace has a report of the descriptor. -/
def ReportedIn (p : Pid) (fd : Fd) (tr : List (Action × List Event)) : Prop :=
  ∃ st ∈ tr, ∃ fds, st.1 = .epoll p fds ∧ fd ∈ fds

/-- Until its processor switches into it nobody else does, and it waits on, reported only if it has
been. -/
theorem Sys.AwaitsFd.run (h : s.AwaitsFd p a fd reported) (hrun : Run machine Disciplined s tr t) :
    .switchTo p a ∈ events tr ∨ (∀ q, .switchTo q a ∉ events tr) ∧
      ∃ b, t.AwaitsFd p a fd b ∧ (b = true → reported = true ∨ ReportedIn p fd tr) := by
  induction hrun with
  | nil => exact .inr ⟨fun q ↦ List.not_mem_nil, reported, h, .inl⟩
  | @snoc tr t u act es _ hc hst ih =>
    simp only [events_append, events_singleton, List.mem_append]
    rcases ih with hmem | ⟨hno, b, hwait, hrep⟩
    · exact .inl (.inl hmem)
    have hold : ReportedIn p fd tr → ReportedIn p fd (tr ++ [(act, es)]) :=
      fun ⟨st, hst, hfd⟩ ↦ ⟨st, List.mem_append_left _ hst, hfd⟩
    rcases hwait.next hc (Step.of_step hst) with ⟨hno', hwait' | ⟨⟨fds, hact, hfd⟩, hwait'⟩⟩ |
      ⟨-, hmem, -⟩
    · exact .inr ⟨fun q ↦ not_or.mpr ⟨hno q, hno' q⟩, b, hwait', fun hb ↦ (hrep hb).imp_right hold⟩
    · exact .inr ⟨fun q ↦ not_or.mpr ⟨hno q, hno' q⟩, true, hwait', fun _ ↦
        .inr ⟨_, List.mem_append_right _ List.mem_cons_self, fds, hact, hfd⟩⟩
    · exact .inl (.inr hmem)

theorem Sys.AwaitsFd.within_one (h : s.AwaitsFd p a fd true) (hrun : Run machine Disciplined s tr t)
    (htop : .top p ∈ events tr) : .switchTo p a ∈ events tr := by
  suffices hor : .switchTo p a ∈ events tr ∨ t.AwaitsFd p a fd true ∧ .top p ∉ events tr from
    hor.resolve_right fun hno ↦ hno.2 htop
  clear htop
  induction hrun with
  | nil => exact .inr ⟨h, List.not_mem_nil⟩
  | snoc _ hc hst ih =>
    simp only [events_append, events_singleton, List.mem_append]
    rcases ih with hmem | ⟨hwait, hno⟩
    · exact .inl (.inl hmem)
    rcases hwait.next hc (Step.of_step hst) with ⟨-, hwait'⟩ | ⟨-, hmem, -⟩
    · refine .inr ⟨hwait'.elim id (·.2), not_or.mpr ⟨hno, fun htop ↦ ?_⟩⟩
      obtain ⟨L, hL, hℓ⟩ := hwait
      have hpos := (hL.fits a).reported_pos hℓ
      rw [((Step.of_step hst).effect p).reported_of_top
        (List.mem_filter.mpr ⟨htop, by simp [Event.inLoop]⟩)] at hpos
      simp at hpos
    · exact .inl (.inr hmem)

end Runs

/-- **Resumed only when reported**, in a disciplined run. From the call of `waitEvent` on, if the
descriptor could be registered, the next switch into the coroutine is by its own processor, comes
after a report of this very descriptor, and takes the coroutine to the call of `removeEv`. Neither
timers nor queues nor locks nor other descriptors make it run before. -/
theorem resumed_only_when_reported {s t u v : Sys} {p q : Pid} {a : Addr} {fd : Fd}
    {tr : List (Action × List Event)} {act : Action} {es es' : List Event}
    (h : Reachable machine Disciplined s) (hexec : (s.pros p).exec = some (a, .run .user))
    (hfree : (s.pros p).epoller.registered fd = none)
    (hstart : machine.step s (.user p (.waitEvent fd true)) = some (t, es))
    (hrun : Run machine Disciplined t tr u) (hno : ∀ r, .switchTo r a ∉ events tr)
    (hdisc : Disciplined u act) (hnext : machine.step u act = some (v, es'))
    (hswitch : .switchTo q a ∈ es') :
    q = p ∧ ReportedIn p fd tr ∧ (v.pros p).exec = some (a, .run (.removeEv fd)) := by
  have hwait := (Sys.AwaitsFd.start h hexec hfree (Step.of_step hstart)).run hrun
  obtain ⟨-, b, hwait, hrep⟩ := hwait.resolve_left (hno p)
  rcases hwait.next hdisc (Step.of_step hnext) with ⟨hno', -⟩ | ⟨hb, -, hq, hcode⟩
  · exact absurd hswitch (hno' q)
  · exact ⟨hq q hswitch, (hrep hb).resolve_left Bool.false_ne_true, hcode⟩

/-- Coroutine `7`, waiting for descriptor `3`, is suspended, and the next iteration gets the report
and as far as its list. -/
def toReported : List Action :=
  [.co 0, .co 0] ++ List.replicate 5 (.loop 0) ++ [.epoll 0 [3]] ++ List.replicate 7 (.loop 0)

theorem resumed_only_when_reported_one : ∃ s t u v tr es', Reachable machine Disciplined s ∧
    machine.step s (.user 0 (.waitEvent 3 true)) = some (t, []) ∧ Run machine Disciplined t tr u ∧
      machine.step u (.loop 0) = some (v, es') ∧ .switchTo 0 7 ∈ es' ∧ ReportedIn 0 3 tr ∧
        (v.pros 0).exec = some (7, .run (.removeEv 3)) := by
  let r := machine.after Disciplined (Sys.fresh 0) toUser
  have h : Reachable machine Disciplined r.1 := ⟨_, _, ⟨0, rfl⟩, run_after toUser⟩
  let r₁ := machine.after Disciplined r.1 [.user 0 (.waitEvent 3 true)]
  have htr₁ : r₁.2 = [(.user 0 (.waitEvent 3 true), [])] := by decide
  have hstart : Run machine Disciplined r.1 [(.user 0 (.waitEvent 3 true), [])] r₁.1 :=
    htr₁ ▸ run_after _
  let r₂ := machine.after Disciplined r₁.1 toReported
  have hrun : Run machine Disciplined r₁.1 r₂.2 r₂.1 := run_after toReported
  let r₃ := machine.after Disciplined r₂.1 [.loop 0]
  have htr₃ : r₃.2 = [(.loop 0, [.resume 0 (some 7), .switchTo 0 7])] := by decide
  have hnext : Run machine Disciplined r₂.1 [(.loop 0, [.resume 0 (some 7), .switchTo 0 7])] r₃.1 :=
    htr₃ ▸ run_after _
  have hevents : events r₂.2 = [.flip 0, .top 0, .flip 0] := by decide
  have hno : ∀ q, .switchTo q 7 ∉ events r₂.2 := fun q ↦ by simp [hevents]
  have hawake := resumed_only_when_reported h (p := 0) (by decide) (by decide) hstart.step_eq.2 hrun
    hno hnext.step_eq.1 hnext.step_eq.2 (q := 0) (by decide)
  exact ⟨_, _, _, _, _, _, h, hstart.step_eq.2, hrun, hnext.step_eq.2, by decide, hawake.2⟩

/-! ## In the long run -/

section Forever

variable {x : Execution machine Disciplined} {p : Pid}

theorem Sys.AwaitsFd.eventually (hinit : machine.init (x.state 0)) (hx : GoesOn x p) {n : ℕ}
    {a : Addr} {fd : Fd} (h : (x.state n).AwaitsFd p a fd true) :
    ∃ m, n ≤ m ∧ .switchTo p a ∈ x.out m := by
  obtain ⟨d, hd⟩ := exists_between_top hinit hx n
  obtain ⟨i, -, hi⟩ := x.mem_events_between.mp (h.within_one (x.run_between n d) hd)
  exact ⟨n + i, Nat.le_add_right n i, hi⟩

/-- **Every report gets through.** In every disciplined run that goes on forever, in which the
coroutines of a processor give the thread back and its loop goes on when they have, a coroutine that
has registered its descriptor is resumed once the descriptor has been reported: before the loop gets
to the top again, at the call of `removeEv`, and if not then it has been resumed already. -/
theorem reported_eventually_resumed (hinit : machine.init (x.state 0)) (hx : GoesOn x p) {n k : ℕ}
    {a : Addr} {fd : Fd} {fds : List Fd} (hexec : ((x.state n).pros p).exec = some (a, .run .user))
    (hfree : ((x.state n).pros p).epoller.registered fd = none)
    (hact : x.action n = .user p (.waitEvent fd true)) (hnk : n < k)
    (hrep : x.action k = .epoll p fds) (hfd : fd ∈ fds) :
    ∃ m, n < m ∧ .switchTo p a ∈ x.out m ∧ (∀ i, n < i → i < m → ∀ q, .switchTo q a ∉ x.out i) ∧
      (∀ i, k < i → i < m → .top p ∉ x.out i) ∧
        ((x.state (m + 1)).pros p).exec = some (a, .run (.removeEv fd)) := by
  have hreach : Reachable machine Disciplined (x.state n) := ⟨_, _, hinit, x.run n⟩
  have hwait := Sys.AwaitsFd.start hreach hexec hfree (hact ▸ Step.of_step (x.step n))
  -- as far as the report
  have hreport : (∃ m, n < m ∧ m < k ∧ .switchTo p a ∈ x.out m) ∨
      (x.state (k + 1)).AwaitsFd p a fd true := by
    obtain ⟨i, rfl⟩ := Nat.exists_eq_add_of_le (Nat.succ_le_of_lt hnk)
    obtain hmem | ⟨-, b, hwait', -⟩ := hwait.run (x.run_between (n + 1) i)
    · obtain ⟨j, hj, hmem⟩ := x.mem_events_between.mp hmem
      exact .inl ⟨_, by omega, by omega, hmem⟩
    · exact .inr (hwait'.report (hrep ▸ Step.of_step (x.step _)) hfd)
  -- and to the top
  have hmem : ∃ m, n < m ∧ .switchTo p a ∈ x.out m := by
    rcases hreport with ⟨m, hnm, -, hmem⟩ | hreported
    · exact ⟨m, hnm, hmem⟩
    · obtain ⟨m, hm, hmem⟩ := hreported.eventually hinit hx
      exact ⟨m, by omega, hmem⟩
  obtain ⟨m, hm, hmem⟩ := hmem
  obtain ⟨m, hm, ⟨_, hq, q, rfl⟩, hfirst⟩ := x.exists_first
    (P := fun ev ↦ ∃ q, ev = .switchTo q a) (Nat.succ_le_of_lt hm) ⟨_, hmem, p, rfl⟩
  have hno : ∀ i, n < i → i < m → ∀ q, .switchTo q a ∉ x.out i :=
    fun i hni him q hq ↦ hfirst i hni him _ hq ⟨q, rfl⟩
  -- the first such step
  obtain ⟨i, rfl⟩ := Nat.exists_eq_add_of_le hm
  obtain hmem | ⟨-, b, hwait', -⟩ := hwait.run (x.run_between (n + 1) i)
  · obtain ⟨j, hj, hj'⟩ := x.mem_events_between.mp hmem
    exact absurd hj' (hno _ (by omega) (by omega) p)
  rcases hwait'.next (x.guarded _) (Step.of_step (x.step _)) with
    ⟨hnot, -⟩ | ⟨-, hswitch, -, hcode⟩
  · exact absurd hq (hnot q)
  refine ⟨_, by omega, hswitch, hno, fun j hkj hjm htop ↦ ?_, hcode⟩
  rcases hreport with ⟨m, hnm, hmk, hmem⟩ | hreported
  · exact hno m hnm (by omega) p hmem
  · obtain ⟨d, rfl⟩ := Nat.exists_eq_add_of_le (Nat.succ_le_of_lt hkj)
    have hmem := hreported.within_one (x.run_between (k + 1) (d + 1))
      (x.mem_events_between.mpr ⟨d, Nat.lt_succ_self d, htop⟩)
    obtain ⟨j, hj, hj'⟩ := x.mem_events_between.mp hmem
    exact hno _ (by omega) (by omega) p hj'

end Forever

/-- The coroutine is resumed and returns, and the next iteration begins. -/
def toReturned : List Action :=
  [.loop 0, .co 0, .user 0 .ret] ++ List.replicate 4 (.loop 0)

/-- A coroutine waits for a descriptor that is reported, after which the loop goes round forever. -/
theorem reported_eventually_resumed_one : ∃ x : Execution machine Disciplined, ∃ n k m,
    x.action n = .user 0 (.waitEvent 3 true) ∧ x.action k = .epoll 0 [3] ∧ n < m ∧
      .switchTo 0 7 ∈ x.out m ∧ ((x.state (m + 1)).pros 0).exec = some (7, .run (.removeEv 3)) := by
  let r := machine.after Disciplined (Sys.fresh 0) toUser
  have hrun : Run machine Disciplined (Sys.fresh 0) r.2 r.1 := run_after _
  let r' := machine.after Disciplined r.1
    (.user 0 (.waitEvent 3 true) :: (toReported ++ toReturned))
  have hrun' : Run machine Disciplined r.1 r'.2 r'.1 := run_after _
  have huser : (r.1.pros 0).exec = some (7, .run .user) := by decide
  have hfree : (r.1.pros 0).epoller.registered 3 = none := by decide
  have hfirst : r'.2[0]? = some (.user 0 (.waitEvent 3 true), []) := by decide
  have hreport : r'.2[8]? = some (.epoll 0 [3], []) := by decide
  have hquiet : (r'.1.pros 0).Quiet :=
    ⟨by decide, by decide, by decide, by decide, by decide, by decide, by decide⟩
  clear_value r' r
  obtain ⟨x, hinit, hgoes, hstate, hsteps, -⟩ := exists_goesOn ⟨0, rfl⟩ hrun hrun' hquiet
  have hact : x.action r.2.length = .user 0 (.waitEvent 3 true) := (hsteps 0 _ hfirst).1
  have hrep : x.action (r.2.length + 8) = .epoll 0 [3] := (hsteps 8 _ hreport).1
  obtain ⟨m, hm, hswitch, -, -, hcode⟩ := reported_eventually_resumed hinit hgoes
    (by rwa [hstate]) (by rwa [hstate]) hact (by omega) hrep (List.mem_singleton.mpr rfl)
  exact ⟨x, _, _, m, hact, hrep, hm, hswitch, hcode⟩

end Copnet
