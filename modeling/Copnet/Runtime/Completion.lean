import Copnet.Runtime.Starvation
import Copnet.Runtime.Teardown

/-!
# From `co_go` to `delete_obj`

`goNewCo` builds an object, and whoever calls it pushes the object on the queues of its processor in
a later step. The loop pops it and starts its function; when the function has returned, the loop
deletes the object at the end of the iteration. None of this is forgotten: a new coroutine is
started if its maker goes on, and a coroutine that has returned is deleted before the loop gets to
the top again.
-/

open Transition Ledger

namespace Copnet

section Steps

variable {s s' : Sys} {act : Action} {es : List Event} {a : Addr} {c : Coroutine} {maker : Maker}
  {p : Pid}

theorem Fits.mem_queued {ℓ : Life} (hf : Fits s a ℓ) (h : .pro p .queue ∈ ℓ.places) :
    a ∈ (s.pros p).loopState.queued := by
  have hplace : (s.pros p).loopState.queued.count a = ℓ.places.count (.pro p .queue) :=
    hf.places (.pro p .queue)
  exact List.count_pos_iff.mp (hplace ▸ List.count_pos_iff.mpr h)

/-- The coroutine has been built and is in the hands of its maker. -/
def Sys.IsBuilt (s : Sys) (a : Addr) (c : Coroutine) (maker : Maker) : Prop :=
  ∃ L, Lives s L ∧ L a = .built c maker

def Sys.IsQueued (s : Sys) (a : Addr) (c : Coroutine) : Prop := ∃ L, Lives s L ∧ L a = .queued c

def Sys.HasReturned (s : Sys) (a : Addr) (c : Coroutine) : Prop :=
  ∃ L, Lives s L ∧ L a = .returned c

theorem Sys.IsBuilt.next (h : s.IsBuilt a c maker) (hdisc : Disciplined s act)
    (hs : Step s act s' es) : s'.IsBuilt a c maker ∨ s'.IsQueued a c := by
  obtain ⟨L, hL, hℓ⟩ := h
  obtain ⟨L', hL', hlife⟩ := hs.lives hdisc hL
  have hstep := hlife a
  rw [hℓ] at hstep
  generalize hes : lifeEvents a es = evs at hstep
  generalize hℓ' : L' a = ℓ' at hstep
  cases hstep with
  | stay => exact .inl ⟨L', hL', hℓ'⟩
  | go => exact .inr ⟨L', hL', hℓ'⟩

theorem Sys.IsQueued.next (h : s.IsQueued a c) (hdisc : Disciplined s act)
    (hs : Step s act s' es) :
    s'.IsQueued a c ∧ (∀ q, .switchTo q a ∉ es) ∨ .enter a c.serial ∈ es := by
  obtain ⟨L, hL, hℓ⟩ := h
  obtain ⟨L', hL', hlife⟩ := hs.lives hdisc hL
  have hstep := hlife a
  have hmem := switchTo_mem_iff a es
  rw [hℓ] at hstep
  generalize hes : lifeEvents a es = evs at hstep hmem
  generalize hℓ' : L' a = ℓ' at hstep
  cases hstep with
  | stay => exact .inl ⟨⟨L', hL', hℓ'⟩, fun q ↦ by simp [hmem]⟩
  | enter c que =>
    refine .inr (List.mem_of_mem_filter (p := (·.inLife a)) ?_)
    change _ ∈ lifeEvents a es
    rw [hes]
    simp

theorem Sys.HasReturned.next (h : s.HasReturned a c) (hdisc : Disciplined s act)
    (hs : Step s act s' es) :
    s'.HasReturned a c ∨ .delete c.pMyProcessor a c.serial ∈ es := by
  obtain ⟨L, hL, hℓ⟩ := h
  obtain ⟨L', hL', hlife⟩ := hs.lives hdisc hL
  have hstep := hlife a
  rw [hℓ] at hstep
  generalize hes : lifeEvents a es = evs at hstep
  generalize hℓ' : L' a = ℓ' at hstep
  cases hstep with
  | stay => exact .inl ⟨L', hL', hℓ'⟩
  | delete =>
    refine .inr (List.mem_of_mem_filter (p := (·.inLife a)) ?_)
    change _ ∈ lifeEvents a es
    rw [hes]
    exact List.mem_singleton_self _

theorem Step.isBuilt {n : ℕ} {L : Addr → Life} (hs : Step s act s' es)
    (hdisc : Disciplined s act) (hL : Lives s L) (hmade : .made a n p ∈ es) :
    ∃ c maker, s'.IsBuilt a c maker ∧ c.serial = n ∧ c.pMyProcessor = p := by
  obtain ⟨L', hL', hlife⟩ := hs.lives hdisc hL
  have hmade' : .made a n p ∈ lifeEvents a es :=
    List.mem_filter.mpr ⟨hmade, by simp [Event.inLife]⟩
  have hstep := hlife a
  generalize lifeEvents a es = evs at hstep hmade'
  generalize L a = ℓ at hstep
  generalize hℓ' : L' a = ℓ' at hstep
  cases hstep with
  | make c maker hserial =>
    simp only [List.mem_singleton, Event.made.injEq, true_and] at hmade'
    exact ⟨c, maker, ⟨L', hL', hℓ'⟩, hmade'.1.symm, hmade'.2.symm⟩
  | _ => simp at hmade'

theorem Step.hasReturned {n : ℕ} {L : Addr → Life} (hs : Step s act s' es)
    (hdisc : Disciplined s act) (hL : Lives s L) (hret : .ret p a n ∈ es) :
    ∃ c, s'.HasReturned a c ∧ c.serial = n ∧ c.pMyProcessor = p := by
  obtain ⟨L', hL', hlife⟩ := hs.lives hdisc hL
  have hret' : .ret p a n ∈ lifeEvents a es :=
    List.mem_filter.mpr ⟨hret, by simp [Event.inLife]⟩
  have hstep := hlife a
  generalize lifeEvents a es = evs at hstep hret'
  generalize L a = ℓ at hstep
  generalize hℓ' : L' a = ℓ' at hstep
  cases hstep with
  | ret c =>
    simp only [List.mem_singleton, Event.ret.injEq, true_and] at hret'
    exact ⟨c, ⟨L', hL', hℓ'⟩, hret'.2.symm, hret'.1.symm⟩
  | _ => simp at hret'

theorem Step.removedCo_of_top (hs : Step s act s' es) (htop : .top p ∈ es) :
    (s'.pros p).removedRest = [] := by
  cases hs with
  | reclaimEnd hexec hpc hend =>
    obtain rfl := by simpa using htop
    simp [Processor.removedRest]
  | timer hexec hpc ha hres | event hexec hpc hpCo hres | pop hexec hpc hcons hres =>
    cases hres <;> simp at htop
  | _ => simp at htop

theorem Sys.HasReturned.mem (h : s.HasReturned a c) :
    a ∈ (s.pros c.pMyProcessor).removedRest := by
  obtain ⟨L, hL, hℓ⟩ := h
  have hfit := hL.fits a
  rw [hℓ] at hfit
  have hdead := hfit.places (.pro c.pMyProcessor .dead)
  refine List.count_pos_iff.mp ?_
  simp [Sys.ledger, Processor.ledger, Life.places] at hdead
  omega

theorem Step.exts_of_ne {t : Tid} (hs : Step s act s' es) (hact : act ≠ .ext t)
    (hbusy : s.exts t ≠ .idle) : s'.exts t = s.exts t := by
  have hother : ∀ {u} (v : Sys) (e : ExtCode), t ≠ u → (v.setExt u e).exts t = v.exts t :=
    fun v e hu ↦ (Sys.exts_setExt ..).trans (if_neg hu)
  cases hs with
  | @extGoNewCo u q a hidle hfree =>
    rw [hother _ _ (by rintro rfl; exact hbusy hidle)]
    rfl
  | @extGoCoBatch u q cos hidle =>
    rw [hother _ _ (by rintro rfl; exact hbusy hidle)]
    rfl
  | @extGoCo u q a hext =>
    rw [hother _ _ (by rintro rfl; exact hact rfl)]
    rfl
  | @extWake u q call hext =>
    rw [hother _ _ (by rintro rfl; exact hact rfl)]
    rfl
  | timer hexec hpc ha hres | event hexec hpc hpCo hres | pop hexec hpc hcons hres =>
    rw [hres.frame.2.1]
    rfl
  | _ => rfl

end Steps

section Forever

variable {x : Execution machine Disciplined} {a : Addr} {c : Coroutine} {maker : Maker} {p : Pid}

theorem exists_made (hinit : machine.init (x.state 0)) {n : ℕ} {b : Addr} {c : Coroutine}
    (hco : (x.state n).cos b = some c) :
    ∃ i, i < n ∧ .made b c.serial c.pMyProcessor ∈ x.out i := by
  have hrun := x.run_between 0 n
  rw [Nat.zero_add] at hrun
  obtain ⟨L, hL, hrec⟩ := recorded_run hinit hrun
  have hmade := (hrec.of_co (a := b) (by rw [← (hL.fits b).co, hco])).1
  obtain ⟨i, hi, hout⟩ := x.mem_events_between.mp hmade
  rw [Nat.zero_add] at hout
  exact ⟨i, hi, hout⟩

def Event.madeOn (p : Pid) : Event → Bool
  | .made _ _ q => q = p
  | _ => true

/-- Where all coroutines are made on one processor, and from some point on nothing but its record
changes, it is enough that this processor goes on. -/
theorem goesOn_of_madeOn (hinit : machine.init (x.state 0)) (hx : GoesOn x p) {n : ℕ} {t : Sys}
    (hmade : ∀ i, i < n → ∀ ev ∈ x.out i, ev.madeOn p = true)
    (hend : ∀ k, ∃ P, x.state (n + k) = t.setPro p P) (k : ℕ) (b : Addr) (c : Coroutine)
    (hco : (x.state k).cos b = some c) : GoesOn x c.pMyProcessor := by
  -- after the first `n` steps the coroutines are those after these
  obtain ⟨j, hj, hco⟩ : ∃ j, j ≤ n ∧ (x.state j).cos b = some c := by
    by_cases hk : k ≤ n
    · exact ⟨k, hk, hco⟩
    · obtain ⟨P, hP⟩ := hend (k - n)
      obtain ⟨P', hP'⟩ := hend 0
      rw [Nat.add_sub_cancel' (by omega)] at hP
      refine ⟨n, le_rfl, ?_⟩
      rw [Nat.add_zero] at hP'
      rw [hP, Sys.cos_setPro] at hco
      rw [hP', Sys.cos_setPro, hco]
  obtain ⟨i, hi, hout⟩ := exists_made hinit hco
  have hon : c.pMyProcessor = p := of_decide_eq_true (hmade i (by omega) _ hout)
  rwa [hon]

theorem exists_ext {t : Tid} {k n : ℕ} (hkn : k ≤ n) (hk : (x.state k).exts t ≠ .idle)
    (hn : (x.state n).exts t = .idle) : ∃ j, k ≤ j ∧ x.action j = .ext t := by
  by_contra hno
  have hbusy : ∀ j, k ≤ j → (x.state j).exts t ≠ .idle := by
    intro j hj
    induction j, hj using Nat.le_induction with
    | base => exact hk
    | succ j hj ih =>
      rwa [(Step.of_step (x.step j)).exts_of_ne (fun hact ↦ hno ⟨j, hj, hact⟩) ih]
  exact hbusy n hkn hn

theorem exists_isQueued {n : ℕ}
    (hgoes : ∀ k b c, (x.state k).cos b = some c → GoesOn x c.pMyProcessor)
    (hext : ∀ k t, (x.state k).exts t ≠ .idle → ∃ j, k ≤ j ∧ x.action j = .ext t)
    (h : (x.state n).IsBuilt a c maker) : ∃ k, n ≤ k ∧ (x.state k).IsQueued a c := by
  by_contra hno
  have hbuilt : ∀ k, n ≤ k → (x.state k).IsBuilt a c maker := by
    intro k hk
    induction k, hk using Nat.le_induction with
    | base => exact h
    | succ k hk ih =>
      exact (ih.next (x.guarded k) (.of_step (x.step k))).resolve_right
        fun hqueued ↦ hno ⟨k + 1, by omega, hqueued⟩
  have hplace : ∀ k, n ≤ k → (x.state k).ledger (maker.place c.pMyProcessor) a = 1 := by
    intro k hk
    obtain ⟨L, hL, hℓ⟩ := hbuilt k hk
    have hfit := hL.fits a
    rw [hℓ] at hfit
    rw [hfit.places]
    simp [Life.places]
  cases maker with
  | ext t =>
    have hhand : ∀ k, n ≤ k → (x.state k).exts t = .goCo c.pMyProcessor a := fun k hk ↦ by
      simpa [Maker.place, Sys.ledger] using hplace k hk
    obtain ⟨j, hj, hact⟩ := hext n t (by simp [hhand n le_rfl])
    -- its step is that of `goCo`
    have hs : Step (x.state j) (.ext t) (x.state (j + 1)) (x.out j) := hact ▸ .of_step (x.step j)
    have hnow := hhand j hj
    have hnext := hhand (j + 1) (by omega)
    generalize x.state (j + 1) = s' at hs hnext
    generalize x.out j = es at hs
    cases hs with
    | extGoCo hext => simp [Sys.setExt] at hnext
    | extWake hext => simp [hext] at hnow
  | pro t =>
    have hhand : ∀ k, n ≤ k → inHand ((x.state k).pros t).exec = some (c.pMyProcessor, a) :=
      fun k hk ↦ by simpa [Maker.place, Sys.ledger, Processor.ledger] using hplace k hk
    obtain ⟨L, hL, -⟩ := h
    obtain ⟨⟨y, code⟩, hexec⟩ : ∃ e, ((x.state n).pros t).exec = some e := by
      cases hexec : ((x.state n).pros t).exec with
      | none => simpa [hexec, inHand] using hhand n le_rfl
      | some e => exact ⟨e, rfl⟩
    obtain ⟨c', -, -, rfl, hco, -⟩ := hL.executing hexec
    obtain ⟨k, hk, hnone⟩ := (hgoes n y c' hco).1 n
    simpa [hnone, inHand] using hhand k hk

/-- **Every new coroutine is started.** In every disciplined run that goes on forever, in which the
threads outside the scheduler finish their calls, and in which on processors with coroutines these
give the thread back and the loop goes on when they have: the function of every coroutine that is
made is started later on. -/
theorem made_eventually_entered (hinit : machine.init (x.state 0))
    (hgoes : ∀ k b c, (x.state k).cos b = some c → GoesOn x c.pMyProcessor)
    (hext : ∀ k t, (x.state k).exts t ≠ .idle → ∃ j, k ≤ j ∧ x.action j = .ext t) {n serial : ℕ}
    (hmade : .made a serial p ∈ x.out n) : ∃ k, n < k ∧ .enter a serial ∈ x.out k := by
  by_contra hno
  have hnever : ∀ k, n < k → .enter a serial ∉ x.out k := fun k hk henter ↦ hno ⟨k, hk, henter⟩
  obtain ⟨L, hL⟩ := lives_of_reachable (fun _ _ h ↦ h) ⟨_, _, hinit, x.run n⟩
  obtain ⟨c, maker, hbuilt, rfl, rfl⟩ :=
    (Step.of_step (x.step n)).isBuilt (x.guarded n) hL hmade
  obtain ⟨j, hj, hqueued⟩ := exists_isQueued hgoes hext hbuilt
  -- it stays queued, and is not switched into
  have hstays : ∀ k, j ≤ k → (x.state k).IsQueued a c ∧ ∀ q, .switchTo q a ∉ x.out k := by
    have hstep : ∀ k, j ≤ k → (x.state k).IsQueued a c →
        (x.state (k + 1)).IsQueued a c ∧ ∀ q, .switchTo q a ∉ x.out k := fun k hk hq ↦
      (hq.next (x.guarded k) (.of_step (x.step k))).resolve_right (hnever k (by omega))
    intro k hk
    have hq : (x.state k).IsQueued a c := by
      induction k, hk using Nat.le_induction with
      | base => exact hqueued
      | succ k hk ih => exact (hstep k hk ih).1
    exact ⟨hq, (hstep k hk hq).2⟩
  obtain ⟨L, hL, hℓ⟩ := hqueued
  have hfit := hL.fits a
  rw [hℓ] at hfit
  obtain ⟨k, hk, hswitch⟩ := queued_eventually_switched hinit (hgoes j a c hfit.co)
    (hfit.mem_queued (List.mem_singleton_self _))
  exact (hstays k hk).2 _ hswitch

theorem Sys.HasReturned.eventually (hinit : machine.init (x.state 0))
    (hx : GoesOn x c.pMyProcessor) {n : ℕ} (h : (x.state n).HasReturned a c) :
    ∃ k, n ≤ k ∧ .delete c.pMyProcessor a c.serial ∈ x.out k ∧
      ∀ i, n ≤ i → i < k → .top c.pMyProcessor ∉ x.out i := by
  -- the first visit to the top
  obtain ⟨m, hm, htop⟩ := exists_top hinit hx n
  obtain ⟨m, hm, ⟨_, htop, rfl⟩, hfirst⟩ :=
    x.exists_first (P := fun ev ↦ ev = .top c.pMyProcessor) hm ⟨_, htop, rfl⟩
  by_contra hno
  have hnever : ∀ k, n ≤ k → k ≤ m → .delete c.pMyProcessor a c.serial ∉ x.out k :=
    fun k hk hkm hdelete ↦ hno ⟨k, hk, hdelete, fun i hi hik hmem ↦
      hfirst i hi (by omega) _ hmem rfl⟩
  have hstays : ∀ k, n ≤ k → k ≤ m + 1 → (x.state k).HasReturned a c := by
    intro k hk
    induction k, hk using Nat.le_induction with
    | base => exact fun _ ↦ h
    | succ k hk ih =>
      intro hkm
      exact ((ih (by omega)).next (x.guarded k) (.of_step (x.step k))).resolve_right
        (hnever k hk (by omega))
  have hmem := (hstays (m + 1) (by omega) le_rfl).mem
  rw [(Step.of_step (x.step m)).removedCo_of_top htop] at hmem
  exact absurd hmem List.not_mem_nil

/-- **Every coroutine that returns is deleted.** In every disciplined run that goes on forever, in
which the coroutines of a processor give the thread back and its loop goes on when they have, a
coroutine of the processor whose function returns is deleted before the loop gets to the top
again. -/
theorem returned_eventually_deleted (hinit : machine.init (x.state 0)) (hx : GoesOn x p)
    {n serial : ℕ} (hret : .ret p a serial ∈ x.out n) :
    ∃ k, n < k ∧ .delete p a serial ∈ x.out k ∧ ∀ i, n < i → i < k → .top p ∉ x.out i := by
  obtain ⟨L, hL⟩ := lives_of_reachable (fun _ _ h ↦ h) ⟨_, _, hinit, x.run n⟩
  obtain ⟨c, hreturned, rfl, rfl⟩ := (Step.of_step (x.step n)).hasReturned (x.guarded n) hL hret
  obtain ⟨k, hk, hdelete, hno⟩ := hreturned.eventually hinit hx
  exact ⟨k, hk, hdelete, fun i hi ↦ hno i hi⟩

end Forever

/-- A coroutine is made, runs and is gone, after which the loop goes round forever. -/
theorem exists_made_and_gone : ∃ x : Execution machine Disciplined, machine.init (x.state 0) ∧
    (∀ k b c, (x.state k).cos b = some c → GoesOn x c.pMyProcessor) ∧
    (∀ k t, (x.state k).exts t ≠ .idle → ∃ j, k ≤ j ∧ x.action j = .ext t) ∧ GoesOn x 0 ∧
      .made 7 0 0 ∈ x.out 1 ∧ .ret 0 7 0 ∈ x.out 24 := by
  let r := machine.after Disciplined (Sys.fresh 0) (toPushed ++ toThirdTop)
  have hrun : Run machine Disciplined (Sys.fresh 0) r.2 r.1 := run_after _
  have hquiet : (r.1.pros 0).Quiet :=
    ⟨rfl, by decide, rfl, rfl, rfl, rfl, by decide⟩
  have hlog : r.2[1]? = some (Action.extCall 0 (.goNewCo 0 7), [Event.made 7 0 0]) ∧
      r.2[24]? = some (Action.user 0 .ret, [Event.ret 0 7 0]) ∧
        ∀ st ∈ r.2, ∀ ev ∈ st.2, ev.madeOn 0 = true := by decide
  have hexts : r.1.exts = Function.update (Function.update (Function.update (fun _ ↦ .idle) 0
      (.goCo 0 7)) 0 (.wake 0 0)) 0 .idle := rfl
  have hidle : ∀ t, r.1.exts t = .idle := fun t ↦ by
    rw [hexts]
    by_cases ht : t = 0 <;> simp [ht]
  obtain ⟨hmade, hret, hon⟩ := hlog
  clear_value r
  obtain ⟨x, hinit, hgoes, -, hsteps, -, hend⟩ := exists_goesOn ⟨0, rfl⟩ .nil hrun hquiet
  simp only [List.length_nil, Nat.zero_add] at hsteps hend
  refine ⟨x, hinit, goesOn_of_madeOn hinit hgoes (n := r.2.length) (fun i hi ev hout ↦ ?_)
    fun k ↦ (hend k).imp fun _ h ↦ h.1, fun k t hbusy ↦ ?_, hgoes, ?_, ?_⟩
  · rw [(hsteps i _ (List.getElem?_eq_getElem hi)).2] at hout
    exact hon _ (List.getElem_mem hi) _ hout
  · obtain ⟨P, hP, -⟩ := hend k
    exact exists_ext (n := r.2.length + k) (by omega) hbusy (by rw [hP, Sys.exts_setPro, hidle])
  · rw [(hsteps 1 _ hmade).2]
    exact List.mem_singleton_self _
  · rw [(hsteps 24 _ hret).2]
    exact List.mem_singleton_self _

theorem made_eventually_entered_new : ∃ x : Execution machine Disciplined, ∃ k,
    .made 7 0 0 ∈ x.out 1 ∧ 1 < k ∧ .enter 7 0 ∈ x.out k := by
  obtain ⟨x, hinit, hgoes, hext, -, hmade, -⟩ := exists_made_and_gone
  obtain ⟨k, hk, henter⟩ := made_eventually_entered hinit hgoes hext hmade
  exact ⟨x, k, hmade, hk, henter⟩

theorem returned_eventually_deleted_new : ∃ x : Execution machine Disciplined, ∃ n k,
    .ret 0 7 0 ∈ x.out n ∧ n < k ∧ .delete 0 7 0 ∈ x.out k := by
  obtain ⟨x, hinit, -, -, hgoes, -, hret⟩ := exists_made_and_gone
  obtain ⟨k, hk, hdelete, -⟩ := returned_eventually_deleted hinit hgoes hret
  exact ⟨x, _, k, hret, hk, hdelete⟩

end Copnet
