import Copnet.Runtime.Lives

/-!
# Every step follows the lives

In a run in which `goCo` is called by `goNewCo` and `freeLock` only, every step of the system takes
the life at each address along `LifeStep`, and the state goes on fitting. That is `Step.lives`, from
which the lives of a whole run follow.
-/

open Transition Ledger

namespace Copnet

section Steps

variable {s s' : Sys} {L : Addr → Life} {act : Action} {es : List Event} {p : Pid}

/-! ## The loop -/

theorem Lives.not_exec (hL : Lives s L) (hexec : (s.pros p).exec = none) {a : Addr} {c : Coroutine}
    {code : Code} {src : Source} (ha : L a = .exec c code src) : c.pMyProcessor ≠ p := by
  rintro rfl
  have hfa := hL.fits a
  rw [ha] at hfa
  simp [hfa.exec_eq] at hexec

theorem Fits.mem_coSet {a : Addr} {ℓ : Life} {q : Pid} (hf : Fits s a ℓ)
    (h : .pro q .inSet ∈ ℓ.places) : a ∈ (s.pros q).coSet := by
  have hpos : 0 < ℓ.places.count (.pro q .inSet) := List.count_pos_iff.mpr h
  rw [← hf.places] at hpos
  by_contra hno
  simp [Sys.ledger, Processor.ledger, hno] at hpos

theorem Lives.timer {i : ℕ} {a : Addr} (hL : Lives s L) (hs : Step s act s' es)
    (hexec : (s.pros p).exec = none) (hpc : (s.pros p).pc = .timers i)
    (ha : (s.pros p).timerExpiredCo[i]? = some a)
    (hres : Resumes (s.setPc p (.timers (i + 1))) p (some a) s' es) :
    ∃ L', Lives s' L' ∧ ∀ b, LifeStep s act b (L b) (lifeEvents b es) (L' b) := by
  have hne : s.ledger (.pro p .sleep) a ≠ 0 := by
    simp [Sys.ledger, Processor.ledger, Processor.expiredRest, hpc, Processor.drop_eq_cons ha]
  rcases (hL.fits a).of_sleep hne with ⟨c, code, hlife, hp⟩ | ⟨c, hlife, hp⟩
  · exact absurd hp (hL.not_exec hexec hlife)
  · have hset : a ∈ (s.pros p).coSet := (hL.fits a).mem_coSet (by simp [hlife, Life.places, hp])
    exact hL.of_resumes_parked [] hs hexec hres
      (moves_setPro rfl rfl rfl (Processor.moves_timerNext hpc ha)) hexec hlife hp (by simp) hset
      (by simp) (fun y ↦ by simp [Source.taken, Source.places, List.count_cons])
      (hp ▸ .resume c .sleep (.inl rfl)) fun _ _ ↦ rfl

theorem Lives.pop {rq : Bool} {e : Entry} {rest : List Entry} (hL : Lives s L)
    (hs : Step s act s' (.pop p rq e.co :: es)) (hexec : (s.pros p).exec = none)
    (hpc : (s.pros p).pc = .pop rq) (hcons : (s.pros p).queue.bufs rq = e :: rest)
    (hres : Resumes (s.setPro p { s.pros p with
      queue := (s.pros p).queue.pop rq
      coSet := insert e.co (s.pros p).coSet
      pc := .drain rq }) p (some e.co) s' es) :
    ∃ L', Lives s' L' ∧
      ∀ b, LifeStep s act b (L b) (lifeEvents b (.pop p rq e.co :: es)) (L' b) := by
  have hne : s.ledger (.pro p .queue) e.co ≠ 0 := by
    have := Processor.count_pop hcons e.co
    simp only [Sys.ledger, Processor.ledger]
    rw [if_pos rfl] at this
    omega
  have hm := moves_setPro rfl rfl rfl (Processor.moves_pop hpc hcons)
  rcases (hL.fits e.co).of_queue hne with ⟨c, ha, hp⟩ | ⟨c, code, ha, hp⟩ | ⟨c, ha, hp⟩
  · have hset : e.co ∉ (s.pros p).coSet := by
      intro hset
      have hin : s.ledger (.pro p .inSet) e.co ≠ 0 := by simp [Sys.ledger, Processor.ledger, hset]
      have hmem := (hL.fits e.co).mem_places hin
      simp [ha, Life.places] at hmem
    rw [if_neg hset] at hm
    exact hL.of_resumes_queued hs hexec hres hm hexec ha hp (Finset.mem_insert_self ..)
  · exact absurd hp (hL.not_exec hexec ha)
  · have hset : e.co ∈ (s.pros p).coSet := (hL.fits e.co).mem_coSet (by simp [ha, Life.places, hp])
    rw [if_pos hset] at hm
    refine hL.of_resumes_parked [.pop p rq e.co] hs hexec hres hm hexec ha hp (by simp)
      (Finset.mem_insert_self ..) (by simp)
      (fun y ↦ by simp [Source.taken, Source.places, List.count_cons]) ?_ fun b hb ↦ ?_
    · simpa [lifeEvents, Event.inLife, ← hp] using .pop c rq
    · simp [lifeEvents, Event.inLife, hb.symm]

theorem Lives.event {i : ℕ} {a : Addr} (hL : Lives s L) (hs : Step s act s' es)
    (hexec : (s.pros p).exec = none) (hpc : (s.pros p).pc = .events i)
    (ha : (s.pros p).actCoroutines[i]? = some (some a))
    (hres : Resumes (s.setPc p (.events (i + 1))) p (some a) s' es) :
    ∃ L', Lives s' L' ∧ ∀ b, LifeStep s act b (L b) (lifeEvents b es) (L' b) := by
  have hne : s.ledger (.pro p .act) a ≠ 0 := by
    simp [Sys.ledger, Processor.ledger, Processor.activeRest, hpc, Processor.drop_eq_cons ha]
  obtain ⟨c, fd, hlife, hp⟩ := (hL.fits a).of_act hne
  have hset : a ∈ (s.pros p).coSet := (hL.fits a).mem_coSet (by simp [hlife, Life.places, hp])
  exact hL.of_resumes_parked [] hs hexec hres
    (moves_setPro rfl rfl rfl (Processor.moves_event hpc ha)) hexec hlife hp (by simp) hset
    (by simp) (fun y ↦ by simp [Source.taken, Source.places, List.count_cons, add_comm])
    (hp ▸ .resume c (.event fd true) (.inr ⟨fd, rfl⟩)) fun _ _ ↦ rfl

theorem Lives.reclaim {i : ℕ} {a : Addr} {c : Coroutine} (hL : Lives s L)
    (hs : Step s act s' [.delete p a c.serial]) (hpc : (s.pros p).pc = .reclaim i)
    (ha : (s.pros p).removedCo[i]? = some a) (hco : s.cos a = some c)
    (hs' : s' = (s.setPro p { s.pros p with
      coSet := (s.pros p).coSet.erase a
      pc := .reclaim (i + 1) }).setCo a none) :
    ∃ L', Lives s' L' ∧
      ∀ b, LifeStep s act b (L b) (lifeEvents b [.delete p a c.serial]) (L' b) := by
  have hne : s.ledger (.pro p .dead) a ≠ 0 := by
    simp [Sys.ledger, Processor.ledger, Processor.removedRest, hpc, Processor.drop_eq_cons ha]
  obtain ⟨c₁, hlife, hp⟩ := (hL.fits a).of_dead hne
  obtain rfl : c₁ = c := by
    have hfit := (hL.fits a).co
    rw [hlife, hco] at hfit
    exact (Option.some.inj hfit).symm
  have hset : a ∈ (s.pros p).coSet := (hL.fits a).mem_coSet (by simp [hlife, Life.places, hp])
  have hpros : s'.pros = (s.setPro p { s.pros p with
      coSet := (s.pros p).coSet.erase a
      pc := .reclaim (i + 1) }).pros := by rw [hs', Sys.pros_setCo]
  have hm := moves_setPro hpros (by rw [hs']; rfl) (by rw [hs']; rfl)
    (Processor.moves_reclaim hpc ha)
  have hok : Life.free.Ok a := trivial
  rw [if_pos hset] at hm
  refine hL.of_other hs (keepsThreads_setPro hpros rfl rfl) hok ?_ (fun b hb ↦ ?_) (fun q ↦ ?_) hm
    (by simp) (fun y ↦ ?_) ?_ fun b hb ↦ ?_
  · simp [hs', Life.co]
  · simp [hs', Sys.cos_setCo, hb]
  · simp [hlife, Life.codeOn]
  · simp [hlife, Life.places, hp, List.count_cons, add_comm]
  · simpa [hlife, hp, lifeEvents, Event.inLife] using LifeStep.delete c₁
  · simp [lifeEvents, Event.inLife, hb.symm]

theorem Fits.registered {a : Addr} {ℓ : Life} {q : Pid} {fd : Fd} (hf : Fits s a ℓ) :
    (s.pros q).epoller.registered fd = some (some a) ↔ .pro q (.reg fd) ∈ ℓ.places := by
  rw [← List.count_pos_iff, ← hf.places]
  simp only [Sys.ledger, Processor.ledger]
  split <;> simp_all

/-- A reported descriptor is that of a suspended coroutine which has not been collected. -/
theorem Lives.of_reported (hL : Lives s L) (hexec : (s.pros p).exec = none)
    (hpc : (s.pros p).pc = .epollWait) {a : Addr} {fd : Fd}
    (hreg : (s.pros p).epoller.registered fd = some (some a)) :
    ∃ c, L a = .parked c (.event fd false) ∧ c.pMyProcessor = p := by
  have hne : s.ledger (.pro p (.reg fd)) a ≠ 0 := by simp [Sys.ledger, Processor.ledger, hreg]
  obtain ⟨c, collected, hp, ⟨code, ha⟩ | ha⟩ := (hL.fits a).of_reg hne
  · exact absurd hp (hL.not_exec hexec ha)
  · cases collected with
    | false => exact ⟨c, ha, hp⟩
    | true =>
      have hact := (hL.fits a).places (.pro p .act)
      simp [ha, Life.places, Source.places, hp, Sys.ledger, Processor.ledger,
        Processor.activeRest, hpc] at hact

theorem Lives.epoll {fds : List Fd} (hL : Lives s L) (hs : Step s act s' [])
    (hexec : (s.pros p).exec = none) (hpc : (s.pros p).pc = .epollWait)
    (hrep : (s.pros p).epoller.Reports fds)
    (hs' : s' = s.setPro p { s.pros p with
      actCoroutines := (s.pros p).actCoroutines ++ (s.pros p).epoller.active fds
      epoller := (s.pros p).epoller.grow fds
      pc := .getExpired }) :
    ∃ L', Lives s' L' ∧ ∀ b, LifeStep s act b (L b) (lifeEvents b []) (L' b) := by
  obtain ⟨hact, hexp⟩ : (s.pros p).actCoroutines = [] ∧ (s.pros p).timerExpiredCo = [] := by
    simpa [LoopState.Cleared, Processor.loopState, hpc] using hL.cleared p
  have ht : KeepsThreads s s' := keepsThreads_setPro (congrArg Sys.pros hs') rfl rfl
  -- a pointer for every reported descriptor goes to `actCoroutines_`
  have hledger : ∀ x b, s'.ledger x b = s.ledger x b + if x = .pro p .act then
      fds.countP fun fd ↦ (s.pros p).epoller.registered fd = some (some b) else 0 := by
    rintro (⟨q, spot⟩ | m | ⟨t, r⟩) b
    · by_cases hq : q = p
      · subst hq
        simp only [Sys.ledger, hs', Sys.pros_setPro_self,
          Processor.ledger_epoll hpc hact hexp, Place.pro.injEq, true_and]
      · simp [Sys.ledger, hs', Sys.pros_setPro_of_ne _ _ _ hq, hq]
    · simp [Sys.ledger, hs']
    · simp [Sys.ledger, hs']
  have hlife : ∀ b, ∃ ℓ, Fits s' b ℓ ∧ LifeStep s act b (L b) [] ℓ := by
    intro b
    obtain ⟨hok, hco, hplaces, hcode⟩ := hL.fits b
    have hcode' : ∀ q, (s'.pros q).codeOf b = (s.pros q).codeOf b := fun q ↦ by
      rw [Processor.codeOf, Processor.codeOf, (ht q).1]
    -- a coroutine waits for one descriptor, so it is reported once or not at all
    by_cases hb : ∃ fd ∈ fds, (s.pros p).epoller.registered fd = some (some b)
    · obtain ⟨fd, hfd, hreg⟩ := hb
      obtain ⟨c, hparked, hp⟩ := hL.of_reported hexec hpc hreg
      have hcount : fds.countP (fun fd' ↦ (s.pros p).epoller.registered fd' = some (some b)) =
          1 := by
        rw [← List.count_eq_one_of_mem hrep.1 hfd, List.count]
        apply List.countP_congr
        intro fd' _
        rw [decide_eq_true_iff, (hL.fits b).registered]
        simp [hparked, Life.places, Source.places, hp]
      rw [hparked] at hok hco hplaces hcode ⊢
      obtain ⟨hst, hctx, hallow⟩ := hok
      refine ⟨.parked c (.event fd true), ⟨⟨hst, hctx, ?_⟩, by rw [hs']; exact hco, fun x ↦ ?_,
        fun q ↦ by rw [hcode', hcode]; rfl⟩, .collect c fd⟩
      · cases hk : c.ctx.2 <;> simp_all [Point.Allows]
      · rw [hledger, hplaces, hcount]
        simp [Life.places, Source.places, hp, List.count_cons, eq_comm (a := x)]
        omega
    · refine ⟨L b, ⟨hok, by rw [hs']; exact hco, fun x ↦ ?_, fun q ↦ by rw [hcode', hcode]⟩,
        .stay _⟩
      have hcount : fds.countP (fun fd ↦ (s.pros p).epoller.registered fd = some (some b)) = 0 :=
        List.countP_eq_zero.mpr fun fd hfd hreg ↦ hb ⟨fd, hfd, by simpa using hreg⟩
      rw [hledger, hplaces, hcount, ite_self, add_zero]
  choose L' hL' using hlife
  refine ⟨L', ⟨fun b ↦ (hL' b).1, fun q x code h ↦ ?_, hs.paced hL.paced,
    fun q ↦ (hs.effect q).cleared (hL.cleared q)⟩, fun b ↦ (hL' b).2⟩
  rw [(ht q).2]
  exact hL.current q x code (by rw [← (ht q).1, h])

/-! ## Coroutines -/

theorem Code.allows_queue {code : Code} {m : MuId} (h : code.Allows (.waiting m)) :
    code.Allows .queue := by
  rcases code with k | _ | _ | _ | _ | k | _ | _ | k
  all_goals try cases k
  all_goals simp_all [Code.Allows]

theorem Point.allows_queue {k : Point} {m : MuId} (h : k.Allows (.waiting m)) :
    k.Allows .queue := by
  cases k <;> simp_all [Point.Allows]

theorem Code.allows_swap {k : Point} {src : Source} (h : (Code.yield k).Allows src) :
    (Code.swap k).Allows src := by
  cases k with
  | user => exact h.elim
  | _ => exact h

/-- What a coroutine has set up before it switches away is in order when it is resumed. -/
theorem Code.allows_of_swap {k : Point} {src : Source} (h : (Code.swap k).Allows src) :
    k.Allows src := by
  cases k with
  | user => exact h
  | rlock m | wlock m => exact h
  | removeEv fd =>
    rcases h with rfl | rfl
    · exact .inl ⟨false, rfl⟩
    · exact .inr rfl

section Coroutines

variable {x a : Addr}

theorem Lives.goNewCo {q : Pid} (hL : Lives s L) (hs : Step s act s' [.made a s.nextSerial q])
    (hexec : (s.pros p).exec = some (x, .run .user)) (hfree : s.MayAlloc q a)
    (hs' : s' = (s.newObj q a).setExec p (some (x, .goCo q a))) :
    ∃ L', Lives s' L' ∧
      ∀ b, LifeStep s act b (L b) (lifeEvents b [.made a s.nextSerial q]) (L' b) := by
  have ha := (hL.fits a).of_free hfree.1
  obtain ⟨c, src, hx, -⟩ := hL.executing hexec
  have hax : a ≠ x := by
    rintro rfl
    simp [ha] at hx
  have hm : Moves s.ledger s'.ledger [] [(.pro p (.makes q), a)] := by
    have hset := moves_setExec (s.newObj q a) p (some (x, .goCo q a))
    rw [pros_newObj, hexec] at hset
    rw [hs']
    exact (Moves.of_eq (ledger_congr rfl rfl rfl)).trans hset
  have hok : (Life.built ⟨q, .ready, (a, .user), s.nextSerial⟩ (.pro p)).Ok a := rfl
  refine hL.of_code_other hs hexec (.of_setExec (keepsThreads_of_eq (pros_newObj s q a))
    (congrArg Sys.pros hs')) hax (fun b hb ↦ ?_) rfl (fun _ h ↦ h) rfl hok ?_ (fun q' ↦ ?_)
    hm (by simp) (fun y ↦ ?_) ?_
    fun b hb ↦ ?_
  · simp [hs', Sys.setExec, Sys.newObj, Sys.cos_setCo, hb]
  · simp [hs', Sys.setExec, Sys.newObj, Life.co]
  · simp [ha, Life.codeOn]
  · simp [ha, Life.places, Maker.place, List.count_cons]
  · have hmake : LifeStep s act a .free [.made a s.nextSerial q]
        (.built ⟨q, .ready, (a, .user), s.nextSerial⟩ (.pro p)) :=
      .make ⟨q, .ready, (a, .user), s.nextSerial⟩ (.pro p) rfl
    simpa [ha, lifeEvents, Event.inLife] using hmake
  · simp [lifeEvents, Event.inLife, hb.symm]

theorem Lives.goCo {q : Pid} (hL : Lives s L) (hs : Step s act s' [.push q [a]])
    (hexec : (s.pros p).exec = some (x, .goCo q a))
    (hs' : s' = (s.goCoBatch q [a]).setExec p (some (x, .wake q s.nextCall))) :
    ∃ L', Lives s' L' ∧ ∀ b, LifeStep s act b (L b) (lifeEvents b [.push q [a]]) (L' b) := by
  have hne : s.ledger (.pro p (.makes q)) a ≠ 0 := by
    simp [Sys.ledger, Processor.ledger, hexec, inHand]
  obtain ⟨c, ha, hq⟩ := (hL.fits a).of_makes hne
  obtain ⟨c₁, src, hx, -⟩ := hL.executing hexec
  have hax : a ≠ x := by
    rintro rfl
    simp [ha] at hx
  have hfit := hL.fits a
  rw [ha] at hfit
  have hm : Moves s.ledger s'.ledger [(.pro p (.makes q), a)] [(.pro q .queue, a)] := by
    have hset := moves_setExec (s.goCoBatch q [a]) p (some (x, .wake q s.nextCall))
    rw [exec_goCoBatch, hexec] at hset
    rw [hs']
    exact (moves_goCo s q a).trans hset
  have hok : (Life.queued c).Ok a := hfit.ok
  refine hL.of_code_other hs hexec
    (.of_setExec (keepsThreads_goCoBatch s q [a]) (congrArg Sys.pros hs')) hax (fun b hb ↦ ?_) rfl
    (fun _ h ↦ h) rfl hok ?_ (fun q' ↦ ?_) hm (by simp) (fun y ↦ ?_) ?_ fun b hb ↦ rfl
  · rw [hs']
    rfl
  · rw [hs']
    exact hfit.co
  · simp [ha, Life.codeOn]
  · simp [ha, hq, Life.places, Maker.place, List.count_cons, add_comm]
  · rw [ha]
    exact .go c (.pro p)

theorem Lives.handOver {m : MuId} {rest : List Addr} {c : Coroutine} (hL : Lives s L)
    (hs : Step s act s' [.handOver m a c.pMyProcessor, .push c.pMyProcessor [a]])
    (hexec : (s.pros p).exec = some (x, .freeLock m)) (hcons : (s.mus m).waitingCo = a :: rest)
    (hco : s.cos a = some c)
    (hs' : s' = ((s.setMu m { s.mus m with waitingCo := rest }).goCoBatch c.pMyProcessor
      [a]).setExec p (some (x, .freeWake m c.pMyProcessor s.nextCall))) :
    ∃ L', Lives s' L' ∧ ∀ b, LifeStep s act b (L b)
      (lifeEvents b [.handOver m a c.pMyProcessor, .push c.pMyProcessor [a]]) (L' b) := by
  have hne : s.ledger (.mu m) a ≠ 0 := by simp [Sys.ledger, hcons]
  obtain ⟨c₁, src, hx, -, -, -, -, rfl⟩ := hL.executing hexec
  have hm : Moves s.ledger s'.ledger [(.mu m, a)] [(.pro c.pMyProcessor .queue, a)] := by
    have hset := moves_setExec ((s.setMu m { s.mus m with waitingCo := rest }).goCoBatch
      c.pMyProcessor [a]) p (some (x, .freeWake m c.pMyProcessor s.nextCall))
    rw [exec_goCoBatch, Sys.pros_setMu, hexec] at hset
    have hmu := moves_setMu s m { s.mus m with waitingCo := rest } [a] []
      fun b ↦ by simp [hcons, List.count_cons]
    rw [hs']
    exact hmu.trans ((moves_goCo _ _ a).trans hset)
  have hu : KeepsThreads s ((s.setMu m { s.mus m with waitingCo := rest }).goCoBatch
      c.pMyProcessor [a]) := keepsThreads_goCoBatch (s.setMu m _) c.pMyProcessor [a]
  have ht := MovesThread.of_setExec hu (congrArg Sys.pros hs')
  have hfit := hL.fits a
  have hcos : s'.cos = s.cos := by
    rw [hs']
    rfl
  -- the waiter may not have swapped out yet
  rcases hfit.of_waiting hne with ⟨c₂, code, ha⟩ | ⟨c₂, ha⟩
  all_goals
    obtain rfl : c₂ = c := by
      have hc := hfit.co
      rw [ha, hco] at hc
      exact (Option.some.inj hc).symm
    have hax : a ≠ x := by
      rintro rfl
      simp [ha] at hx
    rw [ha] at hfit
  · have hok : (Life.exec c₂ code .queue).Ok a := ⟨hfit.ok.1, Code.allows_queue hfit.ok.2⟩
    refine hL.of_code_other hs hexec ht hax (fun b _ ↦ by rw [hcos]) rfl (fun _ h ↦ h) rfl hok
      (by rw [hcos, hco]; rfl) (fun q ↦ by rw [ha]; rfl) hm (by simp) (fun y ↦ ?_)
      ?_ fun b hb ↦ by simp [lifeEvents, Event.inLife, hb.symm]
    · simp [ha, Life.places, Source.places, List.count_cons]
      omega
    · simpa [ha, lifeEvents, Event.inLife] using .handOverEarly c₂ code m
  · have hok : (Life.parked c₂ .queue).Ok a :=
      ⟨hfit.ok.1, hfit.ok.2.1, Point.allows_queue hfit.ok.2.2⟩
    refine hL.of_code_other hs hexec ht hax (fun b _ ↦ by rw [hcos]) rfl (fun _ h ↦ h) rfl hok
      (by rw [hcos, hco]; rfl) (fun q ↦ by rw [ha]; rfl) hm (by simp) (fun y ↦ ?_)
      ?_ fun b hb ↦ by simp [lifeEvents, Event.inLife, hb.symm]
    · simp [ha, Life.places, Source.places, List.count_cons]
      omega
    · simpa [ha, lifeEvents, Event.inLife] using .handOver c₂ m

theorem Lives.waitEvent {fd : Fd} {canPoll : Bool} (hL : Lives s L)
    (hs : Step s (.user p (.waitEvent fd canPoll)) s' [])
    (hexec : (s.pros p).exec = some (x, .run .user))
    (hs' : s' = s.setPro p { s.pros p with
      epoller := ((s.pros p).epoller.addEv (s.pros p).pCurCoroutine fd canPoll).1
      exec := some (x, .yield (.removeEv fd)) }) :
    ∃ L', Lives s' L' ∧ ∀ b, LifeStep s (.user p (.waitEvent fd canPoll)) b (L b)
      (lifeEvents b []) (L' b) := by
  obtain ⟨c, src, hx, hp, hco, hcur, hst, rfl⟩ := hL.executing hexec
  have hpros := congrArg Sys.pros hs'
  have ht : MovesThread s s' p (some (x, .yield (.removeEv fd))) := .of_setPro hpros rfl rfl
  have hcos : s'.cos = s.cos := by
    rw [hs']
    rfl
  by_cases hadd : (s.pros p).epoller.registered fd = none ∧ canPoll = true
  · obtain ⟨hfree, rfl⟩ := hadd
    rw [hcur] at hpros
    have hm := moves_setPro hpros (by rw [hs']; rfl) (by rw [hs']; rfl)
      (Processor.moves_exec_nil (Processor.moves_addEv hfree x) hexec rfl rfl)
    exact hL.of_exec hs hx hexec ht (by rw [hcos, hco]) (fun b _ ↦ by rw [hcos]) rfl
      ⟨hst, .inl rfl⟩ hm (by simp) (fun y ↦ by simp [Source.places, hp, List.count_cons])
      (.addEv c fd) fun _ _ ↦ rfl
  · rw [Processor.addEv_fails hadd] at hpros
    have hm := moves_setPro hpros (by rw [hs']; rfl) (by rw [hs']; rfl)
      (Processor.moves_exec_nil (.refl _) hexec rfl rfl)
    exact hL.of_exec hs hx hexec ht (by rw [hcos, hco]) (fun b _ ↦ by rw [hcos]) rfl
      ⟨hst, .inr rfl⟩ hm (by simp) (fun y ↦ rfl) (.addEvFails c fd hadd) fun _ _ ↦ rfl

theorem Lives.removeEv {fd : Fd} (hL : Lives s L) (hs : Step s act s' [])
    (hexec : (s.pros p).exec = some (x, .run (.removeEv fd)))
    (hs' : s' = s.setPro p { s.pros p with
      epoller := (s.pros p).epoller.removeEv fd
      exec := some (x, .run .user) }) :
    ∃ L', Lives s' L' ∧ ∀ b, LifeStep s act b (L b) (lifeEvents b []) (L' b) := by
  obtain ⟨c, src, hx, hp, hco, hcur, hst, rfl⟩ := hL.executing hexec
  have hpros := congrArg Sys.pros hs'
  have hcos : s'.cos = s.cos := by
    rw [hs']
    rfl
  have hreg : (s.pros p).epoller.registered fd = some (some x) := by
    rw [(hL.fits x).registered, hx]
    simp [Life.places, Source.places, hp]
  have hm := moves_setPro hpros (by rw [hs']; rfl) (by rw [hs']; rfl)
    (Processor.moves_exec_nil (Processor.moves_removeEv hreg) hexec rfl rfl)
  exact hL.of_exec hs hx hexec (.of_setPro hpros rfl rfl) (by rw [hcos, hco])
    (fun b _ ↦ by rw [hcos]) rfl ⟨hst, rfl⟩ hm (by simp)
    (fun y ↦ by simp [Source.places, hp, List.count_cons])
    (.removeEv c fd) fun _ _ ↦ rfl

theorem Lives.runAfter {time runTime : ℤ} (hL : Lives s L) (hs : Step s act s' [])
    (hexec : (s.pros p).exec = some (x, .sleep time))
    (hs' : s' = s.setPro p { s.pros p with
      timer := (s.pros p).timer.push runTime x
      exec := some (x, .arm runTime) }) :
    ∃ L', Lives s' L' ∧ ∀ b, LifeStep s act b (L b) (lifeEvents b []) (L' b) := by
  obtain ⟨c, src, hx, hp, hco, hcur, hst, rfl⟩ := hL.executing hexec
  have hpros := congrArg Sys.pros hs'
  have hcos : s'.cos = s.cos := by
    rw [hs']
    rfl
  have hm := moves_setPro hpros (by rw [hs']; rfl) (by rw [hs']; rfl)
    (Processor.moves_exec_nil (Processor.moves_runAfter _ runTime x) hexec rfl rfl)
  exact hL.of_exec hs hx hexec (.of_setPro hpros rfl rfl) (by rw [hcos, hco])
    (fun b _ ↦ by rw [hcos]) rfl ⟨hst, rfl⟩ hm (by simp)
    (fun y ↦ by simp [Source.places, hp, List.count_cons])
    (.sleep c time runTime) fun _ _ ↦ rfl

theorem Lives.park {m : MuId} {k : Point} (hk : k = .rlock m ∨ k = .wlock m) (hL : Lives s L)
    (hs : Step s act s' [.park m a]) (hexec : (s.pros p).exec = some (x, .run k))
    (hcur : (s.pros p).pCurCoroutine = some a)
    (hs' : s' = (s.setMu m ((s.mus m).park a)).setExec p (some (x, .yield k))) :
    ∃ L', Lives s' L' ∧ ∀ b, LifeStep s act b (L b) (lifeEvents b [.park m a]) (L' b) := by
  obtain ⟨c, src, hx, hp, hco, hcur', hst, hallow⟩ := hL.executing hexec
  obtain rfl : x = a := Option.some.inj (hcur'.symm.trans hcur)
  have hsrc : src = .idle := by rcases hk with rfl | rfl <;> exact hallow
  subst hsrc
  have hm : Moves s.ledger s'.ledger [] [(.mu m, x)] := by
    rw [hs']
    exact (moves_setMu s m ((s.mus m).park x) [] [x] fun b ↦ by
      simp [RWMutex.park, List.count_cons]).trans (moves_setExec_nil hexec rfl rfl)
  have hcos : s'.cos = s.cos := by
    rw [hs']
    rfl
  have hallows : (Code.yield k).Allows (.waiting m) := by
    rcases hk with rfl | rfl <;> exact .inl rfl
  refine hL.of_exec hs hx hexec (.of_setExec (keepsThreads_of_eq (Sys.pros_setMu ..))
    (congrArg Sys.pros hs')) (by rw [hcos, hco]) (fun b _ ↦ by rw [hcos]) rfl ⟨hst, hallows⟩ hm
    (by simp) (fun y ↦ by simp [Source.places, List.count_cons]) ?_ fun b hb ↦ ?_
  · simpa [lifeEvents, Event.inLife] using .wait c m k hk
  · simp [lifeEvents, Event.inLife, hb.symm]

theorem Lives.swap {k : Point} {c : Coroutine} (hL : Lives s L) (hs : Step s act s' [])
    (hexec : (s.pros p).exec = some (x, .swap k)) (hcur : (s.pros p).pCurCoroutine = some a)
    (hco : s.cos a = some c)
    (hs' : s' = (s.setCo a (some { c with ctx := (x, k) })).setExec p none) :
    ∃ L', Lives s' L' ∧ ∀ b, LifeStep s act b (L b) (lifeEvents b []) (L' b) := by
  obtain ⟨c₁, src, hx, hp, hco', hcur', hst, hallow⟩ := hL.executing hexec
  obtain rfl : x = a := Option.some.inj (hcur'.symm.trans hcur)
  obtain rfl : c₁ = c := Option.some.inj (hco'.symm.trans hco)
  have hm : Moves s.ledger s'.ledger [] [] := by
    rw [hs']
    exact (Moves.of_eq (ledger_congr rfl rfl rfl)).trans (moves_setExec_nil hexec rfl rfl)
  have hok : (Life.parked { c₁ with ctx := (x, k) } src).Ok x :=
    ⟨hst, rfl, Code.allows_of_swap hallow⟩
  refine hL.of_thread hs hexec hx (.of_setExec (keepsThreads_of_eq (Sys.pros_setCo ..))
    (congrArg Sys.pros hs')) (by simp) hok ?_ (fun b hb ↦ ?_) (fun q ↦ ?_) hm (by simp)
    (fun y ↦ rfl) (.park c₁ k src) fun _ _ ↦ rfl
  · simp [hs', Sys.setExec, Life.co]
  · simp [hs', Sys.setExec, Sys.cos_setCo, hb]
  · simp [Life.codeOn, Processor.codeOf]

theorem Lives.ret {c : Coroutine} (hL : Lives s L) (hs : Step s act s' [.ret p x c.serial])
    (hexec : (s.pros p).exec = some (x, .run .user)) (hcur : (s.pros p).pCurCoroutine = some a)
    (hco : s.cos x = some c)
    (hs' : s' = s.setPro p { s.pros p with
      removedCo := (s.pros p).removedCo ++ [a], exec := none }) :
    ∃ L', Lives s' L' ∧
      ∀ b, LifeStep s act b (L b) (lifeEvents b [.ret p x c.serial]) (L' b) := by
  obtain ⟨c₁, src, hx, hp, hco', hcur', hst, rfl⟩ := hL.executing hexec
  obtain rfl : x = a := Option.some.inj (hcur'.symm.trans hcur)
  obtain rfl : c₁ = c := Option.some.inj (hco'.symm.trans hco)
  have hpros := congrArg Sys.pros hs'
  have hpc : (s.pros p).pc.Resuming := hL.paced p (by simp [hexec])
  have hm := moves_setPro hpros (by rw [hs']; rfl) (by rw [hs']; rfl)
    (Processor.moves_exec_nil (Processor.moves_ret hpc x) hexec rfl rfl)
  have hok : (Life.returned c₁).Ok x := hst
  refine hL.of_thread hs hexec hx (.of_setPro hpros rfl rfl) (by simp) hok ?_ (fun b _ ↦ ?_)
    (fun q ↦ ?_) hm (by simp) (fun y ↦ ?_) ?_ fun b hb ↦ ?_
  · rw [hs']
    exact hco
  · rw [hs']
    rfl
  · simp [Life.codeOn, Processor.codeOf]
  · simp [Life.places, Source.places, hp, List.count_cons]
    omega
  · simpa [hp, lifeEvents, Event.inLife] using LifeStep.ret c₁
  · simp [lifeEvents, Event.inLife, hb.symm]

end Coroutines

/-! ## Threads outside the scheduler -/

theorem Lives.extGoNewCo {t : Tid} {q : Pid} {a : Addr} (hL : Lives s L)
    (hs : Step s act s' [.made a s.nextSerial q]) (hidle : s.exts t = .idle)
    (hfree : s.MayAlloc q a) (hs' : s' = (s.newObj q a).setExt t (.goCo q a)) :
    ∃ L', Lives s' L' ∧
      ∀ b, LifeStep s act b (L b) (lifeEvents b [.made a s.nextSerial q]) (L' b) := by
  have ha := (hL.fits a).of_free hfree.1
  have hm : Moves s.ledger s'.ledger [] [(.ext t q, a)] := by
    have hset := moves_setExt (s.newObj q a) t (.goCo q a)
    rw [show (s.newObj q a).exts t = .idle from hidle] at hset
    rw [hs']
    exact (Moves.of_eq (ledger_congr rfl rfl rfl)).trans hset
  have hok : (Life.built ⟨q, .ready, (a, .user), s.nextSerial⟩ (.ext t)).Ok a := rfl
  refine hL.of_other hs (keepsThreads_of_eq (by rw [hs']; rfl)) hok ?_ (fun b hb ↦ ?_)
    (fun q' ↦ ?_) hm (by simp) (fun y ↦ ?_) ?_ fun b hb ↦ ?_
  · simp [hs', Sys.newObj, Life.co]
  · simp [hs', Sys.newObj, Sys.cos_setCo, hb]
  · simp [ha, Life.codeOn]
  · simp [ha, Life.places, Maker.place, List.count_cons]
  · have hmake : LifeStep s act a .free [.made a s.nextSerial q]
        (.built ⟨q, .ready, (a, .user), s.nextSerial⟩ (.ext t)) :=
      .make ⟨q, .ready, (a, .user), s.nextSerial⟩ (.ext t) rfl
    simpa [ha, lifeEvents, Event.inLife] using hmake
  · simp [lifeEvents, Event.inLife, hb.symm]

theorem Lives.extGoCo {t : Tid} {q : Pid} {a : Addr} (hL : Lives s L)
    (hs : Step s act s' [.push q [a]]) (hext : s.exts t = .goCo q a)
    (hs' : s' = (s.goCoBatch q [a]).setExt t (.wake q s.nextCall)) :
    ∃ L', Lives s' L' ∧ ∀ b, LifeStep s act b (L b) (lifeEvents b [.push q [a]]) (L' b) := by
  have hne : s.ledger (.ext t q) a ≠ 0 := by simp [Sys.ledger, hext]
  obtain ⟨c, ha, hq⟩ := (hL.fits a).of_ext hne
  have hfit := hL.fits a
  rw [ha] at hfit
  have hm : Moves s.ledger s'.ledger [(.ext t q, a)] [(.pro q .queue, a)] := by
    have hset := moves_setExt (s.goCoBatch q [a]) t (.wake q s.nextCall)
    rw [show (s.goCoBatch q [a]).exts t = .goCo q a from hext] at hset
    rw [hs']
    exact (moves_goCo s q a).trans hset
  have hok : (Life.queued c).Ok a := hfit.ok
  have hu : KeepsThreads s ((s.goCoBatch q [a]).setExt t (.wake q s.nextCall)) :=
    keepsThreads_goCoBatch s q [a]
  refine hL.of_other hs (by rw [hs']; exact hu) hok ?_ (fun b hb ↦ ?_)
    (fun q' ↦ ?_) hm (by simp) (fun y ↦ ?_) ?_ fun b hb ↦ rfl
  · rw [hs']
    exact hfit.co
  · rw [hs']
    rfl
  · simp [ha, Life.codeOn]
  · simp [ha, hq, Life.places, Maker.place, List.count_cons, add_comm]
  · rw [ha]
    exact .go c (.ext t)

/-! ## Every step -/

/-- **Every step follows the lives.** -/
theorem Step.lives (hs : Step s act s' es) (hdisc : Disciplined s act) (hL : Lives s L) :
    ∃ L', Lives s' L' ∧ ∀ a, LifeStep s act a (L a) (lifeEvents a es) (L' a) := by
  have hs₀ := hs
  cases hs with
  | goCoBatch hexec => exact hdisc.elim
  | extGoCoBatch hidle => exact hdisc.elim
  -- The loop goes on, and no pointer moves.
  | start hexec hpc =>
    exact hL.of_nil hs₀ (moves_setPro rfl rfl rfl (Processor.moves_start hpc _)) rfl
      (keepsThreads_setPro rfl rfl rfl) fun _ ↦ rfl
  | top hexec hpc =>
    exact hL.of_nil hs₀ (moves_setPro rfl rfl rfl (Processor.moves_top hpc)) rfl
      (keepsThreads_setPro rfl rfl rfl) fun _ ↦ rfl
  | getExpired hexec hpc =>
    exact hL.of_nil hs₀ (moves_setPro rfl rfl rfl (Processor.moves_getExpired hpc _)) rfl
      (keepsThreads_setPro rfl rfl rfl) fun _ ↦ rfl
  | readTimefd hexec hpc =>
    exact hL.of_nil hs₀ (moves_setPro rfl rfl rfl (Processor.moves_readTimefd hpc)) rfl
      (keepsThreads_setPro rfl rfl rfl) fun _ ↦ rfl
  | rearm hexec hpc =>
    exact hL.of_nil hs₀ (moves_setPro rfl rfl rfl (Processor.moves_rearm hpc _)) rfl
      (keepsThreads_setPro rfl rfl rfl) fun _ ↦ rfl
  | timersEnd hexec hpc hend =>
    exact hL.of_nil hs₀ (moves_setPro rfl rfl rfl (Processor.moves_timersEnd hpc hend)) rfl
      (keepsThreads_setPro rfl rfl rfl) fun _ ↦ rfl
  | readQue hexec hpc | drain hexec hpc _ | drainEnd hexec hpc _ =>
    refine hL.of_nil hs₀ (moves_setPro rfl rfl rfl (Processor.moves_newCos ?_ ?_)) rfl
      (keepsThreads_setPro rfl rfl rfl) fun _ ↦ rfl
    · rw [hpc]
      trivial
    · trivial
  | flip hexec hpc =>
    exact hL.of_nil hs₀ (moves_setPro rfl rfl rfl (Processor.moves_flip hpc)) rfl
      (keepsThreads_setPro rfl rfl rfl) fun _ ↦ rfl
  | eventsEnd hexec hpc hend =>
    exact hL.of_nil hs₀ (moves_setPro rfl rfl rfl (Processor.moves_eventsEnd hpc hend)) rfl
      (keepsThreads_setPro rfl rfl rfl) fun _ ↦ rfl
  | reclaimEnd hexec hpc hend =>
    exact hL.of_nil hs₀ (moves_setPro rfl rfl rfl (Processor.moves_reclaimEnd hpc hend)) rfl
      (keepsThreads_setPro rfl rfl rfl) fun _ ↦ rfl
  -- The loop takes pointers from the lists that it walks.
  | epoll hexec hpc hrep => exact hL.epoll hs₀ hexec hpc hrep rfl
  | timer hexec hpc ha hres => exact hL.timer hs₀ hexec hpc ha hres
  | pop hexec hpc hcons hres => exact hL.pop hs₀ hexec hpc hcons hres
  | @event p i pCo s' es hexec hpc hpCo hres =>
    cases pCo with
    | some a => exact hL.event hs₀ hexec hpc hpCo hres
    | none =>
      cases hres with
      | null =>
        exact hL.of_nil hs₀ (moves_setPro rfl rfl rfl (Processor.moves_event hpc hpCo)) rfl
          (keepsThreads_setPro rfl rfl rfl) fun _ ↦ rfl
  | reclaim hexec hpc ha hco => exact hL.reclaim hs₀ hpc ha hco rfl
  -- A coroutine goes on in its code.
  | callRlock hexec | callWlock hexec =>
    exact hL.of_code hs₀ hexec (.of_setExec (keepsThreads_of_eq rfl) rfl) rfl
      (moves_setExec_nil hexec rfl rfl) rfl (fun _ h ↦ h) rfl fun _ ↦ rfl
  | @runlock p x m c hexec hco hheld hfree =>
    refine hL.of_code hs₀ hexec (.of_setExec (keepsThreads_of_eq rfl) rfl) rfl ?_ ?_ ?_ ?_
      fun _ ↦ rfl
    · exact (moves_setMu_nil RWMutex.waitingCo_runlock).trans
        (moves_setExec_nil hexec rfl (by split <;> rfl))
    · split <;> rfl
    · split <;> exact fun _ h ↦ h
    · split <;> rfl
  | wunlock hexec hco hheld hfree =>
    refine hL.of_code hs₀ hexec (.of_setExec (keepsThreads_of_eq rfl) rfl) rfl ?_ rfl
      (fun _ h ↦ h) rfl fun _ ↦ rfl
    refine (moves_setMu_nil ?_).trans (moves_setExec_nil hexec rfl rfl)
    rfl
  | rlock hexec hfree hlock hco =>
    refine hL.of_code hs₀ hexec (.of_setExec (keepsThreads_of_eq rfl) rfl) rfl ?_ rfl
      (fun _ h ↦ h) rfl fun _ ↦ rfl
    exact (moves_setMu_nil (RWMutex.waitingCo_of_rlock hlock)).trans
      (moves_setExec_nil hexec rfl rfl)
  | wlock hexec hfree hlock hco =>
    refine hL.of_code hs₀ hexec (.of_setExec (keepsThreads_of_eq rfl) rfl) rfl ?_ rfl
      (fun _ h ↦ h) rfl fun _ ↦ rfl
    exact (moves_setMu_nil (RWMutex.waitingCo_of_wlock hlock)).trans
      (moves_setExec_nil hexec rfl rfl)
  | freeLockEnd hexec hnil =>
    refine hL.of_code hs₀ hexec (.of_setExec (keepsThreads_of_eq rfl) rfl) rfl ?_ rfl
      (fun _ h ↦ h) rfl fun _ ↦ rfl
    refine (moves_setMu_nil ?_).trans (moves_setExec_nil hexec rfl rfl)
    rfl
  | @wake p q x call hexec | @freeWake p q x m call hexec =>
    refine hL.of_code hs₀ hexec (.of_setExec (keepsThreads_finishCall s q call) rfl) rfl ?_ rfl
      (fun _ h ↦ h) rfl fun _ ↦ rfl
    exact (moves_finishCall s q call).trans
      (moves_setExec_nil ((exec_finishCall s q p call).trans hexec) rfl rfl)
  | arm hexec =>
    exact hL.of_code hs₀ hexec (.of_setPro rfl rfl rfl) rfl (moves_setPro rfl rfl rfl
      (Processor.moves_exec_nil (Processor.moves_timer (Timer.heap_rearmFor ..)) hexec rfl rfl))
      rfl (fun _ h ↦ h) rfl fun _ ↦ rfl
  | sleep hexec hcur hco =>
    exact hL.of_yield hs₀ hexec hcur hco rfl rfl rfl (fun _ h ↦ h) rfl
  | @yield p x a k c hexec hcur hco =>
    exact hL.of_yield hs₀ hexec hcur hco rfl rfl rfl (fun _ h ↦ Code.allows_swap h) rfl
  | waitEvent hexec => exact hL.waitEvent hs₀ hexec rfl
  | removeEv hexec => exact hL.removeEv hs₀ hexec rfl
  | runAfter hexec hcur =>
    obtain ⟨_, _, -, -, -, hcur', -⟩ := hL.executing hexec
    obtain rfl := Option.some.inj (hcur'.symm.trans hcur)
    exact hL.runAfter hs₀ hexec rfl
  | rlockPark hexec hfree hlock hcur => exact hL.park (.inl rfl) hs₀ hexec hcur rfl
  | wlockPark hexec hfree hlock hcur => exact hL.park (.inr rfl) hs₀ hexec hcur rfl
  | swap hexec hcur hco => exact hL.swap hs₀ hexec hcur hco rfl
  | ret hexec hcur hco => exact hL.ret hs₀ hexec hcur hco rfl
  -- A coroutine or another thread does something to a coroutine.
  | goNewCo hexec hfree => exact hL.goNewCo hs₀ hexec hfree rfl
  | goCo hexec => exact hL.goCo hs₀ hexec rfl
  | handOver hexec hcons hco => exact hL.handOver hs₀ hexec hcons hco rfl
  | extGoNewCo hidle hfree => exact hL.extGoNewCo hs₀ hidle hfree rfl
  | extGoCo hext => exact hL.extGoCo hs₀ hext rfl
  -- The rest of the world.
  | @extWake t q call hext =>
    have hm := (moves_finishCall s q call).trans (moves_setExt (s.finishCall q call) t .idle)
    rw [show (s.finishCall q call).exts t = .wake q call from hext] at hm
    exact hL.of_nil hs₀ hm rfl (keepsThreads_finishCall s q call) fun _ ↦ rfl
  | wakeUp =>
    exact hL.of_nil hs₀ (moves_wakeUpEpoller s _) rfl (keepsThreads_setPro rfl rfl rfl)
      fun _ ↦ rfl
  | expire hexp =>
    have hm := Processor.moves_timer (Timer.expire_eq_some _ hexp).1
    exact hL.of_nil hs₀ (moves_setPro rfl rfl rfl hm) rfl (keepsThreads_setPro rfl rfl rfl)
      fun _ ↦ rfl
  | tick => exact hL.of_nil hs₀ (.of_eq rfl) rfl (keepsThreads_of_eq rfl) fun _ ↦ rfl

end Steps

/-! ## Runs -/

theorem lives_of_init {s : Sys} (h : machine.init s) : Lives s fun _ ↦ .free := by
  obtain ⟨clock, rfl⟩ := h
  refine ⟨fun a ↦ ⟨trivial, rfl, ?_, fun q ↦ rfl⟩, fun p x code h ↦ ?_, fun p ↦ ?_, fun p ↦ trivial⟩
  · rintro (⟨q, spot⟩ | m | ⟨t, r⟩)
    · cases spot <;>
        simp [Sys.ledger, Processor.ledger, Sys.fresh, Sys.freshPro, Life.places,
          DoubleBuffer.contents_empty, Timer.created, TimerHeap.sleepers, Processor.expiredRest,
          Processor.activeRest, Processor.removedRest, inHand]
    · simp [Sys.ledger, Sys.fresh, RWMutex.created, Life.places]
    · simp [Sys.ledger, Sys.fresh, Life.places]
  · simp [Sys.fresh, Sys.freshPro] at h
  · exact Processor.paced_of_none rfl

/-- **The lives of a run.** In every state of a disciplined run every address has its life. -/
theorem lives_of_reachable {C : Sys → Action → Prop} {s : Sys}
    (hC : ∀ s act, C s act → Disciplined s act) (h : Reachable machine C s) :
    ∃ L, Lives s L := by
  refine h.invariant (P := fun s ↦ ∃ L, Lives s L) (fun hinit ↦ ⟨_, lives_of_init hinit⟩) ?_
  rintro t u act es ⟨L, hL⟩ hc hstep
  obtain ⟨L', hL', -⟩ := (Step.of_step hstep).lives (hC t act hc) hL
  exact ⟨L', hL'⟩

end Copnet
