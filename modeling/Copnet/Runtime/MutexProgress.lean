import Copnet.Runtime.Completion
import Copnet.Runtime.Progress
import Copnet.Runtime.Waiters

/-!
# The read-write lock has no deadlock

A coroutine that does not get an `RWMutex` is suspended, and tries again when an unlock has handed
it over and the loop of its processor has popped it. Nothing is reserved for it meanwhile, so others
may get the lock first, and again and again; but if nobody got it any more, those who hold it would
be gone at some point, the last one would have handed over all waiters, and the first of them to try
again would find the lock free.

This needs that whoever holds the lock gives it back, and that processors on which coroutines
execute go on: their coroutines give the thread back, also the one in the middle of `freeLock`.
-/

open Transition

namespace Copnet

def Sys.Holds (s : Sys) (m : MuId) (n : ℕ) : Prop := n ∈ s.readers m ∨ n ∈ s.writers m

/-- From `s` to `s'` some coroutine gets the lock. -/
def Acquired (m : MuId) (s s' : Sys) : Prop :=
  ∃ n, s'.readers m = n :: s.readers m ∨ s'.writers m = n :: s.writers m

/-! ## Threads -/

def Action.thread : Action → Option Pid
  | .start p _ | .loop p | .epoll p _ | .user p _ | .co p => some p
  | _ => none

section Steps

variable {s s' : Sys} {act : Action} {es : List Event} {m : MuId} {p q : Pid} {a : Addr}
  {L L' : Addr → Life}

theorem Step.exec_of_ne (h : Step s act s' es) (hq : act.thread ≠ some q) :
    (s'.pros q).exec = (s.pros q).exec := by
  have hne : ∀ {p}, some p ≠ some q → q ≠ p := fun h heq ↦ h (congrArg some heq.symm)
  have hkeeps : ∀ {u}, KeepsThreads s u → (u.pros q).exec = (s.pros q).exec := fun h ↦ (h q).1
  cases h with
  | timer hexec hpc ha hres | event hexec hpc hpCo hres | pop hexec hpc hcons hres =>
    rw [hres.pros_of_ne (hne hq)]
    exact congrArg Processor.exec (Sys.pros_setPro_of_ne _ _ _ (hne hq))
  | start | top | epoll | getExpired | readTimefd | rearm | timersEnd | readQue | drain | drainEnd
  | flip | eventsEnd | reclaim | reclaimEnd =>
    exact congrArg Processor.exec (Sys.pros_setPro_of_ne _ _ _ (hne hq))
  | expire | extWake | wakeUp => exact hkeeps (keepsThreads_setPro rfl rfl rfl)
  | extGoCoBatch | extGoCo => exact hkeeps (keepsThreads_goCoBatch s _ _)
  | tick | extGoNewCo => rfl
  | waitEvent | removeEv | runAfter | arm | ret =>
    exact congrArg Processor.exec (Sys.pros_setPro_of_ne _ _ _ (hne hq))
  | goCoBatch | goCo | handOver =>
    exact (MovesThread.of_setExec (keepsThreads_goCoBatch _ _ _) rfl).others q (hne hq)
  | wake | freeWake =>
    exact (MovesThread.of_setExec (keepsThreads_finishCall s _ _) rfl).others q (hne hq)
  | _ => exact (MovesThread.of_setExec (keepsThreads_of_eq rfl) rfl).others q (hne hq)

/-- Who takes a step on a thread: the loop, the function of a coroutine, or the runtime. -/
theorem Step.exec_of_thread (h : Step s act s' es) (hp : act.thread = some p) :
    (s.pros p).exec = none ∨ (∃ x, (s.pros p).exec = some (x, .run .user)) ∨ act = .co p := by
  cases h with
  | start hexec | top hexec | epoll hexec | getExpired hexec | readTimefd hexec | rearm hexec
  | timer hexec | timersEnd hexec | readQue hexec | drain hexec | drainEnd hexec | pop hexec
  | flip hexec | event hexec | eventsEnd hexec | reclaim hexec | reclaimEnd hexec =>
    cases hp
    exact .inl hexec
  | goNewCo hexec | goCoBatch hexec | sleep hexec | waitEvent hexec | callRlock hexec
  | callWlock hexec | runlock hexec | wunlock hexec | ret hexec =>
    cases hp
    exact .inr (.inl ⟨_, hexec⟩)
  | extGoNewCo | extGoCoBatch | extGoCo | extWake | wakeUp | expire | tick => cases hp
  | _ =>
    cases hp
    exact .inr (.inr rfl)

/-- The coroutine at `a` is about to try for the lock, on the thread of `p`. -/
def Sys.TriesOn (s : Sys) (m : MuId) (a : Addr) (p : Pid) : Prop :=
  (s.pros p).exec = some (a, .run (.rlock m)) ∨ (s.pros p).exec = some (a, .run (.wlock m))

/-- Whoever tries goes on trying, gets the lock, or is told that it is held. -/
theorem Sys.TriesOn.next (h : s.TriesOn m a p) (hL : Lives s L) (hs : Step s act s' es) :
    s'.TriesOn m a p ∨ Acquired m s s' ∨ .park m a ∈ es ∧ (s.mus m).state ≠ .free := by
  by_cases hact : act = .co p
  · subst hact
    cases hs with
    | @rlock _ x n μ c hexec hfree hlock hco =>
      rcases h with h | h <;> rw [hexec] at h <;> cases h
      exact .inr (.inl ⟨c.serial, .inl (by simp)⟩)
    | @wlock _ x n μ c hexec hfree hlock hco =>
      rcases h with h | h <;> rw [hexec] at h <;> cases h
      exact .inr (.inl ⟨c.serial, .inr (by simp)⟩)
    | @rlockPark _ x b n hexec hfree hlock hcur =>
      rcases h with h | h <;> rw [hexec] at h <;> cases h
      obtain rfl := Option.some.inj (hcur.symm.trans (hL.current p a _ hexec))
      exact .inr (.inr ⟨List.mem_singleton_self _, by simp [RWMutex.rlock_eq_none hlock]⟩)
    | @wlockPark _ x b n hexec hfree hlock hcur =>
      rcases h with h | h <;> rw [hexec] at h <;> cases h
      obtain rfl := Option.some.inj (hcur.symm.trans (hL.current p a _ hexec))
      exact .inr (.inr ⟨List.mem_singleton_self _, RWMutex.wlock_eq_none hlock⟩)
    | _ => rcases h with h | h <;> simp_all
  · have hthread : act.thread ≠ some p := by
      intro hp
      rcases hs.exec_of_thread hp with hexec | ⟨x, hexec⟩ | hco
      · rcases h with h | h <;> simp [h] at hexec
      · rcases h with h | h <;> simp [h] at hexec
      · exact hact hco
    refine .inl ?_
    rwa [TriesOn, hs.exec_of_ne hthread]

/-! ## Who seeks the lock -/

/-- The coroutine at `a` is suspended, or about to be, in a failed attempt at the lock. -/
def Sys.WaitsFor (s : Sys) (m : MuId) (a : Addr) : Prop := ∃ L, Lives s L ∧ (L a).Waits m

theorem LifeStep.tries_of_switch {ℓ ℓ' : Life} (h : LifeStep s act a ℓ es ℓ') (hok : ℓ.Ok a)
    (hw : ℓ.Waits m) (hswitch : .switchTo q a ∈ es) :
    ∃ c k src, ℓ' = .exec c (.run k) src ∧ (k = .rlock m ∨ k = .wlock m) := by
  cases h with
  | enter c que => exact hw.elim
  | pop c que => exact ⟨_, _, _, rfl, hw⟩
  | resume c src hsrc =>
    have hallow := hok.2.2
    rcases hw with hk | hk <;> rw [hk] at hallow <;>
      rcases hallow with rfl | rfl <;> simp at hsrc
  | _ => simp at hswitch

theorem Sys.WaitsFor.next (h : s.WaitsFor m a) (hdisc : Disciplined s act)
    (hs : Step s act s' es) :
    s'.WaitsFor m a ∧ (∀ q, .switchTo q a ∉ es) ∨ ∃ p, s'.TriesOn m a p := by
  obtain ⟨L, hL, hw⟩ := h
  obtain ⟨L', hL', hlife⟩ := hs.lives hdisc hL
  have hok := (hL.fits a).ok
  have hmem := switchTo_mem_iff a es
  by_cases hswitch : ∃ q, .switchTo q a ∈ es
  · obtain ⟨q, hswitch⟩ := hswitch
    obtain ⟨c, k, src, hℓ, hk⟩ := (hlife a).tries_of_switch hok hw ((hmem q).mp hswitch)
    have hfit := hL'.fits a
    rw [hℓ] at hfit
    refine .inr ⟨c.pMyProcessor, ?_⟩
    rcases hk with rfl | rfl
    · exact .inl hfit.exec_eq
    · exact .inr hfit.exec_eq
  · simp only [not_exists] at hswitch
    refine .inl ⟨⟨L', hL', (hlife a).waits hok hw fun q que hpop ↦ ?_⟩, hswitch⟩
    exact hswitch q ((hmem q).mpr ((hlife a).switch_of_pop hpop))

theorem Sys.WaitsFor.of_park (hL : Lives s L) (hdisc : Disciplined s act) (hs : Step s act s' es)
    (hpark : .park m a ∈ es) : s'.WaitsFor m a := by
  obtain ⟨L', hL', hlife⟩ := hs.lives hdisc hL
  have hpark' : .park m a ∈ lifeEvents a es :=
    List.mem_filter.mpr ⟨hpark, by simp [Event.inLife]⟩
  exact ⟨L', hL', (hlife a).waits_of_park hpark'⟩

/-- The coroutine waits for the lock or is about to try for it. -/
def Sys.Seeks (s : Sys) (m : MuId) (a : Addr) : Prop := s.WaitsFor m a ∨ ∃ p, s.TriesOn m a p

/-- Where nobody gets the lock, whoever seeks it goes on seeking it. -/
theorem Sys.Seeks.next (h : s.Seeks m a) (hL : Lives s L) (hdisc : Disciplined s act)
    (hs : Step s act s' es) (hno : ¬Acquired m s s') : s'.Seeks m a := by
  rcases h with hwait | ⟨p, htries⟩
  · exact (hwait.next hdisc hs).imp_left And.left
  · rcases htries.next hL hs with htries | hacq | ⟨hpark, -⟩
    · exact .inr ⟨p, htries⟩
    · exact absurd hacq hno
    · exact .inl (.of_park hL hdisc hs hpark)

/-! ## Who holds the lock -/

theorem Step.holders (hs : Step s act s' es) (hno : ¬Acquired m s s') :
    (s'.readers m ++ s'.writers m).Sublist (s.readers m ++ s.writers m) := by
  have heff : LockEffect m ⟨s.mus m, s.readers m, s.writers m⟩
      ⟨s'.mus m, s'.readers m, s'.writers m⟩ _ := hs.lockEffect m
  generalize hl : LockState.mk (s'.mus m) (s'.readers m) (s'.writers m) = l at heff
  generalize es.filter (·.inLock m) = evs at heff
  cases heff with
  | @rlock n =>
    simp only [LockState.mk.injEq] at hl
    exact absurd ⟨n, .inl hl.2.1⟩ hno
  | @wlock n =>
    simp only [LockState.mk.injEq] at hl
    exact absurd ⟨n, .inr hl.2.2⟩ hno
  | runlock =>
    simp only [LockState.mk.injEq] at hl
    rw [hl.2.1, hl.2.2]
    exact List.erase_sublist.append (.refl _)
  | wunlock =>
    simp only [LockState.mk.injEq] at hl
    rw [hl.2.1, hl.2.2]
    exact (List.Sublist.refl _).append List.erase_sublist
  | keep | park | handOver | freeLockEnd =>
    simp only [LockState.mk.injEq] at hl
    rw [hl.2.1, hl.2.2]

theorem Step.unlocks (hs : Step s act s' es) (hg : s.Guarded)
    (hp : (s.pros p).unlocks = some m) (hwait : (s.mus m).waitingCo ≠ []) :
    (s'.pros p).unlocks = some m := by
  cases hs.holdEffect with
  | keep hpros => rw [hpros, hp]
  | @take r n hfree hnone hpros =>
    have hpr : p ≠ r := by
      rintro rfl
      simp [hp] at hnone
    rw [hpros, if_neg hpr, hp]
  | @drop r n hsome hpros hmus =>
    by_cases hpr : p = r
    · -- the end of this `freeLock`
      subst hpr
      obtain rfl : m = n := Option.some.inj (hp.symm.trans hsome)
      have hlocked : (s.lock m).mu.locked = true := (hg.1 m).mpr ⟨p, hp⟩
      have hfree : (s'.lock m).mu.locked = false := by simp [Sys.lock, hmus]
      have heff := hs.lockEffect m
      generalize s'.lock m = l at heff hfree
      generalize es.filter (·.inLock m) = evs at heff
      cases heff with
      | freeLockEnd hnil => exact absurd hnil hwait
      | rlock hfree' | wlock hfree' | park hfree' | runlock hfree' | wunlock hfree' =>
        exact absurd hlocked hfree'
      | keep | handOver => simp [hlocked] at hfree
    · rw [hpros, if_neg hpr, hp]

end Steps

/-! ## In the long run -/

/-- Lists that only lose elements, and each of them at some point, are empty in the end. -/
theorem exists_forall_eq_nil {α : Type*} {l : ℕ → List α} {n : ℕ}
    (hsub : ∀ k, n ≤ k → (l (k + 1)).Sublist (l k))
    (hgone : ∀ k, n ≤ k → ∀ b ∈ l k, ∃ j, k ≤ j ∧ b ∉ l j) :
    ∃ k, n ≤ k ∧ ∀ j, k ≤ j → l j = [] := by
  have hsub' : ∀ {i j}, n ≤ i → i ≤ j → (l j).Sublist (l i) := by
    intro i j hi hij
    induction j, hij using Nat.le_induction with
    | base => exact .refl _
    | succ j hij ih => exact (hsub j (hi.trans hij)).trans ih
  -- by induction on the length of the list
  suffices h : ∀ d k, n ≤ k → (l k).length ≤ d → ∃ j, k ≤ j ∧ l j = [] by
    obtain ⟨k, hk, hnil⟩ := h _ n le_rfl le_rfl
    refine ⟨k, hk, fun j hj ↦ List.sublist_nil.mp ?_⟩
    rw [← hnil]
    exact hsub' hk hj
  intro d
  induction d with
  | zero => exact fun k _ hlen ↦ ⟨k, le_rfl, List.length_eq_zero_iff.mp (Nat.le_zero.mp hlen)⟩
  | succ d ih =>
    intro k hk hlen
    rcases hl : l k with _ | ⟨b, rest⟩
    · exact ⟨k, le_rfl, hl⟩
    · obtain ⟨j, hj, hb⟩ := hgone k hk b (by simp [hl])
      have hlt : (l j).length < (l k).length := by
        refine lt_of_le_of_ne (hsub' hk hj).length_le fun heq ↦ hb ?_
        rw [(hsub' hk hj).eq_of_length heq, hl]
        exact List.mem_cons_self
      obtain ⟨i, hi, hnil⟩ := ih j (hk.trans hj) (by omega)
      exact ⟨i, hj.trans hi, hnil⟩

section Forever

variable {x : Execution machine Disciplined} {m : MuId} {a : Addr}

theorem step_at (x : Execution machine Disciplined) (k : ℕ) :
    Step (x.state k) (x.action k) (x.state (k + 1)) (x.out k) := .of_step (x.step k)

/-- As long as somebody stays among the waiters nobody is in `freeLock`, which would never end. -/
theorem unlocked_of_waiting (hinit : machine.init (x.state 0))
    (hgoes : ∀ k b c, (x.state k).cos b = some c → GoesOn x c.pMyProcessor)
    {n : ℕ} (hmu : ∀ k, n ≤ k → a ∈ ((x.state k).mus m).waitingCo) {k : ℕ} (hk : n ≤ k) :
    ((x.state k).mus m).locked = false := by
  have hreach : ∀ k, Reachable machine Disciplined (x.state k) := fun k ↦ ⟨_, _, hinit, x.run k⟩
  rw [← Bool.not_eq_true, (guarded_of_reachable (hreach k)).1 m]
  rintro ⟨p, hp⟩
  have hunlocks : ∀ j, k ≤ j → ((x.state j).pros p).unlocks = some m := by
    intro j hj
    induction j, hj using Nat.le_induction with
    | base => exact hp
    | succ j hj ih =>
      exact (step_at x j).unlocks (guarded_of_reachable (hreach j)) ih
        (List.ne_nil_of_mem (hmu j (by omega)))
  -- but the thread is given back
  obtain ⟨⟨y, code⟩, hexec, -⟩ := Option.bind_eq_some_iff.mp hp
  obtain ⟨L, hL⟩ := lives_of_reachable (fun _ _ h ↦ h) (hreach k)
  obtain ⟨c, -, -, rfl, hco, -⟩ := hL.executing hexec
  obtain ⟨j, hj, hnone⟩ := (hgoes k y c hco).1 k
  have hsome := hunlocks j hj
  rw [Processor.unlocks, hnone] at hsome
  cases hsome

/-- If nobody holds the lock any more, a waiter tries again at some point: it is not left among the
waiters, since then a `freeLock` would never end. -/
theorem exists_tries (hinit : machine.init (x.state 0))
    (hgoes : ∀ k b c, (x.state k).cos b = some c → GoesOn x c.pMyProcessor)
    {n : ℕ} (hfree : ∀ k, n ≤ k → (x.state k).readers m ++ (x.state k).writers m = [])
    (hwait : (x.state n).WaitsFor m a) : ∃ k p, n ≤ k ∧ (x.state k).TriesOn m a p := by
  by_contra hno
  have hreach : ∀ k, Reachable machine Disciplined (x.state k) := fun k ↦ ⟨_, _, hinit, x.run k⟩
  have hnever : ∀ k, n ≤ k → ¬∃ p, (x.state (k + 1)).TriesOn m a p :=
    fun k hk ⟨p, htries⟩ ↦ hno ⟨k + 1, p, by omega, htries⟩
  -- so it waits for good, and is not switched into
  have hwaits : ∀ k, n ≤ k → (x.state k).WaitsFor m a := by
    intro k hk
    induction k, hk using Nat.le_induction with
    | base => exact hwait
    | succ k hk ih => exact ((ih.next (x.guarded k) (step_at x k)).resolve_right (hnever k hk)).1
  have hswitch : ∀ k, n ≤ k → ∀ q, .switchTo q a ∉ x.out k := fun k hk ↦
    (((hwaits k hk).next (x.guarded k) (step_at x k)).resolve_right (hnever k hk)).2
  -- and so it stays in the lock
  have hmu : ∀ k, n ≤ k → a ∈ ((x.state k).mus m).waitingCo := by
    intro k hk
    obtain ⟨L, hL, hw⟩ := hwaits k hk
    obtain ⟨c, hawaits⟩ := hL.awaits (lockInv_of_reachable (hreach k) m) hw
    by_contra hmem
    have hqueue : a ∈ ((x.state k).pros c.pMyProcessor).loopState.queued := by
      have honce := hawaits.once
      rw [List.count_eq_zero.mpr hmem, Nat.zero_add] at honce
      exact List.count_pos_iff.mp (honce ▸ Nat.one_pos)
    obtain ⟨j, hj, hout⟩ :=
      queued_eventually_switched hinit (hgoes k a c hawaits.object) hqueue
    exact hswitch j (hk.trans hj) _ hout
  -- which is then held
  obtain ⟨L, hL, hw⟩ := hwait
  obtain ⟨c, hawaits⟩ := hL.awaits (lockInv_of_reachable (hreach n) m) hw
  have hheld := hawaits.held (hmu n le_rfl) (unlocked_of_waiting hinit hgoes hmu le_rfl)
  have hnil := List.append_eq_nil_iff.mp (hfree n le_rfl)
  exact hheld.elim (fun h ↦ h hnil.1) fun h ↦ h hnil.2

/-- **No deadlock in the read-write lock.** In every disciplined run that goes on forever, in which
whoever holds the lock gives it back, and in which on processors with coroutines these give the
thread back and the loop goes on when they have: whenever a coroutine has failed to get the lock,
somebody gets it later on. -/
theorem rwmutex_deadlock_free (hinit : machine.init (x.state 0))
    (hgoes : ∀ k b c, (x.state k).cos b = some c → GoesOn x c.pMyProcessor)
    (hends : ∀ k n, (x.state k).Holds m n → ∃ j, k ≤ j ∧ ¬(x.state j).Holds m n) {n : ℕ}
    (hpark : .park m a ∈ x.out n) : ∃ k, n < k ∧ Acquired m (x.state k) (x.state (k + 1)) := by
  by_contra hno
  have hnever : ∀ k, n + 1 ≤ k → ¬Acquired m (x.state k) (x.state (k + 1)) :=
    fun k hk hacq ↦ hno ⟨k, hk, hacq⟩
  have hreach : ∀ k, Reachable machine Disciplined (x.state k) := fun k ↦ ⟨_, _, hinit, x.run k⟩
  have hlives : ∀ k, ∃ L, Lives (x.state k) L := fun k ↦
    lives_of_reachable (fun _ _ h ↦ h) (hreach k)
  -- the coroutine seeks the lock for good
  have hseeks : ∀ k, n + 1 ≤ k → (x.state k).Seeks m a := by
    intro k hk
    induction k, hk using Nat.le_induction with
    | base =>
      obtain ⟨L, hL⟩ := hlives n
      exact .inl (.of_park hL (x.guarded n) (step_at x n) hpark)
    | succ k hk ih =>
      obtain ⟨L, hL⟩ := hlives k
      exact ih.next hL (x.guarded k) (step_at x k) (hnever k hk)
  -- at some point nobody holds it any more
  obtain ⟨K, hK, hfree⟩ := exists_forall_eq_nil
    (l := fun k ↦ (x.state k).readers m ++ (x.state k).writers m)
    (fun k hk ↦ (step_at x k).holders (hnever k hk)) fun k _ c hc ↦ by
      obtain ⟨j, hj, hgone⟩ := hends k c (List.mem_append.mp hc)
      exact ⟨j, hj, fun hmem ↦ hgone (List.mem_append.mp hmem)⟩
  -- then it tries
  obtain ⟨j, p, hj, htries⟩ : ∃ j p, K ≤ j ∧ (x.state j).TriesOn m a p := by
    rcases hseeks K hK with hwait | ⟨p, htries⟩
    · exact exists_tries hinit hgoes hfree hwait
    · exact ⟨K, p, le_rfl, htries⟩
  -- and goes on trying, although it is not held
  have hforever : ∀ k, j ≤ k → (x.state k).TriesOn m a p := by
    intro k hk
    induction k, hk using Nat.le_induction with
    | base => exact htries
    | succ k hk ih =>
      obtain ⟨L, hL⟩ := hlives k
      rcases ih.next hL (step_at x k) with hgo | hacq | ⟨-, hstate⟩
      · exact hgo
      · exact absurd hacq (hnever k (by omega))
      · have hinv := lockInv_of_reachable (hreach k) m
        have hnil := List.append_eq_nil_iff.mp (hfree k (by omega))
        cases hcase : ((x.state k).mus m).state with
        | free => exact absurd hcase hstate
        | reading => exact absurd hnil.1 (hinv.reading hcase)
        | writing => exact absurd hnil.2 (hinv.writing hcase)
  have hexec : ∃ code, ((x.state j).pros p).exec = some (a, code) := by
    rcases htries with h | h <;> exact ⟨_, h⟩
  obtain ⟨code, hexec⟩ := hexec
  obtain ⟨L, hL⟩ := hlives j
  obtain ⟨c, -, -, rfl, hco, -⟩ := hL.executing hexec
  obtain ⟨k, hk, hnone⟩ := (hgoes j a c hco).1 j
  rcases hforever k hk with h | h <;> simp [h] at hnone

end Forever

/-- The waiter has parked. Its processor goes round; the one who holds the lock wakes up, gives it
back and returns; the waiter is popped, gets the lock, gives it back and returns. -/
def thenHandOver : List Action :=
  List.flatten [[.co 0, .co 0, .co 0], List.replicate 5 (.loop 0), [.tick 6000, .epoll 0 []],
    List.replicate 4 (.loop 0), [.user 0 (.wunlock 5), .co 0, .co 0, .co 0, .user 0 .ret],
    List.replicate 8 (.loop 0), [.epoll 0 []], List.replicate 7 (.loop 0),
    [.co 0, .user 0 (.wunlock 5), .co 0, .user 0 .ret], List.replicate 5 (.loop 0)]

theorem rwmutex_deadlock_free_handed_over : ∃ x : Execution machine Disciplined, ∃ n k,
    .park 5 8 ∈ x.out n ∧ n < k ∧ Acquired 5 (x.state k) (x.state (k + 1)) := by
  let r := machine.after Disciplined (Sys.fresh 0) (toUser ++ thenContend ++ thenHandOver)
  have hrun : Run machine Disciplined (Sys.fresh 0) r.2 r.1 := run_after _
  have hend : ((r.1.pros 0).exec = none ∧ (∀ i, (r.1.pros 0).queue.bufs i = []) ∧
      (r.1.pros 0).actCoroutines = [] ∧ (r.1.pros 0).timerExpiredCo = [] ∧
      (r.1.pros 0).removedCo = [] ∧ (r.1.pros 0).timer.heap.entries = [] ∧
      ∀ rq, (r.1.pros 0).pc ≠ .pop rq) ∧ r.1.readers 5 = [] ∧ r.1.writers 5 = [] := by
    decide +kernel
  have hlog : r.2[47]? = some (.co 0, [.park 5 8]) ∧
      ∀ st ∈ r.2, ∀ ev ∈ st.2, ev.madeOn 0 = true := by decide +kernel
  obtain ⟨⟨hexec, hbufs, hact, hexpired, hremoved, hheap, hpc⟩, hreaders, hwriters⟩ := hend
  obtain ⟨hpark, hmade⟩ := hlog
  have hquiet : (r.1.pros 0).Quiet := ⟨hexec, hbufs, hact, hexpired, hremoved, hheap, hpc⟩
  clear_value r
  obtain ⟨x, hinit, hloop, -, hsteps, -, hend⟩ := exists_goesOn ⟨0, rfl⟩ .nil hrun hquiet
  simp only [List.length_nil, Nat.zero_add] at hsteps hend
  have hgoes := goesOn_of_madeOn hinit hloop (n := r.2.length) (fun i hi ev hout ↦ by
    rw [(hsteps i _ (List.getElem?_eq_getElem hi)).2] at hout
    exact hmade _ (List.getElem_mem hi) _ hout) fun k ↦ (hend k).imp fun _ h ↦ h.1
  have hends : ∀ k n, (x.state k).Holds 5 n → ∃ j, k ≤ j ∧ ¬(x.state j).Holds 5 n := by
    intro k n _
    obtain ⟨P, hP, -⟩ := hend k
    refine ⟨r.2.length + k, by omega, ?_⟩
    rw [hP, Sys.Holds, Sys.readers_setPro, Sys.writers_setPro, hreaders, hwriters]
    simp
  have hout : .park 5 8 ∈ x.out 47 := by
    rw [(hsteps 47 _ hpark).2]
    exact List.mem_singleton_self _
  obtain ⟨k, hk, hacq⟩ := rwmutex_deadlock_free hinit hgoes hends hout
  exact ⟨x, _, k, hout, hk, hacq⟩

end Copnet
