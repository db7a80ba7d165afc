import Copnet.Runtime.Iteration

/-!
# No thread gets stuck

A step that would follow a dangling or a null pointer, or pop an empty queue, is not enabled in the
model. Here it is shown that this never stops anybody: in every reachable state the next step of
each thread, in the loop or in a coroutine, is enabled, unless the coroutine spins on the `lock_` of
an `RWMutex`. Then some thread is in the middle of `freeLock` on that lock, and its next step is
enabled. For this the holder of `lock_` must be known, which the state does not record: it is the
one thread whose code is in `freeLock`.
-/

open Transition

namespace Copnet

/-! ## Who holds `lock_` -/

/-- The lock in whose `freeLock` the code is. -/
def Code.unlocks : Code → Option MuId
  | .freeLock m | .freeWake m _ _ => some m
  | _ => none

def Processor.unlocks (P : Processor) : Option MuId := P.exec.bind fun e ↦ e.2.unlocks

/-- What a step can do to the `lock_`s and to the threads in `freeLock`. -/
inductive HoldEffect (s s' : Sys) : Prop
  | keep (hpros : ∀ q, (s'.pros q).unlocks = (s.pros q).unlocks)
      (hmus : ∀ m, (s'.mus m).locked = (s.mus m).locked)
  | take {p : Pid} {m : MuId} (hfree : (s.mus m).locked = false)
      (hnone : (s.pros p).unlocks = none)
      (hpros : ∀ q, (s'.pros q).unlocks = if q = p then some m else (s.pros q).unlocks)
      (hmus : ∀ n, (s'.mus n).locked = if n = m then true else (s.mus n).locked)
  | drop {p : Pid} {m : MuId} (hsome : (s.pros p).unlocks = some m)
      (hpros : ∀ q, (s'.pros q).unlocks = if q = p then none else (s.pros q).unlocks)
      (hmus : ∀ n, (s'.mus n).locked = if n = m then false else (s.mus n).locked)

/-- The `lock_` of `m` is held exactly while a thread is in `freeLock` on it, and there is only one
such thread. -/
def Sys.Guarded (s : Sys) : Prop :=
  (∀ m, (s.mus m).locked = true ↔ ∃ p, (s.pros p).unlocks = some m) ∧
    ∀ p q m, (s.pros p).unlocks = some m → (s.pros q).unlocks = some m → p = q

theorem HoldEffect.guarded {s s' : Sys} (h : HoldEffect s s') (hs : s.Guarded) : s'.Guarded := by
  obtain ⟨hlocked, hone⟩ := hs
  cases h with
  | keep hpros hmus =>
    refine ⟨fun m ↦ ?_, fun p q m ↦ ?_⟩
    · simp only [hmus, hpros, hlocked]
    · rw [hpros, hpros]
      exact hone p q m
  | @take p m hfree hnone hpros hmus =>
    -- nobody has been in `freeLock` on `m`
    have hno : ∀ q, (s.pros q).unlocks ≠ some m := by
      intro q hq
      rw [(hlocked m).mpr ⟨q, hq⟩] at hfree
      exact Bool.noConfusion hfree
    refine ⟨fun n ↦ ?_, fun q r n ↦ ?_⟩
    · rw [hmus]
      grind
    · grind
  | @drop p m hsome hpros hmus =>
    refine ⟨fun n ↦ ?_, fun q r n ↦ ?_⟩
    · rw [hmus]
      grind
    · grind

section Steps

variable {s s' u : Sys} {p : Pid} {e : Option (Addr × Code)}

theorem unlocks_of_keeps (h : KeepsThreads s u) (q : Pid) :
    (u.pros q).unlocks = (s.pros q).unlocks := by
  rw [Processor.unlocks, (h q).1, Processor.unlocks]

theorem unlocks_of_moves (h : MovesThread s s' p e) (q : Pid) :
    (s'.pros q).unlocks =
      if q = p then e.bind (fun e ↦ e.2.unlocks) else (s.pros q).unlocks := by
  split
  · next hq => rw [hq, Processor.unlocks, h.self]
  · next hq => rw [Processor.unlocks, h.others q hq, Processor.unlocks]

namespace HoldEffect

theorem of_keeps (h : KeepsThreads s s') (hmus : s'.mus = s.mus) : HoldEffect s s' :=
  .keep (unlocks_of_keeps h) fun m ↦ by rw [hmus]

theorem of_moves (h : MovesThread s s' p e)
    (he : e.bind (fun e ↦ e.2.unlocks) = (s.pros p).unlocks)
    (hmus : ∀ m, (s'.mus m).locked = (s.mus m).locked) : HoldEffect s s' := by
  refine .keep (fun q ↦ ?_) hmus
  rw [unlocks_of_moves h, he]
  split
  · next hq => rw [hq]
  · rfl

theorem of_begin {m : MuId} {μ : RWMutex} (h : MovesThread s s' p e)
    (he : e.bind (fun e ↦ e.2.unlocks) = some m) (hnone : (s.pros p).unlocks = none)
    (hfree : (s.mus m).locked = false) (hmus : s'.mus = (s.setMu m μ).mus)
    (hlocked : μ.locked = true) : HoldEffect s s' := by
  refine .take hfree hnone (fun q ↦ ?_) fun n ↦ ?_
  · rw [unlocks_of_moves h, he]
  · rw [hmus, Sys.mus_setMu]
    split
    · exact hlocked
    · rfl

theorem of_end {m : MuId} {μ : RWMutex} (h : MovesThread s s' p e)
    (he : e.bind (fun e ↦ e.2.unlocks) = none) (hsome : (s.pros p).unlocks = some m)
    (hmus : s'.mus = (s.setMu m μ).mus) (hlocked : μ.locked = false) : HoldEffect s s' := by
  refine .drop hsome (fun q ↦ ?_) fun n ↦ ?_
  · rw [unlocks_of_moves h, he]
  · rw [hmus, Sys.mus_setMu]
    split
    · exact hlocked
    · rfl

theorem of_resumes {P : Processor} {pCo : Option Addr} {es : List Event}
    (hres : Resumes (s.setPro p P) p pCo s' es) (hexec : (s.pros p).exec = none)
    (hP : P.exec = none) : HoldEffect s s' := by
  refine .keep (fun q ↦ ?_) fun m ↦ by rw [hres.frame.1, Sys.mus_setPro]
  by_cases hq : q = p
  · subst hq
    obtain ⟨cur, exec, hpros, hexec'⟩ := hres.pros_self
    rw [Sys.pros_setPro_self, hP] at hexec'
    rw [hpros, Processor.unlocks, Processor.unlocks, hexec]
    rcases hexec' with rfl | ⟨x, k, rfl⟩ <;> rfl
  · rw [hres.pros_of_ne hq, Sys.pros_setPro_of_ne _ _ _ hq]

end HoldEffect

theorem locked_setMu {m : MuId} {μ : RWMutex} (h : μ.locked = (s.mus m).locked) (n : MuId) :
    ((s.setMu m μ).mus n).locked = (s.mus n).locked := by
  rw [Sys.mus_setMu]
  split
  · next hn => rw [h, hn]
  · rfl

/-- **Every step has an effect** on the `lock_`s. -/
theorem Step.holdEffect {act : Action} {es : List Event} (h : Step s act s' es) :
    HoldEffect s s' := by
  cases h with
  | timer hexec hpc ha hres | event hexec hpc hpCo hres | pop hexec hpc hcons hres =>
    exact .of_resumes hres hexec hexec
  | start | top | epoll | getExpired | readTimefd | rearm | timersEnd | readQue | drain | drainEnd
  | flip | eventsEnd | reclaim | reclaimEnd | expire =>
    exact .of_keeps (keepsThreads_setPro rfl rfl rfl) rfl
  | extGoCoBatch | extGoCo => exact .of_keeps (keepsThreads_goCoBatch s _ _) rfl
  | extWake | wakeUp => exact .of_keeps (keepsThreads_setPro rfl rfl rfl) rfl
  | tick | extGoNewCo => exact .of_keeps (keepsThreads_of_eq rfl) rfl
  | goNewCo hexec | sleep hexec | callRlock hexec | callWlock hexec | yield hexec | swap hexec =>
    exact .of_moves (.of_setExec (keepsThreads_of_eq rfl) rfl)
      (by rw [Processor.unlocks, hexec]; rfl) fun _ ↦ rfl
  | waitEvent hexec | removeEv hexec | runAfter hexec | arm hexec | ret hexec =>
    exact .of_moves (.of_setPro rfl rfl rfl) (by rw [Processor.unlocks, hexec]; rfl) fun _ ↦ rfl
  | goCoBatch hexec | goCo hexec =>
    exact .of_moves (.of_setExec (keepsThreads_goCoBatch s _ _) rfl)
      (by rw [Processor.unlocks, hexec]; rfl) fun _ ↦ rfl
  | wake hexec | freeWake hexec =>
    exact .of_moves (.of_setExec (keepsThreads_finishCall s _ _) rfl)
      (by rw [Processor.unlocks, hexec]; rfl) fun _ ↦ rfl
  | handOver hexec hcons hco =>
    refine .of_moves (.of_setExec (keepsThreads_goCoBatch _ _ _) rfl)
      (by rw [Processor.unlocks, hexec]; rfl) (locked_setMu ?_)
    rfl
  | rlock hexec hfree hlock hco =>
    obtain ⟨-, rfl⟩ := RWMutex.rlock_eq_some hlock
    refine .of_moves (.of_setExec (keepsThreads_of_eq rfl) rfl)
      (by rw [Processor.unlocks, hexec]; rfl) (locked_setMu ?_)
    rfl
  | wlock hexec hfree hlock hco =>
    obtain ⟨-, rfl⟩ := RWMutex.wlock_eq_some hlock
    refine .of_moves (.of_setExec (keepsThreads_of_eq rfl) rfl)
      (by rw [Processor.unlocks, hexec]; rfl) (locked_setMu ?_)
    rfl
  | rlockPark hexec hfree hlock hcur | wlockPark hexec hfree hlock hcur =>
    refine .of_moves (.of_setExec (keepsThreads_of_eq rfl) rfl)
      (by rw [Processor.unlocks, hexec]; rfl) (locked_setMu ?_)
    rfl
  -- The unlocks, which may begin a `freeLock`, and its end.
  | @runlock p x m c hexec hco hheld hfree =>
    have hnone : (s.pros p).unlocks = none := by
      rw [Processor.unlocks, hexec]
      rfl
    have hfree' : (s.mus m).locked = false := by simpa using hfree
    cases hlocked : (s.mus m).runlock.locked with
    | true =>
      exact .of_begin (.of_setExec (keepsThreads_of_eq rfl) rfl) rfl hnone hfree' rfl hlocked
    | false =>
      exact .of_moves (.of_setExec (keepsThreads_of_eq rfl) rfl) hnone.symm
        (locked_setMu (hlocked.trans hfree'.symm))
  | @wunlock p x m c hexec hco hheld hfree =>
    have hnone : (s.pros p).unlocks = none := by
      rw [Processor.unlocks, hexec]
      rfl
    exact .of_begin (.of_setExec (keepsThreads_of_eq rfl) rfl) rfl hnone (by simpa using hfree)
      rfl rfl
  | @freeLockEnd p x m hexec hnil =>
    have hsome : (s.pros p).unlocks = some m := by
      rw [Processor.unlocks, hexec]
      rfl
    exact .of_end (.of_setExec (keepsThreads_of_eq rfl) rfl) rfl hsome rfl rfl

end Steps

theorem guarded_of_init {s : Sys} (h : machine.init s) : s.Guarded := by
  obtain ⟨clock, rfl⟩ := h
  simp [Sys.Guarded, Sys.fresh, Sys.freshPro, RWMutex.created, Processor.unlocks]

theorem guarded_of_reachable {C : Sys → Action → Prop} {s : Sys} (h : Reachable machine C s) :
    s.Guarded :=
  h.invariant guarded_of_init fun hs _ hstep ↦ (Step.of_step hstep).holdEffect.guarded hs

/-! ## Every thread can go on -/

section Enabled

variable {s : Sys} {L : Addr → Life} {p : Pid} {x : Addr}

theorem Lives.of_waiter (hL : Lives s L) {m : MuId} {a : Addr} (ha : a ∈ (s.mus m).waitingCo) :
    ∃ c, s.cos a = some c := by
  have hne : s.ledger (.mu m) a ≠ 0 := (List.count_pos_iff.mpr ha).ne'
  have hco := (hL.fits a).co
  rcases (hL.fits a).of_waiting hne with ⟨c, code, hlife⟩ | ⟨c, hlife⟩
  · exact ⟨c, by rw [hco, hlife]; rfl⟩
  · exact ⟨c, by rw [hco, hlife]; rfl⟩

theorem Lives.exists_freeLock (hL : Lives s L) {m : MuId} (h : (s.pros p).unlocks = some m) :
    ∃ r, step s (.co p) = some r := by
  obtain ⟨⟨x, code⟩, hexec, hcode⟩ := Option.bind_eq_some_iff.mp h
  simp only [step, hexec]
  cases code with
  | freeLock n =>
    simp only [Sys.coStep]
    cases hwaiting : (s.mus n).waitingCo with
    | nil => exact ⟨_, rfl⟩
    | cons wakeCo rest =>
      obtain ⟨c, hco⟩ := hL.of_waiter (m := n) (a := wakeCo) (by simp [hwaiting])
      simp [hco]
  | freeWake n q call => exact ⟨_, rfl⟩
  | _ => simp [Code.unlocks] at hcode

theorem Lives.exists_coStep (hL : Lives s L) {code : Code}
    (hexec : (s.pros p).exec = some (x, code)) (hcode : code ≠ .run .user) :
    (∃ r, step s (.co p) = some r) ∨
      ∃ m, (code = .run (.rlock m) ∨ code = .run (.wlock m)) ∧ (s.mus m).locked = true := by
  obtain ⟨c, src, -, -, hco, hcur, -⟩ := hL.executing hexec
  simp only [step, hexec]
  cases code with
  | run k =>
    cases k with
    | user => exact absurd rfl hcode
    | removeEv fd => exact .inl ⟨_, rfl⟩
    | rlock m =>
      cases hlocked : (s.mus m).locked with
      | true => exact .inr ⟨m, .inl rfl, hlocked⟩
      | false =>
        refine .inl ?_
        cases hlock : (s.mus m).rlock <;> simp [Sys.coStep, hlocked, hlock, hco, hcur]
    | wlock m =>
      cases hlocked : (s.mus m).locked with
      | true => exact .inr ⟨m, .inr rfl, hlocked⟩
      | false =>
        refine .inl ?_
        cases hlock : (s.mus m).wlock <;> simp [Sys.coStep, hlocked, hlock, hco, hcur]
  | freeLock m =>
    refine .inl ?_
    have hunlocks : (s.pros p).unlocks = some m := by
      rw [Processor.unlocks, hexec]
      rfl
    simpa only [step, hexec] using hL.exists_freeLock hunlocks
  | yield k => exact .inl (by simp [Sys.coStep, Sys.coYield, hcur, hco])
  | swap k => exact .inl (by simp [Sys.coStep, Sys.swapToMain, hcur, hco])
  | sleep time => exact .inl (by simp [Sys.coStep, hcur])
  | goCo q a | wake q call | freeWake m q call | arm time => exact .inl ⟨_, rfl⟩

/-- The coroutine `x` may call `op`: the pool has the block, and only who holds a lock unlocks
it. -/
def Sys.MayCall (s : Sys) (x : Addr) : Sys.Op → Prop
  | .goNewCo q a => s.MayAlloc q a
  | .runlock m => ∃ c, s.cos x = some c ∧ c.serial ∈ s.readers m
  | .wunlock m => ∃ c, s.cos x = some c ∧ c.serial ∈ s.writers m
  | _ => True

theorem Lives.exists_userStep (hL : Lives s L) (hexec : (s.pros p).exec = some (x, .run .user))
    {op : Sys.Op} (hop : s.MayCall x op) :
    (∃ r, step s (.user p op) = some r) ∨
      ∃ m, (op = .runlock m ∨ op = .wunlock m) ∧ (s.mus m).locked = true := by
  obtain ⟨c, src, -, -, hco, hcur, -⟩ := hL.executing hexec
  simp only [step, hexec]
  cases op with
  | goNewCo q a => exact .inl ⟨_, if_pos hop⟩
  | sleep time => exact .inl (by simp [Sys.userStep, Sys.coYield, hcur, hco])
  | ret => exact .inl (by simp [Sys.userStep, hcur, hco])
  | runlock m =>
    obtain ⟨c', hco', hheld⟩ := hop
    cases hlocked : (s.mus m).locked with
    | true => exact .inr ⟨m, .inl rfl, hlocked⟩
    | false => exact .inl (by simp [Sys.userStep, hco', hheld, hlocked])
  | wunlock m =>
    obtain ⟨c', hco', hheld⟩ := hop
    cases hlocked : (s.mus m).locked with
    | true => exact .inr ⟨m, .inr rfl, hlocked⟩
    | false => exact .inl (by simp [Sys.userStep, hco', hheld, hlocked])
  | goCoBatch q cos | waitEvent fd canPoll | rlock m | wlock m => exact .inl ⟨_, rfl⟩

end Enabled

/-- The thread of `q` is in `freeLock` on `m`, and can take its next step. -/
def Sys.Releases (s : Sys) (m : MuId) (q : Pid) : Prop :=
  (s.pros q).unlocks = some m ∧ ∃ r, step s (.co q) = some r

/-- **No thread gets stuck.** In every reachable state: the `lock_` of a lock is held exactly while
one thread is in `freeLock` on it. A thread before its loop can be initialised, and one in its loop
can take its next step. So can one that executes a coroutine inside the runtime, or whose coroutine
goes on in its function, unless it spins on a `lock_`, and then the thread that holds it can. So can
a thread outside the scheduler. -/
theorem no_thread_stuck {s : Sys} (h : Reachable machine Disciplined s) :
    s.Guarded ∧
      (∀ p, (s.pros p).exec = none →
        ∃ act s' es, act.ofLoop p ∧ Disciplined s act ∧ machine.step s act = some (s', es)) ∧
      (∀ p x code, (s.pros p).exec = some (x, code) → code ≠ .run .user →
        (∃ r, step s (.co p) = some r) ∨
          ∃ m q, (code = .run (.rlock m) ∨ code = .run (.wlock m)) ∧ s.Releases m q) ∧
      (∀ p x op, (s.pros p).exec = some (x, .run .user) → s.MayCall x op →
        (∃ r, step s (.user p op) = some r) ∨
          ∃ m q, (op = .runlock m ∨ op = .wunlock m) ∧ s.Releases m q) ∧
      ∀ t, s.exts t ≠ .idle → ∃ r, step s (.ext t) = some r := by
  obtain ⟨L, hL⟩ := lives_of_reachable (fun _ _ h ↦ h) h
  have hguarded := guarded_of_reachable h
  have hholder : ∀ {m}, (s.mus m).locked = true → ∃ q, s.Releases m q := by
    intro m hlocked
    obtain ⟨q, hq⟩ := (hguarded.1 m).mp hlocked
    exact ⟨q, hq, hL.exists_freeLock hq⟩
  refine ⟨hguarded, fun p hexec ↦ ?_, fun p x code hexec hcode ↦ ?_, fun p x op hexec hop ↦ ?_,
    fun t ht ↦ ?_⟩
  · obtain ⟨s₀, tr, hinit, hrun⟩ := h
    exact hL.exists_step (drains_run hrun (drains_init hinit p)) hexec
  · rcases hL.exists_coStep hexec hcode with hr | ⟨m, hm, hlocked⟩
    · exact .inl hr
    · obtain ⟨q, hq⟩ := hholder hlocked
      exact .inr ⟨m, q, hm, hq⟩
  · rcases hL.exists_userStep hexec hop with hr | ⟨m, hm, hlocked⟩
    · exact .inl hr
    · obtain ⟨q, hq⟩ := hholder hlocked
      exact .inr ⟨m, q, hm, hq⟩
  · cases hext : s.exts t with
    | idle => exact absurd hext ht
    | goCo q a | wake q call => simp [step, Sys.extStep, hext]

/-- A coroutine of processor `0` is in the middle of `wunlock` when one of processor `1` is about to
enter `rlock`. -/
def toSpin : List Action :=
  toUser ++ [.start 1 1, .extCall 0 (.goNewCo 1 8), .ext 0, .ext 0, .loop 1, .epoll 1 []] ++
    List.replicate 10 (.loop 1) ++ [.epoll 1 []] ++ List.replicate 7 (.loop 1) ++
    [.user 0 (.wlock 3), .co 0, .user 0 (.wunlock 3), .user 1 (.rlock 3)]

theorem no_thread_stuck_spinning : ∃ s, Reachable machine Disciplined s ∧
    (s.pros 1).exec = some (8, .run (.rlock 3)) ∧ step s (.co 1) = none ∧
      ∃ m q, Code.run (.rlock 3) = .run (.rlock m) ∧ s.Releases m q := by
  let r := machine.after Disciplined (Sys.fresh 0) toSpin
  have h : Reachable machine Disciplined r.1 := ⟨_, _, ⟨0, rfl⟩, run_after toSpin⟩
  have hexec : (r.1.pros 1).exec = some (8, .run (.rlock 3)) := by decide
  have hnone : step r.1 (.co 1) = none := rfl
  obtain ⟨r', hr'⟩ | ⟨m, q, hm | hm, hq⟩ :=
    (no_thread_stuck h).2.2.1 1 8 (.run (.rlock 3)) hexec (by decide)
  · rw [hnone] at hr'
    exact absurd hr' (by simp)
  · exact ⟨r.1, h, hexec, hnone, m, q, hm, hq⟩
  · simp at hm

end Copnet
