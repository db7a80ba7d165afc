import Copnet.Foundation.Ledger
import Copnet.Runtime.Loop

/-!
# Where pointers to coroutines are kept

The containers that hold pointers to coroutines, as the places of a ledger. The heap of a timer and
the part of `timerExpiredCo_` that is still to be processed count as one place, since a coroutine
goes from one to the other without anything being done to it. Of `actCoroutines_` and `removedCo_`,
too, only the part still to be processed counts. The address that a `goNewCo` has in hand between
`new_obj` and `goCo` is at a place of its own.

For each piece of code the ledger says what it moves; this is the only module that looks inside the
containers.
-/

open Transition Ledger

namespace Copnet

/-- The places of one processor. -/
inductive Spot
  /-- `newCoroutines_`, either queue. -/
  | queue
  /-- The heap of `timer_`, or the rest of `timerExpiredCo_`. -/
  | sleep
  /-- `epoller_`, registered with the descriptor. -/
  | reg (fd : Fd)
  /-- The rest of `actCoroutines_`. -/
  | act
  /-- The rest of `removedCo_`. -/
  | dead
  /-- `coSet_`. -/
  | inSet
  /-- In the hands of the thread, in a `goNewCo` on `r`. -/
  | makes (r : Pid)
deriving DecidableEq

/-- The places of the system. -/
inductive Place
  | pro (q : Pid) (spot : Spot)
  /-- `waitingCo_`. -/
  | mu (m : MuId)
  /-- In the hands of a thread outside the scheduler, in a `goNewCo` on `r`. -/
  | ext (t : Tid) (r : Pid)
deriving DecidableEq

/-- What a thread that executes has in hand. -/
def inHand : Option (Addr × Code) → Option (Pid × Addr)
  | some (_, .goCo r a) => some (r, a)
  | _ => none

def LoopPc.InNewCos : LoopPc → Prop
  | .readQue | .drain _ | .pop _ | .flip _ => True
  | _ => False

def Processor.ledger (P : Processor) : Ledger Spot Addr
  | .queue, a => (P.queue.contents.map Entry.co).count a
  | .sleep, a => P.timer.heap.sleepers.count a + P.expiredRest.count a
  | .reg fd, a => if P.epoller.registered fd = some (some a) then 1 else 0
  | .act, a => (P.activeRest.filterMap id).count a
  | .dead, a => P.removedRest.count a
  | .inSet, a => if a ∈ P.coSet then 1 else 0
  | .makes r, a => if inHand P.exec = some (r, a) then 1 else 0

def Sys.ledger (s : Sys) : Ledger Place Addr
  | .pro q spot, a => (s.pros q).ledger spot a
  | .mu m, a => (s.mus m).waitingCo.count a
  | .ext t r, a => if s.exts t = .goCo r a then 1 else 0

/-- Entries of one processor, as entries of the system. -/
def ofPro (p : Pid) (es : List (Spot × Addr)) : List (Place × Addr) :=
  es.map fun e ↦ (.pro p e.1, e.2)

@[simp] theorem ofPro_nil (p : Pid) : ofPro p [] = [] := rfl

@[simp] theorem ofPro_cons (p : Pid) (e : Spot × Addr) (es : List (Spot × Addr)) :
    ofPro p (e :: es) = (.pro p e.1, e.2) :: ofPro p es := rfl

@[simp] theorem ofPro_append (p : Pid) (es es' : List (Spot × Addr)) :
    ofPro p (es ++ es') = ofPro p es ++ ofPro p es' := List.map_append

theorem count_ofPro (p : Pid) (es : List (Spot × Addr)) (spot : Spot) (a : Addr) :
    (ofPro p es).count (.pro p spot, a) = es.count (spot, a) := by
  have hinj : Function.Injective fun e : Spot × Addr ↦ ((Place.pro p e.1, e.2) : Place × Addr) := by
    rintro ⟨_, _⟩ ⟨_, _⟩ h
    simpa using h
  exact List.count_map_of_injective es _ hinj (spot, a)

theorem count_ofPro_of_ne {p q : Pid} (h : q ≠ p) (es : List (Spot × Addr)) (spot : Spot)
    (a : Addr) : (ofPro p es).count (.pro q spot, a) = 0 := by
  rw [List.count_eq_zero]
  intro hmem
  obtain ⟨e, -, he⟩ := List.mem_map.mp hmem
  simp [h.symm] at he

theorem count_ofPro_mu (p : Pid) (es : List (Spot × Addr)) (m : MuId) (a : Addr) :
    (ofPro p es).count (.mu m, a) = 0 := by
  rw [List.count_eq_zero]
  intro hmem
  obtain ⟨e, -, he⟩ := List.mem_map.mp hmem
  simp at he

theorem count_ofPro_ext (p : Pid) (es : List (Spot × Addr)) (t : Tid) (r : Pid) (a : Addr) :
    (ofPro p es).count (.ext t r, a) = 0 := by
  rw [List.count_eq_zero]
  intro hmem
  obtain ⟨e, -, he⟩ := List.mem_map.mp hmem
  simp at he

/-! ## What the pieces of code move -/

namespace Processor

variable {P : Processor} {a : Addr} {i : ℕ}

/-- What the thread has in hand, as an entry. -/
def handEntries (e : Option (Addr × Code)) : List (Spot × Addr) :=
  (inHand e).toList.map fun h ↦ (.makes h.1, h.2)

@[simp] theorem handEntries_none : handEntries none = [] := rfl

theorem moves_exec (P : Processor) (e : Option (Addr × Code)) :
    Moves P.ledger { P with exec := e }.ledger (handEntries P.exec) (handEntries e) := by
  intro spot b
  cases spot with
  | makes r =>
    simp only [ledger, handEntries]
    cases inHand P.exec <;> cases inHand e <;>
      simp [List.count_cons, Prod.ext_iff, add_comm]
  | _ =>
    simp only [ledger, handEntries]
    cases inHand P.exec <;> cases inHand e <;> simp [expiredRest, activeRest, removedRest]

theorem moves_exec_nil {P' : Processor} {out inn : List (Spot × Addr)} {x : Addr} {code : Code}
    {e : Option (Addr × Code)} (h : Moves P.ledger P'.ledger out inn)
    (hexec : P'.exec = some (x, code)) (hold : inHand (some (x, code)) = none)
    (hnew : inHand e = none) : Moves P.ledger { P' with exec := e }.ledger out inn := by
  have hmove := h.trans (moves_exec P' e)
  rw [hexec] at hmove
  simpa [handEntries, hold, hnew] using hmove

theorem moves_pc {pc : LoopPc} (hexp : { P with pc := pc }.expiredRest = P.expiredRest)
    (hact : { P with pc := pc }.activeRest = P.activeRest)
    (hrem : { P with pc := pc }.removedRest = P.removedRest) :
    Moves P.ledger { P with pc := pc }.ledger [] [] := by
  refine .of_eq (funext fun spot ↦ funext fun b ↦ ?_)
  cases spot <;> simp [ledger, hexp, hact, hrem]

theorem moves_timer {timer : Timer} (h : timer.heap = P.timer.heap) :
    Moves P.ledger { P with timer := timer }.ledger [] [] := by
  refine .of_eq (funext fun spot ↦ funext fun b ↦ ?_)
  cases spot <;> simp [ledger, h, expiredRest, activeRest, removedRest]

theorem moves_start (hpc : P.pc = .start) (timeFd : Fd) :
    Moves P.ledger { P with epoller := (P.epoller.addEv none timeFd true).1, pc := .top }.ledger
      [] [] := by
  refine .of_eq (funext fun spot ↦ funext fun b ↦ ?_)
  cases spot <;> simp [ledger, hpc, expiredRest, activeRest, removedRest]

theorem moves_top (hpc : P.pc = .top) :
    Moves P.ledger { P with actCoroutines := [], timerExpiredCo := [], pc := .epollWait }.ledger
      [] [] := by
  refine .of_eq (funext fun spot ↦ funext fun b ↦ ?_)
  cases spot <;> simp [ledger, hpc, expiredRest, activeRest, removedRest]

theorem moves_getExpired (hpc : P.pc = .getExpired) (clock : ℤ) :
    Moves P.ledger { P with
      timerExpiredCo := P.timerExpiredCo ++ P.timer.expiredCo clock
      timer := P.timer.popExpired clock
      pc := .readTimefd }.ledger [] [] := by
  refine .of_eq (funext fun spot ↦ funext fun b ↦ ?_)
  cases spot with
  | sleep =>
    have hsplit := congrArg (List.count b) (P.timer.heap.expired_append (Time.now clock))
    rw [List.count_append] at hsplit
    simp only [ledger, hpc, expiredRest, Timer.expiredCo, Timer.heap_popExpired,
      List.count_append]
    omega
  | _ => simp [ledger, hpc, activeRest, removedRest]

theorem moves_readTimefd (hpc : P.pc = .readTimefd) :
    Moves P.ledger { P with timer := P.timer.readTimefd, pc := .rearm }.ledger [] [] := by
  refine .of_eq (funext fun spot ↦ funext fun b ↦ ?_)
  cases spot <;> simp [ledger, hpc, expiredRest, activeRest, removedRest]

theorem moves_rearm (hpc : P.pc = .rearm) (clock : ℤ) :
    Moves P.ledger { P with timer := P.timer.rearm clock, pc := .timers 0 }.ledger [] [] := by
  refine .of_eq (funext fun spot ↦ funext fun b ↦ ?_)
  cases spot <;> simp [ledger, hpc, expiredRest, activeRest, removedRest]

theorem drop_eq_cons {β : Type*} {l : List β} {b : β} (h : l[i]? = some b) :
    l.drop i = b :: l.drop (i + 1) := by
  rw [List.drop_eq_getElem?_toList_append, h]
  rfl

theorem drop_eq_nil {β : Type*} {l : List β} (h : l[i]? = none) : l.drop i = [] :=
  List.drop_eq_nil_of_le (List.getElem?_eq_none_iff.mp h)

theorem moves_timerNext (hpc : P.pc = .timers i) (ha : P.timerExpiredCo[i]? = some a) :
    Moves P.ledger { P with pc := .timers (i + 1) }.ledger [(.sleep, a)] [] := by
  intro spot b
  cases spot <;> simp [ledger, hpc, expiredRest, activeRest, removedRest, drop_eq_cons ha,
    List.count_cons, add_assoc]

theorem moves_timersEnd (hpc : P.pc = .timers i) (hend : P.timerExpiredCo[i]? = none) :
    Moves P.ledger { P with pc := .readQue }.ledger [] [] :=
  moves_pc (by simp [expiredRest, hpc, drop_eq_nil hend]) (by simp [activeRest, hpc])
    (by simp [removedRest, hpc])

theorem moves_event (hpc : P.pc = .events i) {pCo : Option Addr}
    (hpCo : P.actCoroutines[i]? = some pCo) :
    Moves P.ledger { P with pc := .events (i + 1) }.ledger (pCo.toList.map (.act, ·)) [] := by
  intro spot b
  cases pCo <;> cases spot <;> simp [ledger, hpc, expiredRest, activeRest, removedRest,
    drop_eq_cons hpCo, List.count_cons]

theorem moves_eventsEnd (hpc : P.pc = .events i) (hend : P.actCoroutines[i]? = none) :
    Moves P.ledger { P with pc := .reclaim 0 }.ledger [] [] :=
  moves_pc (by simp [expiredRest, hpc]) (by simp [activeRest, hpc, drop_eq_nil hend])
    (by simp [removedRest, hpc])

theorem moves_reclaim (hpc : P.pc = .reclaim i) (ha : P.removedCo[i]? = some a) :
    Moves P.ledger { P with coSet := P.coSet.erase a, pc := .reclaim (i + 1) }.ledger
      ((.dead, a) :: if a ∈ P.coSet then [(.inSet, a)] else []) [] := by
  intro spot b
  by_cases hset : a ∈ P.coSet <;> rcases eq_or_ne a b with rfl | hb
  all_goals cases spot <;> simp_all [ledger, expiredRest, activeRest, removedRest,
    drop_eq_cons ha, Ne.symm]

theorem moves_reclaimEnd (hpc : P.pc = .reclaim i) (hend : P.removedCo[i]? = none) :
    Moves P.ledger { P with removedCo := [], pc := .top }.ledger [] [] := by
  refine .of_eq (funext fun spot ↦ funext fun b ↦ ?_)
  cases spot <;> simp [ledger, hpc, expiredRest, activeRest, removedRest, drop_eq_nil hend]

theorem count_pop {queue : DoubleBuffer Entry} {rq : Bool} {e : Entry} {rest : List Entry}
    (hcons : queue.bufs rq = e :: rest) (b : Addr) :
    ((queue.pop rq).contents.map Entry.co).count b + (if e.co = b then 1 else 0) =
      (queue.contents.map Entry.co).count b := by
  simp only [DoubleBuffer.contents, DoubleBuffer.front, DoubleBuffer.back, DoubleBuffer.pop,
    List.map_append, List.count_append]
  cases rq <;> cases queue.running <;> simp [Function.update, hcons, List.count_cons] <;> omega

theorem count_flip (queue : DoubleBuffer Entry) (rq : Bool) (b : Addr) :
    ((queue.flip rq).contents.map Entry.co).count b = (queue.contents.map Entry.co).count b := by
  simp only [DoubleBuffer.contents, DoubleBuffer.front, DoubleBuffer.back, DoubleBuffer.flip,
    List.map_append, List.count_append]
  cases rq <;> cases queue.running <;> simp [add_comm]

theorem moves_pop {rq : Bool} {e : Entry} {rest : List Entry} (hpc : P.pc = .pop rq)
    (hcons : P.queue.bufs rq = e :: rest) :
    Moves P.ledger { P with
        queue := P.queue.pop rq
        coSet := insert e.co P.coSet
        pc := .drain rq }.ledger
      [(.queue, e.co)] (if e.co ∈ P.coSet then [] else [(.inSet, e.co)]) := by
  intro spot b
  have hcount := count_pop hcons b
  by_cases hset : e.co ∈ P.coSet <;> rcases eq_or_ne e.co b with rfl | hb
  all_goals cases spot <;> simp_all [ledger, expiredRest, activeRest, removedRest, Ne.symm]

theorem moves_newCos {pc : LoopPc} (hpc : P.pc.InNewCos) (hpc' : pc.InNewCos) :
    Moves P.ledger { P with pc := pc }.ledger [] [] := by
  refine moves_pc ?_ ?_ ?_
  all_goals
    cases h : P.pc <;> simp only [h, LoopPc.InNewCos] at hpc <;>
      cases pc <;> simp only [LoopPc.InNewCos] at hpc' <;>
        simp [expiredRest, activeRest, removedRest, h]

theorem moves_flip {rq : Bool} (hpc : P.pc = .flip rq) :
    Moves P.ledger { P with queue := P.queue.flip rq, pc := .events 0 }.ledger [] [] := by
  refine .of_eq (funext fun spot ↦ funext fun b ↦ ?_)
  cases spot <;> simp [ledger, hpc, expiredRest, activeRest, removedRest, count_flip]

theorem moves_push (P : Processor) (a : Addr) (call : ℕ) :
    Moves P.ledger { P with queue := P.queue.push [⟨a, call⟩] }.ledger [] [(.queue, a)] := by
  intro spot b
  cases spot <;> simp [ledger, expiredRest, activeRest, removedRest, List.count_cons]

theorem moves_runAfter (P : Processor) (time : ℤ) (a : Addr) :
    Moves P.ledger { P with timer := P.timer.push time a }.ledger [] [(.sleep, a)] := by
  intro spot b
  cases spot with
  | sleep =>
    have hperm := (TimerHeap.perm_push (h := P.timer.heap) (e := (time, a))).count_eq b
    rw [List.count_cons] at hperm
    simp [ledger, expiredRest, hperm, List.count_cons]
    omega
  | _ => simp [ledger, activeRest, removedRest]

theorem moves_ret (hpc : P.pc.Resuming) (a : Addr) :
    Moves P.ledger { P with removedCo := P.removedCo ++ [a] }.ledger [] [(.dead, a)] := by
  intro spot b
  cases hpc' : P.pc <;> simp [LoopPc.Resuming, hpc'] at hpc
  all_goals cases spot <;> simp [ledger, expiredRest, activeRest, removedRest, hpc',
    List.count_cons]

theorem moves_removeEv {fd : Fd} (hreg : P.epoller.registered fd = some (some a)) :
    Moves P.ledger { P with epoller := P.epoller.removeEv fd }.ledger [(.reg fd, a)] [] := by
  intro spot b
  cases spot with
  | reg fd' =>
    rcases eq_or_ne fd' fd with rfl | hfd
    · simp [ledger, Epoller.removeEv, hreg, List.count_cons]
    · simp [ledger, Epoller.removeEv, hfd, Ne.symm hfd]
  | _ => simp [ledger, expiredRest, activeRest, removedRest]

theorem moves_addEv {fd : Fd} (hfree : P.epoller.registered fd = none) (a : Addr) :
    Moves P.ledger { P with epoller := (P.epoller.addEv (some a) fd true).1 }.ledger
      [] [(.reg fd, a)] := by
  intro spot b
  cases spot with
  | reg fd' =>
    rcases eq_or_ne fd' fd with rfl | hfd
    · simp [ledger, Epoller.addEv, hfree, List.count_cons]
    · simp [ledger, Epoller.addEv, hfree, hfd, Ne.symm hfd]
  | _ => simp [ledger, expiredRest, activeRest, removedRest]

theorem addEv_fails {e : Epoller} {fd : Fd} {canPoll : Bool} {pCo : Option Addr}
    (h : ¬(e.registered fd = none ∧ canPoll = true)) : (e.addEv pCo fd canPoll).1 = e := by
  rw [Epoller.addEv, if_neg (by simpa using h)]

theorem count_active (e : Epoller) (fds : List Fd) (b : Addr) :
    ((e.active fds).filterMap id).count b =
      fds.countP fun fd ↦ e.registered fd = some (some b) := by
  induction fds with
  | nil => rfl
  | cons fd fds ih =>
    rw [Epoller.active, List.filterMap_cons, List.countP_cons, ← ih]
    rcases hreg : e.registered fd with _ | _ | a
    · simp [Epoller.active]
    · simp [Epoller.active]
    · simp [Epoller.active, List.count_cons]

theorem ledger_epoll (hpc : P.pc = .epollWait) (hact : P.actCoroutines = [])
    (hexp : P.timerExpiredCo = []) (fds : List Fd) (spot : Spot) (b : Addr) :
    { P with
      actCoroutines := P.actCoroutines ++ P.epoller.active fds
      epoller := P.epoller.grow fds
      pc := .getExpired : Processor }.ledger spot b =
      P.ledger spot b + if spot = .act then
        fds.countP fun fd ↦ P.epoller.registered fd = some (some b) else 0 := by
  have hcount := count_active P.epoller fds b
  cases spot <;> simp_all [ledger, expiredRest, activeRest, removedRest]

end Processor

section Moves

variable {s s' : Sys} {p : Pid} {P : Processor} {out inn : List (Spot × Addr)}

theorem moves_setPro (hpros : s'.pros = (s.setPro p P).pros) (hmus : s'.mus = s.mus)
    (hexts : s'.exts = s.exts) (h : Moves (s.pros p).ledger P.ledger out inn) :
    Moves s.ledger s'.ledger (ofPro p out) (ofPro p inn) := by
  rintro (⟨q, spot⟩ | m | ⟨t, r⟩) a
  · by_cases hq : q = p
    · subst hq
      simp only [Sys.ledger, hpros, Sys.pros_setPro_self, count_ofPro]
      exact h spot a
    · simp only [Sys.ledger, hpros, Sys.pros_setPro_of_ne _ _ _ hq, count_ofPro_of_ne hq]
  · simp only [Sys.ledger, hmus, count_ofPro_mu]
  · simp only [Sys.ledger, hexts, count_ofPro_ext]

theorem moves_setExec (s : Sys) (p : Pid) (e : Option (Addr × Code)) :
    Moves s.ledger (s.setExec p e).ledger (ofPro p (Processor.handEntries (s.pros p).exec))
      (ofPro p (Processor.handEntries e)) :=
  moves_setPro rfl rfl rfl (Processor.moves_exec _ e)

theorem moves_setExec_nil {x : Addr} {code : Code} {e : Option (Addr × Code)}
    (hexec : (s.pros p).exec = some (x, code)) (hold : inHand (some (x, code)) = none)
    (hnew : inHand e = none) : Moves s.ledger (s.setExec p e).ledger [] [] := by
  have h := moves_setExec s p e
  rw [hexec] at h
  simpa [Processor.handEntries, hold, hnew] using h

theorem ledger_congr (hpros : s'.pros = s.pros) (hmus : s'.mus = s.mus)
    (hexts : s'.exts = s.exts) : s'.ledger = s.ledger := by
  funext x a
  cases x <;> simp [Sys.ledger, hpros, hmus, hexts]

theorem moves_setCur (s : Sys) (p : Pid) (a : Addr) :
    Moves s.ledger (s.setCur p a).ledger [] [] := by
  have heq : { s.pros p with pCurCoroutine := some a }.ledger = (s.pros p).ledger := by
    funext spot b
    cases spot <;> rfl
  exact moves_setPro rfl rfl rfl (.of_eq heq)

theorem moves_switch {a : Addr} {k : Point} (c : Option Coroutine)
    (hexec : (s.pros p).exec = none) :
    Moves s.ledger (((s.setCur p a).setCo a c).setExec p (some (a, .run k))).ledger [] [] := by
  have hset := moves_setExec ((s.setCur p a).setCo a c) p (some (a, .run k))
  have hnone : (((s.setCur p a).setCo a c).pros p).exec = none := by
    simpa [Sys.setCur] using hexec
  rw [hnone] at hset
  exact (moves_setCur s p a).trans ((Moves.of_eq (ledger_congr rfl rfl rfl)).trans hset)

theorem moves_goCo (s : Sys) (q : Pid) (a : Addr) :
    Moves s.ledger (s.goCoBatch q [a]).ledger [] [(.pro q .queue, a)] :=
  moves_setPro rfl rfl rfl (Processor.moves_push _ a s.nextCall)

theorem moves_wakeUpEpoller (s : Sys) (q : Pid) :
    Moves s.ledger (s.wakeUpEpoller q).ledger [] [] :=
  moves_setPro rfl rfl rfl (Processor.moves_timer ((s.pros q).heap_wokenTimer s.clock))

theorem moves_finishCall (s : Sys) (q : Pid) (call : ℕ) :
    Moves s.ledger (s.finishCall q call).ledger [] [] := by
  have heq : (s.finishCall q call).ledger = (s.wakeUpEpoller q).ledger := ledger_congr rfl rfl rfl
  rw [heq]
  exact moves_wakeUpEpoller s q

/-- What a thread outside the scheduler has in hand, as an entry. -/
def extEntries (t : Tid) : ExtCode → List (Place × Addr)
  | .goCo r a => [(.ext t r, a)]
  | _ => []

theorem moves_setExt (s : Sys) (t : Tid) (e : ExtCode) :
    Moves s.ledger (s.setExt t e).ledger (extEntries t (s.exts t)) (extEntries t e) := by
  rintro (⟨q, spot⟩ | m | ⟨u, r⟩) b
  · cases s.exts t <;> cases e <;> simp [extEntries, Sys.ledger]
  · cases s.exts t <;> cases e <;> simp [extEntries, Sys.ledger]
  · by_cases hu : u = t
    · subst hu
      cases hold : s.exts u <;> cases e <;>
        simp [extEntries, Sys.ledger, Sys.exts_setExt, hold, List.count_cons, add_comm]
    · cases s.exts t <;> cases e <;>
        simp [extEntries, Sys.ledger, Sys.exts_setExt, hu, Ne.symm hu]

theorem moves_setMu (s : Sys) (m : MuId) (μ : RWMutex) (out inn : List Addr)
    (h : ∀ b, μ.waitingCo.count b + out.count b = (s.mus m).waitingCo.count b + inn.count b) :
    Moves s.ledger (s.setMu m μ).ledger (out.map (.mu m, ·)) (inn.map (.mu m, ·)) := by
  have hinj : Function.Injective fun b : Addr ↦ ((Place.mu m, b) : Place × Addr) := by
    intro b c hbc
    simpa using hbc
  have hzero : ∀ (l : List Addr) (e : Place × Addr), e.1 ≠ .mu m →
      (l.map ((Place.mu m, ·) : Addr → Place × Addr)).count e = 0 := by
    intro l e he
    rw [List.count_eq_zero]
    intro hmem
    obtain ⟨b, -, rfl⟩ := List.mem_map.mp hmem
    exact he rfl
  rintro (⟨q, spot⟩ | n | ⟨t, r⟩) a
  · rw [hzero _ _ (by simp), hzero _ _ (by simp)]
    rfl
  · by_cases hn : n = m
    · subst hn
      rw [List.count_map_of_injective _ _ hinj a, List.count_map_of_injective _ _ hinj a]
      simpa [Sys.ledger, Sys.mus_setMu] using h a
    · rw [hzero _ _ (by simpa using hn), hzero _ _ (by simpa using hn)]
      simp [Sys.ledger, Sys.mus_setMu, hn]
  · rw [hzero _ _ (by simp), hzero _ _ (by simp)]
    rfl

theorem moves_setMu_nil {m : MuId} {μ : RWMutex} (h : μ.waitingCo = (s.mus m).waitingCo) :
    Moves s.ledger (s.setMu m μ).ledger [] [] :=
  moves_setMu s m μ [] [] fun b ↦ by rw [h]

end Moves

end Copnet
