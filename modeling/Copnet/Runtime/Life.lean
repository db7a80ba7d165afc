import Copnet.Runtime.Places

/-!
# The life of a coroutine

The abstract view of the runtime: what an address holds, reduced to the stage at which the
coroutine there is. A life starts with `goNewCo`, goes through any number of rounds of executing and
being parked, and ends with the block's return to the pool. `Life.places` says where the pointer to
the coroutine may then be found, `Life.Ok` which source of a wake-up goes with which code, and
`Fits` that the state of the system is, at one address, as the life says. `LifeStep` is the
transition relation of lives.

A parked coroutine has exactly one source from which it will be woken, with one exception:
`waitEvent` parks even when the descriptor could not be registered, and the source is then `idle`.
-/

open Transition Ledger

namespace Copnet

/-- From where a coroutine will be made to run again. -/
inductive Source
  /-- From nowhere. -/
  | idle
  /-- From a queue of its processor. -/
  | queue
  /-- From the timer of its processor. -/
  | sleep
  /-- From the epoller of its processor, which may have reported it already. -/
  | event (fd : Fd) (collected : Bool)
  /-- From the waiters of a lock. -/
  | waiting (m : MuId)
deriving DecidableEq

/-- The places of a coroutine of `p` that will be woken from the source. -/
def Source.places (p : Pid) : Source → List Place
  | .idle => []
  | .queue => [.pro p .queue]
  | .sleep => [.pro p .sleep]
  | .event fd false => [.pro p (.reg fd)]
  | .event fd true => [.pro p (.reg fd), .pro p .act]
  | .waiting m => [.mu m]

theorem Source.mem_places {p : Pid} {src : Source} {x : Place} :
    x ∈ src.places p ↔ (src = .queue ∧ x = .pro p .queue) ∨ (src = .sleep ∧ x = .pro p .sleep) ∨
      (∃ fd collected, src = .event fd collected ∧
        (x = .pro p (.reg fd) ∨ (collected = true ∧ x = .pro p .act))) ∨
      ∃ m, src = .waiting m ∧ x = .mu m := by
  rcases src with _ | _ | _ | ⟨fd, _ | _⟩ | m <;> simp [Source.places]

/-- What is left of the source once the coroutine has been taken from it: the registration of a
descriptor stays until `removeEv`. -/
def Source.taken : Source → Source
  | .event fd _ => .event fd false
  | _ => .idle

/-- The thread that is in a `goNewCo`. -/
inductive Maker
  | pro (t : Pid)
  | ext (t : Tid)

/-- Where the thread has the new coroutine of processor `r` in hand. -/
def Maker.place (r : Pid) : Maker → Place
  | .pro t => .pro t (.makes r)
  | .ext t => .ext t r

/-- The stage at which the coroutine at an address is. -/
inductive Life
  /-- There is none. -/
  | free
  /-- It has been built, and is in the hands of its maker. -/
  | built (c : Coroutine) (maker : Maker)
  /-- It is new and queued. -/
  | queued (c : Coroutine)
  /-- It executes. -/
  | exec (c : Coroutine) (code : Code) (src : Source)
  /-- It is suspended. -/
  | parked (c : Coroutine) (src : Source)
  /-- Its function has returned. -/
  | returned (c : Coroutine)

/-- `status_` of a coroutine that executes. -/
def Code.status : Code → CoStatus
  | .sleep _ | .arm _ | .swap _ => .waiting
  | _ => .running

/-- The sources that a coroutine may have while it executes the code. -/
def Code.Allows : Code → Source → Prop
  | .yield (.rlock m), src | .yield (.wlock m), src | .swap (.rlock m), src
  | .swap (.wlock m), src => src = .waiting m ∨ src = .queue
  | .yield (.removeEv fd), src | .swap (.removeEv fd), src =>
    src = .event fd false ∨ src = .idle
  | .run (.removeEv fd), src => src = .event fd false
  | .arm _, src | .swap .user, src => src = .sleep
  | .yield .user, _ => False
  | _, src => src = .idle

/-- The point at which the coroutine will go on, once the suspension is prepared. -/
def Code.goesOnAt : Code → Option Point
  | .arm _ => some .user
  | .yield k | .swap k => some k
  | _ => none

theorem Code.not_allows_collected (code : Code) (fd : Fd) : ¬code.Allows (.event fd true) := by
  rcases code with k | _ | _ | _ | _ | k | _ | _ | k
  all_goals try cases k
  all_goals simp [Code.Allows]

/-- The sources that a suspended coroutine may have that will go on at the point. -/
def Point.Allows : Point → Source → Prop
  | .user, src => src = .sleep
  | .rlock m, src | .wlock m, src => src = .waiting m ∨ src = .queue
  | .removeEv fd, src => (∃ collected, src = .event fd collected) ∨ src = .idle

namespace Life

def co : Life → Option Coroutine
  | .free => none
  | .built c _ | .queued c | .exec c _ _ | .parked c _ | .returned c => some c

def places : Life → List Place
  | .free => []
  | .built c maker => [maker.place c.pMyProcessor]
  | .queued c => [.pro c.pMyProcessor .queue]
  | .exec c _ src | .parked c src => .pro c.pMyProcessor .inSet :: src.places c.pMyProcessor
  | .returned c => [.pro c.pMyProcessor .inSet, .pro c.pMyProcessor .dead]

/-- The code that the coroutine executes on processor `q`. -/
def codeOn (q : Pid) : Life → Option Code
  | .exec c code _ => if q = c.pMyProcessor then some code else none
  | _ => none

/-- The status and the source go with the stage. -/
def Ok (a : Addr) : Life → Prop
  | .free => True
  | .built c _ | .queued c => c.status = .ready
  | .exec c code src => c.status = code.status ∧ code.Allows src
  | .parked c src => c.status = .waiting ∧ c.ctx.1 = a ∧ c.ctx.2.Allows src
  | .returned c => c.status = .running

end Life

/-- The code of `a` that the thread executes. -/
def Processor.codeOf (P : Processor) (a : Addr) : Option Code :=
  match P.exec with
  | some (x, code) => if x = a then some code else none
  | none => none

/-- The system is, at address `a`, as the life says. -/
structure Fits (s : Sys) (a : Addr) (ℓ : Life) : Prop where
  ok : ℓ.Ok a
  co : s.cos a = ℓ.co
  places : s.ledger.Holds a ℓ.places
  code : ∀ q, (s.pros q).codeOf a = ℓ.codeOn q

/-! ## Transitions -/

/-- `waitEvent` is called on a descriptor that is registered already, or that the kernel cannot
poll. -/
def AddEvFails (s : Sys) : Action → Prop
  | .user p (.waitEvent fd canPoll) =>
    ¬((s.pros p).epoller.registered fd = none ∧ canPoll = true)
  | _ => False

/-- What a step from `s` can do to the life of the coroutine at `a`, and which of its events are
about it. -/
inductive LifeStep (s : Sys) (act : Action) (a : Addr) : Life → List Event → Life → Prop
  | stay (ℓ : Life) : LifeStep s act a ℓ [] ℓ
  /-- `new_obj`. -/
  | make (c : Coroutine) (maker : Maker) (hserial : c.serial = s.nextSerial) :
      LifeStep s act a .free [.made a c.serial c.pMyProcessor] (.built c maker)
  /-- `goCo` by the maker. -/
  | go (c : Coroutine) (maker : Maker) : LifeStep s act a (.built c maker) [] (.queued c)
  /-- The first resumption. -/
  | enter (c : Coroutine) (que : Bool) :
      LifeStep s act a (.queued c)
        [.pop c.pMyProcessor que a, .switchTo c.pMyProcessor a, .enter a c.serial]
        (.exec { c with status := .running, ctx := (a, .user) } (.run .user) .idle)
  /-- It goes on in its code, with the same source. -/
  | code (c : Coroutine) (code code' : Code) (src : Source)
      (hgoes : code'.goesOnAt = code.goesOnAt) :
      LifeStep s act a (.exec c code src) []
        (.exec { c with status := code'.status } code' src)
  /-- It registers a descriptor. -/
  | addEv (c : Coroutine) (fd : Fd) :
      LifeStep s act a (.exec c (.run .user) .idle) []
        (.exec c (.yield (.removeEv fd)) (.event fd false))
  /-- It fails to register a descriptor. -/
  | addEvFails (c : Coroutine) (fd : Fd) (hfails : AddEvFails s act) :
      LifeStep s act a (.exec c (.run .user) .idle) []
        (.exec c (.yield (.removeEv fd)) .idle)
  /-- It removes its registration. -/
  | removeEv (c : Coroutine) (fd : Fd) :
      LifeStep s act a (.exec c (.run (.removeEv fd)) (.event fd false)) []
        (.exec c (.run .user) .idle)
  /-- It enters the heap of its timer. -/
  | sleep (c : Coroutine) (time runTime : ℤ) :
      LifeStep s act a (.exec c (.sleep time) .idle) [] (.exec c (.arm runTime) .sleep)
  /-- It joins the waiters of a lock. -/
  | wait (c : Coroutine) (m : MuId) (k : Point) (hk : k = .rlock m ∨ k = .wlock m) :
      LifeStep s act a (.exec c (.run k) .idle) [.park m a] (.exec c (.yield k) (.waiting m))
  /-- It is handed over before it has been suspended. -/
  | handOverEarly (c : Coroutine) (code : Code) (m : MuId) :
      LifeStep s act a (.exec c code (.waiting m)) [.handOver m a c.pMyProcessor]
        (.exec c code .queue)
  /-- It is handed over. -/
  | handOver (c : Coroutine) (m : MuId) :
      LifeStep s act a (.parked c (.waiting m)) [.handOver m a c.pMyProcessor] (.parked c .queue)
  /-- Its descriptor is reported. -/
  | collect (c : Coroutine) (fd : Fd) :
      LifeStep s act a (.parked c (.event fd false)) [] (.parked c (.event fd true))
  /-- It is suspended. -/
  | park (c : Coroutine) (k : Point) (src : Source) :
      LifeStep s act a (.exec c (.swap k) src) [] (.parked { c with ctx := (a, k) } src)
  /-- It is popped from the queue and resumed. -/
  | pop (c : Coroutine) (que : Bool) :
      LifeStep s act a (.parked c .queue)
        [.pop c.pMyProcessor que a, .switchTo c.pMyProcessor a]
        (.exec { c with status := .running } (.run c.ctx.2) .idle)
  /-- It is taken from the list of its timer or epoller and resumed. -/
  | resume (c : Coroutine) (src : Source) (hsrc : src = .sleep ∨ ∃ fd, src = .event fd true) :
      LifeStep s act a (.parked c src) [.switchTo c.pMyProcessor a]
        (.exec { c with status := .running } (.run c.ctx.2) src.taken)
  /-- Its function returns. -/
  | ret (c : Coroutine) :
      LifeStep s act a (.exec c (.run .user) .idle) [.ret c.pMyProcessor a c.serial] (.returned c)
  /-- Its block goes back to the pool. -/
  | delete (c : Coroutine) :
      LifeStep s act a (.returned c) [.delete c.pMyProcessor a c.serial] .free

/-- The event is about the life of the coroutine at `a`. -/
def Event.inLife (a : Addr) : Event → Bool
  | .made b _ _ | .pop _ _ b | .switchTo _ b | .enter b _ | .park _ b | .handOver _ b _
  | .ret _ b _ | .delete _ b _ => b = a
  | _ => false

/-! ## Reading a life off the state -/

namespace Fits

variable {s : Sys} {a : Addr} {ℓ : Life} {q : Pid}

theorem of_exec (hf : Fits s a ℓ) {code : Code} (h : (s.pros q).exec = some (a, code)) :
    ∃ c src, ℓ = .exec c code src ∧ c.pMyProcessor = q := by
  have hcode := hf.code q
  rw [Processor.codeOf, h] at hcode
  cases ℓ with
  | exec c code' src =>
    simp only [if_true, Life.codeOn, Option.some_eq_ite_none_right, Option.some.injEq] at hcode
    exact ⟨c, src, by rw [hcode.2], hcode.1.symm⟩
  | _ => simp [Life.codeOn] at hcode

theorem exec_eq {c : Coroutine} {code : Code} {src : Source} (hf : Fits s a (.exec c code src)) :
    (s.pros c.pMyProcessor).exec = some (a, code) := by
  have hcode := hf.code c.pMyProcessor
  simp only [Life.codeOn, if_true, Processor.codeOf] at hcode
  split at hcode
  · next x code' hexec =>
    obtain ⟨rfl, hc⟩ := Option.ite_none_right_eq_some.mp hcode
    rw [hexec, Option.some.inj hc]
  · simp at hcode

theorem of_status_running {c : Coroutine} (hf : Fits s a ℓ) (hco : s.cos a = some c)
    (hst : c.status = .running) : (∃ code src, ℓ = .exec c code src) ∨ ℓ = .returned c := by
  have hok := hf.ok
  rw [hf.co] at hco
  cases ℓ <;> simp_all [Life.co, Life.Ok]

theorem of_status_waiting {c : Coroutine} (hf : Fits s a ℓ) (hco : s.cos a = some c)
    (hst : c.status = .waiting) :
    (∃ code src, ℓ = .exec c code src) ∨ ∃ src, ℓ = .parked c src := by
  have hok := hf.ok
  rw [hf.co] at hco
  cases ℓ <;> simp_all [Life.co, Life.Ok]

theorem of_free (hf : Fits s a ℓ) (h : s.cos a = none) : ℓ = .free := by
  rw [hf.co] at h
  cases ℓ <;> simp_all [Life.co]

theorem mem_places (hf : Fits s a ℓ) {x : Place} (h : s.ledger x a ≠ 0) : x ∈ ℓ.places := by
  rw [hf.places] at h
  exact List.count_pos_iff.mp (Nat.pos_of_ne_zero h)

theorem of_makes (hf : Fits s a ℓ) {t r : Pid} (h : s.ledger (.pro t (.makes r)) a ≠ 0) :
    ∃ c, ℓ = .built c (.pro t) ∧ c.pMyProcessor = r := by
  have hmem := hf.mem_places h
  rcases ℓ with _ | ⟨c, _ | _⟩ | _ | _ | _ | _
  all_goals simp_all [Life.places, Source.mem_places, Maker.place]

theorem of_ext (hf : Fits s a ℓ) {t : Tid} {r : Pid} (h : s.ledger (.ext t r) a ≠ 0) :
    ∃ c, ℓ = .built c (.ext t) ∧ c.pMyProcessor = r := by
  have hmem := hf.mem_places h
  rcases ℓ with _ | ⟨c, _ | _⟩ | _ | _ | _ | _
  all_goals simp_all [Life.places, Source.mem_places, Maker.place]

theorem of_queue (hf : Fits s a ℓ) (h : s.ledger (.pro q .queue) a ≠ 0) :
    (∃ c, ℓ = .queued c ∧ c.pMyProcessor = q) ∨
      (∃ c code, ℓ = .exec c code .queue ∧ c.pMyProcessor = q) ∨
        ∃ c, ℓ = .parked c .queue ∧ c.pMyProcessor = q := by
  have hmem := hf.mem_places h
  rcases ℓ with _ | ⟨c, _ | _⟩ | _ | _ | _ | _
  all_goals simp_all [Life.places, Source.mem_places, Maker.place]

theorem of_sleep (hf : Fits s a ℓ) (h : s.ledger (.pro q .sleep) a ≠ 0) :
    (∃ c code, ℓ = .exec c code .sleep ∧ c.pMyProcessor = q) ∨
      ∃ c, ℓ = .parked c .sleep ∧ c.pMyProcessor = q := by
  have hmem := hf.mem_places h
  rcases ℓ with _ | ⟨c, _ | _⟩ | _ | _ | _ | _
  all_goals simp_all [Life.places, Source.mem_places, Maker.place]

theorem of_act (hf : Fits s a ℓ) (h : s.ledger (.pro q .act) a ≠ 0) :
    ∃ c fd, ℓ = .parked c (.event fd true) ∧ c.pMyProcessor = q := by
  have hmem := hf.mem_places h
  have hok := hf.ok
  rcases ℓ with _ | ⟨c, _ | _⟩ | _ | ⟨c, code, src⟩ | _ | _
  case exec =>
    obtain ⟨fd, rfl⟩ : ∃ fd, src = .event fd true := by
      simp_all [Life.places, Source.mem_places]
    exact absurd hok.2 (Code.not_allows_collected code fd)
  all_goals simp_all [Life.places, Source.mem_places, Maker.place]

theorem of_waiting (hf : Fits s a ℓ) {m : MuId} (h : s.ledger (.mu m) a ≠ 0) :
    (∃ c code, ℓ = .exec c code (.waiting m)) ∨ ∃ c, ℓ = .parked c (.waiting m) := by
  have hmem := hf.mem_places h
  rcases ℓ with _ | ⟨c, _ | _⟩ | _ | _ | _ | _
  all_goals simp_all [Life.places, Source.mem_places, Maker.place]

theorem of_dead (hf : Fits s a ℓ) (h : s.ledger (.pro q .dead) a ≠ 0) :
    ∃ c, ℓ = .returned c ∧ c.pMyProcessor = q := by
  have hmem := hf.mem_places h
  rcases ℓ with _ | ⟨c, _ | _⟩ | _ | _ | _ | _
  all_goals simp_all [Life.places, Source.mem_places, Maker.place]

theorem of_reg (hf : Fits s a ℓ) {fd : Fd} (h : s.ledger (.pro q (.reg fd)) a ≠ 0) :
    ∃ c collected, c.pMyProcessor = q ∧ ((∃ code, ℓ = .exec c code (.event fd collected)) ∨
      ℓ = .parked c (.event fd collected)) := by
  have hmem := hf.mem_places h
  rcases ℓ with _ | ⟨c, _ | _⟩ | _ | _ | _ | _
  all_goals simp_all [Life.places, Source.mem_places, Maker.place]

end Fits

end Copnet
