import Copnet.Lock.Spinlock
import Copnet.Runtime.Mutex
import Mathlib.Data.List.Count
import Mathlib.Logic.Relation

/-!
# The read-write lock, one access at a time

The functions of an `RWMutex` are guarded by its `lock_`, a spin lock. Under it they test `state_`,
count in `readingNum_`, assign `state_` and push or pop `waitingCo_`, each in a step of its own
here, with the attempts at `lock_` of any number of coroutines in between. `freeLock` hands over one
waiter after the other before the guard of the unlock goes out of scope.

Elsewhere a function that finds `lock_` free is one step, and `freeLock` one for each waiter. That
loses nothing: every run is, as far as the lock can tell, one of `spec`, in which a whole function
is a step; and each of these steps comes of those the runtime takes, so that what holds of the lock
there holds here.

A coroutine that has failed to get the lock may try again at any time here. When it does is decided
by the queues of its processor, which are not part of this.
-/

open Transition

namespace Copnet

namespace RWMutex

/-- `freeLock` and the end of the guard, after the part of an unlock that comes before the loop. -/
def finish (μ : RWMutex) : RWMutex :=
  if μ.locked then { μ with waitingCo := [], locked := false } else μ

/-- Whom the loop of `freeLock` hands over. -/
def woken (μ : RWMutex) : List Addr := if μ.locked then μ.waitingCo else []

theorem locked_finish (μ : RWMutex) : μ.finish.locked = false := by
  rw [finish]
  split
  · rfl
  · next h => simpa using h

end RWMutex

namespace MutexAccess

/-! ## The code -/

/-- What the lock is wanted for. -/
inductive Mode
  | read | write
deriving DecidableEq

/-- The section of `rlock` or `wlock`, if it gets the lock. -/
def Mode.tryLock : Mode → RWMutex → Option RWMutex
  | .read => RWMutex.rlock
  | .write => RWMutex.wlock

/-- The section of `runlock` or `wunlock` up to the loop of `freeLock`. -/
def Mode.unlock : Mode → RWMutex → RWMutex
  | .read => RWMutex.runlock
  | .write => RWMutex.wunlock

inductive Place
  /-- In its own code. -/
  | user
  /-- In `rlock` or `wlock`, at the guard. -/
  | lock (w : Mode)
  /-- In `runlock` or `wunlock`, at the guard. -/
  | unlock (w : Mode)
  /-- After a failed attempt, in `yield`. -/
  | waiting (w : Mode)

structure Control where
  /-- What `getCurRunningCo` returns to it. -/
  curRunningCo : Addr
  /-- Where it is. -/
  place : Place
  /-- How often it holds the lock. -/
  held : Mode → ℕ

/-- What a coroutine does next inside a section. -/
inductive Access
  /-- The test for `MU_FREE`. -/
  | isFree (w : Mode)
  /-- The test for `MU_READING`. -/
  | isReading
  /-- `readingNum_.fetch_add(1)`. -/
  | fetchAdd
  /-- The assignment of `MU_READING`. -/
  | setReading
  /-- The assignment of `MU_WRITING`. -/
  | setWriting
  /-- The push on `waitingCo_`. -/
  | push (w : Mode)
  /-- `readingNum_.fetch_add(-1)`. -/
  | fetchSub
  /-- In `freeLock`, the assignment of `MU_FREE`. -/
  | setFree (w : Mode)
  /-- In `freeLock`, `empty`, after `woken` have been handed over. -/
  | empty (w : Mode) (woken : List Addr)
  /-- `front`. -/
  | front (w : Mode) (woken : List Addr)
  /-- `pop`. -/
  | pop (w : Mode) (woken : List Addr) (wakeCo : Addr)
  /-- `goCo`. -/
  | goCo (w : Mode) (woken : List Addr) (wakeCo : Addr)
  /-- The end of the guard in `rlock` or `wlock`, with the lock. -/
  | took (w : Mode)
  /-- The same without it. -/
  | parked (w : Mode)
  /-- The end of the guard in `runlock` or `wunlock`. -/
  | gave (w : Mode) (woken : List Addr)

/-- A coroutine inside a section. -/
structure Local where
  /-- What it was and is apart from that. -/
  control : Control
  /-- What it does next. -/
  access : Access

/-- What a coroutine does next, where its code leaves it open. -/
inductive Choice
  /-- It is resumed. -/
  | resume
  /-- Its code calls `rlock` or `wlock`. -/
  | lock (w : Mode)
  /-- Its code calls `runlock` or `wunlock`. -/
  | unlock (w : Mode)

/-- What is reported where sections end. -/
inductive Event
  /-- Coroutine `a` has the lock. -/
  | take (w : Mode) (a : Addr)
  /-- It has not, and waits. -/
  | park (w : Mode) (a : Addr)
  /-- It has given the lock back and handed over `woken`. -/
  | give (w : Mode) (a : Addr) (woken : List Addr)
deriving DecidableEq

/-- A step outside the sections. A lock is given back only by a coroutine that holds it. -/
def free (c : Choice) (k : Control) : Option Control :=
  match k.place, c with
  | .user, .lock w => some { k with place := .lock w }
  | .user, .unlock w => if k.held w = 0 then none else some { k with place := .unlock w }
  | .waiting w, .resume => some { k with place := .lock w }
  | _, _ => none

/-- The section that a guard opens. -/
def enter (k : Control) : Option Local :=
  match k.place with
  | .lock w => some ⟨k, .isFree w⟩
  | .unlock .read => some ⟨k, .fetchSub⟩
  | .unlock .write => some ⟨k, .setFree .write⟩
  | _ => none

/-- An access inside a section of coroutine `a`. -/
def Access.next (a : Addr) : Access → RWMutex → Option (Access × RWMutex)
  | .isFree w, μ =>
    if μ.state = .free then
      match w with
      | .read => some (.fetchAdd, μ)
      | .write => some (.setWriting, μ)
    else
      match w with
      | .read => some (.isReading, μ)
      | .write => some (.push .write, μ)
  | .isReading, μ =>
    if μ.state = .reading then some (.fetchAdd, μ) else some (.push .read, μ)
  | .fetchAdd, μ => some (.setReading, { μ with readingNum := μ.readingNum + 1 })
  | .setReading, μ => some (.took .read, { μ with state := .reading })
  | .setWriting, μ => some (.took .write, { μ with state := .writing })
  | .push w, μ => some (.parked w, μ.park a)
  | .fetchSub, μ =>
    let cur := μ.readingNum
    let μ := { μ with readingNum := μ.readingNum - 1 }
    if cur = 1 then some (.setFree .read, μ) else some (.gave .read [], μ)
  | .setFree w, μ => some (.empty w [], { μ with state := .free })
  | .empty w woken, μ =>
    if μ.waitingCo = [] then some (.gave w woken, μ) else some (.front w woken, μ)
  | .front w woken, μ =>
    match μ.waitingCo with
    | [] => none
    | wakeCo :: _ => some (.pop w woken wakeCo, μ)
  | .pop w woken wakeCo, μ =>
    match μ.waitingCo with
    | [] => none
    | _ :: rest => some (.goCo w woken wakeCo, { μ with waitingCo := rest })
  | .goCo w woken wakeCo, μ => some (.empty w (woken ++ [wakeCo]), μ)
  | .took _, _ | .parked _, _ | .gave _ _, _ => none

def leave (l : Local) : Option (Control × List Event) :=
  let k := l.control
  match l.access with
  | .took w =>
    some ({ k with place := .user, held := Function.update k.held w (k.held w + 1) },
      [.take w k.curRunningCo])
  | .parked w => some ({ k with place := .waiting w }, [.park w k.curRunningCo])
  | .gave w woken =>
    some ({ k with place := .user, held := Function.update k.held w (k.held w - 1) },
      [.give w k.curRunningCo woken])
  | _ => none

/-- Coroutines that use one lock, each known by its address. -/
def client : Critical.Client Addr Choice Control Local RWMutex Event where
  start a := ⟨a, .user, fun _ ↦ 0⟩
  first := .created
  free _ c k μ := (free c k).map fun k' ↦ (k', μ, [])
  enter := enter
  micro l μ := (l.access.next l.control.curRunningCo μ).map fun r ↦ (⟨l.control, r.1⟩, r.2)
  leave := leave

/-! ## What the lock is meant to be -/

def holders (l : LockState) : Mode → List ℕ
  | .read => l.readers
  | .write => l.writers

/-- What a whole function does to the lock, if it may. -/
def Event.apply (l : LockState) : Event → Option LockState
  | .take .read a => l.mu.rlock.map fun μ ↦ ⟨μ, a :: l.readers, l.writers⟩
  | .take .write a => l.mu.wlock.map fun μ ↦ ⟨μ, l.readers, a :: l.writers⟩
  | .park w a => if (w.tryLock l.mu).isNone then some { l with mu := l.mu.park a } else none
  | .give w a woken =>
    if a ∈ holders l w ∧ woken = (w.unlock l.mu).woken then
      match w with
      | .read => some ⟨l.mu.runlock.finish, l.readers.erase a, l.writers⟩
      | .write => some ⟨l.mu.wunlock.finish, l.readers, l.writers.erase a⟩
    else none

/-- The lock, a whole function being a step. -/
def spec : Machine LockState Event Event where
  init l := l = ⟨.created, [], []⟩
  step l ev := (ev.apply l).map (·, [ev])

/-- What a whole function does to the lock. -/
inductive Section (l : LockState) : Event → LockState → Prop
  | rlock {a : Addr} {μ : RWMutex} (hlock : l.mu.rlock = some μ) :
      Section l (.take .read a) ⟨μ, a :: l.readers, l.writers⟩
  | wlock {a : Addr} {μ : RWMutex} (hlock : l.mu.wlock = some μ) :
      Section l (.take .write a) ⟨μ, l.readers, a :: l.writers⟩
  | park {w : Mode} {a : Addr} (hlock : w.tryLock l.mu = none) :
      Section l (.park w a) { l with mu := l.mu.park a }
  | runlock {a : Addr} (hheld : a ∈ l.readers) :
      Section l (.give .read a l.mu.runlock.woken)
        ⟨l.mu.runlock.finish, l.readers.erase a, l.writers⟩
  | wunlock {a : Addr} (hheld : a ∈ l.writers) :
      Section l (.give .write a l.mu.wunlock.woken)
        ⟨l.mu.wunlock.finish, l.readers, l.writers.erase a⟩

theorem Section.of_apply {l l' : LockState} {ev : Event} (h : ev.apply l = some l') :
    Section l ev l' := by
  cases ev with
  | take w a =>
    cases w <;>
    · obtain ⟨μ, hlock, rfl⟩ := Option.map_eq_some_iff.mp h
      constructor
      exact hlock
  | park w a =>
    obtain ⟨hnone, heq⟩ := Option.ite_none_right_eq_some.mp h
    obtain rfl := Option.some.inj heq
    exact .park (Option.isNone_iff_eq_none.mp hnone)
  | give w a woken =>
    obtain ⟨⟨hheld, rfl⟩, heq⟩ := Option.ite_none_right_eq_some.mp h
    cases w <;>
    · obtain rfl := Option.some.inj heq
      constructor
      exact hheld

theorem Section.apply {l l' : LockState} {ev : Event} (h : Section l ev l') :
    ev.apply l = some l' := by
  cases h with
  | rlock hlock | wlock hlock => simp [Event.apply, hlock]
  | park hlock => simp [Event.apply, hlock]
  | runlock hheld | wunlock hheld => simp [Event.apply, holders, Mode.unlock, hheld]

/-! ## How far a section has got -/

/-- `freeLock` has handed over `woken` and has `rest` still to come. -/
def Freed (w : Mode) (b b' : RWMutex) (woken rest : List Addr) : Prop :=
  (w.unlock b).locked = true ∧ b.waitingCo = woken ++ rest ∧
    b' = { w.unlock b with waitingCo := rest, locked := false }

/-- How far a section of `a` has got that found the lock as `b` and has left it as `b'`. -/
def Access.Done (a : Addr) (b b' : RWMutex) : Access → Prop
  | .isFree _ | .fetchSub => b' = b
  | .isReading => b' = b ∧ b.state ≠ .free
  | .fetchAdd => b' = b ∧ (b.state = .free ∨ b.state = .reading)
  | .setReading =>
    b' = { b with readingNum := b.readingNum + 1 } ∧ (b.state = .free ∨ b.state = .reading)
  | .setWriting => b' = b ∧ b.state = .free
  | .push w => b' = b ∧ w.tryLock b = none
  | .setFree w =>
    (w.unlock b).locked = true ∧ b' = { w.unlock b with state := b.state, locked := false }
  | .empty w woken => ∃ rest, Freed w b b' woken rest
  | .front w woken => ∃ rest, Freed w b b' woken rest ∧ rest ≠ []
  | .pop w woken wakeCo => ∃ rest, Freed w b b' woken (wakeCo :: rest)
  | .goCo w woken wakeCo => ∃ rest, Freed w b b' (woken ++ [wakeCo]) rest
  | .took w => w.tryLock b = some b'
  | .parked w => w.tryLock b = none ∧ b' = b.park a
  | .gave w woken => woken = (w.unlock b).woken ∧ b' = (w.unlock b).finish

section Done

variable {a : Addr} {b b' b'' : RWMutex} {acc acc' : Access} {k k' : Control} {l : Local}

@[simp] theorem waitingCo_unlock (w : Mode) (μ : RWMutex) :
    (w.unlock μ).waitingCo = μ.waitingCo := by
  cases w with
  | read => exact RWMutex.waitingCo_runlock
  | write => rfl

theorem state_unlock {w : Mode} {μ : RWMutex} (h : μ.locked = false)
    (hlocked : (w.unlock μ).locked = true) : (w.unlock μ).state = .free := by
  cases w with
  | write => rfl
  | read =>
    rw [Mode.unlock, RWMutex.runlock_eq] at hlocked ⊢
    split
    · rfl
    · next hne =>
      rw [if_neg hne] at hlocked
      exact absurd hlocked (by simp [h])

theorem Freed.finish {w : Mode} {woken : List Addr} (h : Freed w b b' woken []) :
    woken = (w.unlock b).woken ∧ b' = (w.unlock b).finish := by
  obtain ⟨hlocked, hwaiting, rfl⟩ := h
  rw [RWMutex.woken, RWMutex.finish, if_pos hlocked, if_pos hlocked, waitingCo_unlock, hwaiting,
    List.append_nil]
  exact ⟨rfl, rfl⟩

theorem done_enter (h : enter k = some l) (hb : b.locked = false) :
    l.control = k ∧ l.access.Done a b b := by
  simp only [enter] at h
  split at h <;> simp only [Option.some.injEq, reduceCtorEq] at h <;> subst h
  · exact ⟨rfl, rfl⟩
  · exact ⟨rfl, rfl⟩
  · refine ⟨rfl, rfl, ?_⟩
    cases b
    cases hb
    rfl

/-- **An access does its part.** -/
theorem Access.Done.next (h : acc.Done a b b') (hb : b.locked = false)
    (hnext : acc.next a b' = some (acc', b'')) : acc'.Done a b b'' := by
  cases acc with
  | isFree w =>
    obtain rfl : b' = b := h
    simp only [Access.next] at hnext
    split at hnext <;> cases w <;> simp only [Option.some.injEq, Prod.mk.injEq] at hnext <;>
      obtain ⟨rfl, rfl⟩ := hnext
    · exact ⟨rfl, .inl ‹_›⟩
    · exact ⟨rfl, ‹_›⟩
    · exact ⟨rfl, ‹_›⟩
    · exact ⟨rfl, if_neg ‹_›⟩
  | isReading =>
    obtain ⟨rfl, hne⟩ := h
    simp only [Access.next] at hnext
    split at hnext <;> simp only [Option.some.injEq, Prod.mk.injEq] at hnext <;>
      obtain ⟨rfl, rfl⟩ := hnext
    · exact ⟨rfl, .inr ‹_›⟩
    · exact ⟨rfl, if_neg (not_or.mpr ⟨hne, ‹_›⟩)⟩
  | fetchAdd =>
    obtain ⟨rfl, hstate⟩ := h
    simp only [Access.next, Option.some.injEq, Prod.mk.injEq] at hnext
    obtain ⟨rfl, rfl⟩ := hnext
    exact ⟨rfl, hstate⟩
  | setReading =>
    obtain ⟨rfl, hstate⟩ := h
    simp only [Access.next, Option.some.injEq, Prod.mk.injEq] at hnext
    obtain ⟨rfl, rfl⟩ := hnext
    exact if_pos hstate
  | setWriting =>
    obtain ⟨rfl, hstate⟩ := h
    simp only [Access.next, Option.some.injEq, Prod.mk.injEq] at hnext
    obtain ⟨rfl, rfl⟩ := hnext
    exact if_pos hstate
  | push w =>
    obtain ⟨rfl, hnone⟩ := h
    simp only [Access.next, Option.some.injEq, Prod.mk.injEq] at hnext
    obtain ⟨rfl, rfl⟩ := hnext
    exact ⟨hnone, rfl⟩
  | fetchSub =>
    obtain rfl : b' = b := h
    simp only [Access.next] at hnext
    split at hnext <;> simp only [Option.some.injEq, Prod.mk.injEq] at hnext <;>
      obtain ⟨rfl, rfl⟩ := hnext
    · next hone =>
      refine ⟨by simp [Mode.unlock, RWMutex.runlock_eq, hone], ?_⟩
      rw [Mode.unlock, RWMutex.runlock_eq, if_pos hone, ← hb]
    · next hne =>
      have hrun : Mode.read.unlock b' = { b' with readingNum := b'.readingNum - 1 } := by
        rw [Mode.unlock, RWMutex.runlock_eq, if_neg hne]
      simp [Access.Done, hrun, RWMutex.woken, RWMutex.finish, hb]
  | setFree w =>
    obtain ⟨hlocked, rfl⟩ := h
    simp only [Access.next, Option.some.injEq, Prod.mk.injEq] at hnext
    obtain ⟨rfl, rfl⟩ := hnext
    refine ⟨b.waitingCo, hlocked, rfl, ?_⟩
    rw [← state_unlock hb hlocked, ← waitingCo_unlock w b]
  | empty w woken =>
    obtain ⟨rest, hfreed⟩ := h
    have hwaiting : b'.waitingCo = rest := by rw [hfreed.2.2]
    simp only [Access.next] at hnext
    split at hnext <;> simp only [Option.some.injEq, Prod.mk.injEq] at hnext <;>
      obtain ⟨rfl, rfl⟩ := hnext
    · next hnil =>
      rw [← hwaiting, hnil] at hfreed
      exact hfreed.finish
    · next hne => exact ⟨rest, hfreed, hwaiting ▸ hne⟩
  | front w woken =>
    obtain ⟨rest, hfreed, -⟩ := h
    have hwaiting : b'.waitingCo = rest := by rw [hfreed.2.2]
    simp only [Access.next] at hnext
    split at hnext
    · cases hnext
    · next wakeCo rest' hcons =>
      simp only [Option.some.injEq, Prod.mk.injEq] at hnext
      obtain ⟨rfl, rfl⟩ := hnext
      rw [← hwaiting, hcons] at hfreed
      exact ⟨rest', hfreed⟩
  | pop w woken wakeCo =>
    obtain ⟨rest, hlocked, hwaiting, rfl⟩ := h
    simp only [Access.next, Option.some.injEq, Prod.mk.injEq] at hnext
    obtain ⟨rfl, rfl⟩ := hnext
    exact ⟨rest, hlocked, by rw [hwaiting, List.append_assoc, List.singleton_append], rfl⟩
  | goCo w woken wakeCo =>
    simp only [Access.next, Option.some.injEq, Prod.mk.injEq] at hnext
    obtain ⟨rfl, rfl⟩ := hnext
    exact h
  | took w | parked w | gave w woken => cases hnext

end Done

/-! ## The sections are steps of `spec` -/

/-- The function an access belongs to, by its guard. -/
def Access.place : Access → Place
  | .isFree w | .push w | .took w | .parked w => .lock w
  | .isReading | .fetchAdd | .setReading => .lock .read
  | .setWriting => .lock .write
  | .fetchSub => .unlock .read
  | .setFree w | .empty w _ | .front w _ | .pop w _ _ | .goCo w _ _ | .gave w _ => .unlock w

/-- Coroutine `a` knows its address and how often it holds the lock, and unlocks what it holds. -/
structure Owns (k : Control) (a : Addr) (l : LockState) : Prop where
  curRunningCo : k.curRunningCo = a
  held : ∀ w, k.held w = (holders l w).count a
  unlock : ∀ w, k.place = .unlock w → k.held w ≠ 0

/-- The coroutines between sections, and the lock as `spec` has it. -/
structure Matches (t : Critical.Calm Addr Control RWMutex) (l : LockState) : Prop where
  shared : t.shared = l.mu
  unlocked : l.mu.locked = false
  owns : ∀ a, Owns (t.control a) a l

section Sections

variable {a : Addr} {l l' : LockState} {μ : RWMutex} {acc acc' : Access} {k k' : Control}
  {loc loc₀ : Local} {es : List Event} {ev : Event}

theorem Access.place_next {μ' : RWMutex} (h : acc.next a μ = some (acc', μ')) :
    acc'.place = acc.place := by
  cases acc with
  | isFree w =>
    simp only [Access.next] at h
    split at h <;> cases w <;> simp only [Option.some.injEq, Prod.mk.injEq] at h <;>
      obtain ⟨rfl, -⟩ := h <;> rfl
  | isReading | fetchSub | empty w woken =>
    simp only [Access.next] at h
    split at h <;> simp only [Option.some.injEq, Prod.mk.injEq] at h <;>
      obtain ⟨rfl, -⟩ := h <;> rfl
  | front w woken | pop w woken wakeCo =>
    simp only [Access.next] at h
    split at h <;> simp only [Option.some.injEq, Prod.mk.injEq, reduceCtorEq] at h
    obtain ⟨rfl, -⟩ := h
    rfl
  | took w | parked w | gave w woken => cases h
  | _ =>
    simp only [Access.next, Option.some.injEq, Prod.mk.injEq] at h
    obtain ⟨rfl, -⟩ := h
    rfl

theorem place_enter (h : enter k = some loc) : loc.access.place = k.place := by
  simp only [enter] at h
  split at h <;> simp only [Option.some.injEq, reduceCtorEq] at h <;> subst h <;>
    exact Eq.symm ‹_›

theorem done_through {n : ℕ} {b b' : RWMutex} (henter : enter k = some loc₀)
    (hb : b.locked = false) (hn : client.through n loc₀ b = some (loc, b')) :
    loc.control = k ∧ loc.access.place = k.place ∧ loc.access.Done k.curRunningCo b b' := by
  induction n generalizing loc b' with
  | zero =>
    simp only [Critical.Client.through, Option.some.injEq, Prod.mk.injEq] at hn
    obtain ⟨rfl, rfl⟩ := hn
    obtain ⟨hk, hdone⟩ := done_enter henter hb
    exact ⟨hk, place_enter henter, hdone⟩
  | succ n ih =>
    rw [Critical.Client.through_succ] at hn
    obtain ⟨⟨loc₁, b₁⟩, hn₁, hmicro⟩ := Option.bind_eq_some_iff.mp hn
    obtain ⟨rfl, hplace, hdone⟩ := ih hn₁
    obtain ⟨⟨acc, b₂⟩, hnext, hpair⟩ := Option.map_eq_some_iff.mp hmicro
    simp only [Prod.mk.injEq] at hpair
    obtain ⟨rfl, rfl⟩ := hpair
    exact ⟨rfl, (Access.place_next hnext).trans hplace, hdone.next hb hnext⟩

theorem Section.unlocked (h : Section l ev l') (hl : l.mu.locked = false) :
    l'.mu.locked = false := by
  cases h with
  | rlock hlock =>
    obtain ⟨-, rfl⟩ := RWMutex.rlock_eq_some hlock
    exact hl
  | wlock hlock =>
    obtain ⟨-, rfl⟩ := RWMutex.wlock_eq_some hlock
    exact hl
  | park hlock => exact hl
  | runlock hheld | wunlock hheld => exact RWMutex.locked_finish _

/-- **A finished section is a step of `spec`.** -/
theorem section_of_leave {b' : RWMutex} (hleave : leave loc = some (k', es))
    (hdone : loc.access.Done a l.mu b') (howns : Owns loc.control a l)
    (hplace : loc.access.place = loc.control.place) :
    ∃ ev l', es = [ev] ∧ Section l ev l' ∧ b' = l'.mu ∧ Owns k' a l' ∧
      ∀ c, c ≠ a → ∀ w, (holders l' w).count c = (holders l w).count c := by
  obtain ⟨k, acc⟩ := loc
  obtain ⟨hself, hheld, hunlock⟩ := howns
  simp only at hself hheld hunlock hplace hdone
  subst hself
  cases acc with
  | took w =>
    simp only [leave, Option.some.injEq, Prod.mk.injEq] at hleave
    obtain ⟨rfl, rfl⟩ := hleave
    cases w with
    | read =>
      refine ⟨_, _, rfl, .rlock hdone, rfl, ⟨rfl, fun w ↦ ?_, by simp⟩, fun c hc w ↦ ?_⟩
      · cases w <;> simp [holders, hheld]
      · cases w <;> simp [holders, List.count_cons_of_ne (Ne.symm hc)]
    | write =>
      refine ⟨_, _, rfl, .wlock hdone, rfl, ⟨rfl, fun w ↦ ?_, by simp⟩, fun c hc w ↦ ?_⟩
      · cases w <;> simp [holders, hheld]
      · cases w <;> simp [holders, List.count_cons_of_ne (Ne.symm hc)]
  | parked w =>
    simp only [leave, Option.some.injEq, Prod.mk.injEq] at hleave
    obtain ⟨rfl, rfl⟩ := hleave
    obtain ⟨hnone, rfl⟩ := hdone
    refine ⟨_, _, rfl, .park hnone, rfl, ⟨rfl, fun w' ↦ ?_, by simp⟩, fun c hc w' ↦ ?_⟩
    · cases w' <;> exact hheld _
    · cases w' <;> rfl
  | gave w woken =>
    simp only [leave, Option.some.injEq, Prod.mk.injEq] at hleave
    obtain ⟨rfl, rfl⟩ := hleave
    obtain ⟨rfl, rfl⟩ := hdone
    have hmem : k.curRunningCo ∈ holders l w :=
      List.count_pos_iff.mp (Nat.pos_of_ne_zero (hheld w ▸ hunlock w hplace.symm))
    cases w with
    | read =>
      refine ⟨_, _, rfl, .runlock hmem, rfl, ⟨rfl, fun w ↦ ?_, by simp⟩, fun c hc w ↦ ?_⟩
      · cases w <;> simp [holders, hheld]
      · cases w <;> simp [holders, List.count_erase_of_ne hc]
    | write =>
      refine ⟨_, _, rfl, .wunlock hmem, rfl, ⟨rfl, fun w ↦ ?_, by simp⟩, fun c hc w ↦ ?_⟩
      · cases w <;> simp [holders, hheld]
      · cases w <;> simp [holders, List.count_erase_of_ne hc]
  | _ => cases hleave

theorem free_owns {c : Choice} (h : free c k = some k') (hk : Owns k a l) : Owns k' a l := by
  obtain ⟨hself, hheld, -⟩ := hk
  simp only [free] at h
  split at h
  · simp only [Option.some.injEq] at h
    subst h
    exact ⟨hself, hheld, by simp⟩
  · next w =>
    obtain ⟨hne, heq⟩ := Option.ite_none_left_eq_some.mp h
    obtain rfl := Option.some.inj heq
    refine ⟨hself, hheld, fun w' hw ↦ ?_⟩
    simp only [Place.unlock.injEq] at hw
    subst hw
    exact hne
  · simp only [Option.some.injEq] at h
    subst h
    exact ⟨hself, hheld, by simp⟩
  · cases h

/-- What a coroutine owns depends on its own holdings only. -/
theorem Owns.of_count (h : Owns k a l)
    (hcount : ∀ w, (holders l' w).count a = (holders l w).count a) : Owns k a l' :=
  ⟨h.curRunningCo, fun w ↦ (h.held w).trans (hcount w).symm, h.unlock⟩

theorem owns_update {f : Addr → Control} {i : Addr} (hi : Owns k i l)
    (hothers : ∀ a, a ≠ i → Owns (f a) a l) (a : Addr) : Owns (Function.update f i k a) a l := by
  by_cases ha : a = i
  · subst ha
    rwa [Function.update_self]
  · rw [Function.update_of_ne ha]
    exact hothers a ha

theorem matches_simulation : Simulation (Critical.atomic client) Always spec Always Matches where
  init := by
    rintro t rfl
    refine ⟨⟨.created, [], []⟩, rfl, rfl, rfl, fun a ↦ ⟨rfl, fun w ↦ ?_, by simp [client]⟩⟩
    cases w <;> rfl
  step := by
    rintro t t' l act es ⟨hshared, hunlocked, howns⟩ - hstep
    have hst : Critical.AtomicStep client t act t' es := .of_step hstep
    cases hst with
    | @free i c k x es hfree =>
      obtain ⟨k', hk', hpair⟩ := Option.map_eq_some_iff.mp hfree
      simp only [Prod.mk.injEq] at hpair
      obtain ⟨rfl, rfl, rfl⟩ := hpair
      exact ⟨[], l, .nil, rfl, hshared, hunlocked,
        owns_update (free_owns hk' (howns i)) fun a _ ↦ howns a⟩
    | @whole i n loc₀ loc k x es henter hn hleave =>
      rw [hshared] at hn
      obtain ⟨hk, hplace, hdone⟩ := done_through henter hunlocked hn
      rw [← hk] at hplace hdone
      have hown : Owns loc.control i l := hk ▸ howns i
      rw [hown.curRunningCo] at hdone
      obtain ⟨ev, l', rfl, hsec, rfl, hown', hothers⟩ := section_of_leave hleave hdone hown hplace
      have hspec : spec.step l ev = some (l', [ev]) := by simp [spec, hsec.apply]
      exact ⟨_, l', .single trivial hspec, events_singleton .., rfl, hsec.unlocked hunlocked,
        owns_update hown' fun a ha ↦ (howns a).of_count (hothers a ha)⟩

end Sections

/-! ## The steps of `spec` are made of those of the runtime -/

/-- The lock changes as it may in a step of the runtime, at most `bound` read locks being held. -/
def StepsTo (m : MuId) (bound : ℕ) (l l' : LockState) : Prop :=
  (∃ es, LockEffect m l l' es) ∧ l.readers.length ≤ bound

section Effects

variable {m : MuId} {bound : ℕ} {l l' : LockState} {ev : Event}

theorem stepsTo_finish (h : l.readers.length ≤ bound) :
    Relation.ReflTransGen (StepsTo m bound) l { l with mu := l.mu.finish } := by
  by_cases hlocked : l.mu.locked = true
  swap
  · rw [RWMutex.finish, if_neg hlocked]
  rw [RWMutex.finish, if_pos hlocked]
  -- by induction on the waiters
  generalize hwaiting : l.mu.waitingCo = cos
  induction cos generalizing l with
  | nil =>
    refine .single ⟨⟨[], ?_⟩, h⟩
    convert LockEffect.freeLockEnd (m := m) hwaiting using 2
    rw [← hwaiting]
  | cons a rest ih =>
    exact .head ⟨⟨_, .handOver (q := 0) hwaiting⟩, h⟩
      (ih (l := { l with mu := { l.mu with waitingCo := rest } }) h hlocked rfl)

/-- **A function is a sequence of steps of the runtime**, as far as the lock can tell. -/
theorem Section.stepsTo (h : Section l ev l') (hl : l.mu.locked = false) :
    Relation.ReflTransGen (StepsTo m l.readers.length) l l' := by
  have hfree : ¬l.mu.locked = true := by simp [hl]
  cases h with
  | rlock hlock => exact .single ⟨⟨_, .rlock hfree hlock⟩, le_rfl⟩
  | wlock hlock => exact .single ⟨⟨_, .wlock hfree hlock⟩, le_rfl⟩
  | @park w a hlock =>
    refine .single ⟨⟨_, .park hfree ?_⟩, le_rfl⟩
    cases w with
    | read => simp [RWMutex.rlock_eq_none hlock]
    | write => exact RWMutex.wlock_eq_none hlock
  | runlock hheld =>
    exact .head ⟨⟨_, .runlock hfree hheld⟩, le_rfl⟩ (stepsTo_finish List.length_erase_le)
  | wunlock hheld => exact .head ⟨⟨_, .wunlock hfree hheld⟩, le_rfl⟩ (stepsTo_finish le_rfl)

theorem StepsTo.lockInv (h : Relation.ReflTransGen (StepsTo m bound) l l') (hl : LockInv l) :
    LockInv l' := by
  induction h with
  | refl => exact hl
  | tail _ hstep ih =>
    obtain ⟨⟨_, heff⟩, -⟩ := hstep
    exact heff.lockInv ih

theorem StepsTo.exclusive (h : Relation.ReflTransGen (StepsTo m bound) l l')
    (hbound : bound < 2 ^ 31) (hl : LockInv l) (hex : Exclusive l) : Exclusive l' := by
  induction h with
  | refl => exact hex
  | tail hsteps hstep ih =>
    obtain ⟨⟨_, heff⟩, hfew⟩ := hstep
    exact heff.exclusive (StepsTo.lockInv hsteps hl) ih (by omega)

end Effects

/-! ## What holds of the lock -/

def Event.parked : Event → List Addr
  | .park _ a => [a]
  | _ => []

def Event.handedOver : Event → List Addr
  | .give _ _ woken => woken
  | _ => []

def Event.readers (R : List Addr) : Event → List Addr
  | .take .read a => a :: R
  | .give .read a _ => R.erase a
  | _ => R

def readers (evs : List Event) : List Addr := evs.foldl Event.readers []

section Spec

variable {l l' : LockState} {ev : Event} {tr : List (Event × List Event)}

theorem RWMutex.woken_append (μ : RWMutex) : μ.woken ++ μ.finish.waitingCo = μ.waitingCo := by
  rw [RWMutex.woken, RWMutex.finish]
  split <;> simp

theorem Section.waitingCo (h : Section l ev l') :
    l.mu.waitingCo ++ ev.parked = ev.handedOver ++ l'.mu.waitingCo := by
  cases h with
  | rlock hlock => simp [Event.parked, Event.handedOver, RWMutex.waitingCo_of_rlock hlock]
  | wlock hlock => simp [Event.parked, Event.handedOver, RWMutex.waitingCo_of_wlock hlock]
  | park hlock => simp [Event.parked, Event.handedOver, RWMutex.park]
  | runlock hheld =>
    simp [Event.parked, Event.handedOver, RWMutex.woken_append, RWMutex.waitingCo_runlock]
  | wunlock hheld =>
    simp only [Event.parked, Event.handedOver, RWMutex.woken_append, List.append_nil]
    rfl

theorem Section.readers (h : Section l ev l') : l'.readers = ev.readers l.readers := by
  cases h with
  | @park w a hlock => cases w <;> rfl
  | _ => rfl

theorem section_of_step {es : List Event} (h : spec.step l ev = some (l', es)) :
    Section l ev l' ∧ es = [ev] := by
  obtain ⟨l₁, happly, hpair⟩ := Option.map_eq_some_iff.mp h
  simp only [Prod.mk.injEq] at hpair
  obtain ⟨rfl, rfl⟩ := hpair
  exact ⟨.of_apply happly, rfl⟩

theorem lockInv_of_run (h : Run spec Always ⟨.created, [], []⟩ tr l) :
    l.mu.locked = false ∧ LockInv l := by
  refine h.invariant (P := fun l ↦ l.mu.locked = false ∧ LockInv l) ⟨rfl, ?_⟩ ?_
  · exact ⟨rfl, by simp [RWMutex.created], fun _ _ ↦ rfl, by simp [RWMutex.created],
      by simp [RWMutex.created]⟩
  · rintro l l' ev es ⟨hunlocked, hinv⟩ - hstep
    obtain ⟨hsec, -⟩ := section_of_step hstep
    exact ⟨hsec.unlocked hunlocked, StepsTo.lockInv (hsec.stepsTo (m := 0) hunlocked) hinv⟩

theorem waitingCo_of_run (h : Run spec Always ⟨.created, [], []⟩ tr l) :
    (events tr).flatMap Event.parked = (events tr).flatMap Event.handedOver ++ l.mu.waitingCo := by
  have hqueue := h.queue_conservation (I := fun _ ↦ True) (fun l ↦ l.mu.waitingCo) Event.parked
    Event.handedOver trivial (fun _ _ _ ↦ trivial) ?_
  · simpa [RWMutex.created] using hqueue
  · intro l l' ev es _ _ hstep
    obtain ⟨hsec, rfl⟩ := section_of_step hstep
    simpa using hsec.waitingCo

theorem exclusive_of_run (h : Run spec Always ⟨.created, [], []⟩ tr l)
    (hfew : ∀ past, past <+: events tr → (readers past).length < 2 ^ 31) : Exclusive l := by
  have hall : l.readers = readers (events tr) ∧
      ((∀ past, past <+: events tr → (readers past).length < 2 ^ 31) → Exclusive l) := by
    refine h.history (P := fun tr l ↦ l.readers = readers (events tr) ∧
      ((∀ past, past <+: events tr → (readers past).length < 2 ^ 31) → Exclusive l)) ?_ ?_
    · exact ⟨rfl, fun _ ↦ ⟨fun _ ↦ ⟨rfl, rfl⟩, fun _ ↦ rfl, by simp [RWMutex.created]⟩⟩
    · rintro tr l l' ev es hrun ⟨hreaders, hex⟩ - hstep
      obtain ⟨hsec, rfl⟩ := section_of_step hstep
      obtain ⟨hunlocked, hinv⟩ := lockInv_of_run hrun
      rw [events_append, events_singleton]
      refine ⟨by rw [hsec.readers, hreaders, readers, readers, List.foldl_concat], fun hfew ↦ ?_⟩
      have hpast := hex fun past hpast ↦ hfew past (hpast.trans (List.prefix_append ..))
      refine StepsTo.exclusive (hsec.stepsTo (m := 0) hunlocked) ?_ hinv hpast
      rw [hreaders]
      exact hfew _ (List.prefix_append ..)
  exact hall.2 hfew

end Spec

/-! ## The lock under its spin lock -/

/-- How often a coroutine holds the lock. -/
def held : Spinlock.Phase Control Local → Mode → ℕ
  | .out k | .cas k _ | .failed k _ => k.held
  | .inside loc => loc.control.held

section Spin

variable {s₀ s : Spinlock.State Addr Control Local RWMutex}
  {tr : List (Spinlock.Act Addr Choice × List Event)}

theorem reducible : Critical.Reducible client fun _ ↦ True :=
  Critical.reducible_of_free fun {i c k k' x y es} h ↦ by
    obtain ⟨k₁, hfree, hpair⟩ := Option.map_eq_some_iff.mp h
    simp only [Prod.mk.injEq] at hpair
    obtain ⟨rfl, rfl, rfl⟩ := hpair
    exact ⟨rfl, fun z ↦ by simp [client, hfree]⟩

theorem held_of_toPhase {f : Spinlock.Phase Control Local} {k : Control}
    (h : f.toPhase = .out k) : held f = k.held := by
  cases f with
  | inside loc => cases h
  | _ =>
    cases h
    rfl

/-- How a state is related to one of `spec`: between sections the lock is the same, inside a
section it is as far as that has got, and the coroutines hold it as often. -/
structure Linearized (s : Spinlock.State Addr Control Local RWMutex) (l : LockState) : Prop where
  shared : (∀ a loc, s.phase a ≠ .inside loc) → s.shared = l.mu
  done : ∀ a loc, s.phase a = .inside loc → loc.access.Done a l.mu s.shared
  held : ∀ a w, held (s.phase a) w = (holders l w).count a

theorem linearized_of_run (hinit : (Spinlock.machine client).init s₀)
    (hrun : Run (Spinlock.machine client) Always s₀ tr s) :
    ∃ l tr', Run spec Always ⟨.created, [], []⟩ tr' l ∧ events tr' = events tr ∧
      Linearized s l := by
  obtain ⟨u₀, tr₁, u, hinit₁, hrun₁, hev₁, hamid⟩ := Spinlock.atomic_of_run reducible hinit hrun
  obtain ⟨l₀, rfl, hmatch₀⟩ := matches_simulation.init hinit₁
  obtain ⟨tr₂, l, hrun₂, hev₂, hmatch⟩ := matches_simulation.run hmatch₀ hrun₁
  refine ⟨l, tr₂, hrun₂, hev₂.trans hev₁, ?_⟩
  have hheld : ∀ {a}, (s.phase a).toPhase = .out (u.control a) →
      ∀ w, held (s.phase a) w = (holders l w).count a := fun hout w ↦
    (congrFun (held_of_toPhase hout) w).trans ((hmatch.owns _).held w)
  cases hamid with
  | calm hsame hout =>
    refine ⟨fun _ ↦ hsame.trans hmatch.shared, fun a loc hin ↦ ?_, fun a ↦ hheld (hout a)⟩
    have ha := hout a
    rw [hin] at ha
    cases ha
  | @entered o n loc₀ loc₁ ho hout henter hn =>
    rw [hmatch.shared] at hn
    obtain ⟨hk, -, hdone⟩ := done_through henter hmatch.unlocked hn
    rw [(hmatch.owns o).curRunningCo] at hdone
    refine ⟨fun hno ↦ absurd ho (hno o loc₁), fun a loc hin ↦ ?_, fun a w ↦ ?_⟩
    · obtain rfl : a = o := by
        by_contra hne
        have ha := hout a hne
        rw [hin] at ha
        cases ha
      rw [hin, Spinlock.Phase.inside.injEq] at ho
      subst ho
      exact hdone
    · by_cases hao : a = o
      · subst hao
        rw [ho, held, hk]
        exact (hmatch.owns a).held w
      · exact hheld (hout a hao) w

/-- **The functions of the lock are atomic.** Whatever the coroutines do and however their accesses
and attempts at `lock_` interleave, what they report is a run of `spec`. Between sections the lock
is where that run has left it, and inside one it is as far as the section has got; the coroutines
hold it as often as the run says; and waiters are handed over in the order in which they have
parked. -/
theorem accesses_linearizable (hinit : (Spinlock.machine client).init s₀)
    (hrun : Run (Spinlock.machine client) Always s₀ tr s) :
    ∃ l tr', Run spec Always ⟨.created, [], []⟩ tr' l ∧ events tr' = events tr ∧
      ((∀ a loc, s.phase a ≠ .inside loc) → s.shared = l.mu) ∧
      (∀ a loc, s.phase a = .inside loc → loc.access.Done a l.mu s.shared) ∧
      (∀ a w, held (s.phase a) w = (holders l w).count a) ∧
      (events tr).flatMap Event.parked =
        (events tr).flatMap Event.handedOver ++ l.mu.waitingCo := by
  obtain ⟨l, tr', hrun', hev, hlin⟩ := linearized_of_run hinit hrun
  have hfifo := waitingCo_of_run hrun'
  rw [hev] at hfifo
  exact ⟨l, tr', hrun', hev, hlin.shared, hlin.done, hlin.held, hfifo⟩

/-- Coroutine `1` reads while `3` and `2` want to write, and both park. -/
def toParked : List (Spinlock.Act Addr Choice) :=
  [.free 1 (.lock .read), .lock 1, .cas 1, .micro 1, .micro 1, .micro 1, .unlock 1,
    .free 2 (.lock .write), .lock 2, .free 3 (.lock .write), .lock 3, .cas 3, .cas 2, .micro 3,
    .retry 2, .micro 3, .unlock 3, .cas 2, .micro 2, .micro 2, .unlock 2]

/-- It hands them over. -/
def thenGive : List (Spinlock.Act Addr Choice) :=
  [.free 1 (.unlock .read), .lock 1, .cas 1, .micro 1, .micro 1, .micro 1, .micro 1, .micro 1,
    .free 3 .resume, .micro 1, .micro 1, .micro 1, .lock 3, .cas 3, .micro 1, .micro 1, .micro 1,
    .unlock 1]

/-- The first one of them gets the lock. -/
def thenTake : List (Spinlock.Act Addr Choice) := [.retry 3, .cas 3, .micro 3, .micro 3, .unlock 3]

def start : Spinlock.State Addr Control Local RWMutex :=
  ⟨Spinlock.created, .created, fun a ↦ .out (client.start a)⟩

theorem accesses_linearizable_three : ∃ s tr, Run (Spinlock.machine client) Always start tr s ∧
    events tr = [.take .read 1, .park .write 3, .park .write 2, .give .read 1 [3, 2],
      .take .write 3] ∧
    ∃ l tr', Run spec Always ⟨.created, [], []⟩ tr' l ∧ events tr' = events tr ∧
      [3, 2] = [3, 2] ++ l.mu.waitingCo := by
  let r := (Spinlock.machine client).after Always start (toParked ++ thenGive ++ thenTake)
  have hrun : Run (Spinlock.machine client) Always start r.2 r.1 := run_after _
  have hevents : events r.2 = [.take .read 1, .park .write 3, .park .write 2,
      .give .read 1 [3, 2], .take .write 3] := by decide
  obtain ⟨l, tr', hrun', hev, -, -, -, hfifo⟩ := accesses_linearizable rfl hrun
  rw [hevents] at hfifo
  exact ⟨_, _, hrun, hevents, l, tr', hrun', hev, hfifo⟩

/-- **The writer is alone**, at every access of every coroutine, in every run in which fewer than
`2 ^ 31` read locks are held at a time. -/
theorem accesses_exclude (hinit : (Spinlock.machine client).init s₀)
    (hrun : Run (Spinlock.machine client) Always s₀ tr s)
    (hfew : ∀ past, past <+: events tr → (readers past).length < 2 ^ 31) {a : Addr}
    (ha : held (s.phase a) .write ≠ 0) :
    held (s.phase a) .write = 1 ∧ held (s.phase a) .read = 0 ∧
      ∀ b, b ≠ a → ∀ w, held (s.phase b) w = 0 := by
  obtain ⟨l, tr', hrun', hev, hlin⟩ := linearized_of_run hinit hrun
  have hex := exclusive_of_run hrun' (hev ▸ hfew)
  have hmem : a ∈ l.writers := by
    rw [hlin.held] at ha
    exact List.count_pos_iff.mp (Nat.pos_of_ne_zero ha)
  obtain ⟨hreaders, hwriters⟩ := hex.only_writer hmem
  refine ⟨by simp [hlin.held, holders, hwriters], by simp [hlin.held, holders, hreaders],
    fun b hb w ↦ ?_⟩
  cases w with
  | read => simp [hlin.held, holders, hreaders]
  | write => simp [hlin.held, holders, hwriters, Ne.symm hb]

theorem accesses_exclude_three : ∃ s tr, Run (Spinlock.machine client) Always start tr s ∧
    held (s.phase 3) .write = 1 ∧ held (s.phase 3) .read = 0 ∧
      ∀ b, b ≠ 3 → ∀ w, held (s.phase b) w = 0 := by
  let r := (Spinlock.machine client).after Always start (toParked ++ thenGive ++ thenTake)
  have hrun : Run (Spinlock.machine client) Always start r.2 r.1 := run_after _
  have hevents : events r.2 = [.take .read 1, .park .write 3, .park .write 2,
      .give .read 1 [3, 2], .take .write 3] := by decide
  have hwrite : held (r.1.phase 3) .write ≠ 0 := by decide
  refine ⟨_, _, hrun, accesses_exclude rfl hrun (fun past hpast ↦ ?_) hwrite⟩
  rw [hevents, ← List.mem_inits] at hpast
  have hfew : ∀ past ∈ List.inits [Event.take .read 1, .park .write 3, .park .write 2,
      .give .read 1 [3, 2], .take .write 3], (readers past).length < 2 ^ 31 := by decide
  exact hfew past hpast

/-- **Nobody is left waiting.** In every state of every run in which nobody holds the lock and
nobody is inside a section, `waitingCo_` is empty: whoever has parked has been handed over. -/
theorem nobody_left_waiting (hinit : (Spinlock.machine client).init s₀)
    (hrun : Run (Spinlock.machine client) Always s₀ tr s)
    (hout : ∀ a loc, s.phase a ≠ .inside loc) (hfree : ∀ a w, held (s.phase a) w = 0) :
    s.shared.waitingCo = [] ∧
      (events tr).flatMap Event.parked = (events tr).flatMap Event.handedOver := by
  obtain ⟨l, tr', hrun', hev, hlin⟩ := linearized_of_run hinit hrun
  obtain ⟨hunlocked, hinv⟩ := lockInv_of_run hrun'
  have hnone : ∀ w, holders l w = [] := by
    intro w
    refine List.eq_nil_iff_forall_not_mem.mpr fun a ha ↦ ?_
    have hpos := List.count_pos_iff.mpr ha
    rw [← hlin.held, hfree] at hpos
    exact absurd hpos (by simp)
  have hnil : l.mu.waitingCo = [] := by
    cases hstate : l.mu.state with
    | free => exact hinv.waiting hstate (by simp [hunlocked])
    | reading => exact absurd (hnone .read) (hinv.reading hstate)
    | writing => exact absurd (hnone .write) (hinv.writing hstate)
  have hfifo := waitingCo_of_run hrun'
  rw [hev, hnil, List.append_nil] at hfifo
  exact ⟨by rw [hlin.shared hout, hnil], hfifo⟩

/-- Two coroutines have parked and have been handed over. -/
theorem nobody_left_waiting_two : ∃ s tr, Run (Spinlock.machine client) Always start tr s ∧
    events tr = [.take .read 1, .park .write 3, .park .write 2, .give .read 1 [3, 2]] ∧
      s.shared.waitingCo = [] := by
  let r := (Spinlock.machine client).after Always start (toParked ++ thenGive)
  have hrun : Run (Spinlock.machine client) Always start r.2 r.1 := run_after _
  have hevents : events r.2 = [.take .read 1, .park .write 3, .park .write 2,
      .give .read 1 [3, 2]] := by decide
  have hout : ∀ a, (∃ k, (r.1.phase a).toPhase = .out k) ∧ ∀ w, held (r.1.phase a) w = 0 := by
    intro a
    by_cases ha : a ∈ [1, 2, 3]
    · simp only [List.mem_cons, List.not_mem_nil, or_false] at ha
      rcases ha with rfl | rfl | rfl <;> exact ⟨⟨_, rfl⟩, fun w ↦ by cases w <;> rfl⟩
    · -- it has not taken a step
      have hthread : ∀ st ∈ r.2, st.1.thread ∈ [1, 2, 3] := by decide
      have hsame : r.1.phase a = start.phase a :=
        Spinlock.phase_of_run hrun fun st hst hst' ↦ ha (hst' ▸ hthread st hst)
      rw [hsame]
      exact ⟨⟨_, rfl⟩, fun w ↦ rfl⟩
  refine ⟨_, _, hrun, hevents, (nobody_left_waiting rfl hrun (fun a loc hin ↦ ?_)
    fun a ↦ (hout a).2).1⟩
  obtain ⟨k, hk⟩ := (hout a).1
  rw [hin] at hk
  cases hk

end Spin

end MutexAccess

end Copnet
