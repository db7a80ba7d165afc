import Copnet.Timer.Interval
import Mathlib.Data.List.Sort
import Mathlib.Data.Prod.Lex

/-!
# The timer of a processor

`Timer` keeps the coroutines that sleep in a heap ordered by deadline, and one timer descriptor
that wakes the processor's `epoll_wait`. The descriptor serves two masters: it is armed for the
earliest deadline, and `wakeUp` programs it for at once to announce new work.

The functions of the source run in pieces between which other threads may call `wakeUp`, so each is
split at those points: `runAt` into a push and a re-arming, `getExpiredCoroutines` into the pops,
the read and the re-arming. The pieces are the steps of every machine that has a timer in it.

The priority queue is taken to be a correct heap, so it is modelled by its sorted list of entries;
`std::greater` on pairs compares the deadline first and the address second.
-/

namespace Copnet

/-- The address of a `Coroutine` object (`Coroutine*`). -/
abbrev Addr := ℕ

/-! ## The kernel's timer descriptor -/

/-- A programmed expiry: when it was programmed and for how long ahead. -/
structure Arming where
  /-- The instant of the call. -/
  setAt : ℤ
  /-- The interval programmed. -/
  interval : Timespec
deriving DecidableEq

def Arming.fireAt (a : Arming) : ℤ := a.setAt + a.interval.micros

/-- A one-shot timer descriptor: whether it is armed, and whether an expiry waits to be read. -/
structure TimerFd where
  /-- The expiry it is armed for, if any. -/
  armed : Option Arming
  /-- Whether a read would find an expiry. -/
  readable : Bool
deriving DecidableEq

namespace TimerFd

/-- As `timerfd_create` leaves it. -/
def created : TimerFd := ⟨none, false⟩

/-- `timerfd_settime` with a relative one-shot interval. An invalid interval is refused; a valid
one replaces the armed expiry and discards a pending one, and the zero interval disarms. -/
def settime (fd : TimerFd) (clock : ℤ) (ts : Timespec) : TimerFd :=
  if ts.Valid then ⟨if ts = .zero then none else some ⟨clock, ts⟩, false⟩ else fd

/-- `read`: a pending expiry is consumed, otherwise the call fails with `EAGAIN`. -/
def read (fd : TimerFd) : TimerFd := { fd with readable := false }

def expire (fd : TimerFd) (clock : ℤ) : Option TimerFd :=
  match fd.armed with
  | some a => if a.fireAt ≤ clock then some ⟨none, true⟩ else none
  | none => none

theorem settime_timeIntervalFromNow (fd : TimerFd) (clock timeVal : ℤ) :
    fd.settime clock (Time.timeIntervalFromNow timeVal clock) =
      ⟨some ⟨clock, Time.timeIntervalFromNow timeVal clock⟩, false⟩ := by
  rw [settime, if_pos (Time.timeIntervalFromNow_valid _ _),
    if_neg (Time.timeIntervalFromNow_ne_zero _ _)]

theorem expire_eq_some {fd fd' : TimerFd} {clock : ℤ} (h : fd.expire clock = some fd') :
    fd' = ⟨none, true⟩ ∧ ∃ a, fd.armed = some a ∧ a.fireAt ≤ clock := by
  simp only [expire] at h
  split at h
  · next a ha =>
    split at h
    · next hle => exact ⟨(Option.some.inj h).symm, a, ha, hle⟩
    · simp at h
  · simp at h

end TimerFd

/-! ## The heap of sleepers -/

/-- The order of the heap: by deadline, and by address among equal deadlines. -/
def entryLE (a b : ℤ × Addr) : Prop := toLex a ≤ toLex b

instance : DecidableRel entryLE := fun a b ↦ inferInstanceAs (Decidable (toLex a ≤ toLex b))

instance : Std.Total entryLE := ⟨fun a b ↦ le_total (toLex a) (toLex b)⟩

instance : IsTrans (ℤ × Addr) entryLE := ⟨fun _ _ _ hab hbc ↦ le_trans hab hbc⟩

theorem fst_le_of_entryLE {a b : ℤ × Addr} (h : entryLE a b) : a.1 ≤ b.1 := by
  rcases Prod.Lex.le_iff.mp h with hlt | ⟨heq, -⟩
  · exact hlt.le
  · exact heq.le

/-- `Timer::TimerHeap`: the entries from the top of the heap on. -/
structure TimerHeap where
  /-- The entries, least first. -/
  entries : List (ℤ × Addr)
  /-- The top is a least entry, also after any number of pops. -/
  sorted : entries.Pairwise entryLE

namespace TimerHeap

def empty : TimerHeap := ⟨[], .nil⟩

/-- `top()`, if the heap is not `empty()`. -/
def top? (h : TimerHeap) : Option (ℤ × Addr) := h.entries.head?

def push (h : TimerHeap) (e : ℤ × Addr) : TimerHeap :=
  ⟨h.entries.orderedInsert entryLE e, h.sorted.orderedInsert e _⟩

/-- The entries that the pop loop of `getExpiredCoroutines` takes out, in order. -/
def expired (h : TimerHeap) (now : ℤ) : List (ℤ × Addr) := h.entries.takeWhile (·.1 ≤ now)

/-- The heap that the pop loop leaves. -/
def popExpired (h : TimerHeap) (now : ℤ) : TimerHeap :=
  ⟨h.entries.dropWhile (·.1 ≤ now), h.sorted.sublist (List.dropWhile_sublist _)⟩

def sleepers (h : TimerHeap) : List Addr := h.entries.map Prod.snd

variable {h : TimerHeap} {e : ℤ × Addr}

@[simp] theorem entries_empty : empty.entries = [] := rfl

@[simp] theorem top?_eq_none : h.top? = none ↔ h.entries = [] := List.head?_eq_none_iff

theorem le_of_top? {t : ℤ × Addr} (ht : h.top? = some t) (he : e ∈ h.entries) : t.1 ≤ e.1 := by
  obtain ⟨l, hl⟩ : ∃ l, h.entries = t :: l := List.head?_eq_some_iff.mp ht
  have hs := h.sorted
  rw [hl] at hs he
  rcases List.mem_cons.mp he with rfl | hmem
  · exact le_rfl
  · exact fst_le_of_entryLE (List.rel_of_pairwise_cons hs hmem)

theorem mem_push {e' : ℤ × Addr} : e' ∈ (h.push e).entries ↔ e' = e ∨ e' ∈ h.entries :=
  List.mem_orderedInsert entryLE

theorem perm_push : (h.push e).sleepers.Perm (e.2 :: h.sleepers) :=
  (List.perm_orderedInsert entryLE e h.entries).map Prod.snd

theorem expired_append (now : ℤ) :
    (h.expired now).map Prod.snd ++ (h.popExpired now).sleepers = h.sleepers := by
  rw [sleepers, sleepers, ← List.map_append, expired, popExpired, List.takeWhile_append_dropWhile]

end TimerHeap

/-! ## The timer -/

structure Timer where
  /-- `timerCoHeap_`. -/
  heap : TimerHeap
  /-- `timeFd_`. -/
  fd : TimerFd

namespace Timer

/-- A timer after `init`. -/
def created : Timer := ⟨.empty, .created⟩

variable (t : Timer) (clock : ℤ)

def resetTimeOfTimefd (time : ℤ) : Timer :=
  { t with fd := t.fd.settime clock (Time.timeIntervalFromNow time clock) }

def wakeUp : Timer := t.resetTimeOfTimefd clock (Time.now clock)

/-- The first half of `Timer::runAt`: the push. -/
def push (time : ℤ) (pCo : Addr) : Timer := { t with heap := t.heap.push (time, pCo) }

/-- The second half of `Timer::runAt`: re-arm when the top carries the new deadline. -/
def rearmFor (time : ℤ) : Timer :=
  if t.heap.top?.map Prod.fst = some time then t.resetTimeOfTimefd clock time else t

/-- The deadline that `Timer::runAfter` computes for `runAt`. -/
def runTime (time : ℤ) : ℤ := int64 (Time.now clock + time)

/-- What `Timer::getExpiredCoroutines` appends to its output. -/
def expiredCo : List Addr := (t.heap.expired (Time.now clock)).map Prod.snd

/-- The first part of `Timer::getExpiredCoroutines`: pop what has expired. -/
def popExpired : Timer := { t with heap := t.heap.popExpired (Time.now clock) }

/-- The second part of `Timer::getExpiredCoroutines`: one read returns all that is pending, which
is less than the buffer, so the loop around it ends. -/
def readTimefd : Timer := { t with fd := t.fd.read }

/-- The last part of `Timer::getExpiredCoroutines`: re-arm for the top of a heap that is not
empty. -/
def rearm : Timer :=
  match t.heap.top? with
  | some e => t.resetTimeOfTimefd clock e.1
  | none => t

def expire : Option Timer := (t.fd.expire clock).map fun fd ↦ { t with fd }

@[simp] theorem heap_resetTimeOfTimefd (time : ℤ) :
    (t.resetTimeOfTimefd clock time).heap = t.heap := rfl

@[simp] theorem fd_resetTimeOfTimefd (time : ℤ) :
    (t.resetTimeOfTimefd clock time).fd =
      ⟨some ⟨clock, Time.timeIntervalFromNow time clock⟩, false⟩ :=
  TimerFd.settime_timeIntervalFromNow _ _ _

@[simp] theorem heap_wakeUp : (t.wakeUp clock).heap = t.heap := rfl

@[simp] theorem fd_wakeUp : (t.wakeUp clock).fd = ⟨some ⟨clock, .immediate⟩, false⟩ := by
  rw [wakeUp, fd_resetTimeOfTimefd, Time.timeIntervalFromNow_now]

@[simp] theorem heap_push (time : ℤ) (pCo : Addr) :
    (t.push time pCo).heap = t.heap.push (time, pCo) := rfl

@[simp] theorem fd_push (time : ℤ) (pCo : Addr) : (t.push time pCo).fd = t.fd := rfl

@[simp] theorem heap_rearmFor (time : ℤ) : (t.rearmFor clock time).heap = t.heap := by
  unfold rearmFor
  split <;> rfl

@[simp] theorem heap_popExpired :
    (t.popExpired clock).heap = t.heap.popExpired (Time.now clock) := rfl

@[simp] theorem fd_popExpired : (t.popExpired clock).fd = t.fd := rfl

@[simp] theorem heap_readTimefd : t.readTimefd.heap = t.heap := rfl

@[simp] theorem fd_readTimefd : t.readTimefd.fd = t.fd.read := rfl

@[simp] theorem heap_rearm : (t.rearm clock).heap = t.heap := by
  unfold rearm
  split <;> rfl

theorem expire_eq_some {t t' : Timer} (h : t.expire clock = some t') :
    t'.heap = t.heap ∧ t'.fd = ⟨none, true⟩ ∧
      ∃ a, t.fd.armed = some a ∧ a.fireAt ≤ clock := by
  obtain ⟨fd, hfd, rfl⟩ := Option.map_eq_some_iff.mp h
  obtain ⟨hfd', harmed⟩ := TimerFd.expire_eq_some hfd
  exact ⟨rfl, hfd', harmed⟩

end Timer

end Copnet
