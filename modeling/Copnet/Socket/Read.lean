import Copnet.Foundation.Retry
import Copnet.Socket.Syscall

/-!
# Reading

`Socket::read` calls the kernel's `read` at two places around one wait. Before the wait an interrupt
repeats the call and every other failure waits; after it whatever the kernel answers is returned.

What is expected of a reader is stated by `Retries`: it waits only after would-block, repeats the
call after an interrupt and after a wake-up, and returns the first answer that is neither an
interrupt nor would-block. `retries_iff` says for which answers `Socket::read` does so.
-/

open Retry

namespace Copnet

/-- `Socket::read`, given the kernel's answers: the log of its calls, and its return value once it
has returned. -/
def Socket.read : List SysResult → List (Event SysResult WaitEvent) × Option SysResult
  | [] => ([], none)
  | .ok n :: _ => ([.call (.ok n)], some (.ok n))
  | .fail errno :: rs =>
    if errno = EINTR then
      let rest := Socket.read rs
      (.call (.fail errno) :: rest.1, rest.2)
    else
      let wait : Event SysResult WaitEvent :=
        .act ⟨EPOLLIN ||| EPOLLPRI ||| EPOLLRDHUP ||| EPOLLHUP⟩
      match rs with
      | [] => ([.call (.fail errno), wait], none)
      | r :: _ => ([.call (.fail errno), wait, .call r], some r)

/-! ## What is expected of a reader -/

/-- An answer that a reader passes on: neither an interrupt nor would-block. -/
def SysResult.isFinal : SysResult → Bool
  | .ok _ => true
  | .fail errno => errno ≠ EINTR && errno ≠ EAGAIN

/-- What may follow what in the log of a reader: the call after an interrupt and after a wake-up,
the wait after would-block. -/
def ReadFollows : Event SysResult WaitEvent → Event SysResult WaitEvent → Prop
  | .call r, .call _ => r = .fail EINTR
  | .call r, .act _ => r = .fail EAGAIN
  | .act _, .call _ => True
  | .act _, .act _ => False

/-- The expectation on a reader that is given the answers `rs`. -/
structure Retries (rs : List SysResult) (log : List (Event SysResult WaitEvent))
    (ret : Option SysResult) : Prop where
  /-- It does not wait before it has called. -/
  called : ∀ w, log.head? ≠ some (.act w)
  /-- It waits only after would-block, and otherwise calls again only after an interrupt. -/
  follows : log.IsChain ReadFollows
  /-- It returns the first answer that is neither of the two. -/
  returned : ret = (calls log).find? SysResult.isFinal
  /-- Until then it goes on: no answer is left when it has not returned. -/
  continued : ret = none → calls log = rs

/-- What `Socket::read` needs of the kernel's answers: the first one that is not an interrupt is a
success or would-block, and after the wake-up comes neither an interrupt nor would-block again. -/
def WakesToFinal : List SysResult → Prop
  | [] => True
  | .ok _ :: _ => True
  | .fail errno :: rs =>
    if errno = EINTR then WakesToFinal rs
    else errno = EAGAIN ∧ ∀ r, rs.head? = some r → r.isFinal

/-! ## One answer -/

section Answer

variable {rs : List SysResult} {log : List (Event SysResult WaitEvent)} {ret : Option SysResult}
  {r : SysResult} {w : WaitEvent} {errno : Errno}

theorem isFinal_interrupt : SysResult.isFinal (.fail EINTR) = false := by decide

theorem isFinal_wouldBlock : SysResult.isFinal (.fail EAGAIN) = false := by decide

theorem retries_nil : Retries [] [] none where
  called _ := by simp
  follows := .nil
  returned := rfl
  continued _ := rfl

theorem retries_final (h : r.isFinal) : Retries (r :: rs) [.call r] (some r) where
  called _ := by simp
  follows := .singleton _
  returned := (List.find?_cons_of_pos h).symm
  continued hnone := by simp at hnone

theorem retries_interrupt_iff :
    Retries (.fail EINTR :: rs) (.call (.fail EINTR) :: log) ret ↔ Retries rs log ret := by
  have hfind : (calls (.call (.fail EINTR) :: log)).find? SysResult.isFinal =
      (calls log).find? SysResult.isFinal := by
    rw [calls_call, List.find?_cons_of_neg (by rw [isFinal_interrupt]; decide)]
  constructor
  · rintro ⟨-, hfollows, hret, hcont⟩
    rw [List.isChain_cons] at hfollows
    refine ⟨?_, hfollows.2, hret.trans hfind, ?_⟩
    · intro w hw
      exact absurd (hfollows.1 _ hw) (by simp [ReadFollows, EINTR, EAGAIN])
    · intro hnone
      exact List.tail_eq_of_cons_eq (hcont hnone)
  · rintro ⟨hcalled, hfollows, hret, hcont⟩
    refine ⟨by simp, ?_, hret.trans hfind.symm, ?_⟩
    · rw [List.isChain_cons]
      refine ⟨?_, hfollows⟩
      intro ev hev
      cases ev with
      | call r => rfl
      | act w => exact absurd hev (hcalled w)
    · intro hnone
      rw [calls_call, hcont hnone]

theorem retries_wouldBlock (h : Retries rs log ret) :
    Retries (.fail EAGAIN :: rs) (.call (.fail EAGAIN) :: .act w :: log) ret := by
  obtain ⟨hcalled, hfollows, hret, hcont⟩ := h
  refine ⟨by simp, ?_, ?_, ?_⟩
  · rw [List.isChain_cons_cons, List.isChain_cons]
    refine ⟨rfl, ?_, hfollows⟩
    intro ev hev
    cases ev with
    | call r => trivial
    | act w => exact absurd hev (hcalled w)
  · rw [calls_call, calls_act, List.find?_cons_of_neg (by rw [isFinal_wouldBlock]; decide), hret]
  · intro hnone
    rw [calls_call, calls_act, hcont hnone]

theorem eq_of_retries_wait (h : Retries rs (.call r :: .act w :: log) ret) : r = .fail EAGAIN :=
  (List.isChain_cons_cons.mp h.follows).1

/-- The one call after the wake-up has to give a final answer. -/
theorem retries_wait_iff (hintr : errno ≠ EINTR) :
    Retries (.fail errno :: r :: rs) [.call (.fail errno), .act w, .call r] (some r) ↔
      errno = EAGAIN ∧ r.isFinal := by
  constructor
  · intro h
    have heq := eq_of_retries_wait h
    rw [SysResult.fail.injEq] at heq
    subst heq
    have hret := h.returned
    simp only [calls_call, calls_act, calls_nil] at hret
    rw [List.find?_cons_of_neg (by rw [isFinal_wouldBlock]; decide)] at hret
    exact ⟨rfl, List.find?_some hret.symm⟩
  · rintro ⟨rfl, hfinal⟩
    exact retries_wouldBlock (retries_final hfinal)

theorem retries_waiting_iff (hintr : errno ≠ EINTR) :
    Retries [.fail errno] [.call (.fail errno), .act w] none ↔ errno = EAGAIN := by
  constructor
  · intro h
    exact SysResult.fail.inj (eq_of_retries_wait h)
  · rintro rfl
    exact retries_wouldBlock retries_nil

end Answer

/-! ## `Socket::read` -/

/-- **When `Socket::read` keeps to the discipline.** It waits only after would-block, calls again
after every interrupt and wake-up, and returns the first answer that is neither, if and only if the
first answer that is not an interrupt is a success or would-block and the answer after the wake-up
is neither an interrupt nor would-block. By induction along the answers, as the source recurses. -/
theorem retries_iff (rs : List SysResult) :
    Retries rs (Socket.read rs).1 (Socket.read rs).2 ↔ WakesToFinal rs := by
  induction rs with
  | nil => exact iff_of_true retries_nil trivial
  | cons r rs ih =>
    cases r with
    | ok n => exact iff_of_true (retries_final rfl) trivial
    | fail errno =>
      by_cases hintr : errno = EINTR
      · subst hintr
        rw [Socket.read, WakesToFinal, if_pos rfl, if_pos rfl]
        exact retries_interrupt_iff.trans ih
      · rw [Socket.read.eq_def, WakesToFinal, if_neg hintr]
        simp only [if_neg hintr]
        cases rs with
        | nil =>
          refine (retries_waiting_iff hintr).trans (and_iff_left ?_).symm
          intro r hr
          exact absurd hr (by simp)
        | cons r rs =>
          refine (retries_wait_iff hintr).trans (and_congr_right fun _ ↦ ?_)
          simp

/-- The reset of a connection: `Socket::read` waits for an event before it tells its caller. -/
theorem not_retries_reset :
    ¬ ∀ rs : List SysResult, Retries rs (Socket.read rs).1 (Socket.read rs).2 := by
  intro h
  have hreset := (h [.fail ECONNRESET, .fail ECONNRESET]).follows
  rw [Socket.read, if_neg (by decide)] at hreset
  exact absurd (List.isChain_cons_cons.mp hreset).1 (by simp [ReadFollows, ECONNRESET, EAGAIN])

end Copnet
