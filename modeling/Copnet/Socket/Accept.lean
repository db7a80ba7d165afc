import Copnet.Foundation.Retry
import Copnet.Socket.Handle
import Copnet.Socket.Syscall

/-!
# Connecting and accepting

`Socket::connect` and `Socket::accept` repeat their system call until it succeeds. Neither looks at
the reason of a failure, an interrupted `connect` apart, so both go on after answers that no retry
can change. `connect` is the plain loop of the library. `accept` makes two attempts on each level of
its recursion, and only the first of them waits when it fails, so it is compared with the loop
through its calls and its result.

The log of `accept` also shows what it does with socket objects: each attempt makes one, a failed
attempt one with a negative descriptor, and the two of a level live until that level returns.
Temporaries that the compiler constructs in place are not counted.
-/

open Retry

namespace Copnet

/-! ## `Socket::connect` -/

/-- `Socket::connect(ip, port)` of the object `o`, given the kernel's answers: the log of its calls,
and the object once the call has returned. -/
def Socket.connect (o : Socket) (ip : String) (port : ℤ) :
    List SysResult → List (Event SysResult WaitEvent) × Option Socket
  | [] => ([], none)
  | r :: rs =>
    let o := { o with ip, port }
    if r = .ok 0 then ([.call r], some o)
    else
      let rest := Socket.connect o ip port rs
      if r = .fail EINTR then (.call r :: rest.1, rest.2)
      else (.call r :: .act ⟨EPOLLOUT⟩ :: rest.1, rest.2)

/-- The failures of `::connect` that a retry can change. -/
def ConnectRetryable (r : SysResult) : Prop :=
  r = .fail EINTR ∨ r = .fail EINPROGRESS ∨ r = .fail EALREADY ∨ r = .fail EAGAIN

instance : DecidablePred ConnectRetryable := fun r ↦ inferInstanceAs (Decidable
  (r = .fail EINTR ∨ r = .fail EINPROGRESS ∨ r = .fail EALREADY ∨ r = .fail EAGAIN))

/-- What is expected of `Socket::connect`: another `::connect` only after a failure that a retry can
change, and an end after any other answer. -/
def ConnectStops (o : Socket) (ip : String) (port : ℤ) (rs : List SysResult) : Prop :=
  Stops ConnectRetryable (calls (Socket.connect o ip port rs).1) (Socket.connect o ip port rs).2

/-- What `Socket::connect` does with an answer. -/
def connectVerdict (r : SysResult) : Verdict WaitEvent :=
  if r = .ok 0 then .done else if r = .fail EINTR then .again [] else .again [⟨EPOLLOUT⟩]

section Connect

variable {o : Socket} {ip : String} {port : ℤ}

theorem isDone_connectVerdict (r : SysResult) : (connectVerdict r).isDone = decide (r = .ok 0) := by
  unfold connectVerdict
  split
  · next h => rw [decide_eq_true h, Verdict.isDone]
  · next h =>
    rw [decide_eq_false h]
    split <;> rfl

theorem connect_eq_loop (rs : List SysResult) :
    Socket.connect o ip port rs =
      ((loop connectVerdict rs).1, (loop connectVerdict rs).2.map fun _ ↦ { o with ip, port }) := by
  induction rs generalizing o with
  | nil => rfl
  | cons r rs ih =>
    rw [Socket.connect]
    by_cases hok : r = .ok 0
    · have hverdict : connectVerdict r = .done := if_pos hok
      rw [if_pos hok, loop_done hverdict]
      rfl
    · by_cases hintr : r = .fail EINTR
      · have hverdict : connectVerdict r = .again [] := by
          rw [connectVerdict, if_neg hok, if_pos hintr]
        rw [if_neg hok, if_pos hintr, loop_again hverdict, ih]
        rfl
      · have hverdict : connectVerdict r = .again [⟨EPOLLOUT⟩] := by
          rw [connectVerdict, if_neg hok, if_neg hintr]
        rw [if_neg hok, if_neg hintr, loop_again hverdict, ih]
        rfl

/-- `Socket::connect` stops where it should if and only if all answers before the first success are
worth a retry. -/
theorem connectStops_iff (rs : List SysResult) :
    ConnectStops o ip port rs ↔ ∀ r ∈ rs.takeWhile (fun r ↦ !decide (r = .ok 0)),
      ConnectRetryable r := by
  have hcalls : calls (Socket.connect o ip port rs).1 =
      attempts (fun r ↦ decide (r = .ok 0)) rs := by
    rw [connect_eq_loop, calls_loop]
    simp only [isDone_connectVerdict]
  rw [ConnectStops, hcalls]
  apply stops_iff
  rw [connect_eq_loop, Option.isSome_map, result_loop]
  simp only [isDone_connectVerdict]

end Connect

/-! ## `Socket::accept` -/

/-- What an attempt to accept meets. -/
structure Arrival where
  /-- The answer of `::accept`. -/
  result : SysResult
  /-- The peer's address. -/
  ip : String
  /-- The peer's port. -/
  port : ℤ
  /-- Where `new int(1)` puts the counter. -/
  p : RefPtr
deriving DecidableEq

/-- What `Socket::accept` does besides its calls. -/
inductive AcceptAct
  /-- It waits for an event. -/
  | wait (w : WaitEvent)
  /-- It makes, moves or destroys an object. -/
  | obj (a : HandleAct)
deriving DecidableEq

/-- The object that `Socket::accept_raw` returns. -/
def Arrival.sock (a : Arrival) : Socket :=
  match a.result with
  | .ok connfd => ⟨connfd, a.p, a.port, a.ip⟩
  | .fail _ => ⟨-1, a.p, -1, ""⟩

/-- `Socket::accept_raw`. -/
def Socket.acceptRaw (a : Arrival) : List (Event SysResult AcceptAct) :=
  match a.result with
  | .ok connfd =>
    [.call a.result, .act (.obj (.handOut connfd)),
      .act (.obj (.construct connfd a.ip a.port a.p))]
  | .fail _ => [.call a.result, .act (.obj (.construct (-1) "" (-1) a.p))]

/-- `Socket::accept`, given what its attempts meet, where `id` is the identity of the next object:
the log, and the object returned once the call has returned. -/
def Socket.accept (id : ObjId) :
    List Arrival → List (Event SysResult AcceptAct) × Option Socket
  | [] => ([], none)
  | ret :: as =>
    if ret.sock.isUseful then
      (Socket.acceptRaw ret ++ [.act (.obj (.move id)), .act (.obj (.destroy id))], some ret.sock)
    else
      let wait : Event SysResult AcceptAct :=
        .act (.wait ⟨EPOLLIN ||| EPOLLPRI ||| EPOLLRDHUP ||| EPOLLHUP⟩)
      match as with
      | [] => (Socket.acceptRaw ret ++ [wait], none)
      | con :: as =>
        if con.sock.isUseful then
          (Socket.acceptRaw ret ++ wait :: Socket.acceptRaw con ++
            [.act (.obj (.move (id + 1))), .act (.obj (.destroy (id + 1))),
              .act (.obj (.destroy id))], some con.sock)
        else
          let rest := Socket.accept (id + 2) as
          -- the two objects of this level go when the level below has returned
          let gone : List (Event SysResult AcceptAct) :=
            if rest.2.isSome then [.act (.obj (.destroy (id + 1))), .act (.obj (.destroy id))]
            else []
          (Socket.acceptRaw ret ++ wait :: Socket.acceptRaw con ++ rest.1 ++ gone, rest.2)

/-- The failures of `::accept` that a retry can change. -/
def AcceptRetryable (r : SysResult) : Prop :=
  r = .fail EAGAIN ∨ r = .fail EINTR ∨ r = .fail ECONNABORTED

instance : DecidablePred AcceptRetryable := fun r ↦ inferInstanceAs (Decidable
  (r = .fail EAGAIN ∨ r = .fail EINTR ∨ r = .fail ECONNABORTED))

/-- What is expected of `Socket::accept`: another `::accept` only after a failure that a retry can
change, an end after any other answer, and an unusable object after any other failure. -/
structure AcceptStops (id : ObjId) (as : List Arrival) : Prop where
  /-- It goes on only where a retry can help. -/
  stops : Stops AcceptRetryable (calls (Socket.accept id as).1) (Socket.accept id as).2
  /-- It tells its caller of other failures. -/
  told : ∀ errno, .fail errno ∈ calls (Socket.accept id as).1 → ¬ AcceptRetryable (.fail errno) →
    ∃ o, (Socket.accept id as).2 = some o ∧ ¬ o.isUseful

section Accept

variable {id : ObjId} {a : Arrival} {as : List Arrival}

theorem calls_acceptRaw (a : Arrival) : calls (Socket.acceptRaw a) = [a.result] := by
  unfold Socket.acceptRaw
  split <;> rfl

theorem isUseful_sock (a : Arrival) : a.sock.isUseful ↔ a.result.isOk = true := by
  unfold Arrival.sock
  split
  · next n h => simp [Socket.isUseful, h, SysResult.isOk]
  · next e h => simp [Socket.isUseful, h, SysResult.isOk]

theorem isOk_of_not_isUseful (h : ¬ a.sock.isUseful) : a.result.isOk = false := by
  rw [← Bool.not_eq_true, ← isUseful_sock]
  exact h

/-- `Socket::accept` calls up to the first success. By induction along the attempts, two at a time
as the source recurses. -/
theorem calls_accept (id : ObjId) (as : List Arrival) :
    calls (Socket.accept id as).1 = attempts SysResult.isOk (as.map Arrival.result) ∧
      ((Socket.accept id as).2.isSome ↔
        ((as.map Arrival.result).find? SysResult.isOk).isSome) := by
  fun_induction Socket.accept id as with
  | case1 id => exact ⟨rfl, Iff.rfl⟩
  | case2 id ret as huse =>
    have hok := (isUseful_sock ret).mp huse
    rw [List.map_cons, attempts_of_final hok, List.find?_cons_of_pos hok]
    exact ⟨by rw [calls_append, calls_acceptRaw]; rfl, by simp⟩
  | case3 id ret huse wait =>
    have hfail := isOk_of_not_isUseful huse
    rw [List.map_cons, attempts_of_not_final hfail, List.find?_cons_of_neg (by rw [hfail]; decide)]
    exact ⟨by rw [calls_append, calls_acceptRaw]; rfl, by simp⟩
  | case4 id ret huse wait con as huse' =>
    have hfail := isOk_of_not_isUseful huse
    have hok := (isUseful_sock con).mp huse'
    rw [List.map_cons, List.map_cons, attempts_of_not_final hfail, attempts_of_final hok,
      List.find?_cons_of_neg (by rw [hfail]; decide), List.find?_cons_of_pos hok]
    refine ⟨?_, by simp⟩
    rw [calls_append, calls_append, calls_act, calls_acceptRaw, calls_acceptRaw]
    rfl
  | case5 id ret huse wait con as huse' rest gone ih =>
    have hfail := isOk_of_not_isUseful huse
    have hfail' := isOk_of_not_isUseful huse'
    -- destroying objects calls nothing
    have hgone : calls gone = [] := by
      simp only [gone]
      split <;> rfl
    rw [List.map_cons, List.map_cons, attempts_of_not_final hfail, attempts_of_not_final hfail',
      List.find?_cons_of_neg (by rw [hfail]; decide),
      List.find?_cons_of_neg (by rw [hfail']; decide)]
    refine ⟨?_, ih.2⟩
    rw [calls_append, calls_append, calls_append, calls_act, calls_acceptRaw, calls_acceptRaw, ih.1,
      hgone, List.append_nil]
    rfl

/-- `Socket::accept` stops where it should if and only if all attempts before the first success fail
for reasons that are worth a retry. -/
theorem acceptStops_iff (id : ObjId) (as : List Arrival) :
    AcceptStops id as ↔
      ∀ r ∈ (as.map Arrival.result).takeWhile (fun r ↦ !r.isOk), AcceptRetryable r := by
  obtain ⟨hcalls, hsome⟩ := calls_accept id as
  constructor
  · rintro ⟨hstops, -⟩
    rw [hcalls] at hstops
    exact (stops_iff _ hsome).mp hstops
  · intro hretry
    constructor
    · rw [hcalls]
      exact (stops_iff _ hsome).mpr hretry
    · intro errno hmem hhard
      rw [hcalls, attempts, List.mem_append] at hmem
      rcases hmem with hmem | hmem
      · exact absurd (hretry _ hmem) hhard
      · -- the first success is no failure
        rw [Option.mem_toList] at hmem
        exact absurd (List.find?_some hmem) Bool.false_ne_true

end Accept

/-! ## Both -/

/-- **When connecting and accepting stop.** `Socket::connect` calls again only after failures that a
retry can change, and returns after any other answer, if and only if all answers before the first
success are such failures; and likewise `Socket::accept`, which would have to return an unusable
object after any other failure. -/
theorem connect_accept_stop_iff (o : Socket) (ip : String) (port : ℤ) (rs : List SysResult)
    (id : ObjId) (as : List Arrival) :
    (ConnectStops o ip port rs ↔
      ∀ r ∈ rs.takeWhile (fun r ↦ !decide (r = .ok 0)), ConnectRetryable r) ∧
    (AcceptStops id as ↔
      ∀ r ∈ (as.map Arrival.result).takeWhile (fun r ↦ !r.isOk), AcceptRetryable r) :=
  ⟨connectStops_iff rs, acceptStops_iff id as⟩

/-- A refused connection: `Socket::connect` waits and tries again. -/
theorem not_connect_accept_stop_refused :
    ¬ ∀ (o : Socket) (ip : String) (port : ℤ) (rs : List SysResult) (id : ObjId)
      (as : List Arrival), ConnectStops o ip port rs ∧ AcceptStops id as := by
  intro h
  have hstops := (h ⟨5, 64, -1, ""⟩ "127.0.0.1" 8099 [.fail ECONNREFUSED] 0 []).1
  have hreturned := hstops.returned (.fail ECONNREFUSED) (by decide) (by decide)
  exact absurd hreturned (by decide)

end Copnet
