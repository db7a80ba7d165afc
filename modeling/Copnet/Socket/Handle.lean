import Copnet.Foundation.Transition
import Mathlib.Data.Finset.Card
import Mathlib.Data.Multiset.Basic
import Mathlib.Data.List.Count

/-!
# Socket objects and their shared counter

A descriptor is shared by the `Socket` objects copied and moved from one another: all of them point
to one heap-allocated counter, and the destructor that brings the counter to zero closes the
descriptor and frees the counter, unless the descriptor is negative.

The machine here is all socket objects of a program, the heap cells of their counters and the
descriptors the kernel has handed out. Its actions are the constructors, the copy and the move
constructor and the destructor, in any order, and the kernel handing out a descriptor; `new` and the
kernel may reuse what has been freed and closed. A step that touches a counter that is not
allocated, or closes a descriptor that is not open, is not ruled out: it says so in its event.

A counter is an `int` in the source, whose overflow is undefined. It is an integer here, which is
the same as long as fewer than 2³¹ objects share a descriptor.
-/

open Transition

namespace Copnet

/-- The address of a reference counter (`int*`). -/
abbrev RefPtr := ℕ

abbrev ObjId := ℕ

structure Socket where
  /-- `_sockfd`. -/
  sockfd : ℤ
  /-- `_pRef`. -/
  pRef : RefPtr
  /-- `_port`. -/
  port : ℤ
  /-- `_ip`. -/
  ip : String
deriving DecidableEq

def Socket.isUseful (o : Socket) : Prop := 0 ≤ o.sockfd

instance (o : Socket) : Decidable o.isUseful := inferInstanceAs (Decidable (0 ≤ o.sockfd))

/-- What an operation on a socket object does outside the object. -/
inductive HandleEvent
  /-- `new int(1)`, at the address `p`. -/
  | new (p : RefPtr)
  /-- The counter at `p` is read or written; `valid` if it is allocated. -/
  | touch (p : RefPtr) (valid : Bool)
  /-- `delete _pRef`; `valid` if the counter is allocated. -/
  | delete (p : RefPtr) (valid : Bool)
  /-- The kernel hands out the descriptor. -/
  | opened (fd : ℤ)
  /-- `fcntl(fd, F_SETFL, .. | O_NONBLOCK)`. -/
  | setNonBlock (fd : ℤ)
  /-- `::close(fd)`; `valid` if the descriptor is open. -/
  | close (fd : ℤ) (valid : Bool)
deriving DecidableEq

/-- The event touches no counter that is not allocated and closes no descriptor that is not open. -/
def HandleEvent.Valid : HandleEvent → Prop
  | .touch _ valid | .delete _ valid | .close _ valid => valid = true
  | .new _ | .opened _ | .setNonBlock _ => True

/-- The socket objects of a program, its counters and the open descriptors. -/
structure Sockets where
  /-- The living objects. -/
  live : List (ObjId × Socket)
  /-- The identity of the next object. -/
  nextId : ObjId
  /-- The counters that are allocated. -/
  allocated : Finset RefPtr
  /-- What the counters hold. -/
  value : RefPtr → ℤ
  /-- The descriptors that are open. -/
  opened : Finset ℤ

/-- What can happen to socket objects. -/
inductive HandleAct
  /-- The kernel hands out a descriptor, as `::accept` does. -/
  | handOut (fd : ℤ)
  /-- `Socket(sockfd, ip, port)`, with the counter at `p`. -/
  | construct (sockfd : ℤ) (ip : String) (port : ℤ) (p : RefPtr)
  /-- `Socket()`, where `::socket` answers `sockfd`, with the counter at `p`. -/
  | create (sockfd : ℤ) (p : RefPtr)
  /-- `Socket(const Socket&)`. -/
  | copy (id : ObjId)
  /-- `Socket(Socket&&)`. -/
  | move (id : ObjId)
  /-- `~Socket()`. -/
  | destroy (id : ObjId)
deriving DecidableEq

namespace Sockets

variable (s : Sockets)

def start (opened : Finset ℤ) : Sockets := ⟨[], 0, ∅, fun _ ↦ 0, opened⟩

def find (id : ObjId) : Option (ObjId × Socket) := s.live.find? (·.1 = id)

def addObj (o : Socket) : Sockets :=
  { s with live := (s.nextId, o) :: s.live, nextId := s.nextId + 1 }

/-- `new int(1)` at the address `p`. -/
def newRef (p : RefPtr) : Sockets :=
  { s with allocated := insert p s.allocated, value := Function.update s.value p 1 }

/-- `*p += d`, where the `int` does not overflow: fewer than 2³¹ objects share the counter. -/
def addRef (p : RefPtr) (d : ℤ) : Sockets :=
  { s with value := Function.update s.value p (s.value p + d) }

/-- The kernel hands out a descriptor. -/
def openFd (fd : ℤ) : Sockets := { s with opened := insert fd s.opened }

/-- `Socket::Socket(int sockfd, std::string ip, int port)`. -/
def construct (sockfd : ℤ) (ip : String) (port : ℤ) (p : RefPtr) : Sockets × List HandleEvent :=
  ((s.newRef p).addObj ⟨sockfd, p, port, ip⟩,
    .new p :: if sockfd > 0 then [.setNonBlock sockfd] else [])

/-- `Socket::Socket()`, given the answer of `::socket`. -/
def create (sockfd : ℤ) (p : RefPtr) : Sockets × List HandleEvent :=
  if sockfd < 0 then ((s.newRef p).addObj ⟨sockfd, p, -1, ""⟩, [.new p])
  else (((s.openFd sockfd).newRef p).addObj ⟨sockfd, p, -1, ""⟩, [.opened sockfd, .new p])

/-- `Socket::Socket(const Socket& otherSock)`. -/
def copy (otherSock : Socket) : Sockets × List HandleEvent :=
  let s' := s.addRef otherSock.pRef 1
  (s'.addObj { otherSock with }, [.touch otherSock.pRef (otherSock.pRef ∈ s.allocated)])

/-- `Socket::Socket(Socket&& otherSock)`: the counter is shared as by a copy, and only the string
moves. -/
def move (id : ObjId) (otherSock : Socket) : Sockets × List HandleEvent :=
  let s' := s.addRef otherSock.pRef 1
  let s' := { s' with live := (id, { otherSock with ip := "" }) :: s'.live.erase (id, otherSock) }
  (s'.addObj { otherSock with }, [.touch otherSock.pRef (otherSock.pRef ∈ s.allocated)])

/-- `Socket::~Socket()`. -/
def destroy (id : ObjId) (o : Socket) : Sockets × List HandleEvent :=
  let s' := s.addRef o.pRef (-1)
  let s' := { s' with live := s'.live.erase (id, o) }
  let touched : HandleEvent := .touch o.pRef (o.pRef ∈ s.allocated)
  if s'.value o.pRef = 0 ∧ o.isUseful then
    ({ s' with opened := s'.opened.erase o.sockfd, allocated := s'.allocated.erase o.pRef },
      [touched, .close o.sockfd (o.sockfd ∈ s.opened), .delete o.pRef (o.pRef ∈ s.allocated)])
  else (s', [touched])

/-- One operation. The kernel hands out descriptors that are not open, and `new` cells that are not
allocated. -/
def step : HandleAct → Option (Sockets × List HandleEvent)
  | .handOut fd => if 0 ≤ fd ∧ fd ∉ s.opened then some (s.openFd fd, [.opened fd]) else none
  | .construct sockfd ip port p =>
    if p ∉ s.allocated then some (s.construct sockfd ip port p) else none
  | .create sockfd p =>
    if p ∉ s.allocated ∧ (0 ≤ sockfd → sockfd ∉ s.opened) then some (s.create sockfd p) else none
  | .copy id => (s.find id).map fun h ↦ s.copy h.2
  | .move id => (s.find id).map fun h ↦ s.move h.1 h.2
  | .destroy id => (s.find id).map fun h ↦ s.destroy h.1 h.2

def machine : Machine Sockets HandleAct HandleEvent where
  init s := ∃ opened, s = start opened
  step := step

def holders (p : RefPtr) : ℕ := s.live.countP (·.2.pRef = p)

/-- The counters of the families that have a living object. -/
def families : Finset RefPtr := (s.live.map (·.2.pRef)).toFinset

/-- The descriptors of the living objects. -/
def descriptors : Finset ℤ := (s.live.map (·.2.sockfd)).toFinset

/-- The descriptor and the counter of every living object. Nothing else of an object matters to the
others. -/
def keys : Multiset (ℤ × RefPtr) := ↑(s.live.map fun h ↦ (h.2.sockfd, h.2.pRef))

end Sockets

/-- The descriptor and the counter of the family that an action founds. -/
def HandleAct.founds? : HandleAct → Option (ℤ × RefPtr)
  | .construct sockfd _ _ p | .create sockfd p => some (sockfd, p)
  | _ => none

end Copnet
