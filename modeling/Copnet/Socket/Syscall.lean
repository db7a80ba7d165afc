import Mathlib.Algebra.Order.Ring.Int

/-!
# Answers of the kernel

A system call on a descriptor either succeeds with a non-negative result or returns `-1` and sets
`errno`. Wrappers store the result in C types, so the two conversions that matter are stated here:
into `size_t`, where `-1` becomes the largest value, and from `size_t` back into `ssize_t`.
-/

namespace Copnet

/-- `errno`, by its Linux number. -/
abbrev Errno := ℕ

/-- Interrupted by a signal. -/
def EINTR : Errno := 4

/-- Would block (`EAGAIN`, which is `EWOULDBLOCK`). -/
def EAGAIN : Errno := 11

/-- A connection was aborted before it was accepted. -/
def ECONNABORTED : Errno := 103

/-- The peer has reset the connection. -/
def ECONNRESET : Errno := 104

/-- The peer refuses the connection. -/
def ECONNREFUSED : Errno := 111

/-- An earlier attempt to connect has not ended yet. -/
def EALREADY : Errno := 114

/-- The attempt to connect goes on in the background. -/
def EINPROGRESS : Errno := 115

inductive SysResult
  /-- A non-negative result. -/
  | ok (n : ℕ)
  /-- `-1`, with `errno`. -/
  | fail (errno : Errno)
deriving DecidableEq

def SysResult.isOk : SysResult → Bool
  | .ok _ => true
  | .fail _ => false

/-- A wait for one of the events `ev` on the socket's descriptor: `waitEvent(_sockfd, ev)`. -/
structure WaitEvent where
  /-- The mask of events. -/
  ev : ℕ
deriving DecidableEq

/-- There is something to read. -/
def EPOLLIN : ℕ := 0x1

/-- There is urgent data to read. -/
def EPOLLPRI : ℕ := 0x2

/-- There is room to write. -/
def EPOLLOUT : ℕ := 0x4

/-- Both directions are shut. -/
def EPOLLHUP : ℕ := 0x10

/-- The peer has shut its writing side. -/
def EPOLLRDHUP : ℕ := 0x2000

/-- The answer stored in a `size_t`. -/
def SysResult.toSizeT : SysResult → ℕ
  | .ok n => n % 2 ^ 64
  | .fail _ => 2 ^ 64 - 1

/-- A `size_t` returned as an `ssize_t`. -/
def ssizeT (n : ℕ) : ℤ := if n < 2 ^ 63 then n else n - 2 ^ 64

theorem ssizeT_nonneg {n : ℕ} (h : n < 2 ^ 63) : 0 ≤ ssizeT n := by
  rw [ssizeT, if_pos h]
  omega

theorem ssizeT_neg {n : ℕ} (hlo : 2 ^ 63 ≤ n) (hhi : n < 2 ^ 64) : ssizeT n < 0 := by
  rw [ssizeT, if_neg (by omega)]
  omega

end Copnet
