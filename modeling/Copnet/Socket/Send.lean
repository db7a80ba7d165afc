import Copnet.Socket.Syscall
import Mathlib.Data.List.Basic

/-!
# Sending a buffer

`Socket::send` calls the kernel's `send`, and on a short write waits until the socket is writable
and calls itself on the rest. The result of the kernel is stored in a `size_t` before it is compared
with the length, so a failure reads as a huge count and ends the call as a success.

The model runs the recursion along the list of the kernel's answers and logs the calls it makes; a
list that ends early leaves the call waiting for its next answer. `Delivers` is what a caller
expects of the log and the result, and `deliversFrom_iff` says for which answers it gets that:
exactly when no call fails before the whole buffer has been accepted, but for two kinds of failure
that happen to do no harm.

Where nothing fails the bytes are all accepted, but each level of the recursion returns the count it
was called with, and the caller gets the one of the innermost level. `returnsCount_iff` says when
that is the count it asked for: exactly when the writes before the last one accepted nothing.
-/

namespace Copnet

/-- What `Socket::send` does that the kernel or the scheduler can see. -/
inductive SendEvent
  /-- `::send` with the `count` bytes at offset `off` of the buffer, and its answer. -/
  | send (off count : ℕ) (r : SysResult)
  /-- `waitEvent(_sockfd, EPOLLOUT)`. -/
  | waitEvent
deriving DecidableEq

/-- `Socket::send` of the `count` bytes at offset `off`, given the kernel's answers: the log of its
calls, and its return value once it has returned. -/
def Socket.send (off count : ℕ) : List SysResult → List SendEvent × Option ℤ
  | [] => ([], none)
  | r :: rs =>
    let sendIdx := r.toSizeT
    if sendIdx ≥ count then ([.send off count r], some (ssizeT count))
    else
      let rest := Socket.send (off + sendIdx) (count - sendIdx) rs
      (.send off count r :: .waitEvent :: rest.1, rest.2)

/-- The bytes that one call put into the socket. -/
def SendEvent.accepted (buf : List UInt8) : SendEvent → List UInt8
  | .send off _ (.ok n) => (buf.drop off).take n
  | _ => []

/-- The kernel accepts at most what it is offered. -/
def SendEvent.Honest : SendEvent → Prop
  | .send _ count (.ok n) => n ≤ count
  | _ => True

instance : DecidablePred SendEvent.Honest
  | .send _ count (.ok n) => inferInstanceAs (Decidable (n ≤ count))
  | .send _ _ (.fail _) => isTrue trivial
  | .waitEvent => isTrue trivial

/-! ## What a caller expects -/

/-- The expectation on a call for the `count` bytes at offset `off`: a non-negative result means
that exactly these bytes were accepted, in order; a failure other than would-block or interrupt
gives a negative result; and after would-block the call waits and goes on with the same bytes. -/
structure DeliversFrom (buf : List UInt8) (off count : ℕ) (log : List SendEvent)
    (ret : Option ℤ) : Prop where
  /-- Success means delivery. -/
  delivered : ∀ v, ret = some v → 0 ≤ v →
    log.flatMap (SendEvent.accepted buf) = (buf.drop off).take count
  /-- Hard failures are reported. -/
  reported : ∀ o c e, .send o c (.fail e) ∈ log → e ≠ EAGAIN → e ≠ EINTR → ∃ v < 0, ret = some v
  /-- A full socket buffer is waited for. -/
  continued : ∀ pre o c post, log = pre ++ .send o c (.fail EAGAIN) :: post →
    ∃ post', post = .waitEvent :: post' ∧ ∀ ev, post'.head? = some ev → ∃ r, ev = .send o c r

/-- What a caller expects of `Socket::send(buf, count)`. -/
def Delivers (buf : List UInt8) (count : ℕ) (rs : List SysResult) : Prop :=
  DeliversFrom buf 0 count (Socket.send 0 count rs).1 (Socket.send 0 count rs).2

/-- The failures of a call for `n` bytes that end it no differently from what is expected: an
interrupt when nothing is to be sent, and anything but would-block when `n`, read as an `ssize_t`,
is negative. -/
def HarmlessFailure (n : ℕ) (e : Errno) : Prop :=
  e ≠ EAGAIN ∧ (n = 0 ∧ e = EINTR ∨ 2 ^ 63 ≤ n)

/-- No call fails before `n` bytes have been accepted, harmless failures apart. -/
def NoFailureBefore : ℕ → List SysResult → Prop
  | _, [] => True
  | n, .ok k :: rs => n ≤ k ∨ NoFailureBefore (n - k) rs
  | n, .fail e :: _ => HarmlessFailure n e

/-! ## One level of the recursion -/

variable {buf : List UInt8} {off count k : ℕ} {rs : List SysResult}

theorem send_fail (hcount : count < 2 ^ 64) (e : Errno) :
    Socket.send off count (.fail e :: rs) =
      ([.send off count (.fail e)], some (ssizeT count)) := by
  have hge : SysResult.toSizeT (.fail e) ≥ count := by
    simp only [SysResult.toSizeT]
    omega
  rw [Socket.send, if_pos hge]

theorem send_full (hcount : count < 2 ^ 64) (hk : k = count) :
    Socket.send off count (.ok k :: rs) = ([.send off count (.ok k)], some (ssizeT count)) := by
  have hge : SysResult.toSizeT (.ok k) ≥ count := by
    rw [SysResult.toSizeT, hk, Nat.mod_eq_of_lt hcount]
  rw [Socket.send, if_pos hge]

theorem send_short (hcount : count < 2 ^ 64) (hk : k < count) :
    Socket.send off count (.ok k :: rs) =
      (.send off count (.ok k) :: .waitEvent :: (Socket.send (off + k) (count - k) rs).1,
        (Socket.send (off + k) (count - k) rs).2) := by
  have hidx : SysResult.toSizeT (.ok k) = k := Nat.mod_eq_of_lt (hk.trans hcount)
  rw [Socket.send, hidx, if_neg (by omega)]

theorem deliversFrom_pending : DeliversFrom buf off count [] none where
  delivered v hv := by simp at hv
  reported o c e hmem := by simp at hmem
  continued pre o c post h := by simp at h

theorem deliversFrom_full :
    DeliversFrom buf off count [.send off count (.ok count)] (some (ssizeT count)) where
  delivered v _ _ := by simp [SendEvent.accepted]
  reported o c e hmem := by simp at hmem
  continued pre o c post h := by
    have hmem : SendEvent.send o c (.fail EAGAIN) ∈ [SendEvent.send off count (.ok count)] := by
      rw [h]
      exact List.mem_append_right _ List.mem_cons_self
    simp at hmem

/-- After a failure only the harmless ones leave the promises kept: would-block is not waited for,
and otherwise the result is non-negative below `2 ^ 63` although nothing more was accepted. -/
theorem deliversFrom_fail_iff (hcount : count < 2 ^ 64) (hbuf : off + count ≤ buf.length)
    (e : Errno) :
    DeliversFrom buf off count [.send off count (.fail e)] (some (ssizeT count)) ↔
      HarmlessFailure count e := by
  constructor
  · rintro ⟨hdel, hrep, hcont⟩
    have hblock : e ≠ EAGAIN := by
      rintro rfl
      obtain ⟨post', hpost, -⟩ := hcont [] off count [] rfl
      simp at hpost
    refine ⟨hblock, ?_⟩
    -- the call reports success, so the caller takes all bytes for accepted
    by_contra hnot
    push Not at hnot
    obtain ⟨hzero, hsmall⟩ := hnot
    have hnonneg : 0 ≤ ssizeT count := ssizeT_nonneg hsmall
    have hempty : (buf.drop off).take count = [] := by
      rw [← hdel _ rfl hnonneg]
      simp [SendEvent.accepted]
    have hlen : count = 0 := by
      have := congrArg List.length hempty
      rw [List.length_take, List.length_drop, List.length_nil] at this
      omega
    obtain ⟨v, hneg, hv⟩ := hrep off count e List.mem_cons_self hblock (hzero hlen)
    rw [Option.some_inj] at hv
    omega
  · rintro ⟨hblock, hcase⟩
    constructor
    · intro v hv hnonneg
      rcases hcase with ⟨rfl, -⟩ | hbig
      · simp [SendEvent.accepted]
      · rw [Option.some_inj] at hv
        have := ssizeT_neg hbig hcount
        omega
    · intro o c e' hmem hne hintr
      rcases hcase with ⟨-, rfl⟩ | hbig
      · simp only [List.mem_singleton, SendEvent.send.injEq, SysResult.fail.injEq] at hmem
        exact absurd hmem.2.2 hintr
      · exact ⟨_, ssizeT_neg hbig hcount, rfl⟩
    · intro pre o c post h
      have hmem : SendEvent.send o c (.fail EAGAIN) ∈ [SendEvent.send off count (.fail e)] := by
        rw [h]
        exact List.mem_append_right _ List.mem_cons_self
      simp only [List.mem_singleton, SendEvent.send.injEq, SysResult.fail.injEq] at hmem
      exact absurd hmem.2.2.symm hblock

theorem take_eq_take_append (buf : List UInt8) (off : ℕ) (hk : k ≤ count) :
    (buf.drop off).take count = (buf.drop off).take k ++ (buf.drop (off + k)).take (count - k) := by
  rw [← List.drop_drop, ← List.take_add, Nat.add_sub_cancel' hk]

theorem deliversFrom_short_iff (hk : k ≤ count) {log : List SendEvent} {ret : Option ℤ} :
    DeliversFrom buf off count (.send off count (.ok k) :: .waitEvent :: log) ret ↔
      DeliversFrom buf (off + k) (count - k) log ret := by
  have hsplit := take_eq_take_append buf off hk
  constructor
  · rintro ⟨hdel, hrep, hcont⟩
    refine ⟨?_, ?_, ?_⟩
    · intro v hv hnonneg
      have := hdel v hv hnonneg
      rw [hsplit] at this
      simpa [SendEvent.accepted] using this
    · intro o c e hmem
      exact hrep o c e (List.mem_cons_of_mem _ (List.mem_cons_of_mem _ hmem))
    · intro pre o c post h
      exact hcont (.send off count (.ok k) :: .waitEvent :: pre) o c post (by rw [h]; rfl)
  · rintro ⟨hdel, hrep, hcont⟩
    refine ⟨?_, ?_, ?_⟩
    · intro v hv hnonneg
      rw [hsplit, List.flatMap_cons, List.flatMap_cons, hdel v hv hnonneg]
      simp [SendEvent.accepted]
    · intro o c e hmem
      refine hrep o c e ?_
      simpa using hmem
    · intro pre o c post h
      -- the failure cannot be one of the two events put in front
      match pre, h with
      | [], h => simp at h
      | [_], h => simp at h
      | _ :: _ :: pre, h =>
        simp only [List.cons_append, List.cons.injEq] at h
        exact hcont pre o c post h.2.2

/-! ## The whole call -/

/-- **Exactly when a call delivers.** By induction along the answers, as the source recurses. -/
theorem deliversFrom_iff (hcount : count < 2 ^ 64) (hbuf : off + count ≤ buf.length)
    (hhonest : ∀ ev ∈ (Socket.send off count rs).1, ev.Honest) :
    DeliversFrom buf off count (Socket.send off count rs).1 (Socket.send off count rs).2 ↔
      NoFailureBefore count rs := by
  induction rs generalizing off count with
  | nil => exact iff_of_true deliversFrom_pending trivial
  | cons r rs ih =>
    cases r with
    | fail e =>
      rw [send_fail hcount]
      exact deliversFrom_fail_iff hcount hbuf e
    | ok k =>
      rcases Nat.lt_trichotomy k count with hlt | heq | hgt
      · rw [send_short hcount hlt] at hhonest ⊢
        rw [deliversFrom_short_iff hlt.le, ih (by omega) (by omega) fun ev hev ↦
          hhonest ev (List.mem_cons_of_mem _ (List.mem_cons_of_mem _ hev))]
        exact (or_iff_right (by omega)).symm
      · rw [send_full hcount heq]
        exact iff_of_true (heq ▸ deliversFrom_full) (.inl heq.ge)
      · -- more than was offered: excluded by the kernel's contract
        have hlog : SendEvent.send off count (.ok k) ∈ (Socket.send off count (.ok k :: rs)).1 := by
          rw [Socket.send]
          dsimp only
          split <;> exact List.mem_cons_self
        have : k ≤ count := hhonest _ hlog
        omega

/-- **When `Socket::send` can be trusted.** On a buffer of at least `count` bytes, the call does
what its caller expects if and only if no `::send` fails before the whole buffer has been
accepted. -/
theorem delivers_iff (buf : List UInt8) (count : ℕ) (rs : List SysResult) (hcount : count < 2 ^ 64)
    (hbuf : count ≤ buf.length) (hhonest : ∀ ev ∈ (Socket.send 0 count rs).1, ev.Honest) :
    Delivers buf count rs ↔ NoFailureBefore count rs :=
  deliversFrom_iff hcount (by omega) hhonest

/-- A call that needs a second write, and gets it. -/
theorem delivers_iff_two_writes :
    Delivers [1, 2, 3] 3 [.ok 1, .ok 2] ↔ NoFailureBefore 3 [.ok 1, .ok 2] :=
  delivers_iff [1, 2, 3] 3 [.ok 1, .ok 2] (by decide) (by decide) (by decide)

/-- A socket buffer that is full at the first call: the result is `count`, nothing was accepted and
nothing is waited for. -/
theorem not_delivers_full_socket :
    ¬ ∀ (buf : List UInt8) (count : ℕ) (rs : List SysResult), count < 2 ^ 64 →
      count ≤ buf.length → (∀ ev ∈ (Socket.send 0 count rs).1, ev.Honest) →
        Delivers buf count rs := by
  intro h
  have hlog : Socket.send 0 4 [.fail EAGAIN] = ([.send 0 4 (.fail EAGAIN)], some 4) := by decide
  have hdel := h [112, 105, 110, 103] 4 [.fail EAGAIN] (by decide) (by decide) (by decide)
  rw [Delivers, hlog] at hdel
  exact absurd (hdel.delivered 4 rfl (by decide)) (by decide)

/-! ## The count returned -/

/-- The writes `ks` accept `n` bytes, the last of them all that was left. -/
def Accepts : ℕ → List ℕ → Prop
  | _, [] => False
  | n, k :: ks => k = n ∧ ks = [] ∨ k < n ∧ Accepts (n - k) ks

/-- `Socket::send` of `count` bytes puts exactly these bytes into the socket and returns `count`,
when the kernel accepts `ks` bytes in turn. -/
def ReturnsCount (buf : List UInt8) (count : ℕ) (ks : List ℕ) : Prop :=
  (Socket.send 0 count (ks.map .ok)).1.flatMap (SendEvent.accepted buf) = buf.take count ∧
    (Socket.send 0 count (ks.map .ok)).2 = some ↑count

section Count

variable {ks : List ℕ} {n : ℕ}

theorem Accepts.sum_eq (h : Accepts n ks) : ks.sum = n := by
  induction ks generalizing n with
  | nil => exact h.elim
  | cons k ks ih =>
    rcases h with ⟨rfl, rfl⟩ | ⟨hk, hrest⟩
    · rfl
    · rw [List.sum_cons, ih hrest]
      omega

/-- All bytes are accepted, in order. By induction along the writes. -/
theorem Accepts.accepted (buf : List UInt8) (off : ℕ) (h : Accepts count ks)
    (hcount : count < 2 ^ 64) :
    (Socket.send off count (ks.map .ok)).1.flatMap (SendEvent.accepted buf) =
      (buf.drop off).take count := by
  induction ks generalizing off count with
  | nil => exact h.elim
  | cons k ks ih =>
    rw [List.map_cons]
    rcases h with ⟨rfl, rfl⟩ | ⟨hk, hrest⟩
    · rw [send_full hcount rfl, List.flatMap_singleton]
      rfl
    · have hcall : SendEvent.accepted buf (.send off count (.ok k)) = (buf.drop off).take k := rfl
      have hwait : SendEvent.accepted buf .waitEvent = [] := rfl
      rw [send_short hcount hk, List.flatMap_cons, List.flatMap_cons,
        ih (off + k) hrest (by omega), hcall, hwait, List.nil_append,
        ← take_eq_take_append buf off hk.le]

/-- The innermost level of the recursion decides what is returned: the count of the last write. -/
theorem Accepts.returned (off : ℕ) (h : Accepts count ks) (hcount : count < 2 ^ 64)
    (hne : ks ≠ []) :
    (Socket.send off count (ks.map .ok)).2 = some (ssizeT (ks.getLast hne)) := by
  induction ks generalizing off count with
  | nil => exact h.elim
  | cons k ks ih =>
    rw [List.map_cons]
    rcases h with ⟨rfl, rfl⟩ | ⟨hk, hrest⟩
    · rw [send_full hcount rfl, List.getLast_singleton]
    · have htail : ks ≠ [] := by
        rintro rfl
        exact hrest.elim
      rw [send_short hcount hk, ih (off + k) hrest (by omega) htail, List.getLast_cons htail]

/-- **When the count is returned.** Where the kernel accepts the whole buffer, in as many writes as
it likes, `Socket::send` returns the count it was called with if and only if all writes but the last
accepted nothing. -/
theorem returnsCount_iff (buf : List UInt8) (count : ℕ) (ks : List ℕ) (hcount : count < 2 ^ 64)
    (hks : ∀ k ∈ ks, k < 2 ^ 63) (haccepts : Accepts count ks) :
    ReturnsCount buf count ks ↔ ∀ k ∈ ks.dropLast, k = 0 := by
  have hne : ks ≠ [] := by
    rintro rfl
    exact haccepts.elim
  have hbytes := haccepts.accepted buf 0 hcount
  have hret := haccepts.returned 0 hcount hne
  have hlast : ssizeT (ks.getLast hne) = ks.getLast hne :=
    if_pos (hks _ (List.getLast_mem hne))
  -- the last write accepts what the others have left
  have hsum : ks.dropLast.sum + ks.getLast hne = count := by
    have hconcat := congrArg List.sum (List.dropLast_append_getLast hne)
    rw [List.sum_append, List.sum_singleton, haccepts.sum_eq] at hconcat
    exact hconcat
  rw [ReturnsCount, hbytes, hret, hlast, List.drop_zero, ← List.sum_eq_zero_iff_forall_eq_nat]
  constructor
  · rintro ⟨-, heq⟩
    rw [Option.some_inj, Nat.cast_inj] at heq
    omega
  · intro hzero
    refine ⟨rfl, ?_⟩
    rw [Option.some_inj, Nat.cast_inj]
    omega

/-- A socket that takes nothing at first, and then everything. -/
theorem returnsCount_iff_late :
    ReturnsCount [1, 2, 3] 3 [0, 3] ↔ ∀ k ∈ [0, 3].dropLast, k = 0 :=
  returnsCount_iff [1, 2, 3] 3 [0, 3] (by decide) (by decide)
    (.inr ⟨by decide, .inl ⟨by decide, rfl⟩⟩)

/-- Two writes, of one byte and of three: the result is the count of the second one. -/
theorem not_returnsCount_two_writes :
    ¬ ∀ (buf : List UInt8) (count : ℕ) (ks : List ℕ), count < 2 ^ 64 → count ≤ buf.length →
      (∀ k ∈ ks, k < 2 ^ 63) → Accepts count ks → ReturnsCount buf count ks := by
  intro h
  have haccepts : Accepts 4 [1, 3] := .inr ⟨by decide, .inl ⟨by decide, rfl⟩⟩
  have hret := (h [112, 105, 110, 103] 4 [1, 3] (by decide) (by decide) (by decide) haccepts).2
  exact absurd hret (by decide)

end Count

end Copnet
