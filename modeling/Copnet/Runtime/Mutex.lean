import Copnet.Runtime.Effect
import Mathlib.Data.Finset.Card
import Mathlib.Data.Finset.Dedup

/-!
# Exclusion of the read-write lock

The state of a lock is compared with the ghost lists of who holds it, one entry for each `rlock`
and `wlock` that has not been undone. `LockEffect` lists what a step can do to one lock, and the
invariant splits in two. `LockInv` holds in every run: the counter is the number of read locks held,
modulo `2 ^ 32`, and a lock that is not free is held. `Exclusive` says that the three values of
`state_` mean what they should; it needs the counter not to wrap, so it is proved for the runs in
which fewer than `2 ^ 31` read locks are held at a time.

A coroutine may take a read lock that it holds already, and is then counted twice.
-/

open Transition

namespace Copnet

/-- A lock with those who hold it. -/
structure LockState where
  /-- The `RWMutex`. -/
  mu : RWMutex
  /-- Who holds a read lock, once for each time. -/
  readers : List ℕ
  /-- Who holds the write lock. -/
  writers : List ℕ

def Sys.lock (s : Sys) (m : MuId) : LockState := ⟨s.mus m, s.readers m, s.writers m⟩

def Event.inLock (m : MuId) : Event → Bool
  | .park n _ | .handOver n _ _ => n = m
  | _ => false

/-- What a step can do to the lock `m`. -/
inductive LockEffect (m : MuId) (l : LockState) : LockState → List Event → Prop
  | keep : LockEffect m l l []
  | rlock {n : ℕ} {μ : RWMutex} (hfree : ¬l.mu.locked) (hlock : l.mu.rlock = some μ) :
      LockEffect m l ⟨μ, n :: l.readers, l.writers⟩ []
  | wlock {n : ℕ} {μ : RWMutex} (hfree : ¬l.mu.locked) (hlock : l.mu.wlock = some μ) :
      LockEffect m l ⟨μ, l.readers, n :: l.writers⟩ []
  | park {a : Addr} (hfree : ¬l.mu.locked) (hstate : l.mu.state ≠ .free) :
      LockEffect m l { l with mu := l.mu.park a } [.park m a]
  | runlock {n : ℕ} (hfree : ¬l.mu.locked) (hheld : n ∈ l.readers) :
      LockEffect m l ⟨l.mu.runlock, l.readers.erase n, l.writers⟩ []
  | wunlock {n : ℕ} (hfree : ¬l.mu.locked) (hheld : n ∈ l.writers) :
      LockEffect m l ⟨l.mu.wunlock, l.readers, l.writers.erase n⟩ []
  | handOver {a : Addr} {q : Pid} {rest : List Addr} (hcons : l.mu.waitingCo = a :: rest) :
      LockEffect m l { l with mu := { l.mu with waitingCo := rest } } [.handOver m a q]
  | freeLockEnd (hnil : l.mu.waitingCo = []) :
      LockEffect m l { l with mu := { l.mu with locked := false } } []

section Effects

variable {s s' : Sys} {act : Action} {es : List Event} {m n : MuId}

theorem LockEffect.of_eq (hl : s'.lock m = s.lock m) (hes : es.filter (·.inLock m) = []) :
    LockEffect m (s.lock m) (s'.lock m) (es.filter (·.inLock m)) := by
  rw [hl, hes]
  exact .keep

theorem LockEffect.of_update {l : LockState} (hmus : s'.mus = Function.update s.mus n l.mu)
    (hreaders : s'.readers = Function.update s.readers n l.readers)
    (hwriters : s'.writers = Function.update s.writers n l.writers)
    (hes : m ≠ n → es.filter (·.inLock m) = [])
    (h : LockEffect n (s.lock n) l (es.filter (·.inLock n))) :
    LockEffect m (s.lock m) (s'.lock m) (es.filter (·.inLock m)) := by
  by_cases hm : m = n
  · subst hm
    have hl : s'.lock m = l := by simp [Sys.lock, hmus, hreaders, hwriters]
    rwa [hl]
  · refine .of_eq ?_ (hes hm)
    simp [Sys.lock, hmus, hreaders, hwriters, hm]

theorem Resumes.filter_inLock {p : Pid} {pCo : Option Addr} (h : Resumes s p pCo s' es)
    (m : MuId) : es.filter (·.inLock m) = [] := by
  cases h <;> rfl

theorem Resumes.lock {p : Pid} {pCo : Option Addr} (h : Resumes s p pCo s' es) (m : MuId) :
    s'.lock m = s.lock m := by
  obtain ⟨hmus, -, -, -, -, -, hreaders, hwriters⟩ := h.frame
  rw [Sys.lock, Sys.lock, hmus, hreaders, hwriters]

/-- **Every step has an effect**, on every lock. -/
theorem Step.lockEffect (h : Step s act s' es) (m : MuId) :
    LockEffect m (s.lock m) (s'.lock m) (es.filter (·.inLock m)) := by
  cases h with
  | timer hexec hpc ha hres | event hexec hpc hpCo hres =>
    exact .of_eq (hres.lock m) (hres.filter_inLock m)
  | pop hexec hpc hcons hres => exact .of_eq (hres.lock m) (hres.filter_inLock m)
  | @rlock p x n μ c hexec hfree hlock hco =>
    exact .of_update (l := ⟨μ, c.serial :: s.readers n, s.writers n⟩) rfl rfl
      (Function.update_eq_self n _).symm (fun _ ↦ rfl) (.rlock hfree hlock)
  | @wlock p x n μ c hexec hfree hlock hco =>
    exact .of_update (l := ⟨μ, s.readers n, c.serial :: s.writers n⟩) rfl
      (Function.update_eq_self n _).symm rfl (fun _ ↦ rfl) (.wlock hfree hlock)
  | @runlock p x n c hexec hco hheld hfree =>
    exact .of_update (l := ⟨(s.mus n).runlock, (s.readers n).erase c.serial, s.writers n⟩) rfl rfl
      (Function.update_eq_self n _).symm (fun _ ↦ rfl) (.runlock hfree hheld)
  | @wunlock p x n c hexec hco hheld hfree =>
    exact .of_update (l := ⟨(s.mus n).wunlock, s.readers n, (s.writers n).erase c.serial⟩) rfl
      (Function.update_eq_self n _).symm rfl (fun _ ↦ rfl) (.wunlock hfree hheld)
  | @rlockPark p x a n hexec hfree hlock hcur =>
    refine .of_update (l := { s.lock n with mu := (s.mus n).park a }) rfl
      (Function.update_eq_self n _).symm (Function.update_eq_self n _).symm
      (fun hm ↦ by simp [Event.inLock, hm.symm]) ?_
    simp only [Event.inLock, decide_true, List.filter_cons_of_pos, List.filter_nil]
    exact .park hfree (by rw [Sys.lock, RWMutex.rlock_eq_none hlock]; simp)
  | @wlockPark p x a n hexec hfree hlock hcur =>
    refine .of_update (l := { s.lock n with mu := (s.mus n).park a }) rfl
      (Function.update_eq_self n _).symm (Function.update_eq_self n _).symm
      (fun hm ↦ by simp [Event.inLock, hm.symm]) ?_
    simp only [Event.inLock, decide_true, List.filter_cons_of_pos, List.filter_nil]
    exact .park hfree (RWMutex.wlock_eq_none hlock)
  | @handOver p x a n rest c hexec hcons hco =>
    refine .of_update (l := { s.lock n with mu := { s.mus n with waitingCo := rest } }) rfl
      (Function.update_eq_self n _).symm (Function.update_eq_self n _).symm
      (fun hm ↦ by simp [Event.inLock, hm.symm]) ?_
    simp only [Event.inLock, decide_true, List.filter_cons_of_pos, List.filter_cons,
      Bool.false_eq_true, if_false, List.filter_nil]
    exact .handOver hcons
  | @freeLockEnd p x n hexec hnil =>
    exact .of_update (l := { s.lock n with mu := { s.mus n with locked := false } }) rfl
      (Function.update_eq_self n _).symm (Function.update_eq_self n _).symm (fun _ ↦ rfl)
      (.freeLockEnd hnil)
  | _ => exact .of_eq rfl rfl

end Effects

/-! ## What holds in every run -/

/-- The counter is the number of read locks held, modulo `2 ^ 32`; while `freeLock` is in progress
the lock is free; nobody waits for a free lock; and a lock that is not free is held. -/
structure LockInv (l : LockState) : Prop where
  num : l.mu.readingNum = BitVec.ofNat 32 l.readers.length
  locked : l.mu.locked → l.mu.state = .free
  waiting : l.mu.state = .free → ¬l.mu.locked → l.mu.waitingCo = []
  reading : l.mu.state = .reading → l.readers ≠ []
  writing : l.mu.state = .writing → l.writers ≠ []

theorem ofNat_length_erase {R : List ℕ} {n : ℕ} (h : n ∈ R) :
    BitVec.ofNat 32 (R.erase n).length = BitVec.ofNat 32 R.length - 1 := by
  have hlen : R.length = (R.erase n).length + 1 := by
    rw [List.length_erase_of_mem h]
    have := List.length_pos_of_mem h
    omega
  rw [hlen, BitVec.ofNat_add]
  exact (BitVec.add_sub_cancel _ _).symm

theorem RWMutex.runlock_eq (μ : RWMutex) : μ.runlock =
    if μ.readingNum = 1 then
      { μ with readingNum := μ.readingNum - 1, state := .free, locked := true }
    else { μ with readingNum := μ.readingNum - 1 } := by
  rw [RWMutex.runlock]
  split <;> rfl

theorem LockEffect.lockInv {m : MuId} {l l' : LockState} {es : List Event}
    (h : LockEffect m l l' es) (hl : LockInv l) : LockInv l' := by
  cases h with
  | keep => exact hl
  | @rlock n μ hfree hlock =>
    obtain ⟨hstate, rfl⟩ := RWMutex.rlock_eq_some hlock
    refine ⟨?_, fun hlocked ↦ absurd hlocked hfree, by simp, by simp, by simp⟩
    rw [List.length_cons, BitVec.ofNat_add, ← hl.num]
    rfl
  | @wlock n μ hfree hlock =>
    obtain ⟨hstate, rfl⟩ := RWMutex.wlock_eq_some hlock
    exact ⟨hl.num, fun hlocked ↦ absurd hlocked hfree, by simp, by simp, by simp⟩
  | park hfree hstate =>
    exact ⟨hl.num, hl.locked, fun hs ↦ absurd hs hstate, hl.reading, hl.writing⟩
  | @runlock n hfree hheld =>
    have hnum := ofNat_length_erase hheld
    rw [← hl.num] at hnum
    rw [RWMutex.runlock_eq]
    split
    · exact ⟨hnum.symm, fun _ ↦ rfl, by simp, by simp, by simp⟩
    · next hne =>
      refine ⟨hnum.symm, hl.locked, hl.waiting, fun _ hnil ↦ hne ?_, hl.writing⟩
      -- the last one would have seen the counter at one
      have hlen : l.readers.length = 1 := by
        have hzero : (l.readers.erase n).length = 0 := congrArg List.length hnil
        rw [List.length_erase_of_mem hheld] at hzero
        have := List.length_pos_of_mem hheld
        omega
      rw [hl.num, hlen]
      rfl
  | wunlock hfree hheld => exact ⟨hl.num, fun _ ↦ rfl, by simp [RWMutex.wunlock,
      RWMutex.startFreeLock], by simp [RWMutex.wunlock, RWMutex.startFreeLock],
      by simp [RWMutex.wunlock, RWMutex.startFreeLock]⟩
  | handOver hcons =>
    refine ⟨hl.num, hl.locked, fun hstate hunlocked ↦ ?_, hl.reading, hl.writing⟩
    exact absurd (hl.waiting hstate hunlocked) (by simp [hcons])
  | freeLockEnd hnil =>
    exact ⟨hl.num, by simp, fun _ _ ↦ hnil, hl.reading, hl.writing⟩

theorem lockInv_init {s : Sys} (h : machine.init s) (m : MuId) : LockInv (s.lock m) := by
  obtain ⟨clock, rfl⟩ := h
  exact ⟨rfl, by simp [Sys.lock, Sys.fresh, RWMutex.created], fun _ _ ↦ rfl,
    by simp [Sys.lock, Sys.fresh, RWMutex.created], by simp [Sys.lock, Sys.fresh, RWMutex.created]⟩

theorem lockInv_of_reachable {C : Sys → Action → Prop} {s : Sys} (h : Reachable machine C s)
    (m : MuId) : LockInv (s.lock m) :=
  h.invariant (P := fun s ↦ LockInv (s.lock m)) (fun hinit ↦ lockInv_init hinit m)
    fun hl _ hstep ↦ ((Step.of_step hstep).lockEffect m).lockInv hl

/-! ## What holds while few read locks are held -/

/-- A read lock is taken only while fewer than `2 ^ 31 - 1` are held. -/
def FewReaders (s : Sys) : Action → Prop
  | .co p =>
    match (s.pros p).exec with
    | some (_, .run (.rlock m)) => (s.readers m).length + 1 < 2 ^ 31
    | _ => True
  | _ => True

instance (s : Sys) (act : Action) : Decidable (FewReaders s act) := by
  unfold FewReaders
  repeat' split
  all_goals infer_instance

/-- The three values of `state_` mean what they should. -/
structure Exclusive (l : LockState) : Prop where
  free : l.mu.state = .free → l.readers = [] ∧ l.writers = []
  reading : l.mu.state = .reading → l.writers = []
  writing : l.mu.state = .writing → l.readers = [] ∧ l.writers.length = 1

namespace Exclusive

variable {l : LockState} {n : ℕ}

theorem state_of_reader (hex : Exclusive l) (hheld : n ∈ l.readers) : l.mu.state = .reading := by
  have hne : l.readers ≠ [] := List.ne_nil_of_mem hheld
  cases hs : l.mu.state with
  | free => exact absurd (hex.free hs).1 hne
  | writing => exact absurd (hex.writing hs).1 hne
  | reading => rfl

/-- A `runlock` that sees the counter at one is the last one. -/
theorem last_reader (hex : Exclusive l) (hl : LockInv l) (hfew : l.readers.length < 2 ^ 31)
    (hheld : n ∈ l.readers) (hone : l.mu.readingNum = 1) : l.readers = [n] ∧ l.writers = [] := by
  have hlen : l.readers.length = 1 := by
    rw [hl.num] at hone
    have hnat := congrArg BitVec.toNat hone
    rw [BitVec.toNat_ofNat, Nat.mod_eq_of_lt (by omega)] at hnat
    exact hnat
  have hwriters := hex.reading (hex.state_of_reader hheld)
  obtain ⟨k, hk⟩ := List.length_eq_one_iff.mp hlen
  rw [hk, List.mem_singleton] at hheld
  exact ⟨by rw [hk, hheld], hwriters⟩

theorem only_writer (hex : Exclusive l) (hheld : n ∈ l.writers) :
    l.readers = [] ∧ l.writers = [n] := by
  have hne : l.writers ≠ [] := List.ne_nil_of_mem hheld
  have hstate : l.mu.state = .writing := by
    cases hs : l.mu.state with
    | free => exact absurd (hex.free hs).2 hne
    | reading => exact absurd (hex.reading hs) hne
    | writing => rfl
  obtain ⟨hreaders, hlen⟩ := hex.writing hstate
  obtain ⟨k, hk⟩ := List.length_eq_one_iff.mp hlen
  rw [hk, List.mem_singleton] at hheld
  exact ⟨hreaders, by rw [hk, hheld]⟩

end Exclusive

theorem LockEffect.exclusive {m : MuId} {l l' : LockState} {es : List Event}
    (h : LockEffect m l l' es) (hl : LockInv l) (hex : Exclusive l)
    (hfew : l.readers.length < 2 ^ 31) : Exclusive l' := by
  cases h with
  | keep => exact hex
  | @rlock n μ hfree hlock =>
    obtain ⟨hstate, rfl⟩ := RWMutex.rlock_eq_some hlock
    have hwriters : l.writers = [] := by
      rcases hstate with hstate | hstate
      · exact (hex.free hstate).2
      · exact hex.reading hstate
    exact ⟨by simp, fun _ ↦ hwriters, by simp⟩
  | @wlock n μ hfree hlock =>
    obtain ⟨hstate, rfl⟩ := RWMutex.wlock_eq_some hlock
    obtain ⟨hreaders, hwriters⟩ := hex.free hstate
    exact ⟨by simp, by simp, fun _ ↦ ⟨hreaders, by simp [hwriters]⟩⟩
  | park hfree hstate => exact ⟨hex.free, hex.reading, hex.writing⟩
  | @runlock n hfree hheld =>
    have hstate := hex.state_of_reader hheld
    rw [RWMutex.runlock_eq]
    split
    · next hone =>
      obtain ⟨hreaders, hwriters⟩ := hex.last_reader hl hfew hheld hone
      exact ⟨fun _ ↦ ⟨by simp [hreaders], hwriters⟩, by simp, by simp⟩
    · exact ⟨fun hs ↦ by simp [hstate] at hs, hex.reading, fun hs ↦ by simp [hstate] at hs⟩
  | @wunlock n hfree hheld =>
    obtain ⟨hreaders, hwriters⟩ := hex.only_writer hheld
    exact ⟨fun _ ↦ ⟨hreaders, by simp [hwriters]⟩, by simp [RWMutex.wunlock,
      RWMutex.startFreeLock], by simp [RWMutex.wunlock, RWMutex.startFreeLock]⟩
  | handOver hcons | freeLockEnd hnil => exact ⟨hex.free, hex.reading, hex.writing⟩

theorem Step.length_readers {s s' : Sys} {act : Action} {es : List Event} (h : Step s act s' es)
    (hguard : FewReaders s act) (m : MuId) (hfew : (s.readers m).length < 2 ^ 31) :
    (s'.readers m).length < 2 ^ 31 := by
  cases h with
  | timer hexec hpc ha hres | event hexec hpc hpCo hres =>
    rw [hres.frame.2.2.2.2.2.2.1]
    exact hfew
  | pop hexec hpc hcons hres =>
    rw [hres.frame.2.2.2.2.2.2.1]
    exact hfew
  | @rlock p x n μ c hexec hfree hlock hco =>
    simp only [FewReaders, hexec] at hguard
    by_cases hm : m = n
    · subst hm
      simpa using hguard
    · simpa [hm] using hfew
  | @runlock p x n c hexec hco hheld hfree =>
    by_cases hm : m = n
    · subst hm
      have hle : ((s.readers m).erase c.serial).length ≤ _ := List.length_erase_le
      simp only [Function.update_self]
      omega
    · simpa [hm] using hfew
  | _ => exact hfew

theorem exclusive_of_reachable {s : Sys} (h : Reachable machine FewReaders s) (m : MuId) :
    LockInv (s.lock m) ∧ Exclusive (s.lock m) ∧ (s.readers m).length < 2 ^ 31 := by
  refine h.invariant (P := fun s ↦ LockInv (s.lock m) ∧ Exclusive (s.lock m) ∧
    (s.readers m).length < 2 ^ 31) ?_ ?_
  · intro s hinit
    refine ⟨lockInv_init hinit m, ?_⟩
    obtain ⟨clock, rfl⟩ := hinit
    refine ⟨⟨fun _ ↦ ⟨rfl, rfl⟩, fun _ ↦ rfl, ?_⟩, by simp [Sys.fresh]⟩
    simp [Sys.lock, Sys.fresh, RWMutex.created]
  · rintro s s' act es ⟨hinv, hex, hfew⟩ hguard hstep
    have hs := Step.of_step hstep
    exact ⟨(hs.lockEffect m).lockInv hinv, (hs.lockEffect m).exclusive hinv hex hfew,
      hs.length_readers hguard m hfew⟩

theorem LockInv.toInt_readingNum {l : LockState} (hl : LockInv l)
    (hfew : l.readers.length < 2 ^ 31) : l.mu.readingNum.toInt = l.readers.length := by
  rw [hl.num, BitVec.toInt_eq_toNat_of_lt, BitVec.toNat_ofNat, Nat.mod_eq_of_lt]
  · omega
  · rw [BitVec.toNat_ofNat, Nat.mod_eq_of_lt] <;> omega

/-- `freeLock` begins with the last `runlock` or with the `wunlock` of the writer. -/
theorem LockEffect.begins_freeLock {m : MuId} {l l' : LockState} {es : List Event}
    (h : LockEffect m l l' es) (hl : LockInv l) (hex : Exclusive l)
    (hfew : l.readers.length < 2 ^ 31) (hunlocked : l.mu.locked = false)
    (hlocked : l'.mu.locked = true) :
    ∃ n, (l.readers = [n] ∧ l'.readers = [] ∧ l.writers = [] ∧ l'.writers = []) ∨
      (l.readers = [] ∧ l'.readers = [] ∧ l.writers = [n] ∧ l'.writers = []) := by
  cases h with
  | @runlock n hfree hheld =>
    have hone : l.mu.readingNum = 1 := by
      by_contra hne
      rw [RWMutex.runlock_eq, if_neg hne] at hlocked
      exact hfree hlocked
    obtain ⟨hreaders, hwriters⟩ := hex.last_reader hl hfew hheld hone
    exact ⟨n, .inl ⟨hreaders, by simp [hreaders], hwriters, hwriters⟩⟩
  | @wunlock n hfree hheld =>
    obtain ⟨hreaders, hwriters⟩ := hex.only_writer hheld
    exact ⟨n, .inr ⟨hreaders, hreaders, hwriters, by simp [hwriters]⟩⟩
  | rlock hfree hlock =>
    obtain ⟨-, rfl⟩ := RWMutex.rlock_eq_some hlock
    exact absurd hlocked hfree
  | wlock hfree hlock =>
    obtain ⟨-, rfl⟩ := RWMutex.wlock_eq_some hlock
    exact absurd hlocked hfree
  | park hfree hstate => exact absurd hlocked hfree
  | keep | handOver _ | freeLockEnd _ => simp_all

/-- **Exclusion**, in every run in which fewer than `2 ^ 31` read locks of a lock are held at a
time: outside a protected section the counter is the number of read locks held, a coroutine counted
once for each, and `state_` tells whether there is one writer and nobody else, readers only, or
nobody; the counter is never negative; and `freeLock` begins only with the last `runlock` or with
the `wunlock` of the writer. -/
theorem rwmutex_exclusion {s : Sys} (h : Reachable machine FewReaders s) (m : MuId) :
    ((s.mus m).locked = false →
      (s.mus m).readingNum.toInt = (s.readers m).length ∧
      ((s.readers m).Nodup → (s.mus m).readingNum.toInt = (s.readers m).toFinset.card) ∧
      ((s.mus m).state = .writing ↔ (s.writers m).length = 1) ∧
      ((s.mus m).state = .writing → s.readers m = []) ∧ (s.writers m).length ≤ 1 ∧
      ((s.mus m).state = .reading ↔ 0 < (s.mus m).readingNum.toInt) ∧
      ((s.mus m).state = .free ↔ s.readers m = [] ∧ s.writers m = [])) ∧
    0 ≤ (s.mus m).readingNum.toInt ∧
    ∀ act s' es, step s act = some (s', es) → (s.mus m).locked = false →
      (s'.mus m).locked = true → ∃ n,
        (s.readers m = [n] ∧ s'.readers m = [] ∧ s.writers m = [] ∧ s'.writers m = []) ∨
          (s.readers m = [] ∧ s'.readers m = [] ∧ s.writers m = [n] ∧ s'.writers m = []) := by
  obtain ⟨hinv, hex, hfew⟩ := exclusive_of_reachable h m
  have hnum : (s.mus m).readingNum.toInt = (s.readers m).length := hinv.toInt_readingNum hfew
  refine ⟨fun _ ↦ ⟨hnum, fun hnodup ↦ ?_, ?_⟩, by omega, fun act s' es hstep ↦
    ((Step.of_step hstep).lockEffect m).begins_freeLock hinv hex hfew⟩
  · rw [hnum, List.toFinset_card_of_nodup hnodup]
  · have hfree : (s.mus m).state = .free → s.readers m = [] ∧ s.writers m = [] := hex.free
    have hreading : (s.mus m).state = .reading → s.writers m = [] := hex.reading
    have hwriting : (s.mus m).state = .writing → s.readers m = [] ∧ (s.writers m).length = 1 :=
      hex.writing
    have hne : (s.mus m).state = .reading → s.readers m ≠ [] := hinv.reading
    rw [hnum]
    cases hstate : (s.mus m).state with
    | free =>
      obtain ⟨hr, hw⟩ := hfree hstate
      simp [hr, hw]
    | reading =>
      have hw := hreading hstate
      have hr := hne hstate
      have hpos := List.length_pos_iff.mpr hr
      simp [hr, hw, hpos]
    | writing =>
      obtain ⟨hr, hw⟩ := hwriting hstate
      have hne' : s.writers m ≠ [] := List.length_pos_iff.mp (by omega)
      simp [hr, hw, hne']

/-! ## Runs -/

def thenRlock : List Action := [.user 0 (.rlock 5), .co 0]

theorem rwmutex_exclusion_one_reader : ∃ s, Reachable machine FewReaders s ∧
    s.readers 5 = [0] ∧ (s.mus 5).readingNum.toInt = (s.readers 5).length ∧
      ((s.mus 5).state = .reading ↔ 0 < (s.mus 5).readingNum.toInt) := by
  have h : Reachable machine FewReaders
      (machine.after FewReaders (Sys.fresh 0) (toUser ++ thenRlock)).1 :=
    ⟨_, _, ⟨0, rfl⟩, run_after _⟩
  obtain ⟨hnum, -, -, -, -, hreading, -⟩ := (rwmutex_exclusion h 5).1 (by decide)
  exact ⟨_, h, by decide, hnum, hreading⟩

theorem exists_readers (k : ℕ) : ∃ s c, Reachable machine Always s ∧
    (s.pros 0).exec = some (7, .run .user) ∧ s.cos 7 = some c ∧ (s.mus 5).locked = false ∧
      ((s.mus 5).state = .free ∨ (s.mus 5).state = .reading) ∧ (s.readers 5).length = k := by
  induction k with
  | zero =>
    exact ⟨(machine.after Always (Sys.fresh 0) toUser).1, ⟨0, .running, (7, .user), 0⟩,
      ⟨_, _, ⟨0, rfl⟩, run_after _⟩, by decide, by decide, by decide, by decide, by decide⟩
  | succ k ih =>
    obtain ⟨s, c, hreach, hexec, hco, hunlocked, hstate, hlen⟩ := ih
    have hcall : machine.step s (.user 0 (.rlock 5)) =
        some (s.setExec 0 (some (7, .run (.rlock 5))), []) := by
      simp [machine, step, hexec, Sys.userStep]
    have hlock : (s.mus 5).rlock =
        some { s.mus 5 with readingNum := (s.mus 5).readingNum + 1, state := .reading } :=
      if_pos hstate
    have htake := hreach.step trivial hcall
    have hstep : machine.step (s.setExec 0 (some (7, .run (.rlock 5)))) (.co 0) = some
        ({ ((s.setExec 0 (some (7, .run (.rlock 5)))).setMu 5 { s.mus 5 with
            readingNum := (s.mus 5).readingNum + 1, state := .reading }).setExec 0
              (some (7, .run .user)) with
          readers := Function.update s.readers 5 (c.serial :: s.readers 5) }, []) := by
      simp [machine, step, Sys.coStep, Sys.setExec, hunlocked, hlock, hco]
    exact ⟨_, c, htake.step trivial hstep, by simp [Sys.setExec], hco, by simpa [Sys.setExec,
      Sys.mus_setMu] using hunlocked, by simp [Sys.setExec, Sys.mus_setMu], by simp [hlen]⟩

/-- A coroutine that takes a read lock twice is counted twice, and with `2 ^ 31` read locks held the
counter is negative. -/
theorem rwmutex_miscounts :
    (¬∀ s, Reachable machine Always s → ∀ m, (s.mus m).locked = false →
      (s.mus m).readingNum.toInt = (s.readers m).toFinset.card) ∧
    ¬∀ s, Reachable machine Always s → ∀ m, 0 ≤ (s.mus m).readingNum.toInt := by
  constructor
  · intro hall
    have h : Reachable machine Always
        (machine.after Always (Sys.fresh 0) (toUser ++ thenRlock ++ thenRlock)).1 :=
      ⟨_, _, ⟨0, rfl⟩, run_after _⟩
    exact absurd (hall _ h 5 (by decide)) (by decide)
  · intro hall
    obtain ⟨s, c, hreach, -, -, -, -, hlen⟩ := exists_readers (2 ^ 31)
    have hnum := (lockInv_of_reachable hreach 5).num
    have hneg : (BitVec.ofNat 32 (2 ^ 31)).toInt < 0 := by decide
    have hle := hall s hreach 5
    simp only [Sys.lock, hlen] at hnum
    rw [hnum] at hle
    omega

end Copnet
