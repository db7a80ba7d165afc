import Mathlib.Data.List.Chain

/-!
# Repeating a call

A caller repeats a call whose answers come one after the other, and does things in between. The
loop is run along the list of answers; a list that ends early leaves the caller waiting for its next
answer, so what is said about all lists is said about every stage of a loop that may go on forever.

`loop` is the plain form, in which what is done with an answer depends on that answer alone. Its
calls are the answers up to the first final one, and its result is that answer. Callers of another
form are compared with it through their calls and their result: `Stops` says that a caller goes on
only after answers worth a retry, and `stops_iff` says when one that goes on until a final answer
does so.
-/

namespace Retry

variable {α β ε : Type*}

/-- What a caller does with an answer. -/
inductive Verdict (ε : Type*)
  /-- Take it as the result. -/
  | done
  /-- Do `es`, then call again. -/
  | again (es : List ε)
deriving DecidableEq

def Verdict.isDone : Verdict ε → Bool
  | .done => true
  | .again _ => false

/-- What can be seen of a caller. -/
inductive Event (α ε : Type*)
  /-- The call, and its answer. -/
  | call (a : α)
  /-- Something done between two calls. -/
  | act (e : ε)
deriving DecidableEq

/-- The answers to the calls of a log. -/
def calls (log : List (Event α ε)) : List α := log.filterMap fun
  | .call a => some a
  | .act _ => none

/-- Call until an answer is taken as the result: the log, and the result once there is one. -/
def loop (verdict : α → Verdict ε) : List α → List (Event α ε) × Option α
  | [] => ([], none)
  | a :: as =>
    match verdict a with
    | .done => ([.call a], some a)
    | .again es =>
      let rest := loop verdict as
      (.call a :: (es.map .act ++ rest.1), rest.2)

/-- The answers up to the first final one. -/
def attempts (final : α → Bool) (as : List α) : List α :=
  as.takeWhile (fun a ↦ !final a) ++ (as.find? final).toList

/-- A caller that makes another call only after an answer worth a retry, and has returned after any
other. -/
structure Stops (retryable : α → Prop) (as : List α) (result : Option β) : Prop where
  /-- All answers but the last were worth a retry. -/
  retried : ∀ a ∈ as.dropLast, retryable a
  /-- An answer that is not worth a retry ends the loop. -/
  returned : ∀ a ∈ as, ¬ retryable a → result.isSome

/-! ## Calls and attempts -/

section Calls

variable {a : α} {e : ε} {log log' : List (Event α ε)} {es : List ε}

@[simp] theorem calls_nil : calls ([] : List (Event α ε)) = [] := rfl

@[simp] theorem calls_call : calls (.call a :: log) = a :: calls log := rfl

@[simp] theorem calls_act : calls (.act e :: log) = calls log := rfl

@[simp] theorem calls_append : calls (log ++ log') = calls log ++ calls log' :=
  List.filterMap_append

@[simp] theorem calls_map_act : calls (es.map .act : List (Event α ε)) = [] := by
  induction es with
  | nil => rfl
  | cons e es ih => rw [List.map_cons, calls_act, ih]

variable {final : α → Bool} {as : List α}

theorem attempts_of_final (h : final a = true) : attempts final (a :: as) = [a] := by
  rw [attempts, List.takeWhile_cons_of_neg (by rw [h]; decide), List.find?_cons_of_pos h]
  rfl

theorem attempts_of_not_final (h : final a = false) :
    attempts final (a :: as) = a :: attempts final as := by
  rw [attempts, List.takeWhile_cons_of_pos (by rw [h]; rfl),
    List.find?_cons_of_neg (by rw [h]; decide), List.cons_append, attempts]

end Calls

/-! ## The plain loop -/

section Loop

variable {verdict : α → Verdict ε} {a : α} {as : List α} {es : List ε}

theorem loop_done (h : verdict a = .done) : loop verdict (a :: as) = ([.call a], some a) := by
  rw [loop, h]

theorem loop_again (h : verdict a = .again es) :
    loop verdict (a :: as) =
      (.call a :: (es.map .act ++ (loop verdict as).1), (loop verdict as).2) := by
  rw [loop, h]

theorem calls_loop (as : List α) :
    calls (loop verdict as).1 = attempts (fun a ↦ (verdict a).isDone) as := by
  induction as with
  | nil => rfl
  | cons a as ih =>
    cases h : verdict a with
    | done => rw [loop_done h, calls_call, calls_nil, attempts_of_final (by rw [h]; rfl)]
    | again es =>
      rw [loop_again h, calls_call, calls_append, calls_map_act, List.nil_append, ih,
        attempts_of_not_final (by rw [h]; rfl)]

theorem result_loop (as : List α) :
    (loop verdict as).2 = as.find? fun a ↦ (verdict a).isDone := by
  induction as with
  | nil => rfl
  | cons a as ih =>
    cases h : verdict a with
    | done => rw [loop_done h, List.find?_cons_of_pos (by rw [h]; rfl)]
    | again es => rw [loop_again h, ih, List.find?_cons_of_neg (by rw [h]; simp [Verdict.isDone])]

end Loop

/-! ## Stopping -/

section Stops

variable {retryable : α → Prop} {final : α → Bool} {a : α} {as : List α} {result : Option β}

theorem stops_nil : Stops retryable [] result where
  retried _ ha := absurd ha List.not_mem_nil
  returned _ ha := absurd ha List.not_mem_nil

theorem stops_singleton (h : result.isSome) : Stops retryable [a] result where
  retried _ hb := absurd hb List.not_mem_nil
  returned _ _ _ := h

theorem stops_cons_iff (h : as = [] → result = none) :
    Stops retryable (a :: as) result ↔ retryable a ∧ Stops retryable as result := by
  constructor
  · rintro ⟨hret, hend⟩
    have ha : retryable a := by
      by_contra hno
      cases as with
      | nil =>
        have hsome := hend a List.mem_cons_self hno
        rw [h rfl] at hsome
        exact absurd hsome Bool.false_ne_true
      | cons b as => exact hno (hret a List.mem_cons_self)
    refine ⟨ha, ?_, ?_⟩
    · intro b hb
      cases as with
      | nil => exact absurd hb List.not_mem_nil
      | cons c as => exact hret b (List.mem_cons_of_mem _ hb)
    · intro b hb hno
      exact hend b (List.mem_cons_of_mem _ hb) hno
  · rintro ⟨ha, hret, hend⟩
    constructor
    · intro b hb
      cases as with
      | nil => exact absurd hb List.not_mem_nil
      | cons c as =>
        rcases List.mem_cons.mp hb with rfl | hb
        · exact ha
        · exact hret b hb
    · intro b hb hno
      rcases List.mem_cons.mp hb with rfl | hb
      · exact absurd ha hno
      · exact hend b hb hno

/-- **When a caller stops.** One that goes on until a final answer stops where it should if and
only if all answers before the first final one are worth a retry. -/
theorem stops_iff (as : List α) (hsome : result.isSome ↔ (as.find? final).isSome) :
    Stops retryable (attempts final as) result ↔
      ∀ a ∈ as.takeWhile (fun a ↦ !final a), retryable a := by
  induction as with
  | nil => exact iff_of_true stops_nil fun a ha ↦ absurd ha List.not_mem_nil
  | cons a as ih =>
    cases h : final a with
    | true =>
      rw [List.find?_cons_of_pos h] at hsome
      rw [attempts_of_final h, List.takeWhile_cons_of_neg (by rw [h]; decide)]
      exact iff_of_true (stops_singleton (hsome.mpr rfl)) fun b hb ↦ absurd hb List.not_mem_nil
    | false =>
      rw [List.find?_cons_of_neg (by rw [h]; decide)] at hsome
      have hend : attempts final as = [] → result = none := by
        intro hnil
        rw [attempts, List.append_eq_nil_iff] at hnil
        have hfind : as.find? final = none := by simpa using hnil.2
        rw [hfind] at hsome
        simpa using hsome
      rw [attempts_of_not_final h, List.takeWhile_cons_of_pos (by rw [h]; rfl), stops_cons_iff hend,
        ih hsome, List.forall_mem_cons]

end Stops

end Retry
