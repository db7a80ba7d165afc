import Copnet.Runtime.Affinity

/-!
# The history of a coroutine

Addresses are used again, so that two coroutines can be told apart only by the number that `new_obj`
gave them. What the events of a run say of the coroutine with a given number is an initial part of
four things, in this order: it is built, it enters its function, its function returns, and its block
goes back to the pool. `Recorded` ties these histories to the lives: the history of a coroutine that
is there is that of its stage, and the history of one that is not there any more is complete.

A pointer among the sources of a wake-up is that of a coroutine that is there and has not returned,
so none is left when a block goes back to the pool, and none can reach the next coroutine in it.
-/

open Transition Ledger

namespace Copnet

/-! ## Histories -/

/-- The number of the coroutine whose history the event belongs to. -/
def Event.serial? : Event → Option ℕ
  | .made _ n _ | .enter _ n | .ret _ _ n | .delete _ _ n => some n
  | _ => none

/-- The history of the coroutine number `n`. -/
def history (n : ℕ) (evs : List Event) : List Event := evs.filter (·.serial? = some n)

@[simp] theorem history_nil (n : ℕ) : history n [] = [] := rfl

theorem history_append (n : ℕ) (evs evs' : List Event) :
    history n (evs ++ evs') = history n evs ++ history n evs' := List.filter_append ..

theorem mem_history {n : ℕ} {evs : List Event} {ev : Event} :
    ev ∈ history n evs ↔ ev ∈ evs ∧ ev.serial? = some n := by
  simp [history]

/-- The complete history of the coroutine number `n`, which was at `a` on processor `q`. -/
def lifetime (a : Addr) (n : ℕ) (q : Pid) : List Event :=
  [.made a n q, .enter a n, .ret q a n, .delete q a n]

/-- How many events of its history a coroutine has behind it at a stage. -/
def Life.age : Life → ℕ
  | .free => 0
  | .built _ _ | .queued _ => 1
  | .exec _ _ _ | .parked _ _ => 2
  | .returned _ => 3

theorem Life.age_lt (ℓ : Life) : ℓ.age < 4 := by
  cases ℓ <;> simp [Life.age]

/-- The histories go with the lives. -/
structure Recorded (evs : List Event) (nextSerial : ℕ) (L : Addr → Life) : Prop where
  /-- A coroutine that is there. -/
  here : ∀ a c, (L a).co = some c → c.serial < nextSerial ∧
    history c.serial evs = (lifetime a c.serial c.pMyProcessor).take (L a).age
  /-- One that is not there any more. -/
  gone : ∀ n, n < nextSerial → (∃ a c, (L a).co = some c ∧ c.serial = n) ∨
    ∃ a q, history n evs = lifetime a n q
  /-- One that has not been built yet. -/
  fresh : ∀ n, nextSerial ≤ n → history n evs = []

namespace Recorded

variable {evs : List Event} {N n : ℕ} {L : Addr → Life}

theorem history_prefix (h : Recorded evs N L) (n : ℕ) :
    ∃ a q, history n evs <+: lifetime a n q := by
  rcases lt_or_ge n N with hlt | hge
  · rcases h.gone n hlt with ⟨a, c, hco, rfl⟩ | ⟨a, q, hfull⟩
    · obtain ⟨-, hhist⟩ := h.here a c hco
      exact ⟨a, c.pMyProcessor, hhist ▸ List.take_prefix ..⟩
    · exact ⟨a, q, hfull ▸ List.prefix_rfl⟩
  · exact ⟨0, 0, by simp [h.fresh n hge]⟩

theorem lt_of_mem (h : Recorded evs N L) {ev : Event} (hmem : ev ∈ history n evs) : n < N := by
  by_contra hge
  rw [h.fresh n (not_lt.mp hge)] at hmem
  exact absurd hmem List.not_mem_nil

theorem addr_eq (h : Recorded evs N L) {a b : Addr} {c d : Coroutine} (ha : (L a).co = some c)
    (hb : (L b).co = some d) (heq : c.serial = d.serial) : a = b := by
  have hhist := (h.here a c ha).2
  rw [heq, (h.here b d hb).2] at hhist
  have hhead := congrArg List.head? hhist
  have hpos : ∀ {x e}, (L x).co = some e → (L x).age ≠ 0 := fun {x e} hx ↦ by
    cases hlife : L x <;> simp_all [Life.co, Life.age]
  simp only [lifetime, List.head?_take, hpos ha, hpos hb, if_false, List.head?_cons,
    Option.some.injEq, Event.made.injEq] at hhead
  exact hhead.1.symm

end Recorded

section Steps

variable {s s' : Sys} {act : Action} {es : List Event} {L L' : Addr → Life} {a : Addr}

theorem LifeStep.age {ℓ ℓ' : Life} (h : LifeStep s act a ℓ es ℓ') {c : Coroutine}
    (hc : ℓ.co = some c) :
    (∃ c', ℓ'.co = some c' ∧ c'.serial = c.serial ∧ c'.pMyProcessor = c.pMyProcessor ∧
      (lifetime a c.serial c.pMyProcessor).take ℓ'.age =
        (lifetime a c.serial c.pMyProcessor).take ℓ.age ++ history c.serial es) ∨
      ℓ'.co = none ∧ (lifetime a c.serial c.pMyProcessor).take ℓ.age ++ history c.serial es =
        lifetime a c.serial c.pMyProcessor := by
  cases h with
  | stay => exact .inl ⟨c, hc, rfl, rfl, by simp⟩
  | make c maker hserial => simp [Life.co] at hc
  | delete c =>
    cases hc
    exact .inr ⟨rfl, by simp [Life.age, lifetime, history, Event.serial?]⟩
  | _ =>
    cases hc
    exact .inl ⟨_, rfl, rfl, rfl, by simp [Life.age, lifetime, history, Event.serial?]⟩

theorem LifeStep.serial {ℓ ℓ' : Life} (h : LifeStep s act a ℓ es ℓ') {ev : Event} (hev : ev ∈ es)
    {n : ℕ} (hn : ev.serial? = some n) :
    (∃ c, ℓ.co = some c ∧ c.serial = n) ∨ ∃ q, ev = .made a n q ∧ n = s.nextSerial := by
  cases h with
  | make c maker hserial =>
    rw [List.mem_singleton] at hev
    subst hev
    obtain rfl : c.serial = n := Option.some.inj hn
    exact .inr ⟨_, rfl, hserial⟩
  | stay => simp at hev
  | _ =>
    refine .inl ⟨_, rfl, ?_⟩
    grind [Event.serial?]

theorem LifeStep.built {ℓ ℓ' : Life} (h : LifeStep s act a ℓ es ℓ') {n : ℕ} {q : Pid}
    (hmade : .made a n q ∈ es) : es = [.made a n q] ∧
      ∃ c maker, ℓ' = .built c maker ∧ c.serial = n ∧ c.pMyProcessor = q := by
  cases h with
  | make c maker hserial =>
    simp only [List.mem_singleton, Event.made.injEq, true_and] at hmade
    obtain ⟨rfl, rfl⟩ := hmade
    exact ⟨rfl, c, maker, rfl, rfl, rfl⟩
  | _ => simp at hmade

theorem Step.nextSerial (hs : Step s act s' es) :
    s'.nextSerial = s.nextSerial ∧ (∀ a n q, .made a n q ∉ es) ∨
      s'.nextSerial = s.nextSerial + 1 ∧ ∃ a q, es = [.made a s.nextSerial q] := by
  cases hs with
  | goNewCo hexec hfree | extGoNewCo hidle hfree => exact .inr ⟨rfl, _, _, rfl⟩
  | timer hexec hpc ha hres | event hexec hpc hpCo hres | pop hexec hpc hcons hres =>
    refine .inl ⟨hres.frame.2.2.2.1, fun a n q ↦ ?_⟩
    cases hres <;> simp
  | _ => exact .inl ⟨rfl, by simp⟩

theorem Step.of_made (hs : Step s act s' es) {n : ℕ} {q : Pid} (hmade : .made a n q ∈ es) :
    n = s.nextSerial ∧ s'.nextSerial = s.nextSerial + 1 ∧ es = [.made a n q] := by
  rcases hs.nextSerial with ⟨-, hno⟩ | ⟨heq, b, r, rfl⟩
  · exact absurd hmade (hno a n q)
  · rw [List.mem_singleton] at hmade
    cases hmade
    exact ⟨rfl, heq, rfl⟩

theorem Event.inLife_of_serial {ev : Event} {n : ℕ} (h : ev.serial? = some n) :
    ∃ b, ev.inLife b = true := by
  revert h
  cases ev <;> simp [Event.serial?, Event.inLife]

theorem exists_of_event
    (hlife : ∀ a, LifeStep s act a (L a) (lifeEvents a es) (L' a)) {ev : Event} (hev : ev ∈ es)
    {n : ℕ} (hn : ev.serial? = some n) :
    (∃ b c, (L b).co = some c ∧ c.serial = n ∧ ev.inLife b = true) ∨
      ∃ b q, .made b n q ∈ es ∧ n = s.nextSerial := by
  obtain ⟨b, hb⟩ := ev.inLife_of_serial hn
  have hmem : ev ∈ lifeEvents b es := List.mem_filter.mpr ⟨hev, hb⟩
  rcases (hlife b).serial hmem hn with ⟨c, hc, hserial⟩ | ⟨q, rfl, hnext⟩
  · exact .inl ⟨b, c, hc, hserial, hb⟩
  · exact .inr ⟨b, q, hev, hnext⟩

/-- What a step adds to the history of a coroutine that is there is what its life says. -/
theorem Recorded.history_lifeEvents {evs : List Event} (h : Recorded evs s.nextSerial L)
    (hlife : ∀ a, LifeStep s act a (L a) (lifeEvents a es) (L' a)) {c : Coroutine}
    (hc : (L a).co = some c) : history c.serial (lifeEvents a es) = history c.serial es := by
  rw [history, lifeEvents, List.filter_filter]
  apply List.filter_congr
  intro ev hev
  by_cases hn : ev.serial? = some c.serial
  · rcases exists_of_event hlife hev hn with ⟨b, d, hd, hserial, hb⟩ | ⟨b, q, -, hnext⟩
    · obtain rfl := h.addr_eq hd hc hserial
      simp [hb]
    · exact absurd (h.here a c hc).1 (by omega)
  · simp [hn]

theorem history_eq_nil (hlife : ∀ a, LifeStep s act a (L a) (lifeEvents a es) (L' a)) {n : ℕ}
    (hgone : ∀ b c, (L b).co = some c → c.serial ≠ n) (hmade : ∀ b q, .made b n q ∉ es) :
    history n es = [] := by
  rw [history, List.filter_eq_nil_iff]
  intro ev hev hserial
  rcases exists_of_event hlife hev (by simpa using hserial) with ⟨b, c, hc, hn, -⟩ | ⟨b, q, hmem, -⟩
  · exact hgone b c hc hn
  · exact hmade b q hmem

theorem Recorded.history_of_co {evs : List Event} (h : Recorded evs s.nextSerial L)
    (hlife : ∀ a, LifeStep s act a (L a) (lifeEvents a es) (L' a)) {c : Coroutine}
    (hc : (L a).co = some c) :
    (∃ c', (L' a).co = some c' ∧ c'.serial = c.serial ∧ c'.pMyProcessor = c.pMyProcessor ∧
      history c.serial (evs ++ es) = (lifetime a c.serial c.pMyProcessor).take (L' a).age) ∨
      (L' a).co = none ∧ history c.serial (evs ++ es) = lifetime a c.serial c.pMyProcessor := by
  rw [history_append, (h.here a c hc).2, ← h.history_lifeEvents hlife hc]
  rcases (hlife a).age hc with ⟨c', hc', hserial, hpro, hage⟩ | ⟨hnone, hage⟩
  · exact .inl ⟨c', hc', hserial, hpro, hage.symm⟩
  · exact .inr ⟨hnone, hage⟩

theorem Recorded.history_of_made {evs : List Event} (h : Recorded evs s.nextSerial L)
    (hs : Step s act s' es) (hlife : ∀ a, LifeStep s act a (L a) (lifeEvents a es) (L' a)) {n : ℕ}
    {q : Pid} (hmade : .made a n q ∈ es) :
    ∃ c, (L' a).co = some c ∧ c.serial = n ∧ c.pMyProcessor = q ∧
      history n (evs ++ es) = (lifetime a n q).take (L' a).age := by
  obtain ⟨rfl, -, hes⟩ := hs.of_made hmade
  have hmem : .made a s.nextSerial q ∈ lifeEvents a es :=
    List.mem_filter.mpr ⟨hmade, by simp [Event.inLife]⟩
  obtain ⟨-, c, maker, hbuilt, hserial, hpro⟩ := (hlife a).built hmem
  refine ⟨c, by simp [hbuilt, Life.co], hserial, hpro, ?_⟩
  rw [history_append, h.fresh _ le_rfl, hes, hbuilt]
  simp [history, Event.serial?, lifetime, Life.age]

theorem Recorded.serial_ne {evs : List Event} {N : ℕ} (h : Recorded evs N L) {n : ℕ} {q : Pid}
    (hfull : history n evs = lifetime a n q) {b : Addr} {c : Coroutine} (hc : (L b).co = some c) :
    c.serial ≠ n := by
  rintro rfl
  have hlen := congrArg List.length ((h.here b c hc).2.symm.trans hfull)
  have hage := (L b).age_lt
  simp [lifetime] at hlen
  omega

theorem Recorded.step {evs : List Event} (h : Recorded evs s.nextSerial L)
    (hs : Step s act s' es)
    (hlife : ∀ a, LifeStep s act a (L a) (lifeEvents a es) (L' a)) :
    Recorded (evs ++ es) s'.nextSerial L' := by
  have hle : s.nextSerial ≤ s'.nextSerial := by
    rcases hs.nextSerial with ⟨heq, -⟩ | ⟨heq, -⟩ <;> omega
  refine ⟨?_, ?_, ?_⟩
  · intro a c' hc'
    rcases (hlife a).owner hc' with ⟨c, hc, -⟩ | hmem
    · rcases h.history_of_co hlife hc with ⟨c'', hc'', hserial, hpro, hhist⟩ | ⟨hnone, -⟩
      · obtain rfl := Option.some.inj (hc''.symm.trans hc')
        rw [hserial, hpro]
        exact ⟨(h.here a c hc).1.trans_le hle, hhist⟩
      · simp [hnone] at hc'
    · have hmade := List.mem_of_mem_filter hmem
      obtain ⟨hnext, hsucc, -⟩ := hs.of_made hmade
      obtain ⟨c, -, -, -, hhist⟩ := h.history_of_made hs hlife hmade
      exact ⟨by omega, hhist⟩
  · intro n hn
    rcases lt_or_ge n s.nextSerial with hlt | hge
    · rcases h.gone n hlt with ⟨a, c, hc, rfl⟩ | ⟨a, q, hfull⟩
      · rcases h.history_of_co hlife hc with ⟨c', hc', hserial, -, -⟩ | ⟨-, hhist⟩
        · exact .inl ⟨a, c', hc', hserial⟩
        · exact .inr ⟨a, _, hhist⟩
      · refine .inr ⟨a, q, ?_⟩
        have hnil : history n es = [] := by
          refine history_eq_nil hlife (fun b c hc ↦ h.serial_ne hfull hc) ?_
          intro b r hmade
          have := (hs.of_made hmade).1
          omega
        rw [history_append, hfull, hnil, List.append_nil]
    · -- the step has built it
      rcases hs.nextSerial with ⟨heq, -⟩ | ⟨heq, a, q, hes⟩
      · omega
      · have hmade : .made a s.nextSerial q ∈ es := by simp [hes]
        obtain ⟨c, hc, hserial, -⟩ := h.history_of_made hs hlife hmade
        exact .inl ⟨a, c, hc, by omega⟩
  · intro n hn
    have hnil : history n es = [] := by
      refine history_eq_nil hlife ?_ ?_
      · intro b c hc
        have := (h.here b c hc).1
        omega
      · intro b r hmade
        obtain ⟨hnext, hsucc, -⟩ := hs.of_made hmade
        omega
    rw [history_append, h.fresh n (hle.trans hn), hnil, List.append_nil]

end Steps

theorem recorded_run {s₀ s : Sys} {tr : List (Action × List Event)} (hinit : machine.init s₀)
    (h : Run machine Disciplined s₀ tr s) :
    ∃ L, Lives s L ∧ Recorded (events tr) s.nextSerial L := by
  refine h.history (P := fun tr s ↦ ∃ L, Lives s L ∧ Recorded (events tr) s.nextSerial L)
    ⟨_, lives_of_init hinit, ?_⟩ ?_
  · obtain ⟨clock, rfl⟩ := hinit
    exact ⟨by simp [Life.co], by simp [Sys.fresh], by simp⟩
  · rintro tr t u act es - ⟨L, hL, hrec⟩ hdisc hstep
    have hs := Step.of_step hstep
    obtain ⟨L', hL', hlife⟩ := hs.lives hdisc hL
    refine ⟨L', hL', ?_⟩
    rw [events_append, events_singleton]
    exact hrec.step hs hlife

end Copnet
