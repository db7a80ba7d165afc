import Copnet.Runtime.Life

/-!
# Lives of all coroutines

`Lives` gives every address its life, with what is needed of the loops besides. Of all these lives a
step changes one or two, and this module has a rule for each way in which it does: the coroutine
that executes goes on, or does something to another one, or the loop resumes one. What is left to
show of a step is what happens at the addresses it names; `Lives.of_moves` takes care of all the
others, from what the ledger says has moved.
-/

open Transition Ledger

namespace Copnet

/-- The lives at all addresses, with what is needed of the loops. -/
structure Lives (s : Sys) (L : Addr → Life) : Prop where
  fits : ∀ a, Fits s a (L a)
  /-- `pCurCoroutine_` is the coroutine that executes. -/
  current : ∀ p x code, (s.pros p).exec = some (x, code) → (s.pros p).pCurCoroutine = some x
  paced : ∀ p, (s.pros p).Paced
  cleared : ∀ p, (s.pros p).loopState.Cleared

def lifeEvents (a : Addr) (es : List Event) : List Event := es.filter (·.inLife a)

theorem lifeEvents_append (a : Addr) (es es' : List Event) :
    lifeEvents a (es ++ es') = lifeEvents a es ++ lifeEvents a es' := List.filter_append ..

@[simp] theorem lifeEvents_nil (a : Addr) : lifeEvents a [] = [] := rfl

theorem switchTo_mem_iff (a : Addr) (es : List Event) (q : Pid) :
    .switchTo q a ∈ es ↔ .switchTo q a ∈ lifeEvents a es := by
  simp [lifeEvents, Event.inLife]

section Steps

variable {s s' : Sys} {L L' : Addr → Life} {act : Action} {es : List Event}

theorem Lives.of_moves {out inn : List (Place × Addr)} (hL : Lives s L) (hs : Step s act s' es)
    (A : List Addr) (hm : Moves s.ledger s'.ledger out inn) (hA : ∀ e ∈ out ++ inn, e.2 ∈ A)
    (hL' : ∀ b, b ∉ A → L' b = L b) (hco : ∀ b, b ∉ A → s'.cos b = s.cos b)
    (hcode : ∀ b, b ∉ A → ∀ q, (s'.pros q).codeOf b = (s.pros q).codeOf b)
    (hes : ∀ b, b ∉ A → lifeEvents b es = [])
    (hcur : ∀ p x code, (s'.pros p).exec = some (x, code) →
      (s'.pros p).pCurCoroutine = some x)
    (hfit : ∀ a ∈ A, Fits s' a (L' a) ∧ LifeStep s act a (L a) (lifeEvents a es) (L' a)) :
    Lives s' L' ∧ ∀ a, LifeStep s act a (L a) (lifeEvents a es) (L' a) := by
  refine ⟨⟨fun b ↦ ?_, hcur, hs.paced hL.paced, fun p ↦ (hs.effect p).cleared (hL.cleared p)⟩,
    fun b ↦ ?_⟩
  · by_cases hb : b ∈ A
    · exact (hfit b hb).1
    · obtain ⟨hok, hcob, hplaces, hcodeb⟩ := hL.fits b
      rw [← hL' b hb] at hok hcob hplaces hcodeb
      refine ⟨hok, (hco b hb).trans hcob, hplaces.frame hm fun e he heb ↦ ?_, fun q ↦ ?_⟩
      · exact hb (heb ▸ hA e he)
      · rw [hcode b hb, hcodeb]
  · by_cases hb : b ∈ A
    · exact (hfit b hb).2
    · rw [hL' b hb, hes b hb]
      exact .stay _

/-! ### Which threads go on -/

/-- Which code executes and which coroutines are current stays the same. -/
def KeepsThreads (s u : Sys) : Prop :=
  ∀ q, (u.pros q).exec = (s.pros q).exec ∧ (u.pros q).pCurCoroutine = (s.pros q).pCurCoroutine

/-- Of the threads only that of `p` goes on, to `e`, and with the same current coroutine. -/
structure MovesThread (s s' : Sys) (p : Pid) (e : Option (Addr × Code)) : Prop where
  self : (s'.pros p).exec = e
  others : ∀ q, q ≠ p → (s'.pros q).exec = (s.pros q).exec
  current : ∀ q, (s'.pros q).pCurCoroutine = (s.pros q).pCurCoroutine

section Threads

variable {u : Sys} {p : Pid} {e : Option (Addr × Code)}

theorem keepsThreads_of_eq (h : s'.pros = s.pros) : KeepsThreads s s' :=
  fun q ↦ by rw [h]; exact ⟨rfl, rfl⟩

theorem keepsThreads_setPro {P : Processor} (hpros : s'.pros = (s.setPro p P).pros)
    (hexec : P.exec = (s.pros p).exec) (hcur : P.pCurCoroutine = (s.pros p).pCurCoroutine) :
    KeepsThreads s s' := by
  intro q
  by_cases hq : q = p
  · rw [hq, hpros, Sys.pros_setPro_self]
    exact ⟨hexec, hcur⟩
  · rw [hpros, Sys.pros_setPro_of_ne _ _ _ hq]
    exact ⟨rfl, rfl⟩

theorem keepsThreads_goCoBatch (s : Sys) (q : Pid) (cos : List Addr) :
    KeepsThreads s (s.goCoBatch q cos) := keepsThreads_setPro rfl rfl rfl

theorem keepsThreads_finishCall (s : Sys) (q : Pid) (call : ℕ) :
    KeepsThreads s (s.finishCall q call) := keepsThreads_setPro rfl rfl rfl

namespace MovesThread

theorem of_setExec (hu : KeepsThreads s u) (hpros : s'.pros = (u.setExec p e).pros) :
    MovesThread s s' p e := by
  refine ⟨by rw [hpros, Sys.pros_setExec_self], ?_, ?_⟩
  · intro q hq
    rw [hpros, Sys.pros_setExec_of_ne _ _ _ hq, (hu q).1]
  · intro q
    rw [hpros]
    by_cases hq : q = p
    · rw [hq, Sys.pros_setExec_self]
      exact (hu p).2
    · rw [Sys.pros_setExec_of_ne _ _ _ hq, (hu q).2]

theorem of_setPro {P : Processor} (hpros : s'.pros = (s.setPro p P).pros) (hexec : P.exec = e)
    (hcur : P.pCurCoroutine = (s.pros p).pCurCoroutine) : MovesThread s s' p e := by
  refine ⟨by rw [hpros, Sys.pros_setPro_self, hexec], ?_, ?_⟩
  · intro q hq
    rw [hpros, Sys.pros_setPro_of_ne _ _ _ hq]
  · intro q
    rw [hpros]
    by_cases hq : q = p
    · rw [hq, Sys.pros_setPro_self, hcur]
    · rw [Sys.pros_setPro_of_ne _ _ _ hq]

variable {x b : Addr} {code code' : Code}

theorem currents (h : MovesThread s s' p e) (he : ∀ y code, e = some (y, code) → y = x)
    (hexec : (s.pros p).exec = some (x, code)) (hL : Lives s L) (q : Pid) (y : Addr)
    (code' : Code) (hy : (s'.pros q).exec = some (y, code')) :
    (s'.pros q).pCurCoroutine = some y := by
  rw [h.current]
  by_cases hq : q = p
  · subst hq
    rw [h.self] at hy
    rw [he y code' hy]
    exact hL.current q x code hexec
  · exact hL.current q y code' (by rw [← h.others q hq, hy])

theorem codeOf_of_ne (h : MovesThread s s' p e) (he : ∀ y code, e = some (y, code) → y = x)
    (hexec : (s.pros p).exec = some (x, code)) (hb : b ≠ x) (q : Pid) :
    (s'.pros q).codeOf b = (s.pros q).codeOf b := by
  by_cases hq : q = p
  · subst hq
    simp only [Processor.codeOf, h.self, hexec, if_neg hb.symm]
    cases e with
    | none => rfl
    | some r => simp [he r.1 r.2 rfl, hb.symm]
  · rw [Processor.codeOf, Processor.codeOf, h.others q hq]

theorem eq_of_some (y : Addr) (code₁ : Code) (h : some (x, code') = some (y, code₁)) : y = x :=
  ((Prod.mk.injEq ..).mp (Option.some.inj h)).1.symm

theorem codeOf_self (h : MovesThread s s' p e) {c : Coroutine} {src : Source} {ℓ : Life}
    (hx : Fits s x (.exec c code src)) (hp : c.pMyProcessor = p)
    (hon : ∀ q, ℓ.codeOn q = if q = p then Processor.codeOf { s.pros p with exec := e } x else none)
    (q : Pid) : (s'.pros q).codeOf x = ℓ.codeOn q := by
  rw [hon]
  split
  · next hq =>
    subst hq
    simp [Processor.codeOf, h.self]
  · next hq =>
    rw [Processor.codeOf, h.others q hq, ← Processor.codeOf, hx.code, Life.codeOn, hp, if_neg hq]

end MovesThread

end Threads

/-! ### Which lives change -/

theorem Lives.of_nil (hL : Lives s L) (hs : Step s act s' es) (hm : Moves s.ledger s'.ledger [] [])
    (hco : s'.cos = s.cos) (ht : KeepsThreads s s') (hes : ∀ b, lifeEvents b es = []) :
    ∃ L', Lives s' L' ∧ ∀ a, LifeStep s act a (L a) (lifeEvents a es) (L' a) := by
  refine ⟨L, hL.of_moves hs [] hm (by simp) (fun _ _ ↦ rfl) (fun b _ ↦ by rw [hco])
    (fun b _ q ↦ by rw [Processor.codeOf, Processor.codeOf, (ht q).1]) (fun b _ ↦ hes b)
    (fun p x code h ↦ ?_) (by simp)⟩
  rw [(ht p).2]
  exact hL.current p x code (by rw [← (ht p).1, h])

theorem Lives.executing (hL : Lives s L) {p : Pid} {x : Addr} {code : Code}
    (hexec : (s.pros p).exec = some (x, code)) :
    ∃ c src, L x = .exec c code src ∧ c.pMyProcessor = p ∧ s.cos x = some c ∧
      (s.pros p).pCurCoroutine = some x ∧ c.status = code.status ∧ code.Allows src := by
  obtain ⟨c, src, hx, hp⟩ := (hL.fits x).of_exec hexec
  have hco := (hL.fits x).co
  have hok := (hL.fits x).ok
  rw [hx] at hco hok
  exact ⟨c, src, hx, hp, hco, hL.current p x code hexec, hok⟩

theorem Lives.of_thread {out inn : List (Place × Addr)} {p : Pid} {x : Addr} {c : Coroutine}
    {code : Code} {src : Source} {e : Option (Addr × Code)} {ℓ : Life} (hL : Lives s L)
    (hs : Step s act s' es) (hexec : (s.pros p).exec = some (x, code))
    (hx : L x = .exec c code src) (ht : MovesThread s s' p e)
    (he : ∀ y code, e = some (y, code) → y = x) (hok : ℓ.Ok x) (hco : s'.cos x = ℓ.co)
    (hcos : ∀ b, b ≠ x → s'.cos b = s.cos b)
    (hon : ∀ q, ℓ.codeOn q = if q = p then Processor.codeOf { s.pros p with exec := e } x else none)
    (hm : Moves s.ledger s'.ledger out inn) (hout : ∀ e ∈ out ++ inn, e.2 = x)
    (hcount : ∀ y, ℓ.places.count y + out.count (y, x) =
      (Life.exec c code src).places.count y + inn.count (y, x))
    (hstep : LifeStep s act x (.exec c code src) (lifeEvents x es) ℓ)
    (hes : ∀ b, b ≠ x → lifeEvents b es = []) :
    ∃ L', Lives s' L' ∧ ∀ a, LifeStep s act a (L a) (lifeEvents a es) (L' a) := by
  have hfx := hL.fits x
  rw [hx] at hfx
  have hp : c.pMyProcessor = p := by
    obtain ⟨c₁, src₁, heq, hp⟩ := hfx.of_exec hexec
    cases heq
    exact hp
  refine ⟨Function.update L x ℓ, hL.of_moves hs [x] hm (by simpa using hout)
    (fun b hb ↦ Function.update_of_ne (by simpa using hb) _ _)
    (fun b hb ↦ hcos b (by simpa using hb))
    (fun b hb ↦ ht.codeOf_of_ne he hexec (by simpa using hb)) (fun b hb ↦ hes b (by simpa using hb))
    (ht.currents he hexec hL) fun b hb ↦ ?_⟩
  obtain rfl : b = x := by simpa using hb
  rw [Function.update_self, hx]
  exact ⟨⟨hok, hco, hfx.places.moves hm hcount, ht.codeOf_self hfx hp hon⟩, hstep⟩

/-- The coroutine `x` that executes on `p` goes on in its code, and its source may change. -/
theorem Lives.of_exec {out inn : List (Place × Addr)} {p : Pid} {x : Addr} {c c' : Coroutine}
    {code code' : Code} {src src' : Source} (hL : Lives s L) (hs : Step s act s' es)
    (hx : L x = .exec c code src) (hexec : (s.pros p).exec = some (x, code))
    (ht : MovesThread s s' p (some (x, code'))) (hco : s'.cos x = some c')
    (hcos : ∀ b, b ≠ x → s'.cos b = s.cos b) (hpro : c'.pMyProcessor = c.pMyProcessor)
    (hok : (Life.exec c' code' src').Ok x) (hm : Moves s.ledger s'.ledger out inn)
    (hout : ∀ e ∈ out ++ inn, e.2 = x)
    (hcount : ∀ y, (src'.places c.pMyProcessor).count y + out.count (y, x) =
      (src.places c.pMyProcessor).count y + inn.count (y, x))
    (hstep : LifeStep s act x (.exec c code src) (lifeEvents x es) (.exec c' code' src'))
    (hes : ∀ b, b ≠ x → lifeEvents b es = []) :
    ∃ L', Lives s' L' ∧ ∀ a, LifeStep s act a (L a) (lifeEvents a es) (L' a) := by
  have hp : c.pMyProcessor = p := by
    obtain ⟨c₁, src₁, hx₁, hp, -⟩ := hL.executing hexec
    rw [hx] at hx₁
    cases hx₁
    exact hp
  refine hL.of_thread hs hexec hx ht MovesThread.eq_of_some hok hco hcos (fun q ↦ ?_) hm hout
    (fun y ↦ ?_) hstep hes
  · simp [Life.codeOn, Processor.codeOf, hpro, hp]
  · have := hcount y
    simp only [Life.places, hpro, List.count_cons]
    omega

theorem Lives.of_code {p : Pid} {x : Addr} {code code' : Code} (hL : Lives s L)
    (hs : Step s act s' es) (hexec : (s.pros p).exec = some (x, code))
    (ht : MovesThread s s' p (some (x, code'))) (hcos : s'.cos = s.cos)
    (hm : Moves s.ledger s'.ledger [] []) (hstatus : code'.status = code.status)
    (hallows : ∀ src, code.Allows src → code'.Allows src)
    (hgoes : code'.goesOnAt = code.goesOnAt) (hes : ∀ b, lifeEvents b es = []) :
    ∃ L', Lives s' L' ∧ ∀ a, LifeStep s act a (L a) (lifeEvents a es) (L' a) := by
  obtain ⟨c, src, hx, hp, hco, hcur, hst, hallow⟩ := hL.executing hexec
  have hc : { c with status := code'.status } = c := by rw [hstatus, ← hst]
  have hstep : LifeStep s act x (.exec c code src) []
      (.exec { c with status := code'.status } code' src) := .code c code code' src hgoes
  rw [hc] at hstep
  exact hL.of_exec hs hx hexec ht (by rw [hcos, hco]) (fun b _ ↦ by rw [hcos]) rfl
    ⟨by rw [hst, hstatus], hallows src hallow⟩ hm (by simp) (by simp) (by rwa [hes]) fun b _ ↦ hes b

theorem Lives.of_yield {p : Pid} {x a : Addr} {c : Coroutine} {code code' : Code}
    (hL : Lives s L) (hs : Step s act s' []) (hexec : (s.pros p).exec = some (x, code))
    (hcur : (s.pros p).pCurCoroutine = some a) (hco : s.cos a = some c)
    (hs' : s' = (s.setCo a (some { c with status := code'.status })).setExec p (some (x, code')))
    (hold : inHand (some (x, code)) = none) (hnew : inHand (some (x, code')) = none)
    (hallows : ∀ src, code.Allows src → code'.Allows src)
    (hgoes : code'.goesOnAt = code.goesOnAt) :
    ∃ L', Lives s' L' ∧ ∀ b, LifeStep s act b (L b) (lifeEvents b []) (L' b) := by
  obtain ⟨c₁, src, hx, hp, hco₁, hcur₁, hst, hallow⟩ := hL.executing hexec
  obtain rfl : x = a := Option.some.inj (hcur₁.symm.trans hcur)
  obtain rfl : c₁ = c := Option.some.inj (hco₁.symm.trans hco)
  subst hs'
  have hm : Moves s.ledger ((s.setCo x (some { c₁ with status := code'.status })).setExec p
      (some (x, code'))).ledger [] [] :=
    (Moves.of_eq (ledger_congr rfl rfl rfl)).trans (moves_setExec_nil hexec hold hnew)
  have hstep : LifeStep s act x (.exec c₁ code src) []
      (.exec { c₁ with status := code'.status } code' src) := .code c₁ code code' src hgoes
  refine hL.of_exec hs hx hexec (.of_setExec (keepsThreads_of_eq (Sys.pros_setCo ..)) rfl) ?_
    (fun b hb ↦ ?_) ?_ ?_ hm (by simp) (by simp) hstep fun _ _ ↦ rfl
  · simp [Sys.setExec]
  · simp [Sys.setExec, Sys.cos_setCo, hb]
  · rfl
  · exact ⟨rfl, hallows src hallow⟩

/-- No thread in the scheduler moves, and of the coroutines only `a` is affected, which does not
execute anything new. -/
theorem Lives.of_other {out inn : List (Place × Addr)} {a : Addr} {ℓ : Life} (hL : Lives s L)
    (hs : Step s act s' es) (ht : KeepsThreads s s') (hok : ℓ.Ok a) (hco : s'.cos a = ℓ.co)
    (hcos : ∀ b, b ≠ a → s'.cos b = s.cos b) (hon : ∀ q, ℓ.codeOn q = (L a).codeOn q)
    (hm : Moves s.ledger s'.ledger out inn) (hout : ∀ e ∈ out ++ inn, e.2 = a)
    (hcount : ∀ y, ℓ.places.count y + out.count (y, a) =
      (L a).places.count y + inn.count (y, a))
    (hstep : LifeStep s act a (L a) (lifeEvents a es) ℓ)
    (hes : ∀ b, b ≠ a → lifeEvents b es = []) :
    ∃ L', Lives s' L' ∧ ∀ a, LifeStep s act a (L a) (lifeEvents a es) (L' a) := by
  have hcode : ∀ b q, (s'.pros q).codeOf b = (s.pros q).codeOf b := fun b q ↦ by
    rw [Processor.codeOf, Processor.codeOf, (ht q).1]
  refine ⟨Function.update L a ℓ, hL.of_moves hs [a] hm (by simpa using hout)
    (fun b hb ↦ Function.update_of_ne (by simpa using hb) _ _)
    (fun b hb ↦ hcos b (by simpa using hb)) (fun b _ ↦ hcode b)
    (fun b hb ↦ hes b (by simpa using hb)) (fun p x code h ↦ ?_) fun b hb ↦ ?_⟩
  · rw [(ht p).2]
    exact hL.current p x code (by rw [← (ht p).1, h])
  · obtain rfl : b = a := by simpa using hb
    rw [Function.update_self]
    refine ⟨⟨hok, hco, (hL.fits b).places.moves hm hcount, fun q ↦ ?_⟩, hstep⟩
    rw [hcode, (hL.fits b).code, hon]

theorem Lives.of_code_other {out inn : List (Place × Addr)} {p : Pid} {x a : Addr}
    {code code' : Code} {ℓ : Life} (hL : Lives s L) (hs : Step s act s' es)
    (hexec : (s.pros p).exec = some (x, code)) (ht : MovesThread s s' p (some (x, code')))
    (hax : a ≠ x) (hcos : ∀ b, b ≠ a → s'.cos b = s.cos b) (hstatus : code'.status = code.status)
    (hallows : ∀ src, code.Allows src → code'.Allows src)
    (hgoes : code'.goesOnAt = code.goesOnAt) (hok : ℓ.Ok a)
    (hco : s'.cos a = ℓ.co) (hon : ∀ q, ℓ.codeOn q = (L a).codeOn q)
    (hm : Moves s.ledger s'.ledger out inn) (hout : ∀ e ∈ out ++ inn, e.2 = a)
    (hcount : ∀ y, ℓ.places.count y + out.count (y, a) =
      (L a).places.count y + inn.count (y, a))
    (hstep : LifeStep s act a (L a) (lifeEvents a es) ℓ)
    (hes : ∀ b, b ≠ a → lifeEvents b es = []) :
    ∃ L', Lives s' L' ∧ ∀ a, LifeStep s act a (L a) (lifeEvents a es) (L' a) := by
  obtain ⟨c, src, hx, hp, hcox, hcur, hst, hallow⟩ := hL.executing hexec
  have hfx := hL.fits x
  rw [hx] at hfx
  have hc : { c with status := code'.status } = c := by rw [hstatus, ← hst]
  have hxstep : LifeStep s act x (.exec c code src) []
      (.exec { c with status := code'.status } code' src) := .code c code code' src hgoes
  rw [hc] at hxstep
  refine ⟨Function.update (Function.update L x (.exec c code' src)) a ℓ,
    hL.of_moves hs [x, a] hm (fun e he ↦ by simp [hout e he]) (fun b hb ↦ ?_)
    (fun b hb ↦ hcos b fun h ↦ hb (by simp [h]))
    (fun b hb ↦ ht.codeOf_of_ne MovesThread.eq_of_some hexec fun h ↦ hb (by simp [h]))
    (fun b hb ↦ hes b fun h ↦ hb (by simp [h])) (ht.currents MovesThread.eq_of_some hexec hL)
    fun b hb ↦ ?_⟩
  · rw [Function.update_of_ne (fun h ↦ hb (by simp [h])),
      Function.update_of_ne (fun h ↦ hb (by simp [h]))]
  · by_cases hba : b = a
    · subst hba
      rw [Function.update_self]
      refine ⟨⟨hok, hco, (hL.fits b).places.moves hm hcount, fun q ↦ ?_⟩, hstep⟩
      rw [ht.codeOf_of_ne MovesThread.eq_of_some hexec hax, (hL.fits b).code, hon]
    · obtain rfl : b = x := by simpa [hba] using hb
      rw [Function.update_of_ne hba, Function.update_self, hx, hes b hba]
      refine ⟨⟨⟨by rw [hst, hstatus], hallows src hallow⟩, by rw [hcos b hba, hcox]; rfl,
        hfx.places.frame hm fun e he heb ↦ ?_, ht.codeOf_self hfx hp fun q ↦ ?_⟩, hxstep⟩
      · exact hba (heb.symm.trans (hout e he))
      · simp [Life.codeOn, Processor.codeOf, hp]

theorem Lives.of_switch {u : Sys} {out inn : List (Place × Addr)} {p : Pid} {a : Addr}
    {c : Coroutine} {k : Point} {src : Source} (hL : Lives s L) (hs : Step s act s' es)
    (hexec : (s.pros p).exec = none) (hnot : ∀ c code src, L a ≠ .exec c code src)
    (hu : ∀ q, q ≠ p → u.pros q = s.pros q) (hcos : ∀ b, b ≠ a → u.cos b = s.cos b)
    (hs' : s' = ((u.setCur p a).setCo a (some c)).setExec p (some (a, .run k)))
    (hp : c.pMyProcessor = p) (hok : (Life.exec c (.run k) src).Ok a)
    (hm : Moves s.ledger s'.ledger out inn) (hout : ∀ e ∈ out ++ inn, e.2 = a)
    (hcount : ∀ y, (Life.exec c (.run k) src).places.count y + out.count (y, a) =
      (L a).places.count y + inn.count (y, a))
    (hstep : LifeStep s act a (L a) (lifeEvents a es) (.exec c (.run k) src))
    (hes : ∀ b, b ≠ a → lifeEvents b es = []) :
    ∃ L', Lives s' L' ∧ ∀ b, LifeStep s act b (L b) (lifeEvents b es) (L' b) := by
  have hself : s'.pros p = { u.pros p with pCurCoroutine := some a, exec := some (a, .run k) } := by
    simp [hs', Sys.setCur, Sys.setExec]
  have hne : ∀ q, q ≠ p → s'.pros q = s.pros q := fun q hq ↦ by
    simp [hs', Sys.setCur, Sys.setExec, Sys.pros_setPro_of_ne _ _ _ hq, hu q hq]
  refine ⟨Function.update L a (.exec c (.run k) src), hL.of_moves hs [a] hm (by simpa using hout)
    (fun b hb ↦ Function.update_of_ne (by simpa using hb) _ _) (fun b hb ↦ ?_) (fun b hb q ↦ ?_)
    (fun b hb ↦ hes b (by simpa using hb)) ?_ ?_⟩
  · have hb' : b ≠ a := by simpa using hb
    simp [hs', Sys.setCur, Sys.setExec, Sys.cos_setCo, hb', hcos b hb']
  · have hb' : b ≠ a := by simpa using hb
    by_cases hq : q = p
    · subst hq
      simp [Processor.codeOf, hself, hexec, hb'.symm]
    · rw [hne q hq]
  · intro q y code hy
    by_cases hq : q = p
    · subst hq
      rw [hself] at hy ⊢
      obtain ⟨rfl, -⟩ := hy
      rfl
    · rw [hne q hq] at hy ⊢
      exact hL.current q y code hy
  · intro b hb
    obtain rfl : b = a := by simpa using hb
    rw [Function.update_self]
    refine ⟨⟨hok, ?_, (hL.fits b).places.moves hm hcount, fun q ↦ ?_⟩, hstep⟩
    · simp [hs', Sys.setExec, Life.co]
    · by_cases hq : q = p
      · subst hq
        simp [Processor.codeOf, hself, Life.codeOn, hp]
      · have hold := (hL.fits b).code q
        rw [hne q hq, hold, Life.codeOn, hp, if_neg hq]
        cases hb : L b with
        | exec c code src => exact absurd hb (hnot c code src)
        | _ => rfl

/-- What a suspended coroutine goes on with is in order once it has been taken from its source. -/
theorem Point.allows_taken {k : Point} {src : Source} (h : k.Allows src) (hsrc : src ≠ .idle) :
    (Code.run k).Allows src.taken := by
  cases k with
  | user => rw [h]; rfl
  | rlock m | wlock m => rcases h with rfl | rfl <;> rfl
  | removeEv fd =>
    rcases h with ⟨collected, rfl⟩ | rfl
    · rfl
    · exact absurd rfl hsrc

theorem Lives.of_resumes_parked {P : Processor} {out : List (Place × Addr)} {p : Pid} {a : Addr}
    {c : Coroutine} {src : Source} {evs : List Event} (pre : List Event) (hL : Lives s L)
    (hs : Step s act s' (pre ++ evs)) (hexec : (s.pros p).exec = none)
    (hres : Resumes (s.setPro p P) p (some a) s' evs)
    (hm : Moves s.ledger (s.setPro p P).ledger out []) (hP : P.exec = none)
    (ha : L a = .parked c src) (hp : c.pMyProcessor = p) (hsrc : src ≠ .idle)
    (hset : a ∈ P.coSet) (hout : ∀ e ∈ out, e.2 = a)
    (hcount : ∀ y, (src.taken.places p).count y + out.count (y, a) = (src.places p).count y)
    (hstep : LifeStep s act a (.parked c src) (lifeEvents a pre ++ [.switchTo p a])
      (.exec { c with status := .running } (.run c.ctx.2) src.taken))
    (hpre : ∀ b, b ≠ a → lifeEvents b pre = []) :
    ∃ L', Lives s' L' ∧ ∀ b, LifeStep s act b (L b) (lifeEvents b (pre ++ evs)) (L' b) := by
  have hfit := hL.fits a
  rw [ha] at hfit
  obtain ⟨hst, hctx, hallow⟩ := hfit.ok
  have hco : (s.setPro p P).cos a = some c := hfit.co
  cases hres with
  | unknown hno => exact absurd (by simpa using hset) hno
  | start _ hco' hready _ =>
    rw [hco] at hco'
    cases hco'
    simp [hst] at hready
  | drop _ hco' _ hwaiting =>
    rw [hco] at hco'
    cases hco'
    exact absurd hst hwaiting
  | goOn _ hco' hwaiting =>
    rw [hco] at hco'
    cases hco'
    rw [hctx] at hs ⊢
    refine hL.of_switch hs hexec (by simp [ha]) (fun q hq ↦ Sys.pros_setPro_of_ne _ _ _ hq)
      (fun b _ ↦ rfl) rfl hp ⟨rfl, Point.allows_taken hallow hsrc⟩
      (hm.trans (moves_switch _ (by simpa using hP))) (by simpa using hout) (fun y ↦ ?_) ?_ ?_
    · have := hcount y
      simp only [Life.places, ha, hp, List.count_cons, List.append_nil, List.count_nil]
      omega
    · rw [ha, lifeEvents_append]
      simpa [lifeEvents, Event.inLife] using hstep
    · intro b hb
      rw [lifeEvents_append, hpre b hb, List.nil_append]
      simp [lifeEvents, Event.inLife, hb.symm]

theorem Lives.of_resumes_queued {P : Processor} {p : Pid} {a : Addr} {c : Coroutine} {rq : Bool}
    {evs : List Event} (hL : Lives s L) (hs : Step s act s' (.pop p rq a :: evs))
    (hexec : (s.pros p).exec = none) (hres : Resumes (s.setPro p P) p (some a) s' evs)
    (hm : Moves s.ledger (s.setPro p P).ledger [(.pro p .queue, a)] [(.pro p .inSet, a)])
    (hP : P.exec = none) (ha : L a = .queued c) (hp : c.pMyProcessor = p) (hset : a ∈ P.coSet) :
    ∃ L', Lives s' L' ∧
      ∀ b, LifeStep s act b (L b) (lifeEvents b (.pop p rq a :: evs)) (L' b) := by
  have hfit := hL.fits a
  rw [ha] at hfit
  have hst : c.status = .ready := hfit.ok
  have hco : (s.setPro p P).cos a = some c := hfit.co
  cases hres with
  | unknown hno => exact absurd (by simpa using hset) hno
  | drop _ hco' hready _ =>
    rw [hco] at hco'
    cases hco'
    exact absurd hst hready
  | goOn _ hco' hwaiting =>
    rw [hco] at hco'
    cases hco'
    simp [hst] at hwaiting
  | start _ hco' hready hcur =>
    rw [hco] at hco'
    cases hco'
    rw [hp, Sys.setCur, Sys.pros_setPro_self] at hcur
    obtain rfl := Option.some.inj hcur
    have hstep : LifeStep s act a (L a) (lifeEvents a [.pop p rq a, .resume p (some a),
        .switchTo p a, .enter a c.serial]) (.exec { c with status := .running, ctx := (a, .user) }
        (.run .user) .idle) := by
      simpa [ha, ← hp, lifeEvents, Event.inLife] using .enter c rq
    refine hL.of_switch hs hexec (by simp [ha]) (fun q hq ↦ Sys.pros_setPro_of_ne _ _ _ hq)
      (fun b _ ↦ rfl) rfl hp ⟨rfl, rfl⟩ (hm.trans (moves_switch _ (by simpa using hP))) (by simp)
      (fun y ↦ ?_) hstep ?_
    · simp [Life.places, Source.places, ha, hp, List.count_cons]
      omega
    · intro b hb
      simp [lifeEvents, Event.inLife, hb.symm]

end Steps

end Copnet
