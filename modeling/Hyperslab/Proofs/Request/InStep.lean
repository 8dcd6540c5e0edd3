import Hyperslab.Proofs.Request.Traffic

/-!
# Computations in step

Two computations on one source are in step if they issue the same requests, after activities that
make no difference to the answers of the source, and come to results that are related. What they
report may differ. A computation that is in step with itself so comes to one result after all such
activities. Each way to build a computation has one rule.

## Main definitions

- `SameResult`: related values or one error
- `InStep`: the same requests, and related results
- `SourceM.Agree`: the same for computations that may fail

## Main statements

- `InStep.bind`, `SourceM.Agree.bind`: computations after others
- `SourceM.Agree.foldlM`: steps after one another
-/

namespace Hyperslab

/-- Two values that are related, or one error. -/
inductive SameResult {ε α β : Type} (R : α → β → Prop) : Except ε α → Except ε β → Prop where
  | ok {v : α} {v' : β} (h : R v v') : SameResult R (.ok v) (.ok v')
  | error (e : ε) : SameResult R (.error e) (.error e)

/-- The first parts are equal and the second ones related. -/
def FirstSame {α σ τ : Type} (R : σ → τ → Prop) (p : α × σ) (q : α × τ) : Prop :=
  p.1 = q.1 ∧ R p.2 q.2

theorem SameResult.eq {ε α : Type} {r r' : Except ε α} (h : SameResult (· = ·) r r') : r = r' := by
  cases h with
  | ok h => rw [h]
  | error e => rfl

theorem SameResult.refl {ε α : Type} (r : Except ε α) : SameResult (· = ·) r r := by
  cases r with
  | ok v => exact .ok rfl
  | error e => exact .error e

theorem SameResult.mapError {ε ε' α β : Type} {R : α → β → Prop} (f : ε → ε') {r : Except ε α}
    {r' : Except ε β} (h : SameResult R r r') : SameResult R (r.mapError f) (r'.mapError f) := by
  cases h with
  | ok h => exact .ok h
  | error e => exact .error (f e)

/-- Wherever the source answers alike, the computations issue the same requests, and their results
are related. -/
def InStep {α β : Type} (source : ByteSource) (R : α → β → Prop) (m : StateM Activity α)
    (m' : StateM Activity β) : Prop :=
  ∀ a a', a.AnsweredAlike source a' → ∃ issued, (m a).2.traffic = (a.after source issued).traffic ∧
    (m' a').2.traffic = (a'.after source issued).traffic ∧ R (m a).1 (m' a').1

namespace InStep

variable {α α' β β' : Type} {source : ByteSource} {R : α → α' → Prop} {Q : β → β' → Prop}

/-- Computations without requests. -/
theorem of_silent {m : StateM Activity α} {m' : StateM Activity α'}
    (h : ∀ a, (m a).2.traffic = a.traffic) (h' : ∀ a, (m' a).2.traffic = a.traffic)
    (hresult : ∀ a a', R (m a).1 (m' a').1) : InStep source R m m' := by
  intro a a' _
  exact ⟨[], h a, h' a', hresult a a'⟩

protected theorem pure {v : α} {v' : α'} (h : R v v') : InStep source R (pure v) (pure v') := by
  apply of_silent
  · intro a
    rfl
  · intro a
    rfl
  · intro a a'
    exact h

/-- The second computations start with results that are related. -/
protected theorem bind {m : StateM Activity α} {m' : StateM Activity α'}
    {f : α → StateM Activity β} {f' : α' → StateM Activity β'} (hm : InStep source R m m')
    (hf : ∀ v v', R v v' → InStep source Q (f v) (f' v')) :
    InStep source Q (m >>= f) (m' >>= f') := by
  intro a a' halike
  obtain ⟨issued, htraffic, htraffic', hresult⟩ := hm a a' halike
  obtain ⟨more, hmore, hmore', hresult⟩ :=
    hf _ _ hresult (m a).2 (m' a').2 (halike.after htraffic htraffic')
  refine ⟨issued ++ more, ?_, ?_, hresult⟩
  · rw [Activity.after_append]
    exact hmore.trans (Activity.traffic_after more htraffic)
  · rw [Activity.after_append]
    exact hmore'.trans (Activity.traffic_after more htraffic')

/-- From one activity on, the same is requested. -/
theorem traffic {m : StateM Activity α} {m' : StateM Activity α'} (h : InStep source R m m')
    {a a' : Activity} (ha : a.traffic = a'.traffic) : (m a).2.traffic = (m' a').2.traffic := by
  obtain ⟨issued, htraffic, htraffic', -⟩ :=
    h a a' (.of_requests_eq (Activity.requests_eq ha))
  rw [htraffic, htraffic']
  exact Activity.traffic_after issued ha

theorem result {m : StateM Activity α} {m' : StateM Activity α'} (h : InStep source R m m')
    {a a' : Activity} (halike : a.AnsweredAlike source a') : R (m a).1 (m' a').1 := by
  obtain ⟨-, -, -, hresult⟩ := h a a' halike
  exact hresult

end InStep

namespace SourceM

variable {ε ε' α α' β β' τ : Type} {source : ByteSource} {R : α → α' → Prop} {Q : β → β' → Prop}

/-- The computations issue the same requests, and come to values that are related or to one
error. -/
def Agree (source : ByteSource) (R : α → α' → Prop) (x : SourceM ε α) (x' : SourceM ε α') : Prop :=
  InStep source (SameResult R) x.run x'.run

namespace Agree

protected theorem pure {v : α} {v' : α'} (h : R v v') :
    Agree source R (pure v : SourceM ε α) (pure v') :=
  InStep.pure (.ok h)

protected theorem throw (e : ε) :
    Agree source R (throw e : SourceM ε α) (throw e : SourceM ε α') :=
  InStep.pure (.error e)

/-- Nothing that follows an error is reached. -/
theorem throw_bind (e : ε) (f : α → SourceM ε β) (f' : α' → SourceM ε β') :
    Agree source Q (throw e >>= f) (throw e >>= f') :=
  InStep.pure (.error e)

protected theorem ofExcept {r : Except ε α} {r' : Except ε α'} (h : SameResult R r r') :
    Agree source R (ofExcept r : SourceM ε α) (ofExcept r') := by
  cases h with
  | ok h => exact .pure h
  | error e => exact .throw e

/-- Reports may differ. -/
protected theorem report (event event' : LogEvent) :
    Agree source (fun _ _ => True) (report event : SourceM ε Unit) (report event') := by
  apply InStep.of_silent
  · intro a
    rfl
  · intro a
    rfl
  · intro a a'
    exact .ok trivial

protected theorem lift {m : StateM Activity α} {m' : StateM Activity α'}
    (h : InStep source R m m') :
    Agree source R (liftM m : SourceM ε α) (liftM m' : SourceM ε α') := by
  intro a a' halike
  obtain ⟨issued, htraffic, htraffic', hresult⟩ := h a a' halike
  exact ⟨issued, htraffic, htraffic', .ok hresult⟩

theorem issue (q : Request) : Agree source (· = ·) (q.issue source) (q.issue source) := by
  intro a a' halike
  refine ⟨[q], rfl, rfl, ?_⟩
  show SameResult _ ((q.issue source).outcome a).1 ((q.issue source).outcome a').1
  rw [q.issue_result, q.issue_result, halike.answer_eq]
  exact .refl _

/-- The second computations start with values that are related. -/
protected theorem bind {x : SourceM ε α} {x' : SourceM ε α'} {f : α → SourceM ε β}
    {f' : α' → SourceM ε β'} (hx : Agree source R x x')
    (hf : ∀ v v', R v v' → Agree source Q (f v) (f' v')) :
    Agree source Q (x >>= f) (x' >>= f') := by
  show InStep source (SameResult Q) (x.run >>= ExceptT.bindCont f) (x'.run >>= ExceptT.bindCont f')
  refine InStep.bind hx ?_
  rintro _ _ (h | e)
  · exact hf _ _ h
  · exact InStep.pure (.error e)

/-- Both second computations start with one value. -/
theorem bind_same {x x' : SourceM ε α} {f : α → SourceM ε β} {f' : α → SourceM ε β'}
    (hx : Agree source (· = ·) x x') (hf : ∀ v, Agree source Q (f v) (f' v)) :
    Agree source Q (x >>= f) (x' >>= f') := by
  refine hx.bind ?_
  rintro v _ rfl
  exact hf v

protected theorem mapError {x : SourceM ε α} {x' : SourceM ε α'} (f : ε → ε')
    (h : Agree source R x x') : Agree source R (x.mapError f) (x'.mapError f) := by
  intro a a' halike
  obtain ⟨issued, htraffic, htraffic', hresult⟩ := h a a' halike
  refine ⟨issued, htraffic, htraffic', ?_⟩
  exact SameResult.mapError f hresult

/-- Both computations take the same one of two ways. -/
protected theorem ite {c c' : Prop} [Decidable c] [Decidable c'] {x y : SourceM ε α}
    {x' y' : SourceM ε α'} (hc : c ↔ c') (hx : c → Agree source R x x')
    (hy : ¬ c → Agree source R y y') :
    Agree source R (if c then x else y) (if c' then x' else y') := by
  by_cases h : c
  · rw [if_pos h, if_pos (hc.1 h)]
    exact hx h
  · rw [if_neg h, if_neg fun h' => h (hc.2 h')]
    exact hy h

/-- Steps that keep a relation, one after the other. -/
protected theorem foldlM {step : α → τ → SourceM ε α} {step' : α' → τ → SourceM ε α'}
    (h : ∀ v v' x, R v v' → Agree source R (step v x) (step' v' x)) (xs : List τ) {v : α} {v' : α'}
    (hv : R v v') : Agree source R (xs.foldlM step v) (xs.foldlM step' v') := by
  induction xs generalizing v v' with
  | nil => exact .pure hv
  | cons x xs ih =>
    rw [List.foldlM_cons, List.foldlM_cons]
    exact (h v v' x hv).bind fun _ _ hv => ih hv

end Agree

end SourceM

end Hyperslab
