import Hyperslab.Proofs.Request.Traffic

/-!
# Failed requests

A computation passes the failures of a byte source on if it stops at the first request that fails
and ends with that failure. This is a fact about the answers as well as the requests, and the
activity left behind is that of the requests and nothing else. Each way to build a computation has
one rule for it.

## Main definitions

- `StopsAtFailure`: requests of which only the last one may have failed, with the end that follows
- `SourceM.Surfaces`: a computation passes the failures of a source on

## Main statements

- `Surfaces.bind`: a computation after another one
- `Surfaces.foldlM`: steps after one another
-/

namespace Hyperslab

/-- Of some requests, issued after those `before`, only the last one may have failed, and `result`
is then that failure. -/
def StopsAtFailure {ε α : Type} (source : ByteSource) (wrap : StorageError → ε)
    (before : List ByteRange) (issued : List Request) (result : Except ε α) : Prop :=
  ∀ front q back e, issued = front ++ q :: back →
    q.answer source (before ++ front.map Request.range) = .error e →
    back = [] ∧ result = .error (wrap e)

section

variable {ε α : Type} {source : ByteSource} {wrap : StorageError → ε} {before : List ByteRange}
  {issued : List Request} {result : Except ε α}

theorem stopsAtFailure_nil : StopsAtFailure source wrap before [] result := by
  intro front q back e h
  simp at h

theorem stopsAtFailure_singleton {q : Request}
    (h : ∀ e, q.answer source before = .error e → result = .error (wrap e)) :
    StopsAtFailure source wrap before [q] result := by
  intro front q' back e heq he
  obtain ⟨rfl, heq⟩ := List.append_eq_singleton_iff.1 heq.symm |>.resolve_right (by simp)
  cases heq
  rw [List.map_nil, List.append_nil] at he
  exact ⟨rfl, h e he⟩

/-- Another result that follows from the same failure. -/
theorem StopsAtFailure.congr {ε' β : Type} {wrap' : StorageError → ε'} {result' : Except ε' β}
    (h : StopsAtFailure source wrap before issued result)
    (hresult : ∀ e, result = .error (wrap e) → result' = .error (wrap' e)) :
    StopsAtFailure source wrap' before issued result' := by
  intro front q back e heq he
  obtain ⟨hback, hfailed⟩ := h front q back e heq he
  exact ⟨hback, hresult e hfailed⟩

/-- Requests that did not end in a failure were all answered. -/
theorem StopsAtFailure.answered (h : StopsAtFailure source wrap before issued result)
    (hresult : ∀ e, result ≠ .error (wrap e)) {front back : List Request} {q : Request}
    (heq : issued = front ++ q :: back) :
    ∃ bytes, q.answer source (before ++ front.map Request.range) = .ok bytes := by
  cases hanswer : q.answer source (before ++ front.map Request.range) with
  | ok bytes => exact ⟨bytes, rfl⟩
  | error e => exact absurd (h front q back e heq hanswer).2 (hresult e)

/-- Further requests after some that did not end in a failure. -/
theorem StopsAtFailure.append {ε' β : Type} {wrap' : StorageError → ε'} {result' : Except ε' β}
    {more : List Request} (h : StopsAtFailure source wrap' before issued result')
    (hresult : ∀ e, result' ≠ .error (wrap' e))
    (hmore : StopsAtFailure source wrap (before ++ issued.map Request.range) more result) :
    StopsAtFailure source wrap before (issued ++ more) result := by
  intro front q back e heq he
  rcases List.append_eq_append_iff.1 heq with ⟨rest, rfl, hrest⟩ | ⟨rest, rfl, hrest⟩
  · rw [List.map_append, ← List.append_assoc] at he
    exact hmore rest q back e hrest he
  · cases rest with
    | nil =>
      rw [List.append_nil] at hmore
      refine hmore [] q back e hrest.symm ?_
      rwa [List.map_nil, List.append_nil]
    | cons q' rest =>
      -- the failed request would be one of the first ones
      obtain ⟨rfl, -⟩ := List.cons_eq_cons.1 hrest
      exact absurd (h front q rest e rfl he).2 (hresult e)

/-- A request that was answered and those after it. -/
theorem StopsAtFailure.cons {q : Request} {bytes : Bytes} {more : List Request}
    (hmore : StopsAtFailure source wrap (before ++ [q.range]) more result)
    (h : q.answer source before = .ok bytes) :
    StopsAtFailure source wrap before (q :: more) result := by
  have hfirst : StopsAtFailure source wrap before [q] (.ok () : Except ε Unit) := by
    refine stopsAtFailure_singleton fun e he => ?_
    rw [h] at he
    cases he
  exact hfirst.append nofun hmore

end

namespace SourceM

variable {ε ε' α β σ : Type}

/-- The computation stops at the first request that fails and ends with that failure, whatever was
observed before. Its errors are as `own` says. -/
def Surfaces (source : ByteSource) (wrap : StorageError → ε) (own : ε → Prop)
    (x : SourceM ε α) : Prop :=
  ∀ a, ∃ issued, (x.outcome a).2.traffic = (a.after source issued).traffic ∧
    StopsAtFailure source wrap a.requests.toList issued (x.outcome a).1 ∧
    ∀ e, (x.outcome a).1 = .error e → own e

namespace Surfaces

variable {source : ByteSource} {wrap : StorageError → ε} {own : ε → Prop}

/-- A computation without requests. -/
theorem of_silent {x : SourceM ε α} (h : ∀ a, (x.outcome a).2.traffic = a.traffic)
    (hown : ∀ a e, (x.outcome a).1 = .error e → own e) : Surfaces source wrap own x := by
  intro a
  exact ⟨[], h a, stopsAtFailure_nil, hown a⟩

protected theorem pure (v : α) : Surfaces source wrap own (pure v : SourceM ε α) := by
  apply of_silent
  · intro a
    rfl
  · intro a e h
    cases h

protected theorem throw {e : ε} (h : own e) : Surfaces source wrap own (throw e : SourceM ε α) := by
  apply of_silent
  · intro a
    rfl
  · intro a e' he
    cases he
    exact h

protected theorem ofExcept {r : Except ε α} (h : ∀ e, r = .error e → own e) :
    Surfaces source wrap own (ofExcept r : SourceM ε α) := by
  cases r with
  | ok v => exact .pure v
  | error e => exact .throw (h e rfl)

protected theorem report (event : LogEvent) : Surfaces source wrap own (report event : SourceM ε Unit) := by
  apply of_silent
  · intro a
    rfl
  · intro a e h
    cases h

/-- Reports and other steps that issue no request. -/
protected theorem lift {m : StateM Activity α} (h : ∀ a, (m a).2.traffic = a.traffic) :
    Surfaces source wrap own (liftM m : SourceM ε α) := by
  apply of_silent
  · intro a
    exact h a
  · intro a e he
    cases he

theorem issue (q : Request) {own : StorageError → Prop} (hown : ∀ e, own e) :
    Surfaces source id own (q.issue source) := by
  intro a
  refine ⟨[q], rfl, stopsAtFailure_singleton ?_, fun e _ => hown e⟩
  intro e he
  rw [q.issue_result, he]
  rfl

/-- The second computation is reached only after all requests of the first one were answered. -/
protected theorem bind {x : SourceM ε α} {f : α → SourceM ε β} (hx : Surfaces source wrap own x)
    (hf : ∀ v, Surfaces source wrap own (f v)) : Surfaces source wrap own (x >>= f) := by
  intro a
  obtain ⟨issued, htraffic, hstops, hown⟩ := hx a
  rw [outcome_bind]
  rcases h : x.outcome a with ⟨e | v, a'⟩
  · rw [h] at htraffic hstops hown
    refine ⟨issued, htraffic, hstops.congr fun e' he' => ?_, fun e' he' => hown e' ?_⟩ <;>
      cases he' <;> rfl
  · rw [h] at htraffic hstops
    obtain ⟨more, htraffic', hstops', hown'⟩ := hf v a'
    rw [Activity.requests_eq htraffic, Activity.requests_after] at hstops'
    refine ⟨issued ++ more, ?_, hstops.append nofun hstops', hown'⟩
    rw [Activity.after_append]
    exact htraffic'.trans (Activity.traffic_after more htraffic)

protected theorem mapError {x : SourceM ε α} {wrap' : StorageError → ε'} {own' : ε' → Prop} {f : ε → ε'}
    (hx : Surfaces source wrap own x) (hwrap : ∀ e, f (wrap e) = wrap' e)
    (hown : ∀ e, own e → own' (f e)) : Surfaces source wrap' own' (x.mapError f) := by
  intro a
  obtain ⟨issued, htraffic, hstops, howns⟩ := hx a
  have hrun : (x.mapError f).outcome a = ((x.outcome a).1.mapError f, (x.outcome a).2) := rfl
  rw [hrun]
  refine ⟨issued, htraffic, hstops.congr fun e he => ?_, ?_⟩
  · rw [he]
    exact congrArg Except.error (hwrap e)
  · intro e he
    cases h : (x.outcome a).1 with
    | ok v =>
      rw [h] at he
      cases he
    | error e' =>
      rw [h] at he
      cases he
      exact hown e' (howns e' h)

theorem mono {own' : ε → Prop} {x : SourceM ε α} (hx : Surfaces source wrap own x)
    (hown : ∀ e, own e → own' e) : Surfaces source wrap own' x := by
  intro a
  obtain ⟨issued, htraffic, hstops, howns⟩ := hx a
  exact ⟨issued, htraffic, hstops, fun e he => hown e (howns e he)⟩

theorem anyError {x : SourceM ε α} (hx : Surfaces source wrap own x) :
    Surfaces source wrap (fun _ => True) x :=
  hx.mono fun _ _ => trivial

/-- What is known of the values is known together with what is known of the errors. -/
theorem meets {x : SourceM ε α} {post : α → Prop} (hx : Surfaces source wrap own x)
    (h : Meets x post fun _ => True) : Meets x post own := by
  intro a
  obtain ⟨-, -, -, hown⟩ := hx a
  have hpost := h a
  unfold Ends at hpost ⊢
  split at hpost <;> rename_i heq
  · exact hpost
  · exact hown _ (congrArg Prod.fst heq)

protected theorem foldlM {step : σ → β → SourceM ε σ} (h : ∀ state x, Surfaces source wrap own (step state x))
    (xs : List β) (state : σ) : Surfaces source wrap own (xs.foldlM step state) := by
  induction xs generalizing state with
  | nil => exact .pure state
  | cons x xs ih =>
    rw [List.foldlM_cons]
    exact (h state x).bind ih

/-- What follows a step that gives its failure as a value. -/
theorem andThen {m : StateM Activity (Except StorageError α × σ)}
    (hm : ∀ a, ∃ issued, (m a).2.traffic = (a.after source issued).traffic ∧
      StopsAtFailure source id a.requests.toList issued (m a).1.1)
    {f : Except StorageError α × σ → SourceM ε β}
    (hok : ∀ v state, Surfaces source wrap own (f (.ok v, state)))
    (herror : ∀ e state, f (.error e, state) = throw (wrap e)) (hown : ∀ e, own (wrap e)) :
    Surfaces source wrap own (liftM m >>= f) := by
  intro a
  obtain ⟨issued, htraffic, hstops⟩ := hm a
  have hrun : (liftM m >>= f).outcome a = (f (m a).1).outcome (m a).2 := rfl
  rw [hrun]
  rcases h : m a with ⟨⟨e | v, state⟩, a'⟩
  · rw [h] at htraffic hstops
    dsimp only at htraffic ⊢
    rw [herror]
    refine ⟨issued, htraffic, hstops.congr fun e' he' => ?_, ?_⟩
    · cases he'
      rfl
    · intro e' he'
      cases he'
      exact hown e
  · rw [h] at htraffic hstops
    obtain ⟨more, htraffic', hstops', hown'⟩ := hok v state a'
    rw [Activity.requests_eq htraffic, Activity.requests_after] at hstops'
    refine ⟨issued ++ more, ?_, hstops.append nofun hstops', hown'⟩
    rw [Activity.after_append]
    exact htraffic'.trans (Activity.traffic_after more htraffic)

end Surfaces

end SourceM

end Hyperslab
