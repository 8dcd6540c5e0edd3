import Hyperslab.Source.Activity

/-!
# Outcomes of observed computations

A computation that issues requests is judged by its outcome: a value or an error, and the activity
with what it added. `SourceM.Ends` is a weakest precondition with one condition for values and one
for errors, and each way to build a computation has one rule for it. Facts about the activity alone,
such as that no stream was opened, have rules of their own.

## Main definitions

- `SourceM.outcome`: what a computation comes to from some activity on
- `SourceM.Ends`: the outcome is as said
- `SourceM.Fails`: the result is an error, and the activity is as said
- `SourceM.Meets`: the result is as said, from any activity on
- `SourceM.Logs`: only events as said are reported

## Main statements

- `SourceM.ends_bind`: a computation after another one
- `SourceM.Ends.foldlM`, `SourceM.Meets.foldlM`: an invariant of the steps holds after all of them
-/

namespace Hyperslab

/-- The event is the opening of a stream. -/
def LogEvent.isOpening : LogEvent → Bool
  | openingStream _ | openingDecoded _ _ _ => true
  | _ => false

/-- The number of streams opened. -/
def Activity.openings (a : Activity) : Nat :=
  a.log.countP LogEvent.isOpening

theorem Activity.openings_push (a : Activity) (event : LogEvent) :
    Activity.openings { a with log := a.log.push event } =
      a.openings + if event.isOpening then 1 else 0 :=
  Array.countP_push

namespace SourceM

variable {ε ε' α β σ : Type}

/-- What the computation comes to from an activity on: its result and the activity after it. -/
def outcome (x : SourceM ε α) (a : Activity) : Except ε α × Activity :=
  x.run a

/-- From activity `a` on, the computation comes to a value and an activity with `ok`, or to an error
and an activity with `err`. -/
def Ends (x : SourceM ε α) (a : Activity) (ok : α → Activity → Prop) (err : ε → Activity → Prop) :
    Prop :=
  match x.outcome a with
  | (.ok v, a') => ok v a'
  | (.error e, a') => err e a'

variable {x : SourceM ε α} {f : α → SourceM ε β} {a : Activity}

theorem outcome_bind : (x >>= f).outcome a =
    match x.outcome a with
    | (.ok v, a') => (f v).outcome a'
    | (.error e, a') => (.error e, a') := by
  show (match x a with | (r, a') => ExceptT.bindCont f r a') = _
  unfold outcome
  show _ = match x a with
    | (.ok v, a') => f v a'
    | (.error e, a') => (.error e, a')
  rcases x a with ⟨_ | _, _⟩ <;> rfl

theorem Ends.of_ok {ok : α → Activity → Prop} {err : ε → Activity → Prop} {v : α} {a' : Activity}
    (h : Ends x a ok err) (hx : x.outcome a = (.ok v, a')) : ok v a' := by
  rw [Ends, hx] at h
  exact h

theorem Ends.of_error {ok : α → Activity → Prop} {err : ε → Activity → Prop} {e : ε} {a' : Activity}
    (h : Ends x a ok err) (hx : x.outcome a = (.error e, a')) : err e a' := by
  rw [Ends, hx] at h
  exact h

theorem Ends.cases {ok : α → Activity → Prop} {err : ε → Activity → Prop} (h : Ends x a ok err) :
    (∃ v a', x.outcome a = (.ok v, a') ∧ ok v a') ∨
      ∃ e a', x.outcome a = (.error e, a') ∧ err e a' := by
  unfold Ends at h
  split at h
  · exact .inl ⟨_, _, ‹_›, h⟩
  · exact .inr ⟨_, _, ‹_›, h⟩

theorem ends_of_forall {ok : α → Activity → Prop} {err : ε → Activity → Prop}
    (hok : ∀ v a', ok v a') (herr : ∀ e a', err e a') : Ends x a ok err := by
  unfold Ends
  split
  · exact hok _ _
  · exact herr _ _

theorem Ends.mono {ok ok' : α → Activity → Prop} {err err' : ε → Activity → Prop}
    (h : Ends x a ok err) (hok : ∀ v a', ok v a' → ok' v a')
    (herr : ∀ e a', err e a' → err' e a') : Ends x a ok' err' := by
  unfold Ends at h ⊢
  split at h
  · exact hok _ _ h
  · exact herr _ _ h

/-- From activity `a` on, the computation comes to an error and leaves activity `b`. -/
def Fails (x : SourceM ε α) (a b : Activity) : Prop :=
  Ends x a (fun _ _ => False) fun _ a' => a' = b

theorem Fails.ends {b : Activity} (h : Fails x a b) {ok : α → Activity → Prop}
    {err : ε → Activity → Prop} (herr : ∀ e, err e b) : Ends x a ok err := by
  refine Ends.mono h (fun _ _ hfalse => hfalse.elim) ?_
  rintro e _ rfl
  exact herr e

/-- What holds of the activity after a value and after an error holds of it after all. -/
theorem Ends.activity {P : Activity → Prop} (h : Ends x a (fun _ => P) fun _ => P) :
    P (x.outcome a).2 := by
  unfold Ends at h
  split at h
  all_goals
    rename_i heq
    rwa [heq]

section rules

variable {ok : β → Activity → Prop} {err : ε → Activity → Prop}

@[simp] theorem ends_pure {v : β} : Ends (pure v : SourceM ε β) a ok err ↔ ok v a := Iff.rfl

@[simp] theorem ends_throw {e : ε} : Ends (throw e : SourceM ε β) a ok err ↔ err e a := Iff.rfl

/-- The second computation starts with the activity that the first one leaves. -/
@[simp] theorem ends_bind :
    Ends (x >>= f) a ok err ↔ Ends x a (fun v a => Ends (f v) a ok err) err := by
  unfold Ends
  rw [outcome_bind]
  rcases x.outcome a with ⟨_ | _, _⟩ <;> rfl

@[simp] theorem ends_ofExcept_ok {v : β} :
    Ends (ofExcept (.ok v) : SourceM ε β) a ok err ↔ ok v a := Iff.rfl

@[simp] theorem ends_ofExcept_error {e : ε} :
    Ends (ofExcept (.error e) : SourceM ε β) a ok err ↔ err e a := Iff.rfl

@[simp] theorem ends_report {event : LogEvent} {ok : Unit → Activity → Prop} :
    Ends (report event : SourceM ε Unit) a ok err ↔
      ok () { a with log := a.log.push event } := Iff.rfl

@[simp] theorem ends_mapError {y : SourceM ε' β} {g : ε' → ε} :
    Ends (y.mapError g) a ok err ↔ Ends y a ok (fun e a => err (g e) a) := by
  have hrun : (y.mapError g).outcome a = ((y.outcome a).1.mapError g, (y.outcome a).2) := rfl
  unfold Ends
  rw [hrun]
  rcases y.outcome a with ⟨_ | _, _⟩ <;> rfl

@[simp] theorem ends_lift {m : StateM Activity β} :
    Ends (liftM m : SourceM ε β) a ok err ↔ ok (m a).1 (m a).2 := Iff.rfl

end rules

/-- An invariant that each step keeps holds after all of them. It is about the elements stepped over
so far and those still to come. -/
theorem Ends.foldlM {step : σ → β → SourceM ε σ} (inv : List β → List β → σ → Activity → Prop)
    {err : ε → Activity → Prop} {xs : List β}
    (hstep : ∀ front x back, xs = front ++ x :: back → ∀ state a, inv front (x :: back) state a →
      Ends (step state x) a (inv (front ++ [x]) back) err)
    {state : σ} (hinv : inv [] xs state a) : Ends (xs.foldlM step state) a (inv xs []) err := by
  suffices h : ∀ back front state a, xs = front ++ back → inv front back state a →
      Ends (back.foldlM step state) a (inv xs []) err from h xs [] state a rfl hinv
  -- the induction is on the steps still to come, with those in front kept
  intro back
  induction back with
  | nil =>
    intro front state a heq hinv
    rw [heq, List.append_nil]
    exact hinv
  | cons x back ih =>
    intro front state a heq hinv
    rw [List.foldlM_cons, ends_bind]
    refine (hstep front x back heq state a hinv).mono (fun state a hinv => ?_) fun _ _ h => h
    exact ih (front ++ [x]) state a (by rw [heq, List.append_assoc]; rfl) hinv

/-- Whatever was observed before, the computation comes to a value with `post` or to an error with
`own`. -/
def Meets (x : SourceM ε α) (post : α → Prop) (own : ε → Prop) : Prop :=
  ∀ a, Ends x a (fun v _ => post v) fun e _ => own e

namespace Meets

variable {post : α → Prop} {post' : β → Prop} {own : ε → Prop}

protected theorem pure {v : α} (h : post v) : Meets (pure v : SourceM ε α) post own :=
  fun _ => h

protected theorem throw {e : ε} (h : own e) : Meets (throw e : SourceM ε α) post own :=
  fun _ => h

protected theorem ofExcept {r : Except ε α} (hok : ∀ v, r = .ok v → post v)
    (herr : ∀ e, r = .error e → own e) : Meets (ofExcept r : SourceM ε α) post own := by
  cases r with
  | ok v => exact .pure (hok v rfl)
  | error e => exact .throw (herr e rfl)

/-- Nothing is asked of the result. -/
protected theorem any : Meets x (fun _ => True) fun _ => True :=
  fun _ => ends_of_forall (fun _ _ => trivial) fun _ _ => trivial

protected theorem report {event : LogEvent} :
    Meets (report event : SourceM ε Unit) (fun _ => True) own :=
  fun _ => trivial

/-- What the first computation gives is all that is known when the second one starts. -/
protected theorem bind (hx : Meets x post own) (hf : ∀ v, post v → Meets (f v) post' own) :
    Meets (x >>= f) post' own := by
  intro a
  rw [ends_bind]
  exact (hx a).mono (fun v a' hv => hf v hv a') fun _ _ h => h

/-- A check that is passed is gone. -/
theorem bind_ok {r : Except ε α} {v : α} (hr : r = .ok v) (hf : Meets (f v) post' own) :
    Meets (ofExcept r >>= f) post' own := by
  rw [hr]
  exact hf

protected theorem mapError {y : SourceM ε' α} {own' : ε' → Prop} {g : ε' → ε}
    (hy : Meets y post own') (h : ∀ e, own' e → own (g e)) : Meets (y.mapError g) post own := by
  intro a
  rw [ends_mapError]
  exact (hy a).mono (fun _ _ h => h) fun e _ => h e

theorem mono {own' : ε → Prop} {post' : α → Prop} (hx : Meets x post own)
    (hpost : ∀ v, post v → post' v) (hown : ∀ e, own e → own' e) : Meets x post' own' :=
  fun a => (hx a).mono (fun v _ => hpost v) fun e _ => hown e

theorem of_error (h : Meets x post own) {e : ε} (he : (x.outcome a).1 = .error e) : own e :=
  (h a).of_error (Prod.ext he rfl)

protected theorem foldlM {step : σ → β → SourceM ε σ} {inv : σ → Prop} {xs : List β}
    (hstep : ∀ x ∈ xs, ∀ state, inv state → Meets (step state x) inv own) {state : σ}
    (h : inv state) : Meets (xs.foldlM step state) inv own := by
  intro a
  refine Ends.foldlM (fun _ _ state _ => inv state) ?_ h
  intro front x back hxs state a hinv
  exact hstep x (by simp [hxs]) state hinv a

end Meets

end SourceM

/-- Steps that are the same for each element come to the same after all of them. -/
theorem foldlM_congr_left {α σ : Type} {m : Type → Type} [Monad m] {step step' : σ → α → m σ}
    {xs : List α} (h : ∀ x ∈ xs, ∀ state, step' state x = step state x) (state : σ) :
    xs.foldlM step' state = xs.foldlM step state := by
  induction xs generalizing state with
  | nil => rfl
  | cons x xs ih =>
    obtain ⟨hx, hxs⟩ := List.forall_mem_cons.1 h
    rw [List.foldlM_cons, List.foldlM_cons, hx]
    exact bind_congr (ih hxs)

/-- From the one activity to the other only events with `p` were reported. -/
def Activity.Logs (p : LogEvent → Prop) (a a' : Activity) : Prop :=
  ∃ events, a'.log.toList = a.log.toList ++ events ∧ ∀ event ∈ events, p event

namespace Activity.Logs

variable {p : LogEvent → Prop} {a a' a'' : Activity}

theorem of_log_eq (h : a'.log = a.log) : a.Logs p a' :=
  ⟨[], by rw [h, List.append_nil], nofun⟩

protected theorem refl (p : LogEvent → Prop) (a : Activity) : a.Logs p a :=
  of_log_eq rfl

protected theorem trans (h : a.Logs p a') (h' : a'.Logs p a'') : a.Logs p a'' := by
  obtain ⟨events, hlog, hevents⟩ := h
  obtain ⟨more, hlog', hmore⟩ := h'
  refine ⟨events ++ more, by rw [hlog', hlog, List.append_assoc], ?_⟩
  exact List.forall_mem_append.2 ⟨hevents, hmore⟩

theorem push {event : LogEvent} (h : p event) (a : Activity) :
    a.Logs p { a with log := a.log.push event } :=
  ⟨[event], Array.toList_push, List.forall_mem_singleton.2 h⟩

/-- Of other events there are no more. -/
theorem filter_eq (h : a.Logs p a') {q : LogEvent → Bool} (hq : ∀ event, p event → q event = false) :
    a'.log.toList.filter q = a.log.toList.filter q := by
  obtain ⟨events, hlog, hevents⟩ := h
  have hnone : events.filter q = [] := by
    apply List.filter_eq_nil_iff.2
    intro event hevent
    rw [hq event (hevents event hevent)]
    exact Bool.false_ne_true
  rw [hlog, List.filter_append, hnone, List.append_nil]

end Activity.Logs

/-- Whatever was observed before, the computation reports only events with `p`. A value that it comes
to is as said. -/
def SourceM.Logs {ε α : Type} (p : LogEvent → Prop) (P : α → Prop) (x : SourceM ε α) : Prop :=
  ∀ a : Activity, Ends x a (fun v a' => a.Logs p a' ∧ P v) fun _ a' => a.Logs p a'

namespace SourceM.Logs

variable {ε ε' α β σ : Type} {p : LogEvent → Prop} {P : α → Prop} {Q : β → Prop}

protected theorem pure {v : α} (h : P v) : (pure v : SourceM ε α).Logs p P :=
  fun a => ⟨.refl p a, h⟩

protected theorem throw (e : ε) : (throw e : SourceM ε α).Logs p P :=
  fun a => .refl p a

/-- What comes after an error is not carried out. -/
theorem throw_bind (e : ε) (f : α → SourceM ε β) : (throw e >>= f).Logs p Q :=
  fun a => .refl p a

protected theorem ofExcept {r : Except ε α} (h : ∀ v, r = .ok v → P v) :
    (ofExcept r : SourceM ε α).Logs p P := by
  cases r with
  | ok v => exact .pure (h v rfl)
  | error e => exact .throw e

/-- What a check gives is not needed. -/
protected theorem check (r : Except ε α) : (ofExcept r : SourceM ε α).Logs p fun _ => True :=
  .ofExcept fun _ _ => trivial

protected theorem report {event : LogEvent} (h : p event) :
    (report event : SourceM ε Unit).Logs p fun _ => True :=
  fun a => ⟨.push h a, trivial⟩

protected theorem lift {m : StateM Activity α} (h : ∀ a, a.Logs p (m a).2 ∧ P (m a).1) :
    (liftM m : SourceM ε α).Logs p P :=
  h

protected theorem bind {x : SourceM ε α} {f : α → SourceM ε β} (hx : x.Logs p P)
    (hf : ∀ v, P v → (f v).Logs p Q) : (x >>= f).Logs p Q := by
  intro a
  rw [ends_bind]
  refine (hx a).mono ?_ fun _ _ h => h
  rintro v a' ⟨hlogs, hv⟩
  exact (hf v hv a').mono (fun _ _ h => ⟨hlogs.trans h.1, h.2⟩) fun _ _ h => hlogs.trans h

protected theorem mapError {x : SourceM ε α} (hx : x.Logs p P) (f : ε → ε') :
    (x.mapError f).Logs p P := by
  intro a
  rw [ends_mapError]
  exact hx a

protected theorem foldlM {step : σ → β → SourceM ε σ} {inv : σ → Prop} {xs : List β}
    (hstep : ∀ x ∈ xs, ∀ state, inv state → (step state x).Logs p inv) {state : σ}
    (h : inv state) : (xs.foldlM step state).Logs p inv := by
  intro a
  refine Ends.foldlM (fun _ _ state a' => a.Logs p a' ∧ inv state) ?_ ⟨.refl p a, h⟩
  rintro front x back hxs state a' ⟨hlogs, hinv⟩
  exact (hstep x (by simp [hxs]) state hinv a').mono (fun _ _ h => ⟨hlogs.trans h.1, h.2⟩)
    fun _ _ h => hlogs.trans h

protected theorem mapM {f : β → SourceM ε α} {xs : List β}
    (h : ∀ x ∈ xs, (f x).Logs p fun _ => True) : (xs.mapM f).Logs p fun _ => True := by
  induction xs with
  | nil =>
    rw [List.mapM_nil]
    exact .pure trivial
  | cons x xs ih =>
    obtain ⟨hx, hxs⟩ := List.forall_mem_cons.1 h
    rw [List.mapM_cons]
    exact hx.bind fun _ _ => (ih hxs).bind fun _ _ => .pure trivial

/-- Whatever is known of the values is not needed. -/
theorem of_log_eq {x : SourceM ε α} (h : ∀ a, (x.outcome a).2.log = a.log) :
    x.Logs p fun _ => True := by
  intro a
  have hlogs : a.Logs p (x.outcome a).2 := .of_log_eq (h a)
  unfold Ends
  split
  all_goals
    rename_i heq
    rw [heq] at hlogs
  · exact ⟨hlogs, trivial⟩
  · exact hlogs

/-- Of other events there are as many as before. -/
theorem filter_eq {x : SourceM ε α} (hx : x.Logs p P) {q : LogEvent → Bool}
    (hq : ∀ event, p event → q event = false) (a : Activity) :
    (x.outcome a).2.log.toList.filter q = a.log.toList.filter q := by
  have hlogs : Ends x a (fun _ => a.Logs p) fun _ => a.Logs p :=
    (hx a).mono (fun _ _ h => h.1) fun _ _ h => h
  exact hlogs.activity.filter_eq hq

section openings

variable {x : SourceM ε α}

/-- Where no event is the opening of a stream, no stream is opened. -/
theorem openings_eq (hx : x.Logs (fun event => event.isOpening = false) P) (a : Activity) :
    (x.outcome a).2.openings = a.openings := by
  rw [Activity.openings, Activity.openings, ← Array.countP_toList, ← Array.countP_toList,
    List.countP_eq_length_filter, List.countP_eq_length_filter, hx.filter_eq fun _ h => h]

/-- Whatever else is known of the outcome, no stream is opened. -/
theorem ends_with (hx : x.Logs (fun event => event.isOpening = false) P) {a : Activity}
    {ok : α → Activity → Prop} {err : ε → Activity → Prop} (h : Ends x a ok err) :
    Ends x a (fun v a' => ok v a' ∧ a'.openings = a.openings)
      (fun e a' => err e a' ∧ a'.openings = a.openings) := by
  have hopenings := hx.openings_eq a
  unfold Ends at h ⊢
  split at h <;> simp_all

theorem ends_openings (hx : x.Logs (fun event => event.isOpening = false) P) (a : Activity) :
    Ends x a (fun v a' => P v ∧ a'.openings = a.openings)
      fun _ a' => a'.openings = a.openings :=
  (hx.ends_with (hx a)).mono (fun _ _ h => ⟨h.1.2, h.2⟩) fun _ _ h => h.2

end openings

end SourceM.Logs

theorem run_bind {α β : Type} {m : StateM Activity α} {f : α → StateM Activity β} {a : Activity} :
    (m >>= f) a = f (m a).1 (m a).2 := rfl

section Request

variable {source : ByteSource} {range : ByteRange} {a : Activity}

theorem SourceM.outcome_fetchExactly_of_ok {bytes : Bytes}
    (h : source.readInto a.requests.toList range = .ok bytes) :
    (source.fetchExactly range).outcome a =
      (.ok bytes, (a.request range).count bytes.size) := by
  simp only [outcome, ByteSource.fetchExactly, ExceptT.run_mk, h]

theorem SourceM.outcome_fetchExactly_of_error {e : StorageError}
    (h : source.readInto a.requests.toList range = .error e) :
    (source.fetchExactly range).outcome a = (.error e, a.request range) := by
  simp only [outcome, ByteSource.fetchExactly, ExceptT.run_mk, h]

/-- A source gives just as many bytes as it was asked for. -/
theorem SourceM.meets_fetchExactly (source : ByteSource) (range : ByteRange) :
    Meets (source.fetchExactly range) (fun bytes => bytes.size = range.length) fun _ => True := by
  intro a
  unfold Ends
  cases h : source.readInto a.requests.toList range with
  | ok bytes =>
    rw [outcome_fetchExactly_of_ok h]
    exact source.readInto_size _ range bytes h
  | error e =>
    rw [outcome_fetchExactly_of_error h]
    trivial

/-- A request is no event. -/
theorem SourceM.log_fetchExactly (source : ByteSource) (range : ByteRange) (a : Activity) :
    ((source.fetchExactly range).outcome a).2.log = a.log := by
  cases h : source.readInto a.requests.toList range with
  | ok bytes =>
    rw [outcome_fetchExactly_of_ok h]
    rfl
  | error e =>
    rw [outcome_fetchExactly_of_error h]
    rfl

end Request

end Hyperslab
