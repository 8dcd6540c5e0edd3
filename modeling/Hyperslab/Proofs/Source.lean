import Hyperslab.Proofs.Outcome

/-!
# Sources over a content

A source over a content answers a request for bytes inside of the content with these bytes, and
refuses every other request with the range it was given.

## Main definitions

- `ByteSource.Serves`: requests for bytes of a content are answered with them
- `ByteSource.Holds`: the same for both ways to ask
- `ByteSource.Answers`: requests for bytes of a content are answered with them or fail

## Main statements

- `ByteSource.memory_readInto`: what a source in memory answers
- `ByteSource.holds_memory`: a source in memory holds its content
- `ByteSource.answers_memory`, `ByteSource.Answers.failing`: sources that answer truthfully
-/

namespace Hyperslab

namespace ByteSource

variable {content : Bytes} {before : List ByteRange} {range : ByteRange}

/-- Requests for bytes of the content are answered with them, whatever was asked for before. -/
def Serves (source : ByteSource) (content : Bytes) : Prop :=
  ∀ (before : List ByteRange) (range : ByteRange), range.offset + range.length ≤ maxOffset →
    range.offset + range.length ≤ content.size →
    source.readInto before range =
      .ok (content.extract range.offset (range.offset + range.length))

theorem checkRange_of_le (h : range.offset + range.length ≤ maxOffset)
    (hle : range.offset + range.length ≤ content.size) : checkRange content range = .ok () := by
  rw [checkRange, ByteRange.stop, Offset.clamped_of_le h]
  exact if_neg (by omega)

theorem checkRange_of_lt (h : range.offset + range.length ≤ maxOffset)
    (hlt : content.size < range.offset + range.length) :
    checkRange content range = .error (.invalidRange range content.size) := by
  rw [checkRange, ByteRange.stop, Offset.clamped_of_le h]
  exact if_pos hlt

theorem memory_readInto (h : range.offset + range.length ≤ maxOffset) :
    (memory content).readInto before range =
      if range.offset + range.length ≤ content.size then
        .ok (content.extract range.offset (range.offset + range.length))
      else .error (.invalidRange range content.size) := by
  show exactly (slice content) range = _
  rw [exactly, slice]
  by_cases hle : range.offset + range.length ≤ content.size
  · rw [checkRange_of_le h hle, if_pos hle]
    dsimp only
    have hsize : (content.extract range.offset range.stop).size = range.length := by
      rw [ByteRange.stop, Offset.clamped_of_le h, Array.size_extract]
      omega
    rw [if_pos hsize, ByteRange.stop, Offset.clamped_of_le h]
  · rw [checkRange_of_lt h (by omega), if_neg hle]

theorem serves_memory (content : Bytes) : (memory content).Serves content := by
  intro before range h hle
  rw [memory_readInto h, if_pos hle]

theorem serves_file (content : Bytes) : (file content).Serves content := by
  intro before range h hle
  show fileSlice content range = _
  rw [fileSlice, checkRange_of_le h hle, Bytes.window?, if_pos hle]

theorem slice_of_le (h : range.offset + range.length ≤ maxOffset)
    (hle : range.offset + range.length ≤ content.size) :
    slice content range = .ok (content.extract range.offset (range.offset + range.length)) := by
  rw [slice, checkRange_of_le h hle, ByteRange.stop, Offset.clamped_of_le h]

/-- Both ways to ask for bytes of the content are answered with these bytes. -/
structure Holds (source : ByteSource) (content : Bytes) : Prop where
  serves : source.Serves content
  readAt : ∀ (before : List ByteRange) (range : ByteRange),
    range.offset + range.length ≤ maxOffset → range.offset + range.length ≤ content.size →
    source.readAt before range =
      .ok (content.extract range.offset (range.offset + range.length))

theorem holds_memory (content : Bytes) : (memory content).Holds content where
  serves := serves_memory content
  readAt _ _ hmax hle := slice_of_le hmax hle

/-- Where an answer to a request for bytes of the content is not an error, it is these bytes. -/
def Truthful (answer : List ByteRange → ByteRange → Except StorageError Bytes)
    (content : Bytes) : Prop :=
  ∀ (before : List ByteRange) (range : ByteRange) (bytes : Bytes),
    range.offset + range.length ≤ maxOffset → range.offset + range.length ≤ content.size →
    answer before range = .ok bytes →
    bytes = content.extract range.offset (range.offset + range.length)

/-- Both ways to ask for bytes of the content give these bytes or fail, at any time. -/
structure Answers (source : ByteSource) (content : Bytes) : Prop where
  readAt : Truthful source.readAt content
  readInto : Truthful source.readInto content

theorem Serves.truthful {source : ByteSource} (h : source.Serves content) :
    Truthful source.readInto content := by
  intro before range bytes hmax hle hok
  rw [h before range hmax hle] at hok
  exact (Except.ok.inj hok).symm

theorem answers_memory (content : Bytes) : (memory content).Answers content where
  readAt _ _ _ hmax hle hok :=
    (Except.ok.inj ((slice_of_le hmax hle).symm.trans hok)).symm
  readInto := (serves_memory content).truthful

/-- A source that fails some requests answers the others as before. -/
theorem Answers.failing {source : ByteSource} (h : source.Answers content)
    (failure? : List ByteRange → ByteRange → Option StorageError) :
    (source.failing failure?).Answers content where
  readAt before range bytes hmax hle hok :=
    h.readAt before range bytes hmax hle (of_guarded hok)
  readInto before range bytes hmax hle hok :=
    h.readInto before range bytes hmax hle (of_guarded hok)

end ByteSource

namespace SourceM

variable {source : ByteSource} {range : ByteRange} {a : Activity}
  {ok : Bytes → Activity → Prop} {err : StorageError → Activity → Prop}

theorem ends_fetchExactly_of_ok {bytes : Bytes}
    (h : source.readInto a.requests.toList range = .ok bytes) :
    Ends (source.fetchExactly range) a ok err ↔ ok bytes ((a.request range).count bytes.size) := by
  rw [Ends, outcome_fetchExactly_of_ok h]

theorem ends_fetchExactly_of_error {e : StorageError}
    (h : source.readInto a.requests.toList range = .error e) :
    Ends (source.fetchExactly range) a ok err ↔ err e (a.request range) := by
  rw [Ends, outcome_fetchExactly_of_error h]

theorem ends_fetch_of_ok {bytes : Bytes}
    (h : source.readAt a.requests.toList range = .ok bytes) :
    Ends (source.fetch range) a ok err ↔ ok bytes ((a.request range).count bytes.size) := by
  simp only [Ends, outcome, ByteSource.fetch, ExceptT.run_mk, h]

end SourceM

end Hyperslab
