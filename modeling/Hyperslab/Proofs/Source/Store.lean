import Hyperslab.Proofs.Source

/-!
# Stores answer range reads exactly

A store is asked for the bytes of a range, by an offset and a length or by the range itself, or for
a buffer of the caller to be filled from an offset on. One in memory fills buffers in the default
way, through bytes that it gives, and one over a file does it on its own. Both answer by the same
rule: a range whose end, computed exactly, is inside of the content is answered with its bytes, and
every other range is refused and the buffer kept. The largest offset, where computed ends stop, is
beyond the end of the content, so it never passes for the end of a range.

## Main definitions

- `StoreCall.expected`: the answer to a call, by exact ends
- `ByteSource.answer`: the answers of a source, with what is in the buffer of the caller
- `ByteStore.memory`, `ByteStore.file`: stores that write to the buffer themselves

## Main statements

- `ByteStore.answer_memory`, `ByteStore.answer_file`: the stores are the sources of their content
- `ByteStore.answers_exactly`: both stores give the expected answers
-/

namespace Hyperslab

/-- A call of a store. -/
inductive StoreCall where
  | readAt (offset length : Nat)
  | readRange (range : ByteRange)
  /-- Fills the buffer with the bytes from an offset on. -/
  | readInto (offset : Nat) (buffer : Bytes)
deriving DecidableEq, Repr

/-- What a call gives. -/
inductive StoreAnswer where
  | bytes (result : Except StorageError Bytes)
  /-- The result, and what is in the buffer then. -/
  | filled (left : Except StorageError Unit × Bytes)

/-- What is left of a read into a buffer that writes all bytes that are given or none. -/
def fillWith (buffer : Bytes) : Except StorageError Bytes → Except StorageError Unit × Bytes
  | .ok bytes => (.ok (), bytes)
  | .error e => (.error e, buffer)

/-- The range that a call asks for. -/
def StoreCall.range : StoreCall → ByteRange
  | readAt offset length => { offset := offset, length := length }
  | readRange range => range
  | readInto offset buffer => { offset := offset, length := buffer.size }

/-- What a call gives that is answered by exact ends. Bytes outside of the content are refused, with
the range and the size of the content, and a buffer is then kept. -/
def StoreCall.expected (content : Bytes) : StoreCall → StoreAnswer
  | readAt offset length =>
    .bytes (if offset + length ≤ content.size then .ok (content.extract offset (offset + length))
      else .error (.invalidRange { offset := offset, length := length } content.size))
  | readRange range =>
    .bytes (if range.offset + range.length ≤ content.size then
        .ok (content.extract range.offset (range.offset + range.length))
      else .error (.invalidRange range content.size))
  | readInto offset buffer =>
    .filled (if offset + buffer.size ≤ content.size then
        (.ok (), content.extract offset (offset + buffer.size))
      else
        (.error (.invalidRange { offset := offset, length := buffer.size } content.size), buffer))

namespace ByteSource

variable {content : Bytes}

/-- The answer of a source after some requests. A range is asked for by its offset and its
length. -/
def answer (source : ByteSource) (before : List ByteRange) : StoreCall → StoreAnswer
  | .readAt offset length => .bytes (source.readAt before { offset := offset, length := length })
  | .readRange range =>
    .bytes (source.readAt before { offset := range.offset, length := range.length })
  | .readInto offset buffer =>
    .filled (fillWith buffer (source.readInto before { offset := offset, length := buffer.size }))

/-- The bytes of a range that ends inside of the content. -/
def cut (content : Bytes) (range : ByteRange) : Except StorageError Bytes :=
  if range.offset + range.length ≤ content.size then
    .ok (content.extract range.offset (range.offset + range.length))
  else .error (.invalidRange range content.size)

/-- An end beyond the largest offset is taken for the largest offset, and is out of bounds as
such. -/
theorem checkRange_eq (hsize : content.size < maxOffset) (range : ByteRange) :
    checkRange content range =
      if range.offset + range.length ≤ content.size then .ok ()
      else .error (.invalidRange range content.size) := by
  by_cases hle : range.offset + range.length ≤ content.size
  · rw [if_pos hle, checkRange_of_le (by omega) hle]
  · have hstop : content.size < range.stop := by
      rw [ByteRange.stop, Offset.clamped]
      omega
    rw [if_neg hle, checkRange, if_pos hstop]

theorem slice_eq_cut (hsize : content.size < maxOffset) : slice content = cut content := by
  funext range
  rw [cut]
  by_cases hle : range.offset + range.length ≤ content.size
  · rw [if_pos hle, slice_of_le (by omega) hle]
  · rw [if_neg hle, slice, checkRange_eq hsize, if_neg hle]

theorem fileSlice_eq_cut (hsize : content.size < maxOffset) : fileSlice content = cut content := by
  funext range
  rw [cut]
  by_cases hle : range.offset + range.length ≤ content.size
  · rw [if_pos hle]
    exact serves_file content [] range (by omega) hle
  · rw [if_neg hle, fileSlice, checkRange_eq hsize, if_neg hle]

/-- The default way to get all bytes finds as many as it asked for. -/
theorem exactly_cut (content : Bytes) : exactly (cut content) = cut content := by
  funext range
  rw [exactly, cut]
  by_cases hle : range.offset + range.length ≤ content.size
  · have hlength : (content.extract range.offset (range.offset + range.length)).size =
        range.length := by
      rw [Array.size_extract]
      omega
    rw [if_pos hle]
    exact if_pos hlength
  · rw [if_neg hle]

/-- A source whose answers are cut out of a content gives the expected ones. -/
theorem answer_eq_expected {source : ByteSource} {before : List ByteRange}
    (hreadAt : source.readAt before = cut content)
    (hreadInto : source.readInto before = cut content) (call : StoreCall) :
    source.answer before call = call.expected content := by
  cases call with
  | readAt offset length =>
    rw [answer, hreadAt]
    rfl
  | readRange range =>
    rw [answer, hreadAt]
    rfl
  | readInto offset buffer =>
    rw [answer, hreadInto, cut, StoreCall.expected]
    by_cases hle : offset + buffer.size ≤ content.size
    · rw [if_pos hle, if_pos hle]
      rfl
    · rw [if_neg hle, if_neg hle]
      rfl

end ByteSource

/-- Reads into a buffer of the caller, which keeps what was written to it where they fail. -/
abbrev FillM := ExceptT StorageError (StateM Bytes)

namespace FillM

variable {α : Type} {buffer : Bytes} {f : Bytes → FillM α}

theorem run_get_bind : (get >>= f : FillM α).run buffer = (f buffer).run buffer := rfl

theorem run_ofExcept_bind {answer : Except StorageError α} {f : α → FillM Unit} :
    (ofExcept answer >>= f : FillM Unit).run buffer =
      match answer with
      | .ok v => (f v).run buffer
      | .error e => (.error e, buffer) := by
  cases answer <;> rfl

end FillM

/-- A store that writes to the buffer of its caller. -/
structure ByteStore where
  readAt : ByteRange → Except StorageError Bytes
  /-- Fills the buffer with the bytes from an offset on. -/
  readInto : Nat → FillM Unit

namespace ByteStore

/-- The default way to fill a buffer: as many bytes are asked for and copied if they are as many. -/
def fillExactly (readAt : ByteRange → Except StorageError Bytes) (offset : Nat) : FillM Unit := do
  let buffer ← get
  let range : ByteRange := { offset := offset, length := buffer.size }
  let bytes ← ofExcept (readAt range)
  if bytes.size = buffer.size then set bytes
  else throw (.invalidRange range (Offset.around (offset + bytes.size)))

/-- Fills a buffer from a file by a positioned read. Where this read fails, the buffer is left as
`spoil` says. -/
def fillFromFile (spoil : Bytes → Bytes) (content : Bytes) (offset : Nat) : FillM Unit := do
  let buffer ← get
  let range : ByteRange := { offset := offset, length := buffer.size }
  ofExcept (ByteSource.checkRange content range)
  match Bytes.window? content offset buffer.size with
  | some bytes => set bytes
  | none =>
    set (spoil buffer)
    throw (.invalidRange range content.size)

/-- A store over bytes in memory. -/
def memory (content : Bytes) : ByteStore :=
  { readAt := ByteSource.slice content
    readInto := fillExactly (ByteSource.slice content) }

/-- A store over a file with the given content. -/
def file (spoil : Bytes → Bytes) (content : Bytes) : ByteStore :=
  { readAt := ByteSource.fileSlice content
    readInto := fillFromFile spoil content }

/-- The answer of a store. A range is asked for by its offset and its length. -/
def answer (store : ByteStore) : StoreCall → StoreAnswer
  | .readAt offset length => .bytes (store.readAt { offset := offset, length := length })
  | .readRange range => .bytes (store.readAt { offset := range.offset, length := range.length })
  | .readInto offset buffer => .filled ((store.readInto offset).run buffer)

variable {content : Bytes}

/-- Filling in the default way writes what `exactly` gives. -/
theorem run_fillExactly (readAt : ByteRange → Except StorageError Bytes) (offset : Nat)
    (buffer : Bytes) : (fillExactly readAt offset).run buffer =
      fillWith buffer (ByteSource.exactly readAt { offset := offset, length := buffer.size }) := by
  rw [fillExactly, FillM.run_get_bind, FillM.run_ofExcept_bind, ByteSource.exactly]
  rcases readAt { offset := offset, length := buffer.size } with e | bytes
  · rfl
  · dsimp only
    split <;> rfl

/-- Filling from a file writes what `fileSlice` gives. A range that passes the check is in the file,
so no positioned read fails. -/
theorem run_fillFromFile (spoil : Bytes → Bytes) (hsize : content.size < maxOffset) (offset : Nat)
    (buffer : Bytes) : (fillFromFile spoil content offset).run buffer =
      fillWith buffer
        (ByteSource.fileSlice content { offset := offset, length := buffer.size }) := by
  rw [fillFromFile, FillM.run_get_bind, FillM.run_ofExcept_bind, ByteSource.fileSlice,
    ByteSource.checkRange_eq hsize]
  by_cases hle : offset + buffer.size ≤ content.size
  · rw [if_pos hle]
    dsimp only
    rw [Bytes.window?, if_pos hle]
    rfl
  · rw [if_neg hle]
    rfl

theorem answer_memory (content : Bytes) (before : List ByteRange) (call : StoreCall) :
    (memory content).answer call = (ByteSource.memory content).answer before call := by
  cases call with
  | readAt => rfl
  | readRange => rfl
  | readInto offset buffer => exact congrArg _ (run_fillExactly _ offset buffer)

theorem answer_file (spoil : Bytes → Bytes) (hsize : content.size < maxOffset)
    (before : List ByteRange) (call : StoreCall) :
    (file spoil content).answer call = (ByteSource.file content).answer before call := by
  cases call with
  | readAt => rfl
  | readRange => rfl
  | readInto offset buffer => exact congrArg _ (run_fillFromFile spoil hsize offset buffer)

/-- A store in memory and one over a file with the same content give the same answer to every call,
the one that exact ends lead to, also where the sum of offset and length is beyond the largest
offset. One fills buffers in the default way and the other on its own, and both answer like the
source of the content. Where a source gives fewer bytes than it was asked for, the default way to
fill fails and keeps the buffer. The size it states is where the bytes given end, which goes around
after the largest offset. -/
theorem answers_exactly (spoil : Bytes → Bytes) (content : Bytes)
    (hsize : content.size < maxOffset) :
    (∀ call : StoreCall, (memory content).answer call = call.expected content ∧
      (file spoil content).answer call = call.expected content ∧
      ∀ before, (ByteSource.memory content).answer before call = call.expected content ∧
        (ByteSource.file content).answer before call = call.expected content) ∧
    ∀ (readAt : ByteRange → Except StorageError Bytes) (offset : Nat) (buffer bytes : Bytes),
      readAt { offset := offset, length := buffer.size } = .ok bytes → bytes.size < buffer.size →
        (fillExactly readAt offset).run buffer =
          (.error (.invalidRange { offset := offset, length := buffer.size }
            (Offset.around (offset + bytes.size))), buffer) := by
  constructor
  · intro call
    have hslice := ByteSource.slice_eq_cut hsize
    have hfile := ByteSource.fileSlice_eq_cut hsize
    have hexactly : ByteSource.exactly (ByteSource.slice content) = ByteSource.cut content := by
      rw [hslice, ByteSource.exactly_cut]
    have hmemory before : (ByteSource.memory content).answer before call = call.expected content :=
      ByteSource.answer_eq_expected hslice hexactly call
    have hfiled before : (ByteSource.file content).answer before call = call.expected content :=
      ByteSource.answer_eq_expected hfile hfile call
    rw [answer_memory content [], answer_file spoil hsize []]
    exact ⟨hmemory [], hfiled [], fun before => ⟨hmemory before, hfiled before⟩⟩
  · intro readAt offset buffer bytes hread hshort
    rw [run_fillExactly, ByteSource.exactly, hread]
    dsimp only
    rw [if_neg (Nat.ne_of_lt hshort)]
    rfl

/-- Nothing from the end of three bytes on, two bytes from the largest offset on, and one byte where
two were asked for. -/
theorem answers_exactly_three_bytes :
    (memory #[7, 8, 9]).answer (.readAt 3 0) = .bytes (.ok #[]) ∧
      (file id #[7, 8, 9]).answer (.readInto maxOffset #[0, 0]) =
        .filled (.error (.invalidRange { offset := maxOffset, length := 2 } 3), #[0, 0]) ∧
      (fillExactly (fun _ => .ok #[7]) 5).run #[0, 0] =
        (.error (.invalidRange { offset := 5, length := 2 } 6), #[0, 0]) := by
  obtain ⟨hcalls, hshort⟩ := answers_exactly id #[7, 8, 9] (by decide)
  exact ⟨(hcalls (.readAt 3 0)).1, (hcalls (.readInto maxOffset #[0, 0])).2.1,
    hshort (fun _ => .ok #[7]) 5 #[0, 0] #[7] rfl (by decide)⟩

end ByteStore

end Hyperslab
