import Hyperslab.ByteRange
import Hyperslab.Bytes

/-!
# Byte sources

A byte source answers reads at given places. There are two ways to ask: `readAt` gives bytes, as
many as the source chooses to give, and `readInto` fills a destination of the given size or fails.
An answer may depend on what was asked before: a range that was answered once may fail later.

## Main definitions

- `ByteSource.memory`, `ByteSource.file`: sources over a fixed content
- `ByteSource.failing`: a source that fails some of the requests
- `ByteSource.offlineAt`: a source that fails every request for one of its bytes
- `ByteSource.shortened`: a source that gives only so many bytes at a time
- `Medium.source`: the source of something that may not be there
-/

namespace Hyperslab

/-- The kind of a failure of the operating system. -/
inductive IoKind where
  | notFound
  | timedOut
deriving DecidableEq, Repr

/-- The ways in which a byte source fails. -/
inductive StorageError where
  /-- The operating system failed. -/
  | io (kind : IoKind) (text : String)
  /-- The range is not inside of the given number of bytes. -/
  | invalidRange (range : ByteRange) (size : Nat)
  /-- A segment chain ended before the requested bytes. -/
  | chainEnded (position requested : Nat)
  /-- The source gave a reason of its own. -/
  | other (text : String)
deriving DecidableEq, Repr

def ByteRange.invalidMessage (range : ByteRange) (size : Nat) : String :=
  s!"invalid byte range {range.text} for bytes of length {size}"

def StorageError.message : StorageError → String
  | .io _ text => text
  | .invalidRange range size => "invalid byte range " ++ range.invalidMessage size
  | .chainEnded position requested =>
    s!"segment chain ended at logical offset {position} with {requested} bytes requested"
  | .other text => text

/-- Something that answers reads of a number of bytes at an offset. Each answer is given after the
requests `before`, in their order, failed ones included. -/
structure ByteSource where
  /-- Gives the bytes of a range, or fewer where the source gives no more at a time. -/
  readAt : (before : List ByteRange) → ByteRange → Except StorageError Bytes
  /-- Gives all bytes of a range. -/
  readInto : (before : List ByteRange) → ByteRange → Except StorageError Bytes
  /-- The number of bytes of the source. -/
  size : Nat
  readInto_size : ∀ before range bytes,
    readInto before range = .ok bytes → bytes.size = range.length

namespace ByteSource

/-- All bytes of a range by a read that may give fewer. Fewer bytes mean that the source ends
after them. -/
def exactly (readAt : ByteRange → Except StorageError Bytes) (range : ByteRange) :
    Except StorageError Bytes :=
  match readAt range with
  | .ok bytes =>
    if bytes.size = range.length then .ok bytes
    -- the answer is all that is known of the size
    else .error (.invalidRange range (Offset.around (range.offset + bytes.size)))
  | .error e => .error e

theorem size_of_exactly {readAt : ByteRange → Except StorageError Bytes} {range : ByteRange}
    {bytes : Bytes} (h : exactly readAt range = .ok bytes) : bytes.size = range.length := by
  unfold exactly at h
  split at h
  · split at h
    · cases h
      assumption
    · cases h
  · cases h

/-- Refuses a range that ends after the content. -/
def checkRange (content : Bytes) (range : ByteRange) : Except StorageError Unit :=
  if content.size < range.stop then .error (.invalidRange range content.size) else .ok ()

/-- The bytes of a range of the content. -/
def slice (content : Bytes) (range : ByteRange) : Except StorageError Bytes :=
  match checkRange content range with
  | .ok () => .ok (content.extract range.offset range.stop)
  | .error e => .error e

/-- A source over bytes in memory. -/
def memory (content : Bytes) : ByteSource :=
  { readAt := fun _ => slice content
    readInto := fun _ => exactly (slice content)
    size := content.size
    readInto_size := fun _ _ _ h => size_of_exactly h }

/-- The bytes of a range of a file, which are read to the last one. -/
def fileSlice (content : Bytes) (range : ByteRange) : Except StorageError Bytes :=
  match checkRange content range with
  | .ok () =>
    match Bytes.window? content range.offset range.length with
    | some bytes => .ok bytes
    | none => .error (.invalidRange range content.size)
  | .error e => .error e

/-- A source over a file with the given content. -/
def file (content : Bytes) : ByteSource :=
  { readAt := fun _ => fileSlice content
    readInto := fun _ => fileSlice content
    size := content.size
    readInto_size := by
      intro _ range bytes h
      unfold fileSlice at h
      split at h
      · split at h
        · cases h
          exact Bytes.size_window? ‹_›
        · cases h
      · cases h }

/-- A source that answers with at most `limit` bytes. -/
def shortened (source : ByteSource) (limit : Nat) : ByteSource :=
  let readAt := fun before range => (source.readAt before range).map (·.take limit)
  { readAt := readAt
    readInto := fun before => exactly (readAt before)
    size := source.size
    readInto_size := fun _ _ _ h => size_of_exactly h }

/-- The answers but for some failures. -/
def guarded (failure? : List ByteRange → ByteRange → Option StorageError)
    (answer : List ByteRange → ByteRange → Except StorageError Bytes) (before : List ByteRange)
    (range : ByteRange) : Except StorageError Bytes :=
  match failure? before range with
  | some e => .error e
  | none => answer before range

theorem of_guarded {failure? : List ByteRange → ByteRange → Option StorageError}
    {answer : List ByteRange → ByteRange → Except StorageError Bytes} {before : List ByteRange}
    {range : ByteRange} {bytes : Bytes} (h : guarded failure? answer before range = .ok bytes) :
    answer before range = .ok bytes := by
  unfold guarded at h
  split at h
  · cases h
  · exact h

/-- A source that fails some of the requests. -/
def failing (source : ByteSource) (failure? : List ByteRange → ByteRange → Option StorageError) :
    ByteSource :=
  { readAt := guarded failure? source.readAt
    readInto := guarded failure? source.readInto
    size := source.size
    readInto_size := fun before range bytes h =>
      source.readInto_size before range bytes (of_guarded h) }

/-- Whether the range holds the byte at `offset`. -/
def covers (range : ByteRange) (offset : Nat) : Bool :=
  range.offset ≤ offset && offset < range.offset + range.length

/-- A source that fails every request for the byte at `offset`. -/
def offlineAt (source : ByteSource) (offset : Nat) (failure : StorageError) : ByteSource :=
  source.failing fun _ range => if covers range offset then some failure else none

end ByteSource

/-- Where the bytes of a source are kept. -/
inductive Medium where
  | memory (content : Bytes)
  /-- A file, with no content where it does not exist. -/
  | file (content : Option Bytes)
deriving DecidableEq, Repr

/-- The source of a medium, unless it is a file that does not exist. -/
def Medium.source : Medium → Except StorageError ByteSource
  | .memory content => .ok (.memory content)
  | .file (some content) => .ok (.file content)
  | .file none => .error (.io .notFound "No such file or directory (os error 2)")

end Hyperslab
