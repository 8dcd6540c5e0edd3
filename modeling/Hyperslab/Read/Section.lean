import Hyperslab.Read.Stream
import Hyperslab.Transfer.Fold

/-!
# Reads of sections

A read carries out the transfers of its section one after the other. What it holds on the way is in
`ReadProgress`: the destination, a direct read that is put off until it is known where it ends, the
chunk decoded last and the logical stream. Nothing of it outlives the read.

## Main definitions

- `ReadProgress.execute`: carries out one transfer
- `readSectionInto`: reads a section into a destination
- `readSection`: reads a section into a new destination
- `readSections`: reads one section after another
-/

namespace Hyperslab

/-- What a read is about. -/
structure ReadRequest (a : Build := .checked) where
  source : ByteSource
  descriptor : Descriptor a
  options : ReadOptions

variable {a : Build} [Decoder]

/-- A direct read that is not yet requested. -/
structure PendingRead where
  offset : Nat
  /-- The place of the first byte in the destination. -/
  destination : Nat
  length : Nat
deriving DecidableEq, Repr

/-- What a read holds between two transfers. -/
structure ReadProgress where
  output : Bytes
  pending : Option PendingRead := none
  /-- The origin and the bytes of the chunk decoded last. -/
  chunk : Option (Index × Bytes) := none
  stream : Option LogicalStream := none

namespace ReadProgress

def write (p : ReadProgress) (start : Nat) (bytes : Bytes) : Except ReadError ReadProgress :=
  let { output, pending, chunk, stream } := p
  match Bytes.overwrite? output start bytes with
  | some output => .ok { output, pending, chunk, stream }
  | none => .error (.defect (.outsideDestination start bytes.size))

/-- Refuses a part that is not inside of the destination. -/
def checkPart (p : ReadProgress) (start length : Nat) : Except ReadError Unit :=
  if start + length ≤ p.output.size then .ok ()
  else .error (.defect (.outsideDestination start length))

/-- Requests bytes for a part of the destination. -/
def fetchInto (r : ReadRequest a) (p : ReadProgress) (offset destination length : Nat) :
    SourceM ReadError ReadProgress := do
  ofExcept (p.checkPart destination length)
  let bytes ← (r.source.fetchExactly ⟨offset, length⟩).mapError ReadError.storage
  ofExcept (p.write destination bytes)

/-- Requests the direct read that was put off. -/
def flush (r : ReadRequest a) (p : ReadProgress) : SourceM ReadError ReadProgress :=
  match p.pending with
  | some read => { p with pending := none }.fetchInto r read.offset read.destination read.length
  | none => pure p

/-- The read that goes on after `read` with `length` bytes, where these follow it in the source and
in the destination. -/
def PendingRead.extend? (read : PendingRead) (offset destination length : Nat) :
    Option PendingRead :=
  if read.offset + read.length = offset ∧ read.destination + read.length = destination then
    some { read with length := read.length + length }
  else none

/-- Carries out a direct read, or puts it off in the hope of more that follows it. -/
def direct (r : ReadRequest a) (p : ReadProgress) (offset destination length : Nat) :
    SourceM ReadError ReadProgress :=
  if r.options.coalesceDirectReads then
    match p.pending.bind (PendingRead.extend? · offset destination length) with
    | some read => pure { p with pending := some read }
    | none => do
      -- at most one read is put off, so the one before goes first
      let p ← p.flush r
      pure { p with pending := some { offset, destination, length } }
  else p.fetchInto r offset destination length

/-- The logical stream at or before `offset`. A stream goes forward only, so one that is beyond is
opened anew. -/
def streamBefore (r : ReadRequest a) (p : ReadProgress) (offset : Nat) :
    SourceM ReadError LogicalStream :=
  match p.stream with
  | some stream =>
    if offset < stream.position then
      LogicalStream.ofLayout r.options r.descriptor.layout
    else pure stream
  | none => LogicalStream.ofLayout r.options r.descriptor.layout

/-- Carries out a read from the logical stream. -/
def fromStream (r : ReadRequest a) (p : ReadProgress) (offset destination length : Nat) :
    SourceM ReadError ReadProgress := do
  let stream ← p.streamBefore r offset
  let stream ←
    if stream.position < offset then stream.skip r.source (offset - stream.position)
    else pure stream
  -- the part is looked at after a skip and before its bytes are asked for
  ofExcept (p.checkPart destination length)
  let (bytes, stream) ← stream.readExact r.source length
  ofExcept ({ p with stream := some stream }.write destination bytes)

def fetchStored (r : ReadRequest a) (origin : Index) : SourceM ReadError Bytes :=
  match r.descriptor.layout with
  | .compressedTiled _ chunks =>
    match chunks.get? origin with
    | some chunk => do
      SourceM.report (.fetchingChunk origin chunk.data.encodedLength chunk.codec)
      fetchChunk r.source r.options (.compressed chunk)
    | none => throw (.defect (.chunkAbsent origin))
  | _ => throw (.defect (.chunkElsewhere origin))

/-- The decoded bytes of a chunk, which are fetched unless they were the last ones. -/
def chunkBytes (r : ReadRequest a) (p : ReadProgress) (origin : Index) : SourceM ReadError Bytes :=
  match p.chunk with
  | some (current, bytes) => if current = origin then pure bytes else fetchStored r origin
  | none => fetchStored r origin

/-- Carries out a read from a decoded chunk. -/
def fromChunk (r : ReadRequest a) (p : ReadProgress) (origin : Index)
    (offset destination length : Nat) : SourceM ReadError ReadProgress := do
  let bytes ← p.chunkBytes r origin
  match Bytes.window? bytes offset length with
  | some part => ofExcept ({ p with chunk := some (origin, bytes) }.write destination part)
  | none => throw (.defect (.chunkShort origin (offset + length)))

def fillElements (r : ReadRequest a) (p : ReadProgress) (destination run : Nat) :
    Except ReadError ReadProgress :=
  let { output, pending, chunk, stream } := p
  let elementSize := r.descriptor.elementSize
  match fillRuns output elementSize r.descriptor.fill [(destination, run)] with
  | some output => .ok { output, pending, chunk, stream }
  | none => .error (.defect (.outsideDestination (destination * elementSize) (run * elementSize)))

def execute (r : ReadRequest a) (p : ReadProgress) (t : Transfer) : SourceM ReadError ReadProgress :=
  let destination := t.destination * r.descriptor.elementSize
  let length := t.runLength * r.descriptor.elementSize
  match t.source with
  | .direct offset => p.direct r offset destination length
  | .stream offset => p.fromStream r offset destination length
  | .chunk origin offset => p.fromChunk r origin offset destination length
  | .fill => ofExcept (p.fillElements r t.destination t.runLength)

/-- Requests what was put off, and compares the stream with its declared length. Gives the
destination. -/
def finish (r : ReadRequest a) (p : ReadProgress) : SourceM ReadError Bytes := do
  let p ← p.flush r
  match p.stream with
  | some stream => stream.finish r.source
  | none => pure ()
  pure p.output

end ReadProgress

/-- Reads a section into a destination of just its size, in a build without checks if no other one
is named. -/
def readSectionInto (r : ReadRequest a) (s : Section) (destination : Bytes)
    (b : Build := .wrapping) : SourceM ReadError Bytes := do
  let d := r.descriptor
  let transfers ← ofExcept (startTransfers b d s)
  let expected := s.totalCount * d.elementSize
  if destination.size ≠ expected then throw (.destinationSize destination.size expected)
  SourceM.report (.readingSection s d.layout.name s.totalCount)
  let start : ReadProgress := { output := destination }
  let p ← transfers.fold b d.elementSize s (ReadProgress.execute r) start
  p.finish r

/-- Whether a layout stores nothing. -/
def StorageLayout.isAbsent : StorageLayout → Bool
  | .noData => true
  | _ => false

/-- Reads a section. Its elements follow one another in row-major order. The destination is set up
before anything but the section is looked at. -/
def readSection (r : ReadRequest a) (s : Section) (b : Build := .wrapping) :
    SourceM ReadError Bytes := do
  let d := r.descriptor
  ofExcept ((s.validate d.shape).mapError ReadError.invalidSection)
  if d.layout.isAbsent then do
    SourceM.report (.readingAbsent s s.totalCount)
    reserve (s.totalCount * d.elementSize)
    pure (materialize d.elementSize d.fill s.totalCount)
  else do
    reserve (s.totalCount * d.elementSize)
    readSectionInto r s (Bytes.zeros (s.totalCount * d.elementSize)) b

/-- Reads sections, each on its own. -/
def readSections (r : ReadRequest a) (sections : List Section) : SourceM ReadError (List Bytes) :=
  sections.mapM fun s => readSection r s

end Hyperslab
