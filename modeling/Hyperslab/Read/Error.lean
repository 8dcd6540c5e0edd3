import Hyperslab.Descriptor.Basic
import Hyperslab.Record.Layout

/-!
# Read errors

Everything that a read of a section may fail with. A `CorruptChunk` is compressed data that is not
what its descriptor declares. A `Defect` would be a mistake of the library itself: such an error
has a name, so that it can be said when it arises. A read that is `halted` gives no answer at all,
because the program stops in the middle of it.
-/

namespace Hyperslab

/-- The ways in which compressed data differs from its declaration. -/
inductive CorruptChunk where
  /-- The declared decoded length is larger than the options allow. -/
  | tooLarge (declared allowed : Nat)
  /-- The encoded bytes are no zlib stream. -/
  | malformed
  /-- The encoded bytes end before the bytes wanted. -/
  | endedPrematurely
  /-- The decoded stream ended before the place wanted. -/
  | endedAt (position : Nat)
  /-- The decoded stream is shorter than declared. -/
  | shorter (position declared : Nat)
  /-- The decoded stream is longer than declared. -/
  | longer (declared : Nat)
  /-- A decoded chunk does not have the declared length. -/
  | decodedLength (got declared : Nat)
deriving DecidableEq, Repr

/-- Things that no read of a descriptor that every build accepts comes upon. -/
inductive Defect where
  /-- The part of a section in a chunk does not fit the chunk or the destination. -/
  | unplaced (origin : Index) (cause : SectionError)
  /-- A transfer from a chunk, in a layout without compressed chunks. -/
  | chunkElsewhere (origin : Index)
  /-- A transfer from a chunk that is not stored. -/
  | chunkAbsent (origin : Index)
  /-- A transfer from after the end of a chunk. -/
  | chunkShort (origin : Index) (needed : Nat)
  /-- A transfer from a stream, in a layout without one. -/
  | streamless (layout : String)
  /-- A transfer from no offset, in a layout where each element has one. -/
  | unaddressed (layout : String)
  /-- A transfer to a place outside of the destination. -/
  | outsideDestination (start length : Nat)
  /-- A field that is not inside of the bytes of a record, as many as given. -/
  | outsideRecord (field : RecordField) (size : Nat)
deriving DecidableEq, Repr

/-- The ways in which a read fails. -/
inductive ReadError where
  /-- The section does not fit the variable. -/
  | invalidSection (cause : SectionError)
  | storage (cause : StorageError)
  /-- Compressed data is not what was declared. -/
  | corruptChunk (cause : CorruptChunk)
  /-- No codec has the declared number. -/
  | unsupportedCodec (cause : UnsupportedCodec)
  /-- The layout of the records is inconsistent, by itself or with the variable. -/
  | corruptRecord (cause : RecordLayoutError)
  /-- The destination does not have the size of the section. -/
  | destinationSize (got expected : Nat)
  /-- The descriptor is inconsistent. -/
  | invalidDescriptor (cause : DescriptorError)
  /-- The library made a mistake. -/
  | defect (cause : Defect)
  /-- The program stops. -/
  | halted (cause : Halt)
deriving DecidableEq, Repr

def CorruptChunk.message : CorruptChunk → String
  | tooLarge declared allowed =>
    s!"declared uncompressed length {declared} exceeds the maximum decoded chunk size {allowed}"
  | malformed => DecodeError.malformed.message
  | endedPrematurely => "the decoded stream ended prematurely"
  | endedAt position => s!"the decoded stream ended at {position}"
  | shorter position declared =>
    s!"the decoded stream ended at {position}, expected {declared} bytes"
  | longer declared => s!"the decoded stream is longer than the declared {declared} bytes"
  | decodedLength got declared => s!"decoded chunk has length {got}, expected {declared}"

def Defect.message : Defect → String
  | unplaced origin cause => s!"chunk {bracketedNats origin} is misplaced: {cause.message}"
  | chunkElsewhere origin =>
    s!"chunk {bracketedNats origin} is not part of a compressed tiled layout"
  | chunkAbsent origin => s!"chunk {bracketedNats origin} is not stored"
  | chunkShort origin needed => s!"chunk {bracketedNats origin} is shorter than {needed} bytes"
  | streamless layout => s!"a {layout} layout has no logical stream"
  | unaddressed layout => s!"a {layout} layout is not directly addressable"
  | outsideDestination start length =>
    s!"{length} bytes from {start} on are not inside of the destination"
  | outsideRecord field size => s!"field {field.name} is not inside of a record of {size} bytes"

def ReadError.message : ReadError → String
  | invalidSection cause => cause.message
  | storage cause => cause.message
  | corruptChunk cause => "corrupt chunk: " ++ cause.message
  | unsupportedCodec cause => cause.message
  | corruptRecord cause => cause.message
  | destinationSize got expected =>
    s!"got destination buffer with size {got}, expected {expected}"
  | invalidDescriptor cause => cause.message
  | defect cause => cause.message
  | halted cause => cause.message

/-- A decoding failure as one of a read. A failure of the byte source stays what it is. -/
def ReadError.ofDecode : DecodeError → ReadError
  | .source cause => storage cause
  | .malformed => corruptChunk .malformed
  | .incomplete | .exhausted => corruptChunk .endedPrematurely

end Hyperslab
