import Hyperslab.Read.Chunk

/-!
# Logical streams

The elements of a segmented or compressed layout follow one another in a logical stream, which is
read from front to back. A decoded stream knows its declared length, and after the last read it has
to end just there.

## Main definitions

- `LogicalStream.ofLayout`: the stream of a layout
- `LogicalStream.skip`, `LogicalStream.readExact`: passes or reads a number of bytes
- `LogicalStream.finish`: compares a decoded stream with its declared length
-/

namespace Hyperslab

variable [Decoder]

/-- A logical stream with a position in it. -/
inductive LogicalStream where
  /-- The bytes of a segment chain themselves. -/
  | plain (stream : SegmentStream)
  /-- Decoded bytes, `length` of them as declared. -/
  | decoded (stream : DecodedStream) (position length : Nat)

namespace LogicalStream

def position : LogicalStream → Nat
  | plain stream => stream.position
  | decoded _ position _ => position

/-- The decoded stream of a segment chain. -/
def ofSegments (options : ReadOptions) (segments : List ByteRange) (codec : CodecId)
    (length : Nat) : SourceM ReadError LogicalStream := do
  ofExcept (checkDecodedSize length options)
  let codec ← ofExcept (findCodec codec)
  SourceM.report (.openingDecoded segments.length codec.id length)
  pure (.decoded (.ofPayload codec (.chain (.ofChain segments options))) 0 length)

def ofLayout (options : ReadOptions) (layout : StorageLayout) : SourceM ReadError LogicalStream :=
  match layout with
  | .segmented segments => do
    SourceM.report (.openingStream segments.length)
    pure (.plain (.ofChain segments options))
  | .compressed data length codec => ofSegments options [data] codec length
  | .compressedSegmented segments codec length => ofSegments options segments codec length
  | layout => throw (.defect (.streamless layout.name))

def skip (source : ByteSource) (s : LogicalStream) (count : Nat) :
    SourceM ReadError LogicalStream :=
  match s with
  | plain stream => do
    let (passed, stream) := stream.skip count
    if passed ≠ count then throw (.storage (.chainEnded stream.position count))
    pure (plain stream)
  | decoded stream position length => do
    let (passed, stream) ← (stream.skip source count).mapError ReadError.ofDecode
    if passed ≠ count then throw (.corruptChunk (.endedAt (position + passed)))
    pure (decoded stream (position + passed) length)

def readExact (source : ByteSource) (s : LogicalStream) (count : Nat) :
    SourceM ReadError (Bytes × LogicalStream) :=
  match s with
  | plain stream => do
    let (result, stream) ← stream.readInto source count
    match result with
    | .error e => throw (.storage e)
    | .ok bytes =>
      if bytes.size ≠ count then throw (.storage (.chainEnded stream.position count))
      pure (bytes, plain stream)
  | decoded stream position length => do
    let (bytes, stream) ← (stream.readExact source count).mapError ReadError.ofDecode
    pure (bytes, decoded stream (position + count) length)

/-- Decodes what is left of a decoded stream, at most to one byte after its declared length, and
refuses a stream that does not end there. -/
def finish (source : ByteSource) (s : LogicalStream) : SourceM ReadError Unit :=
  match s with
  | plain _ => pure ()
  | decoded stream position length => do
    -- the one byte more tells a longer stream from one that ends where it should
    let remaining := Offset.clamped (length + 1) - position
    let (passed, _) ← (stream.skip source remaining).mapError ReadError.ofDecode
    let position := position + passed
    if position < length then throw (.corruptChunk (.shorter position length))
    if length < position then throw (.corruptChunk (.longer length))

end LogicalStream

end Hyperslab
