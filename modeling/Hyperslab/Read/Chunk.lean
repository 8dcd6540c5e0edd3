import Hyperslab.Codec.Stream
import Hyperslab.Read.Error

/-!
# Chunk retrieval

A chunk is fetched as a whole. The bytes of a compressed chunk are decoded to exactly the declared
length: at most one byte more is decoded, to notice a chunk that is longer. The buffer they are
decoded into is set up in that length before the first of them is decoded.
-/

namespace Hyperslab

inductive ChunkLocator where
  | direct (range : ByteRange)
  | compressed (chunk : CompressedChunk)
deriving DecidableEq, Repr

/-- Refuses a declared decoded length that is larger than the options allow. -/
def checkDecodedSize (declared : Nat) (options : ReadOptions) : Except ReadError Unit :=
  if options.maxDecodedChunkSize < declared then
    .error (.corruptChunk (.tooLarge declared options.maxDecodedChunkSize))
  else .ok ()

def findCodec (id : CodecId) : Except ReadError Codec :=
  (Codec.ofId id).mapError ReadError.unsupportedCodec

namespace ChunkData

/-- The encoded bytes of a chunk: fetched at once where they are in one range, and requested as they
are wanted where they are in a chain. -/
def payload (source : ByteSource) (options : ReadOptions) :
    ChunkData → SourceM StorageError Payload
  | contiguous range => do
    let bytes ← source.fetch range
    pure (.held bytes 0)
  | linked segments => pure (.chain (.ofChain segments options))

end ChunkData

namespace DecodedStream

/-- The number of missing bytes from which on the byte after them is not wanted with them. -/
def probeSize : Nat := 32

/-- The number of bytes to read where `missing` of the declared ones are missing: all of them and
the byte after them if they are few, else as many as the largest read allows. -/
def wantedFor (missing largest : Nat) : Nat :=
  if missing < probeSize then missing + 1 else min missing largest

variable [Decoder]

/-- The bytes of a stream up to one after `declared`, put behind those held, by reads of at
most `largest` bytes. -/
def readDeclaredFrom (source : ByteSource) (s : DecodedStream) (declared : Nat) (held : Bytes)
    (largest : Nat) : SourceM DecodeError Bytes :=
  if declared < held.size then pure held
  else do
    -- the last read asks for one byte too many, to see whether the stream goes on
    let wanted := wantedFor (declared - held.size) largest
    let (bytes, s) ← s.read source wanted
    if bytes.size = 0 then pure held
    else
      readDeclaredFrom source s declared (held ++ bytes)
        (largestAfter 2 largest wanted bytes.size)
termination_by declared + 1 - held.size
decreasing_by
  simp only [Array.size_append]
  omega

/-- The bytes of a stream up to one after `declared`. -/
def readDeclared (source : ByteSource) (s : DecodedStream) (declared : Nat) :
    SourceM DecodeError Bytes :=
  s.readDeclaredFrom source declared #[] firstLargest

end DecodedStream

/-- Makes sure that a buffer of some bytes can be had. -/
def reserve (size : Nat) : SourceM ReadError Unit :=
  ofExcept ((Bytes.reserve size).mapError ReadError.halted)

theorem reserve_of_le {size : Nat} (h : size ≤ Bytes.maxCapacity) : reserve size = pure () := by
  rw [reserve, Bytes.reserve_of_le h]
  rfl

theorem reserve_of_lt {size : Nat} (h : Bytes.maxCapacity < size) :
    reserve size = throw (.halted (.capacity size)) := by
  rw [reserve, Bytes.reserve_of_lt h]
  rfl

namespace CompressedChunk

def decode [Decoder] (source : ByteSource) (options : ReadOptions) (chunk : CompressedChunk) :
    SourceM ReadError Bytes := do
  ofExcept (checkDecodedSize chunk.uncompressedLength options)
  let codec ← ofExcept (findCodec chunk.codec)
  let payload ← (chunk.data.payload source options).mapError ReadError.storage
  reserve chunk.uncompressedLength
  let stream := DecodedStream.ofPayload codec payload
  let bytes ← (stream.readDeclared source chunk.uncompressedLength).mapError ReadError.ofDecode
  if bytes.size ≠ chunk.uncompressedLength then
    throw (.corruptChunk (.decodedLength bytes.size chunk.uncompressedLength))
  pure bytes

end CompressedChunk

def fetchChunk [Decoder] (source : ByteSource) (options : ReadOptions) :
    ChunkLocator → SourceM ReadError Bytes
  | .direct range => (source.fetch range).mapError ReadError.storage
  | .compressed chunk => chunk.decode source options

/-- Where the stored chunk with the given origin is. -/
def StorageLayout.locate? (layout : StorageLayout) (origin : Index) : Option ChunkLocator :=
  match layout with
  | .tiled _ chunks => (chunks.get? origin).map .direct
  | .compressedTiled _ chunks => (chunks.get? origin).map .compressed
  | _ => none

end Hyperslab
