import Hyperslab.ByteRange
import Hyperslab.Codec.Basic
import Hyperslab.Descriptor.ChunkMap
import Hyperslab.Grid

/-!
# Storage layouts

Where the bytes of a variable are: nowhere, in one piece, in a chain of segments, or in chunks, and
each of them plain or compressed.
-/

namespace Hyperslab

/-- Where the encoded bytes of a chunk are. -/
inductive ChunkData where
  | contiguous (range : ByteRange)
  /-- A chain of segments that are read as one string. -/
  | linked (segments : List ByteRange)
deriving DecidableEq, Repr

def ChunkData.encodedLength : ChunkData → Nat
  | contiguous range => range.length
  | linked segments => chainLength segments

structure CompressedChunk where
  data : ChunkData
  /-- The declared number of decoded bytes. -/
  uncompressedLength : Nat
  codec : CodecId
deriving DecidableEq, Repr

/-- How the elements of a variable are stored. -/
inductive StorageLayout where
  | noData
  /-- The elements follow one another from an offset on. -/
  | regular (baseOffset : Nat)
  /-- The elements are compressed into one range. -/
  | compressed (data : ByteRange) (uncompressedLength : Nat) (codec : CodecId)
  /-- The elements follow one another in a chain of segments. -/
  | segmented (segments : List ByteRange)
  /-- Each stored chunk has a range of its own. -/
  | tiled (chunkShape : ChunkShape) (chunks : ChunkMap ByteRange)
  /-- Each stored chunk is compressed on its own. -/
  | compressedTiled (chunkShape : ChunkShape) (chunks : ChunkMap CompressedChunk)
  /-- The elements are compressed into a chain of segments. -/
  | compressedSegmented (segments : List ByteRange) (codec : CodecId) (uncompressedLength : Nat)

namespace StorageLayout

def name : StorageLayout → String
  | noData => "no_data"
  | regular _ => "regular"
  | compressed _ _ _ => "compressed"
  | segmented _ => "segmented"
  | tiled _ _ => "tiled"
  | compressedTiled _ _ => "compressed_tiled"
  | compressedSegmented _ _ _ => "compressed_segmented"

/-- Whether each element has an offset of its own in the byte source, or none is stored. -/
def isDirectlyAddressable : StorageLayout → Bool
  | noData | regular _ | tiled _ _ => true
  | _ => false

def chunkShape? : StorageLayout → Option ChunkShape
  | tiled chunkShape _ | compressedTiled chunkShape _ => some chunkShape
  | _ => none

/-- The number of encoded bytes of each compressed chunk. -/
def encodedLengths : StorageLayout → List (Index × Nat)
  | compressedTiled _ chunks =>
    chunks.entries.map fun (origin, chunk) => (origin, chunk.data.encodedLength)
  | _ => []

end StorageLayout

end Hyperslab
