import Hyperslab.Descriptor.Layout
import Hyperslab.Fill

/-!
# Storage descriptors

A descriptor says how one variable is stored. `StorageMetadata` is what is declared of a variable,
and a `Descriptor` is such a declaration that `StorageMetadata.check` accepts: every size and every
byte range stays within the largest offset, and the stored parts have the size of what they hold.

All of this is checked for in every build but one thing. The number of elements of a chunk is
multiplied up as the build has it, so a wrapping build may take a chunk for smaller than it is. The
descriptors of a checked build are accepted by every build, and where no build is named a descriptor
is one of these.
-/

namespace Hyperslab

/-- What is declared of the storage of a variable. -/
structure StorageMetadata where
  shape : Shape
  elementSize : Nat
  fill : Option FillValue
  layout : StorageLayout

/-- The ways in which a declaration is inconsistent. -/
inductive DescriptorError where
  | zeroElementSize
  /-- The fill value does not have the size of an element. -/
  | fillSize (got expected : Nat)
  /-- The variable, or a chunk of it, has more bytes than there are offsets. -/
  | variableTooLarge (shape : Shape) (elementSize : Nat)
  /-- The chunk shape does not have the rank of the variable. -/
  | rank (mismatch : RankMismatch)
  /-- A chunk is stored under an index that no chunk starts at. -/
  | chunkOrigin (origin : Index)
  /-- A stored chunk does not have the size of a chunk. -/
  | chunkLength (origin : Index) (got expected : Nat)
  /-- A declared decoded length is not the size of what is decoded. -/
  | uncompressedLength (got expected : Nat)
  /-- A byte range ends past the largest offset. -/
  | rangeOverflow (range : ByteRange)
  /-- A chain of segments has more bytes than there are offsets. -/
  | chainOverflow (segments : Nat)
  /-- The program stops. -/
  | halted (cause : Halt)
deriving DecidableEq, Repr

def DescriptorError.message : DescriptorError → String
  | .zeroElementSize => "the element size must be non-zero"
  | .fillSize got expected => s!"fill value has size {got}, expected the element size {expected}"
  | .variableTooLarge shape elementSize =>
    s!"the variable with shape {bracketedNats shape} and element size {elementSize} is too large"
  | .rank mismatch => mismatch.message
  | .chunkOrigin origin => s!"{bracketedNats origin} is not a chunk origin of the chunk grid"
  | .chunkLength origin got expected =>
    s!"chunk {bracketedNats origin} has length {got}, expected {expected}"
  | .uncompressedLength got expected =>
    s!"declared uncompressed length {got} does not match the expected length {expected}"
  | .rangeOverflow range =>
    s!"byte range at offset {range.offset} with length {range.length} ends past the largest " ++
      "byte offset"
  | .chainOverflow segments =>
    s!"the total length of a chain of {segments} segments overflows"
  | .halted cause => cause.message

/-- Refuses a range that ends past the largest offset. -/
def ByteRange.check (range : ByteRange) : Except DescriptorError Unit :=
  if range.stop?.isSome then .ok () else .error (.rangeOverflow range)

/-- Refuses the first segment that ends past the largest offset or makes the chain too long, `total`
being the bytes before and `segments` the number of all segments. -/
def checkChainFrom (segments : Nat) : Nat → List ByteRange → Except DescriptorError Unit
  | _, [] => .ok ()
  | total, range :: rest => do
    range.check
    match Offset.checked (total + range.length) with
    | some total => checkChainFrom segments total rest
    | none => .error (.chainOverflow segments)

def checkChain (chain : List ByteRange) : Except DescriptorError Unit :=
  checkChainFrom chain.length 0 chain

/-- Refuses encoded bytes that are not within the largest offset. -/
def ChunkData.check : ChunkData → Except DescriptorError Unit
  | contiguous range => range.check
  | linked segments => checkChain segments

/-- Refuses a declared decoded length other than the expected one. -/
def checkDecodedLength (declared expected : Nat) : Except DescriptorError Unit :=
  if declared = expected then .ok () else .error (.uncompressedLength declared expected)

/-- The number of bytes of `size` bytes for each element of a shape, where it is at most the largest
offset after each dimension, outermost first. -/
def bytesWithin? (size : Nat) : Shape → Option Nat
  | [] => some size
  | n :: shape => do
    let size ← Offset.checked (size * n)
    bytesWithin? size shape

namespace StorageMetadata

def variableBytes (m : StorageMetadata) : Except DescriptorError Nat :=
  match bytesWithin? m.elementSize m.shape with
  | some bytes => .ok bytes
  | none => .error (.variableTooLarge m.shape m.elementSize)

/-- The chunk grid of the variable, with the number of bytes of a whole chunk. -/
def gridOf (m : StorageMetadata) (chunkShape : ChunkShape) (b : Build) :
    Except DescriptorError (ChunkGrid × Nat) :=
  match ChunkGrid.create m.shape chunkShape with
  | .error mismatch => .error (.rank mismatch)
  | .ok grid =>
    match grid.countElements b with
    | .error cause => .error (.halted cause)
    | .ok elements =>
      match Offset.checked (elements * m.elementSize) with
      | some bytes => .ok (grid, bytes)
      | none => .error (.variableTooLarge m.shape m.elementSize)

/-- Refuses a plain chunk that is not one of the grid, or not of the size of one. -/
def checkChunk (grid : ChunkGrid) (chunkBytes : Nat) :
    Index × ByteRange → Except DescriptorError Unit
  | (origin, range) => do
    if !grid.isOrigin origin then throw (.chunkOrigin origin)
    range.check
    if range.length ≠ chunkBytes then throw (.chunkLength origin range.length chunkBytes)

/-- Refuses a compressed chunk that is not one of the grid, or not declared of the size of one. -/
def checkCompressedChunk (grid : ChunkGrid) (chunkBytes : Nat) :
    Index × CompressedChunk → Except DescriptorError Unit
  | (origin, chunk) => do
    if !grid.isOrigin origin then throw (.chunkOrigin origin)
    chunk.data.check
    checkDecodedLength chunk.uncompressedLength chunkBytes

/-- Refuses a layout that does not fit the variable, whose size is given. -/
def checkLayout (m : StorageMetadata) (variableBytes : Nat) (b : Build) :
    Except DescriptorError Unit :=
  match m.layout with
  | .noData => .ok ()
  | .regular baseOffset => ByteRange.check ⟨baseOffset, variableBytes⟩
  | .segmented segments => checkChain segments
  | .compressed data uncompressedLength _ => do
    data.check
    checkDecodedLength uncompressedLength variableBytes
  | .compressedSegmented segments _ uncompressedLength => do
    checkChain segments
    checkDecodedLength uncompressedLength variableBytes
  | .tiled chunkShape chunks => do
    let (grid, chunkBytes) ← m.gridOf chunkShape b
    chunks.entries.forM (checkChunk grid chunkBytes)
  | .compressedTiled chunkShape chunks => do
    let (grid, chunkBytes) ← m.gridOf chunkShape b
    chunks.entries.forM (checkCompressedChunk grid chunkBytes)

/-- Refuses a fill value that does not have the size of an element. -/
def checkFill (m : StorageMetadata) : Except DescriptorError Unit :=
  match m.fill with
  | some v => if v.size = m.elementSize then .ok () else .error (.fillSize v.size m.elementSize)
  | none => .ok ()

/-- Refuses an inconsistent declaration, as a build finds it to be. -/
def check (m : StorageMetadata) (b : Build := .checked) : Except DescriptorError Unit := do
  -- of several faults the first one here is reported
  if m.elementSize = 0 then throw .zeroElementSize
  m.checkFill
  let variableBytes ← m.variableBytes
  m.checkLayout variableBytes b

end StorageMetadata

/-- A consistent declaration of the storage of a variable. -/
structure Descriptor (b : Build := .checked) extends StorageMetadata where
  accepted : toStorageMetadata.check b = .ok ()

namespace Descriptor

variable {b : Build}

def create (m : StorageMetadata) (b : Build := .checked) : Except DescriptorError (Descriptor b) :=
  match h : m.check b with
  | .ok () => .ok ⟨m, h⟩
  | .error e => .error e

def numElements (d : Descriptor b) : Nat :=
  elementCount d.shape

/-- The chunk grid of a layout in chunks. -/
def chunkGrid? (d : Descriptor b) : Option ChunkGrid := do
  let chunkShape ← d.layout.chunkShape?
  (ChunkGrid.create d.shape chunkShape).toOption

end Descriptor

end Hyperslab
