import Hyperslab.Read.Error
import Hyperslab.Run.Basic

/-!
# Transfers

`resolve` says where the elements of a section come from: a list of transfers, each a run of
elements from one place to one place of the destination. No request is made. The runs of a block of
transfers are numbered, so the first ones are found without the others.

## Main definitions

- `Transfer`: a run of elements with its source
- `TransferPlan`: the transfers of a section
- `resolve`: the plan of a section
-/

namespace Hyperslab

/-- Where a run of elements comes from. -/
inductive TransferSource where
  /-- An offset in the byte source. -/
  | direct (offset : Nat)
  /-- An offset in the logical stream of the layout. -/
  | stream (offset : Nat)
  /-- An offset in the decoded chunk with the given origin. -/
  | chunk (origin : Index) (offset : Nat)
  | fill
deriving DecidableEq, Repr

/-- A run of elements on its way to the destination. -/
structure Transfer where
  source : TransferSource
  /-- The position of the first element in the destination. -/
  destination : Nat
  runLength : Nat
deriving DecidableEq, Repr

/-- What the runs of a block are taken from. -/
inductive BlockSource where
  /-- The byte source, from an offset on. -/
  | direct (base : Nat)
  | stream
  | chunk (origin : Index)
  | fill
deriving DecidableEq, Repr

/-- The place `offset` bytes into what a block is taken from. -/
def BlockSource.at (offset : Nat) : BlockSource → TransferSource
  | direct base => .direct (base + offset)
  | stream => .stream offset
  | chunk origin => .chunk origin offset
  | fill => .fill

/-- Runs of elements that are taken from one thing. -/
structure TransferBlock where
  source : BlockSource
  elementSize : Nat
  runs : Runs
deriving DecidableEq, Repr

namespace TransferBlock

def transfer (b : TransferBlock) (run : Run) : Transfer :=
  { source := b.source.at (run.source * b.elementSize)
    destination := run.output
    runLength := run.length }

def transfers (b : TransferBlock) : List Transfer :=
  b.runs.toList.map b.transfer

def take (b : TransferBlock) (limit : Nat) : List Transfer :=
  (b.runs.take limit).map b.transfer

theorem take_eq_transfers_take (b : TransferBlock) (limit : Nat) :
    b.take limit = b.transfers.take limit := by
  rw [take, transfers, Runs.take_eq_toList_take, List.map_take]

@[simp] theorem length_transfers (b : TransferBlock) : b.transfers.length = b.runs.numRuns := by
  simp [transfers]

end TransferBlock

/-- The transfers of a section. -/
structure TransferPlan where
  numElements : Nat
  blocks : List TransferBlock
deriving DecidableEq, Repr

namespace TransferPlan

def transfers (p : TransferPlan) : List Transfer :=
  p.blocks.flatMap (·.transfers)

def take (p : TransferPlan) (limit : Nat) : List Transfer :=
  takeInTurn TransferBlock.take p.blocks limit

def transfer? (p : TransferPlan) (k : Nat) : Option Transfer :=
  (p.take (k + 1))[k]?

theorem take_eq_transfers_take (p : TransferPlan) (limit : Nat) :
    p.take limit = p.transfers.take limit :=
  takeInTurn_eq TransferBlock.take_eq_transfers_take p.blocks limit

end TransferPlan

/-- The runs of a section in the whole variable. -/
def variableRuns (d : Descriptor) (s : Section) : Except ReadError Runs :=
  (Runs.plan d.shape s.localRanges s.shape).mapError ReadError.invalidSection

/-- The block of the part of a section in one chunk. Chunks are addressed in their declared shape,
also where they stick out of the variable. -/
def chunkBlock (d : Descriptor) (chunkShape : ChunkShape) (source : Index → BlockSource)
    (output : Shape) (part : ChunkIntersection) : Except ReadError TransferBlock :=
  match Runs.plan chunkShape.toShape part.localRanges output with
  | .ok runs =>
    .ok { source := source part.origin, elementSize := d.elementSize, runs := runs }
  | .error cause => .error (.defect (.unplaced part.origin cause))

/-- The blocks of some parts of a section in a variable in chunks. -/
def chunkBlocks (d : Descriptor) (chunkShape : ChunkShape) (source : Index → BlockSource)
    (s : Section) (parts : ChunkGrid → List ChunkIntersection) :
    Except ReadError (List TransferBlock) :=
  match ChunkGrid.create d.shape chunkShape with
  | .error mismatch => .error (.invalidSection (.rank mismatch))
  | .ok grid => (parts grid).mapM (chunkBlock d chunkShape source s.shape)

/-- The source of a plain chunk: its range if it is stored, else the fill value. -/
def plainSource (chunks : ChunkMap ByteRange) (origin : Index) : BlockSource :=
  match chunks.get? origin with
  | some range => .direct range.offset
  | none => .fill

/-- The source of a compressed chunk: the decoded chunk if it is stored, else the fill value. -/
def compressedSource (chunks : ChunkMap CompressedChunk) (origin : Index) : BlockSource :=
  match chunks.get? origin with
  | some _ => .chunk origin
  | none => .fill

/-- The one run that covers a destination of `n` elements. -/
def wholeRun (n : Nat) : Runs :=
  { axes := [], sourceBase := 0, outputBase := 0, runLength := n }

/-- The blocks of a section that selects something, and of a variable in chunks those of some parts
of the section. -/
def resolveBlocks (d : Descriptor) (s : Section) (parts : ChunkGrid → List ChunkIntersection) :
    Except ReadError (List TransferBlock) :=
  match d.layout with
  | .noData =>
    .ok [{ source := .fill, elementSize := d.elementSize, runs := wholeRun s.totalCount }]
  | .regular baseOffset => do
    let runs ← variableRuns d s
    pure [{ source := .direct baseOffset, elementSize := d.elementSize, runs := runs }]
  | .segmented _ | .compressed _ _ _ | .compressedSegmented _ _ _ => do
    let runs ← variableRuns d s
    pure [{ source := .stream, elementSize := d.elementSize, runs := runs }]
  | .tiled chunkShape chunks => chunkBlocks d chunkShape (plainSource chunks) s parts
  | .compressedTiled chunkShape chunks =>
    chunkBlocks d chunkShape (compressedSource chunks) s parts

/-- The transfers of some parts of a section of a variable. -/
def resolveParts (d : Descriptor) (s : Section) (parts : ChunkGrid → List ChunkIntersection) :
    Except ReadError TransferPlan :=
  match s.validate d.shape with
  | .error cause => .error (.invalidSection cause)
  | .ok () =>
    -- nothing is placed for an empty section, not even to find a fault
    if s.totalCount = 0 then .ok { numElements := 0, blocks := [] }
    else do
      let blocks ← resolveBlocks d s parts
      pure { numElements := s.totalCount, blocks := blocks }

/-- The transfers of a section of a variable. -/
def resolve (d : Descriptor) (s : Section) : Except ReadError TransferPlan :=
  resolveParts d s (·.intersecting s)

end Hyperslab
