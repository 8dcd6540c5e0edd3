import Hyperslab.Run.Plan
import Hyperslab.Source.Activity
import Hyperslab.Transfer

/-!
# Transfers as they are computed

`resolve` is exact. Here the transfers of a section are computed as a `Build` has it. The runs of a
part of a section are planned when the part is come to, and each transfer is found when it is its
turn, so that a read that stops at one of them has not looked at the next.

## Main definitions

- `CountedBlock.transferIn`: the transfer of a run with a given number
- `startTransfers`: the transfers of a section, before any of them is found
- `Transfers.fold`: a computation for each of them
- `resolveIn`: all of them as a list
-/

namespace Hyperslab

/-- The place `offset` bytes into what a block is taken from. -/
def BlockSource.atIn (b : Build) (offset : Nat) : BlockSource → Except Halt TransferSource
  | direct base => do
    let place ← b.add base offset
    .ok (.direct place)
  | source => .ok (source.at offset)

/-- Runs of elements that are taken from one thing, with their number. -/
structure CountedBlock where
  source : BlockSource
  elementSize : Nat
  runs : CountedRuns
deriving DecidableEq, Repr

namespace CountedBlock

/-- The transfer of run number `k`. -/
def transferIn (b : Build) (block : CountedBlock) (k : Nat) : Except Halt Transfer := do
  let run ← block.runs.runIn b k
  let offset ← b.mul run.source block.elementSize
  let source ← block.source.atIn b offset
  .ok { source := source, destination := run.output, runLength := run.length }

def transfersIn (b : Build) (block : CountedBlock) : Except Halt (List Transfer) :=
  (List.range block.runs.number).mapM (block.transferIn b)

variable {σ : Type}

/-- Carries out `step` for the transfers of `count` runs from number `first` on. -/
def foldFrom (b : Build) (block : CountedBlock) (step : σ → Transfer → SourceM ReadError σ) :
    (first count : Nat) → σ → SourceM ReadError σ
  | _, 0, state => pure state
  | first, count + 1, state => do
    let t ← ofExcept ((block.transferIn b first).mapError ReadError.halted)
    let state ← step state t
    foldFrom b block step (first + 1) count state

/-- Carries out `step` for each transfer of a block. -/
def foldTransfers (b : Build) (block : CountedBlock) (step : σ → Transfer → SourceM ReadError σ)
    (state : σ) : SourceM ReadError σ :=
  block.foldFrom b step 0 block.runs.number state

end CountedBlock

variable {a : Build}

/-- The runs of a section in the whole variable. -/
def variableRunsIn (b : Build) (d : Descriptor a) (s : Section) : Except ReadError CountedRuns := do
  let planned ← (Runs.planIn b d.shape s.localRanges s.shape).mapError ReadError.halted
  planned.mapError ReadError.invalidSection

/-- The block of the part of a section in one chunk. -/
def chunkBlockIn (b : Build) (elementSize : Nat) (chunkShape : ChunkShape)
    (source : Index → BlockSource) (output : Shape) (part : ChunkIntersection) :
    Except ReadError CountedBlock := do
  match ← (Runs.planIn b chunkShape.toShape part.localRanges output).mapError ReadError.halted with
  | .ok runs => .ok { source := source part.origin, elementSize := elementSize, runs := runs }
  | .error cause => .error (.defect (.unplaced part.origin cause))

/-- The transfers of a section, before any of them is found. -/
inductive Transfers where
  | none
  /-- The transfers of one block. -/
  | linear (block : CountedBlock)
  /-- The transfers of the parts of the section in the chunks of a grid. -/
  | tiled (grid : ChunkGrid) (source : Index → BlockSource)

/-- The transfers of a section of a variable in chunks. -/
def Transfers.ofChunks (shape : Shape) (chunkShape : ChunkShape) (source : Index → BlockSource) :
    Except ReadError Transfers :=
  match ChunkGrid.create shape chunkShape with
  | .error mismatch => .error (.invalidSection (.rank mismatch))
  | .ok grid => .ok (.tiled grid source)

/-- The transfers of a section of a variable. Where the variable is not in chunks all runs are
planned at once. -/
def startTransfers (b : Build) (d : Descriptor a) (s : Section) : Except ReadError Transfers :=
  match s.validate d.shape with
  | .error cause => .error (.invalidSection cause)
  | .ok () =>
    -- nothing is placed for an empty section, not even to find a fault
    if s.totalCount = 0 then .ok .none
    else
      match d.layout with
      | .noData =>
        let runs := { wholeRun s.totalCount with number := 1 }
        .ok (.linear { source := .fill, elementSize := d.elementSize, runs := runs })
      | .regular baseOffset => do
        let runs ← variableRunsIn b d s
        .ok (.linear { source := .direct baseOffset, elementSize := d.elementSize, runs := runs })
      | .segmented _ | .compressed _ _ _ | .compressedSegmented _ _ _ => do
        let runs ← variableRunsIn b d s
        .ok (.linear { source := .stream, elementSize := d.elementSize, runs := runs })
      | .tiled chunkShape chunks => Transfers.ofChunks d.shape chunkShape (plainSource chunks)
      | .compressedTiled chunkShape chunks =>
        Transfers.ofChunks d.shape chunkShape (compressedSource chunks)

namespace Transfers

/-- The transfers of a section in their order. -/
def list (b : Build) (elementSize : Nat) (s : Section) :
    Transfers → Except ReadError (List Transfer)
  | none => .ok []
  | linear block => (block.transfersIn b).mapError ReadError.halted
  | tiled grid source => do
    let lists ← (grid.intersecting s).mapM fun part => do
      let block ← chunkBlockIn b elementSize grid.chunkShape source s.shape part
      (block.transfersIn b).mapError ReadError.halted
    .ok lists.flatten

variable {σ : Type}

/-- Carries out `step` for each transfer of a section. -/
def fold (b : Build) (elementSize : Nat) (s : Section)
    (step : σ → Transfer → SourceM ReadError σ) (state : σ) : Transfers → SourceM ReadError σ
  | none => pure state
  | linear block => block.foldTransfers b step state
  | tiled grid source =>
    grid.foldIntersecting s
      (fun state part => do
        let block ← ofExcept (chunkBlockIn b elementSize grid.chunkShape source s.shape part)
        block.foldTransfers b step state)
      state

end Transfers

/-- The transfers of a section of a variable in their order. -/
def resolveIn (b : Build) (d : Descriptor a) (s : Section) : Except ReadError (List Transfer) := do
  let transfers ← startTransfers b d s
  transfers.list b d.elementSize s

end Hyperslab
