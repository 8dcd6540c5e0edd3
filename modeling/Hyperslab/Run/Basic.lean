import Hyperslab.Section.Basic

/-!
# Contiguous runs

A strided selection of one row-major array is copied into a box of another one run at a time,
a run being a span of neighbours in both. `Runs.plan` merges the innermost dimensions into the run
as long as nothing of them is left out, and keeps one `Axis` for each dimension that is left.
Run number `k` is then found by writing `k` in the mixed radix of the axes.

## Main definitions

- `Runs.plan`: the runs of a selection, or the reason why it does not fit
- `Runs.run`: the run with a given number
- `Runs.toList`: all runs, the last dimension fastest
-/

namespace Hyperslab

/-- Elements that are neighbours in the source and in the destination. -/
structure Run where
  /-- The position of the first element in the source. -/
  source : Nat
  /-- The position of the first element in the destination. -/
  output : Nat
  length : Nat
deriving DecidableEq, Repr

/-- A dimension that the runs step along. -/
structure Axis where
  count : Nat
  sourceStep : Nat
  outputStep : Nat
deriving DecidableEq, Repr

/-- The runs of a selection, all of one length. -/
structure Runs where
  /-- The dimensions that are not part of a run, outermost first. -/
  axes : List Axis
  sourceBase : Nat
  outputBase : Nat
  runLength : Nat
deriving DecidableEq, Repr

/-- One dimension of a selection, with the array lengths and strides it is used with. -/
structure RunDimension where
  range : LocalRange
  sourceLength : Nat
  outputLength : Nat
  sourceStride : Nat
  outputStride : Nat
deriving DecidableEq, Repr

namespace RunDimension

/-- The dimensions of a selection, outermost first. -/
def ofShapes : List LocalRange → Shape → Shape → List RunDimension
  | range :: ranges, n :: source, m :: output =>
    { range := range
      sourceLength := n
      outputLength := m
      sourceStride := elementCount source
      outputStride := elementCount output } :: ofShapes ranges source output
  | _, _, _ => []

/-- Whether the selected indices are below the length of the source. -/
def sourceInBounds (d : RunDimension) : Bool :=
  d.range.count = 0 ||
    match Offset.checked (d.range.start + d.range.stride * (d.range.count - 1)) with
    | some last => last < d.sourceLength
    | none => false

/-- Whether the written indices are below the length of the destination. -/
def outputInBounds (d : RunDimension) : Bool :=
  match Offset.checked (d.range.output + d.range.count) with
  | some stop => stop ≤ d.outputLength
  | none => false

/-- Whether the selection takes all of the source and fills all of the destination. -/
def isComplete (d : RunDimension) : Bool :=
  d.range.start = 0 && d.range.count = d.sourceLength && d.range.output = 0 &&
    d.range.count = d.outputLength

/-- The dimension as one that the runs step along. -/
def toAxis (d : RunDimension) : Axis :=
  { count := d.range.count
    sourceStep := d.range.stride * d.sourceStride
    outputStep := d.outputStride }

/-- The position in the source of the first element selected. -/
def sourceStart : List RunDimension → Nat
  | [] => 0
  | d :: dims => d.range.start * d.sourceStride + sourceStart dims

/-- The position in the destination of the first element written. -/
def outputStart : List RunDimension → Nat
  | [] => 0
  | d :: dims => d.range.output * d.outputStride + outputStart dims

/-- Refuses the first dimension that leaves the source or the destination, the list starting
with dimension number `dimension`. -/
def checkAll (dimension : Nat) : List RunDimension → Except SectionError Unit
  | [] => .ok ()
  | d :: dims =>
    if d.sourceInBounds && d.outputInBounds then checkAll (dimension + 1) dims
    else .error (.localOutOfBounds dimension d.range d.sourceLength d.outputLength)

end RunDimension

/-- A split of the dimensions of a selection into those that a run covers and those before. -/
structure RunSplit where
  /-- The dimensions that no run covers, outermost first. -/
  outer : List RunDimension
  /-- The number of elements of a run. -/
  length : Nat
  /-- Whether the runs cover all dimensions so far and leave nothing of them out, so that one
  more dimension may be merged into the run. -/
  isOpen : Bool

/-- Merges dimensions into the run from the innermost one on. A dimension joins if its stride is
one, and its neighbour further out may follow it only if it is complete. -/
def RunSplit.ofDimensions : List RunDimension → RunSplit
  | [] => { outer := [], length := 1, isOpen := true }
  | d :: dims =>
    let inner := ofDimensions dims
    if inner.isOpen && d.range.stride = 1 then
      -- a partial dimension still joins, but its end is a gap that no run reaches across
      { outer := [], length := d.range.count * inner.length, isOpen := d.isComplete }
    else
      { outer := d :: inner.outer, length := inner.length, isOpen := false }

namespace Runs

/-- The runs that copy the ranges of an array of shape `source` to their places in an array of
shape `output`. -/
def plan (source : Shape) (ranges : List LocalRange) (output : Shape) :
    Except SectionError Runs :=
  if source.length ≠ ranges.length then .error (.rank ⟨ranges.length, source.length⟩)
  else if output.length ≠ ranges.length then .error (.rank ⟨ranges.length, output.length⟩)
  else
    let dims := RunDimension.ofShapes ranges source output
    match RunDimension.checkAll 0 dims with
    | .error e => .error e
    | .ok () =>
      let split := RunSplit.ofDimensions dims
      .ok
        { axes := split.outer.map (·.toAxis)
          sourceBase := RunDimension.sourceStart dims
          outputBase := RunDimension.outputStart dims
          runLength := split.length }

/-- The number of runs, none if a run would be empty. -/
def numRuns (r : Runs) : Nat :=
  if r.runLength = 0 then 0 else elementCount (r.axes.map (·.count))

def isEmpty (r : Runs) : Bool :=
  r.numRuns = 0

def numElements (r : Runs) : Nat :=
  r.numRuns * r.runLength

/-- What is left of `k` above the radix of the axes, and how far its digits move the source and
the destination. -/
def displace : List Axis → Nat → Nat × Nat × Nat
  | [], k => (k, 0, 0)
  | axis :: axes, k =>
    -- the innermost digit is taken first, the carry goes outward
    let (rest, source, output) := displace axes k
    let digit := rest % axis.count
    (rest / axis.count, source + digit * axis.sourceStep, output + digit * axis.outputStep)

def run (r : Runs) (k : Nat) : Run :=
  let (_, source, output) := displace r.axes k
  { source := r.sourceBase + source, output := r.outputBase + output, length := r.runLength }

def take (r : Runs) (limit : Nat) : List Run :=
  (List.range (min limit r.numRuns)).map r.run

def toList (r : Runs) : List Run :=
  (List.range r.numRuns).map r.run

theorem take_eq_toList_take (r : Runs) (limit : Nat) : r.take limit = r.toList.take limit := by
  rw [take, toList, ← List.map_take, List.take_range]

@[simp] theorem length_toList (r : Runs) : r.toList.length = r.numRuns := by
  simp [toList]

end Runs

end Hyperslab
