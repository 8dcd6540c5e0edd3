import Hyperslab.Run.Basic

/-!
# Runs as they are computed

`Runs.plan` and `Runs.run` are exact. Here the same numbers are computed one product and one sum at
a time, with what a `Build` makes of each of them. The ranges are compared with the shapes first,
by comparisons that are exact in every build.

## Main definitions

- `stridesIn`: the strides of a shape
- `Runs.planIn`: the runs of a selection
- `Runs.runIn`: the run with a given number
- `Runs.listIn`: all runs of a selection
-/

namespace Hyperslab

/-- The number of elements between neighbours along each dimension, the innermost one first. -/
def stridesIn (b : Build) : Shape → Except Halt (List Nat)
  | [] => .ok []
  | [_] => .ok [1]
  | _ :: n :: shape => do
    match ← stridesIn b (n :: shape) with
    | [] => .ok []
    | stride :: strides => do
      let outer ← b.mul stride n
      .ok (outer :: stride :: strides)

namespace RunDimension

/-- The dimensions of a selection with the given strides, outermost first. -/
def ofStrides : List LocalRange → Shape → Shape → List Nat → List Nat → List RunDimension
  | range :: ranges, n :: source, m :: output, s :: sourceStrides, t :: outputStrides =>
    { range := range
      sourceLength := n
      outputLength := m
      sourceStride := s
      outputStride := t } :: ofStrides ranges source output sourceStrides outputStrides
  | _, _, _, _, _ => []

def toAxisIn (b : Build) (d : RunDimension) : Except Halt Axis := do
  let step ← b.mul d.range.stride d.sourceStride
  .ok { count := d.range.count, sourceStep := step, outputStep := d.outputStride }

end RunDimension

/-- Merges dimensions into the run from the innermost one on. -/
def RunSplit.ofDimensionsIn (b : Build) : List RunDimension → Except Halt RunSplit
  | [] => .ok { outer := [], length := 1, isOpen := true }
  | d :: dims => do
    let inner ← ofDimensionsIn b dims
    if inner.isOpen && d.range.stride = 1 then do
      let length ← b.mul inner.length d.range.count
      .ok { outer := [], length := length, isOpen := d.isComplete }
    else .ok { outer := d :: inner.outer, length := inner.length, isOpen := false }

/-- The runs of a selection, with their number. -/
structure CountedRuns extends Runs where
  number : Nat
deriving DecidableEq, Repr

namespace Runs

/-- The number of runs along some axes, none if a run would be empty. -/
def numberIn (b : Build) (axes : List Axis) (runLength : Nat) : Except Halt Nat :=
  if runLength = 0 then .ok 0 else b.product 1 (axes.map (·.count))

/-- The runs that copy dimensions of a selection. -/
def ofDimensionsIn (b : Build) (dims : List RunDimension) : Except Halt CountedRuns := do
  let split ← RunSplit.ofDimensionsIn b dims
  let sourceBase ← b.sumProducts 0 (dims.map fun d => (d.range.start, d.sourceStride))
  let outputBase ← b.sumProducts 0 (dims.map fun d => (d.range.output, d.outputStride))
  let axes ← split.outer.mapM (·.toAxisIn b)
  let number ← numberIn b axes split.length
  .ok
    { axes := axes
      sourceBase := sourceBase
      outputBase := outputBase
      runLength := split.length
      number := number }

/-- The runs that copy the ranges of an array of shape `source` to their places in an array of
shape `output`. -/
def planIn (b : Build) (source : Shape) (ranges : List LocalRange) (output : Shape) :
    Except Halt (Except SectionError CountedRuns) :=
  if source.length ≠ ranges.length then .ok (.error (.rank ⟨ranges.length, source.length⟩))
  else if output.length ≠ ranges.length then .ok (.error (.rank ⟨ranges.length, output.length⟩))
  else
    match RunDimension.checkAll 0 (RunDimension.ofShapes ranges source output) with
    | .error e => .ok (.error e)
    | .ok () => do
      let sourceStrides ← stridesIn b source
      let outputStrides ← stridesIn b output
      let runs ← ofDimensionsIn b
        (RunDimension.ofStrides ranges source output sourceStrides outputStrides)
      .ok (.ok runs)

/-- Moves a place in the source and one in the destination by the digits of `k`, the axes being
given innermost first. -/
def displaceIn (b : Build) : List Axis → (k source output : Nat) → Except Halt (Nat × Nat)
  | [], _, source, output => .ok (source, output)
  | axis :: axes, k, source, output => do
    let source ← b.add source (← b.mul (k % axis.count) axis.sourceStep)
    let output ← b.add output (← b.mul (k % axis.count) axis.outputStep)
    displaceIn b axes (k / axis.count) source output

def runIn (b : Build) (r : Runs) (k : Nat) : Except Halt Run := do
  let (source, output) ← displaceIn b r.axes.reverse k r.sourceBase r.outputBase
  .ok { source := source, output := output, length := r.runLength }

/-- All runs of a selection. -/
def listIn (b : Build) (source : Shape) (ranges : List LocalRange) (output : Shape) :
    Except Halt (Except SectionError (List Run)) := do
  match ← planIn b source ranges output with
  | .error e => .ok (.error e)
  | .ok runs => do
    let list ← (List.range runs.number).mapM (runIn b runs.toRuns)
    .ok (.ok list)

end Runs

end Hyperslab
