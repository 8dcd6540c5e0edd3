import Hyperslab.Index
import Hyperslab.Section.Range

/-!
# Sections

A section selects a strided box of a variable: one `SectionRange` a dimension, outermost first.
`Section.validate` compares a section with the shape of a variable and names the first dimension
in which it leaves it.
-/

namespace Hyperslab

/-- A strided box of indices. -/
structure Section where
  ranges : List SectionRange
deriving DecidableEq, Repr

/-- The ways in which a selection does not fit what it selects from. -/
inductive SectionError where
  /-- The selection has another number of dimensions. -/
  | rank (mismatch : RankMismatch)
  /-- A range selects an index outside of the variable. -/
  | outOfBounds (dimension : Nat) (range : SectionRange) (length : Nat)
  /-- A local range leaves the extent it selects from or its destination. -/
  | localOutOfBounds (dimension : Nat) (range : LocalRange) (source output : Nat)
  /-- A range was given a stride of zero. -/
  | zeroStride
deriving DecidableEq, Repr

def SectionError.message : SectionError → String
  | .rank mismatch => mismatch.message
  | .outOfBounds dimension range length =>
    s!"section range {range.text} in dimension {dimension} is out-of-bounds of length {length}"
  | .localOutOfBounds dimension range source output =>
    s!"local range {range.text} in dimension {dimension} exceeds source length {source} " ++
      s!"or output length {output}"
  | .zeroStride => "section range stride must be non-zero"

namespace SectionRange

def create (start stride count : Nat) : Except SectionError SectionRange :=
  match ofStride? start stride count with
  | some range => .ok range
  | none => .error .zeroStride

end SectionRange

namespace Section

/-- The section with neighbouring indices from each lower bound up to the upper one. -/
def ofBounds (bounds : List (Nat × Nat)) : Section :=
  ⟨bounds.map fun (start, stop) => .contiguous start (stop - start)⟩

/-- The section that selects all of a variable. -/
def full (shape : Shape) : Section :=
  ⟨shape.map (.contiguous 0)⟩

def rank (s : Section) : Nat :=
  s.ranges.length

/-- The number of selected indices along each dimension. -/
def shape (s : Section) : Shape :=
  s.ranges.map (·.count)

/-- The number of selected elements. -/
def totalCount (s : Section) : Nat :=
  elementCount s.shape

/-- The number of selected elements as a build multiplies it up. -/
def countElements (s : Section) (b : Build) : Except Halt Nat :=
  b.product 1 s.shape

def isEmpty (s : Section) : Bool :=
  s.ranges.any (·.count = 0)

/-- The ranges counted from the origin of the variable. -/
def localRanges (s : Section) : List LocalRange :=
  s.ranges.map (·.toLocal)

/-- Compares ranges with lengths, the first pair belonging to `dimension`. -/
def checkBounds (dimension : Nat) : List SectionRange → Shape → Except SectionError Unit
  | range :: ranges, length :: shape =>
    if range.inBounds length then checkBounds (dimension + 1) ranges shape
    else .error (.outOfBounds dimension range length)
  | _, _ => .ok ()

/-- Accepts the section for a variable of the given shape. -/
def validate (s : Section) (variableShape : Shape) : Except SectionError Unit :=
  if s.rank = variableShape.length then checkBounds 0 s.ranges variableShape
  else .error (.rank ⟨s.rank, variableShape.length⟩)

def text (s : Section) : String :=
  bracketed (s.ranges.map (·.text))

end Section

end Hyperslab
