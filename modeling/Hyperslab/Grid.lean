import Hyperslab.Choice
import Hyperslab.Section.Basic

/-!
# Chunk grids

A grid tiles a variable with chunks of one shape. A chunk is named by its origin, the index of its
first element; the last chunk along a dimension may stick out of the variable, and its extent is
the part inside. `ChunkGrid.intersecting` lists the chunks that hold an element of a section.

## Main definitions

- `ChunkGrid`: a variable shape and a chunk shape of one rank
- `ChunkGrid.originOf?`: the chunk of an element
- `ChunkGrid.intersect`: the part of a section in one chunk
- `ChunkGrid.intersecting`: the parts of a section, chunk by chunk
- `ChunkGrid.takeIntersecting`, `ChunkGrid.foldIntersecting`: the first of them, and a computation
  for each of them
-/

namespace Hyperslab

/-- The length of a chunk along each dimension. -/
abbrev ChunkShape := List PosNat

def ChunkShape.toShape (c : ChunkShape) : Shape :=
  c.map (·.val)

/-- A tiling of a variable with chunks of one shape. -/
structure ChunkGrid where
  arrayShape : Shape
  chunkShape : ChunkShape
  rank_eq : arrayShape.length = chunkShape.length

/-- The part of a section that lies in one chunk. -/
structure ChunkIntersection where
  /-- The index of the first element of the chunk. -/
  origin : Index
  /-- The selected ranges, counted from the origin. -/
  localRanges : List LocalRange
deriving DecidableEq, Repr

def ChunkIntersection.numElements (i : ChunkIntersection) : Nat :=
  elementCount (i.localRanges.map (·.count))

/-- The number of elements of the part of a section as a build multiplies it up. -/
def ChunkIntersection.countElements (i : ChunkIntersection) (b : Build) : Except Halt Nat :=
  b.product 1 (i.localRanges.map (·.count))

namespace ChunkGrid

def create (arrayShape : Shape) (chunkShape : ChunkShape) : Except RankMismatch ChunkGrid :=
  if h : arrayShape.length = chunkShape.length then .ok ⟨arrayShape, chunkShape, h⟩
  else .error ⟨chunkShape.length, arrayShape.length⟩

def rank (g : ChunkGrid) : Nat :=
  g.arrayShape.length

/-- The number of elements of a whole chunk. -/
def chunkElements (g : ChunkGrid) : Nat :=
  elementCount g.chunkShape.toShape

/-- The number of elements of a whole chunk as a build multiplies it up. -/
def countElements (g : ChunkGrid) (b : Build) : Except Halt Nat :=
  b.product 1 g.chunkShape.toShape

/-- The number of chunks along each dimension. -/
def gridShape (g : ChunkGrid) : Shape :=
  List.zipWith (fun n c => ceilDiv n c.val) g.arrayShape g.chunkShape

/-- The multiple of the chunk length at or below each index. -/
def originAlong : Index → Shape → ChunkShape → Option Index
  | [], [], [] => some []
  | i :: index, n :: shape, c :: chunk =>
    if i < n then (originAlong index shape chunk).map (i / c.val * c.val :: ·) else none
  | _, _, _ => none

/-- The origin of the chunk that holds the element, where the variable has it. -/
def originOf? (g : ChunkGrid) (index : Index) : Option Index :=
  originAlong index g.arrayShape g.chunkShape

/-- Whether each number is below the variable length and a multiple of the chunk length. -/
def isOriginAlong : Index → Shape → ChunkShape → Bool
  | [], [], [] => true
  | o :: origin, n :: shape, c :: chunk =>
    o < n && o % c.val = 0 && isOriginAlong origin shape chunk
  | _, _, _ => false

def isOrigin (g : ChunkGrid) (origin : Index) : Bool :=
  isOriginAlong origin g.arrayShape g.chunkShape

/-- The length of the chunk that starts at `origin` inside of a dimension of length `length`. -/
def extentAlong (origin length : Nat) (chunk : PosNat) : Nat :=
  min chunk.val (length - origin)

/-- The part of the chunk inside of the variable, where the index is the origin of one. -/
def extent? (g : ChunkGrid) (origin : Index) : Option Shape :=
  if g.isOrigin origin then
    some (List.zipWith (fun (o, n) c => extentAlong o n c) (origin.zip g.arrayShape) g.chunkShape)
  else none

/-- Restricts each range to its extent, if all of them select something there. -/
def localiseAll : List SectionRange → Index → Shape → Option (List LocalRange)
  | range :: ranges, o :: origin, n :: extent => do
    let head ← range.localise o n
    let tail ← localiseAll ranges origin extent
    pure (head :: tail)
  | _, _, _ => some []

/-- The part of the section in the chunk at `origin`, where it has one. -/
def intersect (g : ChunkGrid) (s : Section) (origin : Index) : Option ChunkIntersection :=
  if s.rank ≠ g.rank then none
  else do
    let extent ← g.extent? origin
    let ranges ← localiseAll s.ranges origin extent
    pure { origin := origin, localRanges := ranges }

/-- The chunk origins along one dimension that hold a selected index, each with the part of
the range there. -/
def candidates (range : SectionRange) (length : Nat) (chunk : PosNat) : List (Nat × LocalRange) :=
  let first := range.start / chunk.val
  let final :=
    match range.last? with
    | some last => last / chunk.val
    | none => first
  -- a long stride passes over whole chunks, which hold nothing then
  (List.range' first (final + 1 - first)).filterMap fun k =>
    let origin := k * chunk.val
    (range.localise origin (extentAlong origin length chunk)).map (origin, ·)

def candidatesAlong : List SectionRange → Shape → ChunkShape → List (List (Nat × LocalRange))
  | range :: ranges, n :: shape, c :: chunk =>
    candidates range n c :: candidatesAlong ranges shape chunk
  | _, _, _ => []

/-- The part of a section with the given candidate along each dimension. -/
def partOf (choice : List (Nat × LocalRange)) : ChunkIntersection :=
  { origin := choice.map (·.1), localRanges := choice.map (·.2) }

/-- The candidates of a section along every dimension of the grid. No chunk holds any of a section
that is empty or of another rank. -/
def candidatesOf (g : ChunkGrid) (s : Section) : List (List (Nat × LocalRange)) :=
  if s.rank = g.rank && !s.isEmpty then candidatesAlong s.ranges g.arrayShape g.chunkShape
  else [[]] -- one dimension without candidates leaves no choice

/-- The parts of the section in the chunks that hold some of it, the origins in row-major
order. -/
def intersecting (g : ChunkGrid) (s : Section) : List ChunkIntersection :=
  (choices (g.candidatesOf s)).map partOf

def takeIntersecting (g : ChunkGrid) (s : Section) (limit : Nat) : List ChunkIntersection :=
  (takeChoices (g.candidatesOf s) limit).map partOf

def foldIntersecting {σ : Type} {m : Type → Type} [Monad m] (g : ChunkGrid) (s : Section)
    (step : σ → ChunkIntersection → m σ) (state : σ) : m σ :=
  foldChoices (g.candidatesOf s) (fun state choice => step state (partOf choice)) state

theorem takeIntersecting_eq (g : ChunkGrid) (s : Section) (limit : Nat) :
    g.takeIntersecting s limit = (g.intersecting s).take limit := by
  rw [takeIntersecting, intersecting, takeChoices_eq, List.map_take]

theorem foldIntersecting_eq {σ : Type} {m : Type → Type} [Monad m] [LawfulMonad m]
    (g : ChunkGrid) (s : Section) (step : σ → ChunkIntersection → m σ) (state : σ) :
    g.foldIntersecting s step state = (g.intersecting s).foldlM step state := by
  rw [foldIntersecting, intersecting, foldChoices_eq, List.foldlM_map]

end ChunkGrid

end Hyperslab
