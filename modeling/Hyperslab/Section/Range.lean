import Hyperslab.Offset

/-!
# Strided ranges

A `SectionRange` selects evenly spaced indices of one dimension. `SectionRange.localise` restricts
it to an extent, such as a chunk, and gives a `LocalRange`: the same selection counted from the
origin of the extent, together with its place in the destination.
-/

namespace Hyperslab

/-- The indices `start`, `start + stride`, and so on, `count` of them. -/
structure SectionRange where
  start : Nat
  stride : Nat
  count : Nat
  stride_pos : 0 < stride
deriving DecidableEq, Repr

/-- A selection counted from the origin of an extent. -/
structure LocalRange where
  /-- The first selected index, counted from the origin of the extent. -/
  start : Nat
  stride : Nat
  count : Nat
  /-- The destination index that receives the first selected element. -/
  output : Nat
deriving DecidableEq, Repr

/-- The text of a local range, with the name of each of its numbers. -/
def LocalRange.text (r : LocalRange) : String :=
  "LocalRange \x7b start: " ++ toString r.start ++ ", stride: " ++ toString r.stride ++
    ", count: " ++ toString r.count ++ ", output_offset: " ++ toString r.output ++ " \x7d"

namespace SectionRange

/-- The range with the given numbers, unless its stride is zero. -/
def ofStride? (start stride count : Nat) : Option SectionRange :=
  if h : 0 < stride then some ⟨start, stride, count, h⟩ else none

/-- `count` neighbouring indices from `start` on. -/
def contiguous (start count : Nat) : SectionRange :=
  ⟨start, 1, count, Nat.one_pos⟩

/-- The selected index at position `j`. -/
def element (r : SectionRange) (j : Nat) : Nat :=
  r.start + j * r.stride

/-- The last selected index, where there is one and it is at most `maxOffset`. -/
def last? (r : SectionRange) : Option Nat :=
  if r.count = 0 then none else Offset.checked (r.element (r.count - 1))

/-- Whether all selected indices are below `length`. A range that selects nothing has to start
at `length` or before. -/
def inBounds (r : SectionRange) (length : Nat) : Bool :=
  if r.count = 0 then r.start ≤ length
  else
    match r.last? with
    | some last => last < length
    | none => false

/-- The part of the range within `extent` indices from `origin` on, where it selects any. -/
def localise (r : SectionRange) (origin extent : Nat) : Option LocalRange :=
  match r.last?, Offset.checked (origin + extent) with
  | some last, some stop =>
    if extent = 0 ∨ last < origin ∨ stop ≤ r.start then none
    else
      -- the first selected position at or after the origin, and the last one before the stop
      let first := if origin ≤ r.start then 0 else ceilDiv (origin - r.start) r.stride
      let final := min ((stop - 1 - r.start) / r.stride) (r.count - 1)
      if final < first then none
      else
        some
          { start := r.element first - origin
            stride := r.stride
            count := final - first + 1
            output := first }
  | _, _ => none

/-- The whole range, counted from index zero and written from destination index zero on. -/
def toLocal (r : SectionRange) : LocalRange :=
  { start := r.start, stride := r.stride, count := r.count, output := 0 }

/-- The text of a range: its bounds if its indices are neighbours, else its three numbers. An upper
bound beyond the largest offset goes around. -/
def text (r : SectionRange) : String :=
  if r.stride = 1 then s!"{r.start}..{Offset.around (r.start + r.count)}"
  else s!"{r.start}:{r.stride}:{r.count}"

end SectionRange

end Hyperslab
