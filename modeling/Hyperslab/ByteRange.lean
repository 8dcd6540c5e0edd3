import Hyperslab.Offset

/-!
# Byte ranges

A run of bytes at a known place of a byte source. Offset and length are independent, so a range may
end past the largest offset; `ByteRange.stop` then stops there and `ByteRange.stop?` has no answer.
-/

namespace Hyperslab

/-- `length` bytes from `offset` on. -/
structure ByteRange where
  offset : Nat
  length : Nat
deriving DecidableEq, Repr

/-- One end of an interval of offsets. -/
inductive Bound where
  | included (n : Nat)
  | excluded (n : Nat)
  | unbounded
deriving DecidableEq, Repr

namespace ByteRange

/-- The range between two bounds. Without a lower bound it starts at zero, without an upper
bound it is empty. -/
def ofBounds (lower upper : Bound) : ByteRange :=
  let start :=
    match lower with
    | .included n => n
    | .excluded n => Offset.clamped (n + 1)
    | .unbounded => 0
  let stop :=
    match upper with
    | .included n => Offset.clamped (n + 1)
    | .excluded n => n
    | .unbounded => start
  { offset := start, length := stop - start }

/-- The offset after the last byte, or the largest offset where it is beyond. -/
def stop (r : ByteRange) : Nat :=
  Offset.clamped (r.offset + r.length)

/-- The offset after the last byte, where it is not beyond the largest offset. -/
def stop? (r : ByteRange) : Option Nat :=
  Offset.checked (r.offset + r.length)

def isEmpty (r : ByteRange) : Bool :=
  r.length = 0

def take (r : ByteRange) (n : Nat) : ByteRange :=
  { r with length := min n r.length }

def drop (r : ByteRange) (n : Nat) : ByteRange :=
  { offset := r.offset + n, length := r.length - n }

def text (r : ByteRange) : String :=
  s!"{r.offset}..{r.stop}"

end ByteRange

/-- The number of bytes of a chain of ranges. -/
def chainLength : List ByteRange → Nat
  | [] => 0
  | r :: chain => r.length + chainLength chain

@[simp] theorem chainLength_nil : chainLength [] = 0 := rfl

@[simp] theorem chainLength_cons (r : ByteRange) (chain : List ByteRange) :
    chainLength (r :: chain) = r.length + chainLength chain := rfl

end Hyperslab
