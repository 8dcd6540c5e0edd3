import Hyperslab.Bytes
import Hyperslab.Offset
import Hyperslab.Text

/-!
# Fill values

Elements that are part of a variable but stored nowhere read as its fill value, or as zeros if it
declares none. `materialize` makes a destination of nothing else, `fillRuns` puts the fill value
into parts of one. Reads fill parts of a destination that they have, where all places are exact.
`materializeIn` and `fillRunsIn` are the same with what a build makes of a place.
-/

namespace Hyperslab

/-- The bytes of one element. -/
structure FillValue where
  bytes : Bytes
deriving DecidableEq, Repr

namespace FillValue

def size (v : FillValue) : Nat :=
  v.bytes.size

/-- The buffer with copies of the value one after the other from its start on. The last copy is cut
off where the buffer ends. -/
def copies (v : FillValue) (buffer : Bytes) (count : Nat) : Bytes :=
  Nat.fold count (fun k _ out =>
    let left := buffer.size - k * v.size
    Bytes.overwrite out (k * v.size) (v.bytes.extract 0 (min v.size left))) buffer

/-- The buffer with the value written over it again and again. The last copy may be cut off, and a
value without bytes changes nothing. -/
def fill (v : FillValue) (buffer : Bytes) : Bytes :=
  match v.bytes.toList with
  | [] => buffer
  | [byte] => Array.replicate buffer.size byte
  | _ => v.copies buffer (ceilDiv buffer.size v.size)

/-- The part of the value that belongs to `length` bytes of the element from `offset` on, where the
element has them. -/
def slice? (v : FillValue) (offset length : Nat) : Option FillValue :=
  (Bytes.window? v.bytes offset length).map FillValue.mk

def text (v : FillValue) : String :=
  bracketedNats (v.bytes.toList.map (·.toNat))

end FillValue

/-- The buffer filled with the value, or with zeros where there is none. -/
def fillBytes (fill : Option FillValue) (buffer : Bytes) : Bytes :=
  match fill with
  | some v => v.fill buffer
  | none => Bytes.zeros buffer.size

/-- A new buffer of `size` bytes, filled with the value where that is not zeros. -/
def filledBuffer (fill : Option FillValue) (size : Nat) : Bytes :=
  let zeros := Bytes.zeros size
  match fill with
  | some v => if v.bytes.any (· ≠ 0) then v.fill zeros else zeros
  | none => zeros

/-- `count` elements that hold the value, or zeros where there is none. -/
def materialize (elementSize : Nat) (fill : Option FillValue) (count : Nat) : Bytes :=
  filledBuffer fill (elementSize * count)

/-- The elements as a build makes them. The program stops where it has no buffer for them. -/
def materializeIn (b : Build) (elementSize : Nat) (fill : Option FillValue) (count : Nat) :
    Except Halt Bytes := do
  let size ← b.mul elementSize count
  Bytes.reserve size
  .ok (filledBuffer fill size)

/-- The buffer with `length` bytes from `start` on filled, where it has them. -/
def fillPart (buffer : Bytes) (fill : Option FillValue) (start length : Nat) : Option Bytes := do
  let part ← Bytes.window? buffer start length
  Bytes.overwrite? buffer start (fillBytes fill part)

/-- The buffer with `run` elements from element `destination` on filled, where it has them. -/
def fillRun (buffer : Bytes) (elementSize : Nat) (fill : Option FillValue)
    (destination run : Nat) : Option Bytes :=
  fillPart buffer fill (destination * elementSize) (run * elementSize)

/-- The buffer with the bytes filled that a build takes for the run. The program stops, which is no
buffer, where the build does or where these are not bytes of the buffer. -/
def fillRunIn (b : Build) (buffer : Bytes) (elementSize : Nat) (fill : Option FillValue)
    (destination run : Nat) : Option Bytes := do
  let start ← (b.mul destination elementSize).toOption
  let length ← (b.mul run elementSize).toOption
  let stop ← (b.add start length).toOption
  if start ≤ stop then fillPart buffer fill start (stop - start) else none

/-- The buffer with each run of elements filled in turn, where it has all of them. A run is given by
its first element and its number of elements. -/
def fillRuns (buffer : Bytes) (elementSize : Nat) (fill : Option FillValue) :
    List (Nat × Nat) → Option Bytes
  | [] => some buffer
  | (destination, run) :: runs => do
    let buffer ← fillRun buffer elementSize fill destination run
    fillRuns buffer elementSize fill runs

/-- The runs as a build fills them. -/
def fillRunsIn (b : Build) (buffer : Bytes) (elementSize : Nat) (fill : Option FillValue) :
    List (Nat × Nat) → Option Bytes
  | [] => some buffer
  | (destination, run) :: runs => do
    let buffer ← fillRunIn b buffer elementSize fill destination run
    fillRunsIn b buffer elementSize fill runs

end Hyperslab
