import Hyperslab.Offset

/-!
# Byte strings

Contents of byte sources, decoded chunks and destinations are arrays of bytes. `Bytes.window?` cuts
a piece out of one and `Bytes.overwrite?` puts one in; both refuse a place that is not all inside.
A new buffer has `Bytes.maxCapacity` bytes at most, and the program stops where `Bytes.reserve` is
asked for more. Up to there every buffer can be had.
-/

namespace Hyperslab

abbrev Bytes := Array UInt8

namespace Bytes

/-- The most bytes that one buffer has, `2 ^ 63 - 1`. -/
def maxCapacity : Nat := 9223372036854775807

/-- Makes sure that a buffer of some bytes can be had. -/
def reserve (size : Nat) : Except Halt Unit :=
  if size ≤ maxCapacity then .ok () else .error (.capacity size)

def zeros (n : Nat) : Bytes :=
  Array.replicate n 0

/-- The `length` bytes from position `start` on, where there are as many. -/
def window? (bytes : Bytes) (start length : Nat) : Option Bytes :=
  if start + length ≤ bytes.size then some (bytes.extract start (start + length)) else none

/-- The bytes with `piece` in the place of those from position `start` on. -/
def overwrite (bytes : Bytes) (start : Nat) (piece : Bytes) : Bytes :=
  Nat.fold piece.size (fun i h out => out.setIfInBounds (start + i) piece[i]) bytes

/-- The bytes with `piece` in the place of those from position `start` on, where it fits. -/
def overwrite? (bytes : Bytes) (start : Nat) (piece : Bytes) : Option Bytes :=
  if start + piece.size ≤ bytes.size then some (overwrite bytes start piece) else none

theorem maxCapacity_le : maxCapacity ≤ maxOffset := by
  decide

theorem reserve_of_le {size : Nat} (h : size ≤ maxCapacity) : reserve size = .ok () :=
  if_pos h

theorem reserve_of_lt {size : Nat} (h : maxCapacity < size) :
    reserve size = .error (.capacity size) :=
  if_neg (Nat.not_le_of_gt h)

@[simp] theorem size_zeros (n : Nat) : (zeros n).size = n :=
  Array.size_replicate

theorem size_fold_setIfInBounds (bytes : Bytes) (start n : Nat)
    (f : (i : Nat) → i < n → UInt8) :
    (Nat.fold n (fun i h (out : Bytes) => out.setIfInBounds (start + i) (f i h)) bytes).size =
      bytes.size := by
  induction n with
  | zero => rfl
  | succ n ih =>
    rw [Nat.fold_succ, Array.size_setIfInBounds]
    exact ih fun i h => f i (Nat.lt_succ_of_lt h)

@[simp] theorem size_overwrite (bytes : Bytes) (start : Nat) (piece : Bytes) :
    (overwrite bytes start piece).size = bytes.size :=
  size_fold_setIfInBounds bytes start piece.size fun i h => piece[i]

theorem size_window? {bytes piece : Bytes} {start length : Nat}
    (h : window? bytes start length = some piece) : piece.size = length := by
  unfold window? at h
  split at h
  · cases h
    simp only [Array.size_extract]
    omega
  · cases h

end Bytes

end Hyperslab
