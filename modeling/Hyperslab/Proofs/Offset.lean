import Hyperslab.Offset

/-!
# Steps of arithmetic

A computation with offsets goes one step after the other, and the result of each step has to be an
offset as well. A step that would leave the offsets, or divide by zero, is a fault. Where none is
met, the steps come to what exact arithmetic gives.

## Main definitions

- `Offset.Fault`: the ways in which a step of arithmetic goes wrong
- `Offset.add`, `Offset.mul`, `Offset.sub`, `Offset.div`, `Offset.divUp`: the steps
-/

namespace Hyperslab

namespace Offset

/-- The ways in which a step of arithmetic on offsets goes wrong. -/
inductive Fault where
  /-- The result is larger than the largest offset. -/
  | overflow
  /-- The result would be below zero. -/
  | underflow
  | divisionByZero
deriving DecidableEq, Repr

def add (m n : Nat) : Except Fault Nat :=
  if m + n ≤ maxOffset then pure (m + n) else throw .overflow

def mul (m n : Nat) : Except Fault Nat :=
  if m * n ≤ maxOffset then pure (m * n) else throw .overflow

def sub (m n : Nat) : Except Fault Nat :=
  if n ≤ m then pure (m - n) else throw .underflow

def div (m n : Nat) : Except Fault Nat :=
  if n = 0 then throw .divisionByZero else pure (m / n)

/-- The quotient rounded up. -/
def divUp (m n : Nat) : Except Fault Nat :=
  if n = 0 then throw .divisionByZero else pure (ceilDiv m n)

variable {m n : Nat}

theorem add_eq (h : m + n ≤ maxOffset) : add m n = pure (m + n) :=
  if_pos h

theorem mul_eq (h : m * n ≤ maxOffset) : mul m n = pure (m * n) :=
  if_pos h

theorem sub_eq (h : n ≤ m) : sub m n = pure (m - n) :=
  if_pos h

theorem div_eq (h : 0 < n) : div m n = pure (m / n) :=
  if_neg (Nat.ne_of_gt h)

theorem divUp_eq (h : 0 < n) : divUp m n = pure (ceilDiv m n) :=
  if_neg (Nat.ne_of_gt h)

end Offset

end Hyperslab
