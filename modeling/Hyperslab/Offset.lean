/-!
# Offsets

Byte offsets, element indices and lengths are natural numbers up to one largest value.
`Offset.checked` refuses a number beyond it and `Offset.clamped` stops there. Where the library
multiplies and adds without a check of its own, what comes of a number beyond the largest offset
depends on its `Build`. Definitions that take no build are exact: their numbers are offsets, or they
are what the definitions with a build are compared with. Only a number in the text or the value of
an error is what a build without checks makes of it, which is `Offset.around`.

## Main definitions

- `maxOffset`: the largest offset
- `Build`: with or without checks for numbers beyond it
- `Build.mul`, `Build.add`, `Build.product`, `Build.sumProducts`: arithmetic of a build
- `Halt`: the ways in which the program stops
-/

namespace Hyperslab

/-- The largest byte offset, element index and length, `2 ^ 64 - 1`. -/
def maxOffset : Nat := 18446744073709551615

namespace Offset

/-- The number itself where it is at most `maxOffset`. -/
def checked (n : Nat) : Option Nat :=
  if n ≤ maxOffset then some n else none

/-- The number itself, or `maxOffset` where it is larger. -/
def clamped (n : Nat) : Nat :=
  min n maxOffset

/-- What is left of a number that goes around after `maxOffset`. -/
def around (n : Nat) : Nat :=
  n % (maxOffset + 1)

theorem checked_eq_some_iff {n m : Nat} : checked n = some m ↔ n ≤ maxOffset ∧ n = m := by
  unfold checked
  split
  · simp [*]
  · simp only [reduceCtorEq, false_iff, not_and]
    intro h
    contradiction

theorem clamped_of_le {n : Nat} (h : n ≤ maxOffset) : clamped n = n :=
  Nat.min_eq_left h

theorem around_of_le {n : Nat} (h : n ≤ maxOffset) : around n = n :=
  Nat.mod_eq_of_lt (Nat.lt_succ_of_le h)

end Offset

/-- The ways in which the program stops, which is no answer and no error of the library. -/
inductive Halt where
  /-- A number beyond the largest offset came up in a build that checks for it. -/
  | overflow
  /-- A buffer of more bytes than one can have was wanted. -/
  | capacity (size : Nat)
deriving DecidableEq, Repr

def Halt.message : Halt → String
  | overflow => "arithmetic overflow"
  | capacity _ => "capacity overflow"

/-- How the library is built: what comes of a product or a sum beyond the largest offset. -/
inductive Build where
  /-- The program stops. -/
  | checked
  /-- The number goes around, and the program goes on with what is left of it. -/
  | wrapping
deriving DecidableEq, Repr

namespace Build

/-- What a build makes of the result of a product or a sum. -/
def fit (b : Build) (n : Nat) : Except Halt Nat :=
  if n ≤ maxOffset then .ok n
  else
    match b with
    | checked => .error .overflow
    | wrapping => .ok (Offset.around n)

def mul (b : Build) (n m : Nat) : Except Halt Nat :=
  b.fit (n * m)

def add (b : Build) (n m : Nat) : Except Halt Nat :=
  b.fit (n + m)

/-- The product of `n` and the numbers of a list, from the first one on. -/
def product (b : Build) (n : Nat) : List Nat → Except Halt Nat
  | [] => .ok n
  | m :: numbers => do
    let n ← b.mul n m
    b.product n numbers

/-- The sum of `n` and the products of the pairs of a list, from the first one on. -/
def sumProducts (b : Build) (n : Nat) : List (Nat × Nat) → Except Halt Nat
  | [] => .ok n
  | (x, y) :: pairs => do
    let n ← b.add n (← b.mul x y)
    b.sumProducts n pairs

/-- Offsets are the same in every build. -/
theorem fit_of_le {b : Build} {n : Nat} (h : n ≤ maxOffset) : b.fit n = .ok n :=
  if_pos h

theorem fit_wrapping (n : Nat) : wrapping.fit n = .ok (Offset.around n) := by
  unfold fit
  split
  · rw [Offset.around_of_le ‹_›]
  · rfl

theorem fit_checked_eq_ok_iff {n m : Nat} : checked.fit n = .ok m ↔ n ≤ maxOffset ∧ n = m := by
  unfold fit
  split <;> simp [*]

theorem mul_of_le {b : Build} {n m : Nat} (h : n * m ≤ maxOffset) : b.mul n m = .ok (n * m) :=
  fit_of_le h

theorem add_of_le {b : Build} {n m : Nat} (h : n + m ≤ maxOffset) : b.add n m = .ok (n + m) :=
  fit_of_le h

end Build

/-- The quotient rounded up. -/
def ceilDiv (n d : Nat) : Nat :=
  (n + d - 1) / d

theorem ceilDiv_le_iff {n d j : Nat} (hd : 0 < d) : ceilDiv n d ≤ j ↔ n ≤ j * d := by
  rw [ceilDiv, ← Nat.lt_succ_iff, Nat.div_lt_iff_lt_mul hd, Nat.succ_mul]
  omega

/-- A natural number other than zero, such as the length of a chunk along a dimension. -/
abbrev PosNat := { n : Nat // 0 < n }

def PosNat.ofNat? (n : Nat) : Option PosNat :=
  if h : 0 < n then some ⟨n, h⟩ else none

end Hyperslab
