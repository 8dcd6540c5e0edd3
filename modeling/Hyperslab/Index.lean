import Hyperslab.Text

/-!
# Shapes and indices

A variable is addressed by index tuples below its shape. Elements are laid out in row-major
order: the last dimension varies fastest, so the stride of a dimension is the number of elements
of the dimensions after it.

## Main definitions

- `elementCount`: the number of elements of a shape
- `strides`: the distance between neighbours along each dimension
- `ravel?`: the position of an index tuple in row-major order
-/

namespace Hyperslab

/-- The length of each dimension of a variable, a chunk or a destination. -/
abbrev Shape := List Nat

/-- The position of an element, one number a dimension. -/
abbrev Index := List Nat

/-- Two things that should have the same number of dimensions have not. -/
structure RankMismatch where
  got : Nat
  expected : Nat
deriving DecidableEq, Repr

def RankMismatch.message (e : RankMismatch) : String :=
  s!"incompatible dimensionality {e.got}, expected {e.expected}"

/-- The number of elements of a shape, one for a shape without dimensions. -/
def elementCount : Shape → Nat
  | [] => 1
  | n :: shape => n * elementCount shape

/-- The number of elements between neighbours along each dimension. -/
def strides : Shape → List Nat
  | [] => []
  | _ :: shape => elementCount shape :: strides shape

/-- The row-major position of an index, where the index is below the shape in every
dimension and has as many of them. -/
def ravel? : Index → Shape → Option Nat
  | [], [] => some 0
  | i :: index, n :: shape =>
    if i < n then (ravel? index shape).map (i * elementCount shape + ·) else none
  | _, _ => none

@[simp] theorem elementCount_nil : elementCount [] = 1 := rfl

@[simp] theorem elementCount_cons (n : Nat) (shape : Shape) :
    elementCount (n :: shape) = n * elementCount shape := rfl

theorem elementCount_pos {shape : Shape} (h : ∀ n ∈ shape, 0 < n) : 0 < elementCount shape := by
  induction shape with
  | nil => exact Nat.one_pos
  | cons n shape ih =>
    rw [elementCount_cons]
    exact Nat.mul_pos (h n List.mem_cons_self) (ih fun m hm => h m (List.mem_cons_of_mem _ hm))

@[simp] theorem length_strides (shape : Shape) : (strides shape).length = shape.length := by
  induction shape with
  | nil => rfl
  | cons n shape ih => simp [strides, ih]

theorem ravel?_lt {index : Index} {shape : Shape} {k : Nat} (h : ravel? index shape = some k) :
    k < elementCount shape := by
  induction index generalizing shape k with
  | nil =>
    cases shape with
    | nil => simp_all [ravel?]
    | cons n shape => simp [ravel?] at h
  | cons i index ih =>
    cases shape with
    | nil => simp [ravel?] at h
    | cons n shape =>
      rw [ravel?] at h
      split at h
      · rename_i hi
        obtain ⟨r, hr, rfl⟩ := Option.map_eq_some_iff.1 h
        have hlt := ih hr
        have hstep : (i + 1) * elementCount shape ≤ n * elementCount shape :=
          Nat.mul_le_mul_right _ hi
        rw [Nat.add_mul, Nat.one_mul] at hstep
        rw [elementCount_cons]
        omega
      · cases h

end Hyperslab
