import Hyperslab.Choice
import Hyperslab.Proofs.Index

/-!
# Position tuples in order

Loops over the dimensions of a shape, one inside of the other, visit the position tuples below the
shape in row-major order. They are the choices of one position along each dimension, and visiting
them is counting: tuple number `k` is the one that `unravel` gives.

## Main definitions

- `positions`: all position tuples below a shape
- `weighted`: the sum of the indices of a tuple, each times the step of its dimension

## Main statements

- `positions_eq`: the position tuples are those of the numbers below the element count
- `mem_positions`: a tuple is visited where it is below the shape
- `weighted_strides`: with the strides of a shape the sum is the row-major number
-/

namespace Hyperslab

/-- Counting in two digits is counting. -/
theorem flatMap_map_range {α : Type} (n m : Nat) (f : Nat → Nat → α) :
    (List.range n).flatMap (fun i => (List.range m).map (f i)) =
      (List.range (n * m)).map fun k => f (k / m) (k % m) := by
  induction n with
  | zero => simp
  | succ n ih =>
    rw [List.range_succ, List.flatMap_append, ih, List.flatMap_singleton, Nat.succ_mul,
      List.range_add, List.map_append, List.map_map]
    congr 1
    refine List.map_congr_left fun k hk => ?_
    have hk : k < m := List.mem_range.1 hk
    rw [Function.comp_apply, mul_add_div_of_lt hk, Nat.mul_add_mod_of_lt hk]

/-- The position tuples below a shape, the last dimension fastest. -/
def positions (shape : Shape) : List Index :=
  choices (shape.map List.range)

theorem positions_cons (n : Nat) (shape : Shape) :
    positions (n :: shape) = (List.range n).flatMap fun i => (positions shape).map (i :: ·) :=
  rfl

theorem positions_eq (shape : Shape) :
    positions shape = (List.range (elementCount shape)).map (unravel shape) := by
  induction shape with
  | nil => rfl
  | cons n shape ih =>
    rw [positions_cons]
    simp only [ih, List.map_map]
    rw [flatMap_map_range n (elementCount shape) fun i k => ((i :: ·) ∘ unravel shape) k]
    refine List.map_congr_left fun k hk => ?_
    have hdigit : k / elementCount shape < n :=
      Nat.div_lt_of_lt_mul (by rw [Nat.mul_comm]; exact List.mem_range.1 hk)
    rw [Function.comp_apply, unravel_mod, unravel, Nat.mod_eq_of_lt hdigit]

@[simp] theorem length_positions (shape : Shape) :
    (positions shape).length = elementCount shape := by
  simp [positions_eq]

theorem mem_positions {position : Index} {shape : Shape} :
    position ∈ positions shape ↔ Below position shape := by
  rw [positions_eq, List.mem_map]
  constructor
  · rintro ⟨k, hk, rfl⟩
    exact below_unravel (Nat.ne_of_gt (Nat.zero_lt_of_lt (List.mem_range.1 hk))) k
  · intro h
    exact ⟨rowMajor position shape, List.mem_range.2 h.rowMajor_lt, h.unravel_rowMajor⟩

theorem nodup_positions (shape : Shape) : (positions shape).Nodup := by
  rw [positions_eq, List.nodup_iff_pairwise_ne, List.pairwise_map]
  refine List.pairwise_lt_range.imp_of_mem fun {k l} hk hl hlt heq => ?_
  have hnumber := congrArg (rowMajor · shape) heq
  rw [rowMajor_unravel, rowMajor_unravel, Nat.mod_eq_of_lt (List.mem_range.1 hk),
    Nat.mod_eq_of_lt (List.mem_range.1 hl)] at hnumber
  exact Nat.ne_of_lt hlt hnumber

/-- The sum of the indices, each times the step of its dimension. -/
def weighted : List Nat → Index → Nat
  | step :: steps, i :: index => i * step + weighted steps index
  | _, _ => 0

theorem weighted_strides (shape : Shape) (index : Index) :
    weighted (strides shape) index = rowMajor index shape := by
  induction shape generalizing index with
  | nil => cases index <;> rfl
  | cons n shape ih =>
    cases index with
    | nil => rfl
    | cons i index => rw [strides, weighted, rowMajor, ih]

end Hyperslab
