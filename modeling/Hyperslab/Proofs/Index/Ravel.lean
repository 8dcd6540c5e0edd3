import Hyperslab.Proofs.Offset
import Hyperslab.Proofs.Position

/-!
# Index tuples in row-major order

Ravelling numbers the index tuples below a shape from zero on, without a gap and in lexicographic
order. A number is computed from the last dimension on, with a running count of the elements of the
dimensions passed, and the strides are multiplied up from the last dimension on as well.
`ravelSteps` and `stridesSteps` are these two loops with each of their steps looked at. For a shape
without a length of zero whose element count is an offset no step goes wrong, and the loops come to
`ravel?` and `strides`.

## Main definitions

- `ravelSteps`: the number of an index tuple, step by step
- `stridesSteps`: the strides of a shape, step by step

## Main statements

- `ravelSteps_eq`, `stridesSteps_eq`: no step of the two loops goes wrong
- `Below.rowMajor_lt_rowMajor_iff`: tuples compare as their numbers do
- `ravel_numbers_in_order`: what ravelling does to the tuples of a shape
-/

namespace Hyperslab

/-- Passes the dimensions of a shape, the last one first, each with the index along it. The
dimensions passed before have `count` elements, and the indices along them come to `number`. -/
def ravelFrom (number count : Nat) : List (Nat × Nat) → Except Offset.Fault (Option Nat)
  | [] => pure (some number)
  | (i, n) :: outer =>
    if n ≤ i then pure none
    else do
      let distance ← Offset.mul i count
      let number ← Offset.add number distance
      let count ← Offset.mul count n
      ravelFrom number count outer

/-- The number of an index tuple, step by step. -/
def ravelSteps (index : Index) (shape : Shape) : Except Offset.Fault (Option Nat) :=
  if index.length = shape.length then ravelFrom 0 1 (index.zip shape).reverse else pure none

/-- Goes on with the dimensions before those that have `strides`, the last one first, where `stride`
is the first of the strides. -/
def stridesFrom (stride : Nat) (strides : List Nat) : List Nat → Except Offset.Fault (List Nat)
  | [] => pure strides
  | n :: outer => do
    let stride ← Offset.mul stride n
    stridesFrom stride (stride :: strides) outer

/-- The strides of a shape, step by step. The length of the first dimension is not needed. -/
def stridesSteps : Shape → Except Offset.Fault (List Nat)
  | [] => pure []
  | _ :: shape => stridesFrom 1 [1] shape.reverse

theorem below_iff {index : Index} {shape : Shape} :
    Below index shape ↔ index.length = shape.length ∧ ∀ p ∈ index.zip shape, p.1 < p.2 := by
  induction index generalizing shape with
  | nil => cases shape <;> simp [Below]
  | cons i index ih =>
    cases shape with
    | nil => simp [Below]
    | cons n shape =>
      rw [Below, ih, List.zip_cons_cons, List.forall_mem_cons, List.length_cons, List.length_cons,
        Nat.succ_inj]
      exact and_left_comm

/-- The inner dimensions of a shape that has elements do not have more of them. -/
theorem elementCount_inner_le {outer inner : Shape} (hzero : 0 ∉ outer ++ inner) :
    elementCount inner ≤ elementCount (outer ++ inner) := by
  have houter : elementCount outer ≠ 0 :=
    elementCount_ne_zero_iff.2 fun hmem => hzero (List.mem_append_left _ hmem)
  rw [elementCount_append]
  exact Nat.le_mul_of_pos_left _ (Nat.pos_of_ne_zero houter)

theorem ravel?_eq_none_iff {index : Index} {shape : Shape} :
    ravel? index shape = none ↔ ¬Below index shape := by
  simp only [Option.eq_none_iff_forall_ne_some, ne_eq, ravel?_eq_some_iff, not_and]
  exact ⟨fun h hbelow => h _ hbelow rfl, fun h _ hbelow => absurd hbelow h⟩

/-- The inner indices of a tuple are below the inner dimensions. -/
theorem Below.of_append {front index : Index} {outer inner : Shape}
    (hlength : front.length = outer.length) (h : Below (front ++ index) (outer ++ inner)) :
    Below index inner := by
  induction front generalizing outer with
  | nil =>
    obtain rfl := List.length_eq_zero_iff.1 hlength.symm
    exact h
  | cons i front ih =>
    obtain ⟨n, outer, rfl⟩ := List.exists_cons_of_length_eq_add_one hlength.symm
    exact ih (Nat.succ.inj hlength) h.2

section Loops

variable {shape : Shape}

/-- From the inner dimensions on the loop comes to the number of the whole tuple. -/
theorem ravelFrom_eq {index : Index} {inner : Shape} (hbelow : Below index inner)
    (outer : List (Nat × Nat)) (hzero : 0 ∉ (outer.map (·.2)).reverse ++ inner)
    (hcount : elementCount ((outer.map (·.2)).reverse ++ inner) ≤ maxOffset) :
    ravelFrom (rowMajor index inner) (elementCount inner) outer =
      .ok (ravel? ((outer.map (·.1)).reverse ++ index) ((outer.map (·.2)).reverse ++ inner)) := by
  induction outer generalizing index inner with
  | nil => exact congrArg Except.ok hbelow.ravel?.symm
  | cons p outer ih =>
    obtain ⟨i, n⟩ := p
    simp only [List.map_cons, List.reverse_cons, List.append_assoc, List.singleton_append]
      at hzero hcount ⊢
    rw [ravelFrom]
    by_cases hi : n ≤ i
    · have hnone : ¬Below ((outer.map (·.1)).reverse ++ i :: index)
          ((outer.map (·.2)).reverse ++ n :: inner) := fun h =>
        Nat.not_lt_of_le hi (h.of_append (by simp)).1
      rw [if_pos hi, ravel?_eq_none_iff.2 hnone]
      rfl
    · -- all numbers on the way are at most the element count of the dimensions passed
      have hlt : i < n := Nat.lt_of_not_le hi
      have hle := elementCount_inner_le hzero
      have hnumber := hbelow.rowMajor_lt
      have hstep := mul_add_lt_mul hlt hnumber
      rw [elementCount_cons] at hle
      rw [if_neg hi, Offset.mul_eq (by omega), pure_bind, Offset.add_eq (by omega), pure_bind,
        Offset.mul_eq (by rw [Nat.mul_comm]; omega), pure_bind, Nat.add_comm, Nat.mul_comm _ n]
      have hnext : Below (i :: index) (n :: inner) := ⟨hlt, hbelow⟩
      exact ih hnext hzero hcount

/-- No step goes wrong on the way to the number of an index tuple. -/
theorem ravelSteps_eq (hzero : 0 ∉ shape) (hcount : elementCount shape ≤ maxOffset)
    (index : Index) : ravelSteps index shape = .ok (ravel? index shape) := by
  rw [ravelSteps]
  split
  · rename_i hlength
    have hindex : ((index.zip shape).reverse.map (·.1)).reverse ++ [] = index := by
      rw [List.map_reverse, List.reverse_reverse, List.append_nil,
        List.map_fst_zip (Nat.le_of_eq hlength)]
    have hshape : ((index.zip shape).reverse.map (·.2)).reverse ++ [] = shape := by
      rw [List.map_reverse, List.reverse_reverse, List.append_nil,
        List.map_snd_zip (Nat.le_of_eq hlength.symm)]
    have hempty : Below [] [] := trivial
    have hloop := ravelFrom_eq hempty (index.zip shape).reverse
    rw [hindex, hshape] at hloop
    exact hloop hzero hcount
  · rename_i hlength
    rw [ravel?_eq_none_iff.2 fun h => hlength h.length_eq]
    rfl

/-- From the strides of the inner dimensions on the loop comes to those of the whole shape. -/
theorem stridesFrom_eq (first : Nat) (outer : List Nat) (inner : Shape)
    (hzero : 0 ∉ outer.reverse ++ inner)
    (hcount : elementCount (outer.reverse ++ inner) ≤ maxOffset) :
    stridesFrom (elementCount inner) (strides (first :: inner)) outer =
      .ok (strides (first :: (outer.reverse ++ inner))) := by
  induction outer generalizing inner with
  | nil => rfl
  | cons n outer ih =>
    rw [List.reverse_cons, List.append_assoc, List.singleton_append] at hzero hcount ⊢
    have hle := elementCount_inner_le hzero
    rw [elementCount_cons, Nat.mul_comm] at hle
    rw [stridesFrom, Offset.mul_eq (Nat.le_trans hle hcount), pure_bind, Nat.mul_comm]
    exact ih (n :: inner) hzero hcount

/-- No step goes wrong on the way to the strides of a shape. -/
theorem stridesSteps_eq (hzero : 0 ∉ shape) (hcount : elementCount shape ≤ maxOffset) :
    stridesSteps shape = .ok (strides shape) := by
  cases shape with
  | nil => rfl
  | cons n shape =>
    have hloop := stridesFrom_eq n shape.reverse []
    rw [List.reverse_reverse, List.append_nil] at hloop
    have hall : 0 ∉ [n] ++ shape := hzero
    exact hloop (fun hmem => hzero (List.mem_cons_of_mem n hmem))
      (Nat.le_trans (elementCount_inner_le hall) hcount)

end Loops

/-- Tuples compare in lexicographic order as their numbers do. -/
theorem Below.rowMajor_lt_rowMajor_iff {index index' : Index} {shape : Shape}
    (h : Below index shape) (h' : Below index' shape) :
    rowMajor index shape < rowMajor index' shape ↔ index < index' := by
  induction shape generalizing index index' with
  | nil =>
    obtain rfl := List.length_eq_zero_iff.1 h.length_eq
    obtain rfl := List.length_eq_zero_iff.1 h'.length_eq
    simp
  | cons n shape ih =>
    obtain ⟨i, index, rfl⟩ := List.exists_cons_of_length_eq_add_one h.length_eq
    obtain ⟨i', index', rfl⟩ := List.exists_cons_of_length_eq_add_one h'.length_eq
    have hrest := h.2.rowMajor_lt
    have hrest' := h'.2.rowMajor_lt
    rw [rowMajor, rowMajor, List.cons_lt_cons_iff, ← ih h.2 h'.2]
    rcases Nat.lt_trichotomy i i' with hlt | rfl | hgt
    · have := mul_add_le_mul (elementCount shape) hlt
      omega
    · omega
    · have := mul_add_le_mul (elementCount shape) hgt
      omega

/-- The index tuples below a shape without a length of zero, whose element count is an offset, have
the numbers below the element count. Each number is that of just one tuple, and it is the sum of
the indices times the strides. Tuples compare in lexicographic order as their numbers do. The loops
over the dimensions, from the last one on, come to the numbers and to the strides, and no step of
them goes wrong. -/
theorem ravel_numbers_in_order (shape : Shape) (hzero : 0 ∉ shape)
    (hcount : elementCount shape ≤ maxOffset) :
    (∀ index, ravelSteps index shape = .ok (ravel? index shape)) ∧
    stridesSteps shape = .ok (strides shape) ∧
    (∀ index, (∃ k, ravel? index shape = some k) ↔
      index.length = shape.length ∧ ∀ p ∈ index.zip shape, p.1 < p.2) ∧
    (∀ index k, ravel? index shape = some k →
      k = weighted (strides shape) index ∧ k < elementCount shape) ∧
    (∀ k < elementCount shape, ∃ index, ravel? index shape = some k ∧
      ∀ other, ravel? other shape = some k → other = index) ∧
    (∀ index index' k k', ravel? index shape = some k → ravel? index' shape = some k' →
      (k < k' ↔ index < index')) ∧
    ravel? [] [] = some 0 := by
  refine ⟨ravelSteps_eq hzero hcount, stridesSteps_eq hzero hcount, fun index => ?_,
    fun index k hk => ?_, fun k hk => ?_, fun index index' k k' hk hk' => ?_, rfl⟩
  · rw [← below_iff]
    simp [ravel?_eq_some_iff]
  · refine ⟨?_, ravel?_lt hk⟩
    rw [weighted_strides, (ravel?_eq_some_iff.1 hk).2]
  · refine ⟨unravel shape k, ravel?_unravel hk, fun other hother => ?_⟩
    exact (unravel_of_ravel? hother).symm
  · obtain ⟨hbelow, rfl⟩ := ravel?_eq_some_iff.1 hk
    obtain ⟨hbelow', rfl⟩ := ravel?_eq_some_iff.1 hk'
    exact hbelow.rowMajor_lt_rowMajor_iff hbelow'

/-- The last tuple of the largest element count there is has the last number. -/
theorem ravel_numbers_largest :
    0 ∉ [4294967295, 4294967297] ∧ elementCount [4294967295, 4294967297] ≤ maxOffset ∧
    ravelSteps [4294967294, 4294967296] [4294967295, 4294967297] =
      .ok (some 18446744073709551614) ∧
    stridesSteps [4294967295, 4294967297] = .ok [4294967297, 1] ∧
    ∀ other, ravel? other [4294967295, 4294967297] = some 18446744073709551614 →
      other = [4294967294, 4294967296] := by
  have hzero : 0 ∉ [4294967295, 4294967297] := by decide
  have hcount : elementCount [4294967295, 4294967297] ≤ maxOffset := by decide
  have hlast : ravel? [4294967294, 4294967296] [4294967295, 4294967297] =
      some 18446744073709551614 := by decide
  obtain ⟨hsteps, hstrides, -, -, honly, -⟩ := ravel_numbers_in_order _ hzero hcount
  obtain ⟨index, -, hindex⟩ := honly 18446744073709551614 (by decide)
  refine ⟨hzero, hcount, hlast ▸ hsteps _, hstrides, fun other hother => ?_⟩
  rw [hindex other hother, hindex _ hlast]

end Hyperslab
