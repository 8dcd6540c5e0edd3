import Hyperslab.Index

/-!
# Positions and index tuples

Row-major order numbers the index tuples below a shape. `unravel` gives the tuple with a number,
`rowMajor` the number of a tuple. Both are total: `unravel` writes a number in the mixed radix of the
shape and drops what is above it, and `rowMajor` sums the strides without a look at the lengths. Below
the shape they are inverse to one another, and `ravel?` is `rowMajor` with a check.

## Main statements

- `ravel?_unravel`, `unravel_of_ravel?`: numbers and tuples correspond
- `ravel?_eq_some_iff`: where `ravel?` has an answer, and which
-/

namespace Hyperslab

theorem mul_add_le_mul {k n : Nat} (size : Nat) (h : k < n) : k * size + size ≤ n * size := by
  rw [← Nat.succ_mul]
  exact Nat.mul_le_mul_right size h

theorem mul_add_lt_mul {k n b size : Nat} (h : k < n) (hb : b < size) :
    k * size + b < n * size :=
  Nat.lt_of_lt_of_le (Nat.add_lt_add_left hb _) (mul_add_le_mul size h)

theorem mul_add_div_of_lt {k b size : Nat} (hb : b < size) : (k * size + b) / size = k := by
  rw [Nat.mul_comm, Nat.mul_add_div (Nat.zero_lt_of_lt hb), Nat.div_eq_of_lt hb, Nat.add_zero]

/-- The index tuple with number `k`, the last dimension fastest. -/
def unravel : Shape → Nat → Index
  | [], _ => []
  | n :: shape, k => k / elementCount shape % n :: unravel shape k

/-- The number of an index tuple, each index times the stride of its dimension. -/
def rowMajor : Index → Shape → Nat
  | i :: index, _ :: shape => i * elementCount shape + rowMajor index shape
  | _, _ => 0

/-- The index tuple has the rank of the shape and is below it in every dimension. -/
def Below : Index → Shape → Prop
  | [], [] => True
  | i :: index, n :: shape => i < n ∧ Below index shape
  | _, _ => False

theorem dvd_elementCount_of_mem {n : Nat} {shape : Shape} (h : n ∈ shape) :
    n ∣ elementCount shape := by
  induction shape with
  | nil => cases h
  | cons m shape ih =>
    rw [elementCount_cons]
    rcases List.mem_cons.1 h with rfl | h
    · exact Nat.dvd_mul_right n _
    · exact Nat.dvd_mul_left_of_dvd (ih h) m

theorem elementCount_ne_zero_iff {shape : Shape} : elementCount shape ≠ 0 ↔ 0 ∉ shape := by
  induction shape with
  | nil => simp
  | cons n shape ih =>
    rw [elementCount_cons, Nat.mul_ne_zero_iff, ih]
    simp [eq_comm]

theorem elementCount_append (outer inner : Shape) :
    elementCount (outer ++ inner) = elementCount outer * elementCount inner := by
  induction outer with
  | nil => exact (Nat.one_mul _).symm
  | cons n outer ih => rw [List.cons_append, elementCount_cons, elementCount_cons, ih, Nat.mul_assoc]

@[simp] theorem length_unravel (shape : Shape) (k : Nat) :
    (unravel shape k).length = shape.length := by
  induction shape with
  | nil => rfl
  | cons n shape ih => simp [unravel, ih]

theorem Below.length_eq {index : Index} {shape : Shape} (h : Below index shape) :
    index.length = shape.length := by
  induction index generalizing shape with
  | nil =>
    cases shape with
    | nil => rfl
    | cons n shape => exact h.elim
  | cons i index ih =>
    cases shape with
    | nil => exact h.elim
    | cons n shape => simp [ih h.2]

theorem Below.rowMajor_lt {index : Index} {shape : Shape} (h : Below index shape) :
    rowMajor index shape < elementCount shape := by
  induction index generalizing shape with
  | nil =>
    cases shape with
    | nil => exact Nat.one_pos
    | cons n shape => exact h.elim
  | cons i index ih =>
    cases shape with
    | nil => exact h.elim
    | cons n shape =>
      have hrest := ih h.2
      have hstep := mul_add_le_mul (elementCount shape) h.1
      rw [rowMajor, elementCount_cons]
      omega

/-- `ravel?` has an answer for the tuples below the shape, and it is their number. -/
theorem ravel?_eq_some_iff {index : Index} {shape : Shape} {k : Nat} :
    ravel? index shape = some k ↔ Below index shape ∧ rowMajor index shape = k := by
  induction index generalizing shape k with
  | nil => cases shape <;> simp [ravel?, Below, rowMajor]
  | cons i index ih =>
    cases shape with
    | nil => simp [ravel?, Below]
    | cons n shape =>
      rw [ravel?, Below, rowMajor]
      by_cases hi : i < n
      · simp only [hi, if_true, Option.map_eq_some_iff, ih, true_and]
        constructor
        · rintro ⟨r, ⟨hbelow, rfl⟩, rfl⟩
          exact ⟨hbelow, rfl⟩
        · rintro ⟨hbelow, rfl⟩
          exact ⟨_, ⟨hbelow, rfl⟩, rfl⟩
      · simp [hi]

theorem Below.ravel? {index : Index} {shape : Shape} (h : Below index shape) :
    ravel? index shape = some (rowMajor index shape) :=
  ravel?_eq_some_iff.2 ⟨h, rfl⟩

/-- Whole turns of the outer dimensions do not show in the inner ones. -/
theorem unravel_add_mul (shape : Shape) (turns k : Nat) :
    unravel shape (turns * elementCount shape + k) = unravel shape k := by
  induction shape generalizing turns with
  | nil => rfl
  | cons n shape ih =>
    have hturns : turns * elementCount (n :: shape) = turns * n * elementCount shape := by
      rw [elementCount_cons, Nat.mul_assoc]
    rw [unravel, unravel, hturns, ih]
    congr 1
    rcases Nat.eq_zero_or_pos (elementCount shape) with hzero | hpos
    · simp [hzero]
    · rw [Nat.mul_comm, Nat.mul_add_div hpos, Nat.mul_comm, Nat.mul_add_mod]

theorem unravel_mod (shape : Shape) (k : Nat) :
    unravel shape (k % elementCount shape) = unravel shape k := by
  conv => rhs; rw [← Nat.div_add_mod' k (elementCount shape)]
  rw [unravel_add_mul]

theorem below_unravel {shape : Shape} (h : elementCount shape ≠ 0) (k : Nat) :
    Below (unravel shape k) shape := by
  induction shape with
  | nil => trivial
  | cons n shape ih =>
    rw [elementCount_cons] at h
    have hn : n ≠ 0 := fun hn => h (by rw [hn, Nat.zero_mul])
    have hrest : elementCount shape ≠ 0 := fun hrest => h (by rw [hrest, Nat.mul_zero])
    exact ⟨Nat.mod_lt _ (Nat.pos_of_ne_zero hn), ih hrest⟩

/-- The tuple of a number has this number, less whole turns of the shape. -/
theorem rowMajor_unravel (shape : Shape) (k : Nat) :
    rowMajor (unravel shape k) shape = k % elementCount shape := by
  induction shape with
  | nil => simp [unravel, rowMajor, Nat.mod_one]
  | cons n shape ih =>
    rw [unravel, rowMajor, ih, elementCount_cons, Nat.mul_comm n, Nat.mod_mul, Nat.mul_comm,
      Nat.add_comm]

theorem ravel?_unravel {shape : Shape} {k : Nat} (h : k < elementCount shape) :
    ravel? (unravel shape k) shape = some k := by
  have hne : elementCount shape ≠ 0 := by omega
  rw [(below_unravel hne k).ravel?, rowMajor_unravel, Nat.mod_eq_of_lt h]

theorem Below.unravel_rowMajor {index : Index} {shape : Shape} (h : Below index shape) :
    unravel shape (rowMajor index shape) = index := by
  induction index generalizing shape with
  | nil =>
    cases shape with
    | nil => rfl
    | cons n shape => exact h.elim
  | cons i index ih =>
    cases shape with
    | nil => exact h.elim
    | cons n shape =>
      have hlt := h.2.rowMajor_lt
      have hdigit : (i * elementCount shape + rowMajor index shape) / elementCount shape = i := by
        rw [Nat.mul_comm, Nat.mul_add_div (by omega), Nat.div_eq_of_lt hlt, Nat.add_zero]
      rw [rowMajor, unravel, hdigit, Nat.mod_eq_of_lt h.1, unravel_add_mul, ih h.2]

theorem unravel_of_ravel? {index : Index} {shape : Shape} {k : Nat}
    (h : ravel? index shape = some k) : unravel shape k = index := by
  obtain ⟨hbelow, rfl⟩ := ravel?_eq_some_iff.1 h
  exact hbelow.unravel_rowMajor

theorem Below.eq_of_rowMajor_eq {index index' : Index} {shape : Shape} (h : Below index shape)
    (h' : Below index' shape) (heq : rowMajor index shape = rowMajor index' shape) :
    index = index' := by
  rw [← h.unravel_rowMajor, heq, h'.unravel_rowMajor]

end Hyperslab
