import Hyperslab.Proofs.Index
import Hyperslab.Section.Basic

/-!
# The elements of a section

A position tuple below the shape of a section selects one element of the variable. Where the section
fits a variable and selects something, every selected index is below the variable, and elements at
later positions come later in row-major order of the variable too: strides are positive, so a step
in a dimension moves past everything that the inner dimensions select.

## Main statements

- `Section.within_of_validate`: what an accepted section that is not empty keeps to
- `Section.below_elementsAt`: selected elements are elements of the variable
- `Section.rowMajor_indexAt_lt`: the order of positions is the order of elements
-/

namespace Hyperslab

/-- The range selects something, all of it below `n` and at most at the largest offset. -/
structure SectionRange.Within (r : SectionRange) (n : Nat) : Prop where
  count_pos : 0 < r.count
  last_lt : r.element (r.count - 1) < n
  last_le : r.element (r.count - 1) ≤ maxOffset

theorem SectionRange.element_le {r : SectionRange} {i j : Nat} (h : i ≤ j) :
    r.element i ≤ r.element j :=
  Nat.add_le_add_left (Nat.mul_le_mul_right _ h) _

theorem SectionRange.element_lt {r : SectionRange} {i j : Nat} (h : i < j) :
    r.element i < r.element j :=
  Nat.add_lt_add_left (Nat.mul_lt_mul_of_pos_right h r.stride_pos) _

theorem SectionRange.le_element (r : SectionRange) (j : Nat) : j ≤ r.element j := by
  have := Nat.mul_le_mul_left j r.stride_pos
  rw [element]
  omega

theorem SectionRange.Within.element_lt {r : SectionRange} {n j : Nat} (h : r.Within n)
    (hj : j < r.count) : r.element j < n :=
  Nat.lt_of_le_of_lt (SectionRange.element_le (by omega)) h.last_lt

theorem SectionRange.Within.count_le {r : SectionRange} {n : Nat} (h : r.Within n) :
    r.count ≤ n := by
  have hlast := r.le_element (r.count - 1)
  have hlt := h.last_lt
  have hpos := h.count_pos
  omega

theorem SectionRange.within_of_inBounds {r : SectionRange} {n : Nat} (h : r.inBounds n = true)
    (hcount : r.count ≠ 0) : r.Within n := by
  rw [inBounds, if_neg hcount, last?, if_neg hcount] at h
  cases hlast : Offset.checked (r.element (r.count - 1)) with
  | none => simp [hlast] at h
  | some last =>
    obtain ⟨hle, rfl⟩ := Offset.checked_eq_some_iff.1 hlast
    simp only [hlast, decide_eq_true_eq] at h
    exact ⟨Nat.pos_of_ne_zero hcount, h, hle⟩

theorem SectionRange.Within.last? {r : SectionRange} {n : Nat} (h : r.Within n) :
    r.last? = some (r.element (r.count - 1)) := by
  rw [SectionRange.last?, if_neg (Nat.ne_of_gt h.count_pos)]
  exact Offset.checked_eq_some_iff.2 ⟨h.last_le, rfl⟩

namespace Section

/-- The ranges and the shape have one rank, and each range keeps within its dimension. -/
def Within : List SectionRange → Shape → Prop
  | [], [] => True
  | range :: ranges, n :: shape => range.Within n ∧ Within ranges shape
  | _, _ => False

/-- The index tuple of a position tuple. -/
def elementsAt (ranges : List SectionRange) (position : Index) : Index :=
  List.zipWith SectionRange.element ranges position

/-- The index tuple that the section selects at position `k`, the positions being numbered in
row-major order of the shape of the section. -/
def indexAt (s : Section) (k : Nat) : Index :=
  elementsAt s.ranges (unravel s.shape k)

theorem isEmpty_iff {s : Section} : s.isEmpty = true ↔ s.totalCount = 0 := by
  rw [isEmpty, totalCount, shape]
  induction s.ranges with
  | nil => simp
  | cons range ranges ih =>
    rw [List.any_cons, Bool.or_eq_true, decide_eq_true_eq, ih, List.map_cons, elementCount_cons,
      Nat.mul_eq_zero]

theorem length_shape (s : Section) : s.shape.length = s.ranges.length :=
  List.length_map _

theorem Within.of_cons {range : SectionRange} {ranges : List SectionRange} {shape : Shape}
    (h : Within (range :: ranges) shape) :
    ∃ n rest, shape = n :: rest ∧ range.Within n ∧ Within ranges rest := by
  cases shape with
  | nil => exact h.elim
  | cons n rest => exact ⟨n, rest, rfl, h⟩

theorem Within.length_eq {ranges : List SectionRange} {shape : Shape} (h : Within ranges shape) :
    ranges.length = shape.length := by
  induction ranges generalizing shape with
  | nil =>
    cases shape with
    | nil => rfl
    | cons n shape => exact h.elim
  | cons range ranges ih =>
    cases shape with
    | nil => exact h.elim
    | cons n shape => simp [ih h.2]

theorem within_of_checkBounds {dimension : Nat} {ranges : List SectionRange} {shape : Shape}
    (h : checkBounds dimension ranges shape = .ok ()) (hlength : ranges.length = shape.length)
    (hcount : elementCount (ranges.map (·.count)) ≠ 0) : Within ranges shape := by
  induction ranges generalizing shape dimension with
  | nil =>
    have hnil := List.length_eq_zero_iff.1 hlength.symm
    subst hnil
    trivial
  | cons range ranges ih =>
    cases shape with
    | nil => cases hlength
    | cons n shape =>
      rw [checkBounds] at h
      rw [List.map_cons, elementCount_cons] at hcount
      split at h
      · rename_i hbounds
        have hrange : range.count ≠ 0 := fun hzero => hcount (by rw [hzero, Nat.zero_mul])
        have hrest : elementCount (ranges.map (·.count)) ≠ 0 :=
          fun hzero => hcount (by rw [hzero, Nat.mul_zero])
        exact ⟨SectionRange.within_of_inBounds hbounds hrange,
          ih h (Nat.succ.inj hlength) hrest⟩
      · cases h

/-- An accepted section that is not empty keeps within the variable. -/
theorem within_of_validate {s : Section} {shape : Shape} (h : s.validate shape = .ok ())
    (hcount : s.totalCount ≠ 0) : Within s.ranges shape := by
  rw [validate] at h
  split at h
  · rename_i hrank
    exact within_of_checkBounds h hrank hcount
  · cases h

/-- The elements at positions below the shape of a section are elements of the variable. -/
theorem below_elementsAt {ranges : List SectionRange} {shape : Shape} (h : Within ranges shape)
    {position : Index} (hposition : Below position (ranges.map (·.count))) :
    Below (elementsAt ranges position) shape := by
  induction ranges generalizing shape position with
  | nil =>
    cases shape with
    | nil =>
      have hnil := List.length_eq_zero_iff.1 hposition.length_eq
      subst hnil
      trivial
    | cons n shape => exact h.elim
  | cons range ranges ih =>
    cases shape with
    | nil => exact h.elim
    | cons n shape =>
      cases position with
      | nil => exact hposition.elim
      | cons j position => exact ⟨h.1.element_lt hposition.1, ih h.2 hposition.2⟩

theorem Within.elementCount_ne_zero {ranges : List SectionRange} {shape : Shape}
    (h : Within ranges shape) : elementCount (ranges.map (·.count)) ≠ 0 := by
  induction ranges generalizing shape with
  | nil => exact Nat.one_ne_zero
  | cons range ranges ih =>
    cases shape with
    | nil => exact h.elim
    | cons n shape => exact Nat.mul_ne_zero (Nat.ne_of_gt h.1.count_pos) (ih h.2)

theorem Within.shape_ne_zero {ranges : List SectionRange} {shape : Shape}
    (h : Within ranges shape) : elementCount shape ≠ 0 := by
  have hbelow := below_elementsAt h (below_unravel h.elementCount_ne_zero 0)
  exact Nat.ne_of_gt (Nat.lt_of_le_of_lt (Nat.zero_le _) hbelow.rowMajor_lt)

theorem below_indexAt {s : Section} {shape : Shape} (h : Within s.ranges shape) (k : Nat) :
    Below (s.indexAt k) shape :=
  below_elementsAt h (below_unravel h.elementCount_ne_zero k)

/-- Later positions select elements that come later in the variable. -/
theorem rowMajor_elementsAt_lt {ranges : List SectionRange} {shape : Shape}
    (h : Within ranges shape) {k l : Nat} (hkl : k < l)
    (hl : l < elementCount (ranges.map (·.count))) :
    rowMajor (elementsAt ranges (unravel (ranges.map (·.count)) k)) shape <
      rowMajor (elementsAt ranges (unravel (ranges.map (·.count)) l)) shape := by
  induction ranges generalizing shape k l with
  | nil =>
    rw [List.map_nil, elementCount_nil] at hl
    omega
  | cons range ranges ih =>
    cases shape with
    | nil => exact h.elim
    | cons n shape =>
      rw [List.map_cons, elementCount_cons] at hl
      simp only [List.map_cons, unravel, elementsAt, List.zipWith_cons_cons, rowMajor]
      have hne := h.2.elementCount_ne_zero
      have hbelow := below_elementsAt h.2 (below_unravel hne k)
      have hdigit : l / elementCount (ranges.map (·.count)) < range.count :=
        Nat.div_lt_of_lt_mul (by rwa [Nat.mul_comm])
      have hle : k / elementCount (ranges.map (·.count)) ≤
          l / elementCount (ranges.map (·.count)) := Nat.div_le_div_right (Nat.le_of_lt hkl)
      rw [Nat.mod_eq_of_lt hdigit, Nat.mod_eq_of_lt (Nat.lt_of_le_of_lt hle hdigit)]
      rcases Nat.lt_or_eq_of_le hle with hlt | heq
      · -- the outer index grows by one at least, which is more than the inner ones make up for
        have hstep := mul_add_le_mul (elementCount shape)
          (SectionRange.element_lt (r := range) hlt)
        have hinner := hbelow.rowMajor_lt
        rw [elementsAt] at hinner
        omega
      · rw [heq]
        have hmod : k % elementCount (ranges.map (·.count)) <
            l % elementCount (ranges.map (·.count)) := by
          have hk := Nat.div_add_mod k (elementCount (ranges.map (·.count)))
          have hl := Nat.div_add_mod l (elementCount (ranges.map (·.count)))
          rw [heq] at hk
          omega
        have hrest := ih h.2 hmod (Nat.mod_lt _ (Nat.pos_of_ne_zero hne))
        rw [unravel_mod, unravel_mod] at hrest
        exact Nat.add_lt_add_left hrest _

theorem rowMajor_indexAt_lt {s : Section} {shape : Shape} (h : Within s.ranges shape) {k l : Nat}
    (hkl : k < l) (hl : l < s.totalCount) :
    rowMajor (s.indexAt k) shape < rowMajor (s.indexAt l) shape :=
  rowMajor_elementsAt_lt h hkl hl

/-- The first element that a section selects is the first one of the variable just where all its
ranges start at zero. -/
theorem rowMajor_indexAt_zero_iff {s : Section} {shape : Shape} (h : Within s.ranges shape) :
    rowMajor (s.indexAt 0) shape = 0 ↔ ∀ range ∈ s.ranges, range.start = 0 := by
  suffices hranges : ∀ ranges shape, Within ranges shape →
      (rowMajor (elementsAt ranges (unravel (ranges.map (·.count)) 0)) shape = 0 ↔
        ∀ range ∈ ranges, range.start = 0) from hranges _ _ h
  intro ranges
  induction ranges with
  | nil => simp [elementsAt, rowMajor]
  | cons range ranges ih =>
    intro shape h
    obtain ⟨n, shape, rfl, hrange, hranges⟩ := h.of_cons
    have hzero : range.element (0 / elementCount (ranges.map (·.count)) % range.count) =
        range.start := by
      simp [SectionRange.element]
    simp only [List.map_cons, unravel, elementsAt, List.zipWith_cons_cons, rowMajor, hzero,
      Nat.add_eq_zero_iff, Nat.mul_eq_zero, hranges.shape_ne_zero, or_false,
      List.forall_mem_cons]
    exact and_congr_right fun _ => ih shape hranges

end Section

end Hyperslab
