import Mathlib.Data.List.TakeWhile
import Hyperslab.Proofs.Descriptor.Consistent

/-!
# Variables that are too large

The size of a variable is multiplied up one dimension after the other, outermost first, and the first
product past the largest offset is refused. For lengths other than zero the products only grow, so
the last one decides. A length of zero makes the size zero, but it comes too late for the products
of the dimensions before it: what decides is the size of the dimensions up to the first length of
zero, and a variable without bytes may be refused in one order of its dimensions and accepted in
another.

## Main definitions

- `StorageMetadata.IsTooLarge`: a declaration is refused for the size of its variable

## Main statements

- `bytesWithin?_eq_none_iff`: where a product passes the largest offset
- `StorageMetadata.isTooLarge_iff`: which variables without data are too large
-/

namespace Hyperslab

open Descriptor

section BeforeZero

variable {shape shape' : Shape} {size : Nat}

theorem elementCount_eq_of_perm (h : shape.Perm shape') :
    elementCount shape = elementCount shape' := by
  induction h with
  | nil => rfl
  | cons n _ ih => rw [elementCount_cons, elementCount_cons, ih]
  | swap n m shape => simp only [elementCount_cons, Nat.mul_left_comm]
  | trans _ _ ih ih' => exact ih.trans ih'

/-- The lengths of the dimensions before the first one of length zero. -/
def beforeZero (shape : Shape) : Shape :=
  shape.takeWhile (· ≠ 0)

theorem beforeZero_eq_self (h : 0 ∉ shape) : beforeZero shape = shape := by
  apply List.takeWhile_eq_self_iff.2
  intro n hn
  exact decide_eq_true fun hzero => h (hzero ▸ hn)

theorem elementCount_beforeZero_pos (shape : Shape) : 0 < elementCount (beforeZero shape) := by
  apply Nat.pos_of_ne_zero
  rw [elementCount_ne_zero_iff]
  intro hmem
  simpa using List.mem_takeWhile_imp hmem

/-- A product passes the largest offset where that of the dimensions before a length of zero does. -/
theorem bytesWithin?_eq_none_iff (h : size ≤ maxOffset) :
    bytesWithin? size shape = none ↔ maxOffset < size * elementCount (beforeZero shape) := by
  induction shape generalizing size with
  | nil => simpa [bytesWithin?, beforeZero] using h
  | cons n shape ih =>
    by_cases hzero : n = 0
    · -- from here on all products are zero
      subst hzero
      have hrest := ih (Nat.zero_le maxOffset)
      simp only [bytesWithin?, beforeZero, Offset.checked] at hrest ⊢
      simp [hrest, h]
    · have hiff : beforeZero (n :: shape) = n :: beforeZero shape := by simp [beforeZero, hzero]
      rw [hiff, elementCount_cons, ← Nat.mul_assoc]
      by_cases hnext : size * n ≤ maxOffset
      · simp [bytesWithin?, Offset.checked, hnext, ih hnext]
      · have hpos := elementCount_beforeZero_pos shape
        have hgrow := Nat.le_mul_of_pos_right (size * n) hpos
        simp [bytesWithin?, Offset.checked, hnext]
        omega

end BeforeZero

namespace StorageMetadata

variable {m : StorageMetadata} {shape : Shape}

/-- The declaration is refused because its variable has too many bytes. -/
def IsTooLarge (m : StorageMetadata) : Prop :=
  create m = .error (.variableTooLarge m.shape m.elementSize)

/-- A variable without data, of elements that have bytes and a fill value of this size, has only its
size checked. -/
theorem check_noData (hlayout : m.layout = .noData) (hsize : 1 ≤ m.elementSize)
    (hfill : ∀ v, m.fill = some v → v.size = m.elementSize) :
    m.check = m.variableBytes.map fun _ => () := by
  rw [check, if_neg (Nat.ne_of_gt hsize), checkFill_eq_ok_iff.2 hfill]
  cases hbytes : m.variableBytes <;> simp [checkLayout, hlayout, bind, Except.bind, Except.map]

/-- A variable without data is too large exactly if the dimensions before the first one of length
zero have more bytes than there are offsets, and is accepted otherwise. -/
theorem isTooLarge_iff (hlayout : m.layout = .noData) (hsize : 1 ≤ m.elementSize)
    (hle : m.elementSize ≤ maxOffset) (hfill : ∀ v, m.fill = some v → v.size = m.elementSize) :
    (m.IsTooLarge ↔ maxOffset < m.elementSize * elementCount (beforeZero m.shape)) ∧
      (m.IsTooLarge ∨ ∃ d, create m = .ok d ∧ d.toStorageMetadata = m) := by
  have hnone : bytesWithin? m.elementSize m.shape = none ↔ _ := bytesWithin?_eq_none_iff hle
  rw [IsTooLarge, create_eq_error_iff, check_noData hlayout hsize hfill, ← hnone, variableBytes]
  cases hbytes : bytesWithin? m.elementSize m.shape with
  | none => simp [Except.map]
  | some bytes =>
    have hcheck : m.check = .ok () := by
      rw [check_noData hlayout hsize hfill, variableBytes, hbytes]
      rfl
    refine ⟨by simp [Except.map], .inr ⟨⟨m, hcheck⟩, create_eq_ok hcheck, rfl⟩⟩

/-- Where no length is zero, the order of the dimensions does not matter, and the exact size of the
variable decides. -/
theorem isTooLarge_iff_of_ne_zero (hlayout : m.layout = .noData) (hsize : 1 ≤ m.elementSize)
    (hle : m.elementSize ≤ maxOffset) (hfill : ∀ v, m.fill = some v → v.size = m.elementSize)
    (hzero : 0 ∉ m.shape) (hperm : shape.Perm m.shape) :
    ({ m with shape := shape } : StorageMetadata).IsTooLarge ↔ maxOffset < m.totalBytes := by
  rw [(isTooLarge_iff (m := { m with shape := shape }) hlayout hsize hle hfill).1,
    beforeZero_eq_self fun h => hzero (hperm.subset h), elementCount_eq_of_perm hperm, totalBytes]

/-- A variable without data is too large exactly if the dimensions before the first one of length
zero have more bytes than there are offsets, and is accepted otherwise. A variable that has too many
bytes is refused, and one without a length of zero only then, in whatever order its dimensions are.
A variable with a length of zero is accepted where this length is the outermost one. -/
theorem noData_tooLarge (hlayout : m.layout = .noData) (hsize : 1 ≤ m.elementSize)
    (hle : m.elementSize ≤ maxOffset) (hfill : ∀ v, m.fill = some v → v.size = m.elementSize) :
    (m.IsTooLarge ↔ maxOffset < m.elementSize * elementCount (beforeZero m.shape)) ∧
      (m.IsTooLarge ∨ ∃ d, create m = .ok d ∧ d.toStorageMetadata = m) ∧
      (maxOffset < m.totalBytes → m.IsTooLarge) ∧
      (0 ∉ m.shape → ∀ shape, shape.Perm m.shape →
        (({ m with shape := shape } : StorageMetadata).IsTooLarge ↔ maxOffset < m.totalBytes)) ∧
      ∀ shape, (0 :: shape).Perm m.shape →
        ¬({ m with shape := 0 :: shape } : StorageMetadata).IsTooLarge := by
  obtain ⟨hiff, haccepted⟩ := isTooLarge_iff hlayout hsize hle hfill
  refine ⟨hiff, haccepted, fun hlarge => ?_, fun hzero shape hperm =>
    isTooLarge_iff_of_ne_zero hlayout hsize hle hfill hzero hperm, fun shape _ => ?_⟩
  · have hzero : 0 ∉ m.shape := by
      apply elementCount_ne_zero_iff.1
      intro hcount
      rw [totalBytes, hcount] at hlarge
      exact Nat.not_lt_zero _ hlarge
    exact (isTooLarge_iff_of_ne_zero hlayout hsize hle hfill hzero (.refl _)).2 hlarge
  · rw [(isTooLarge_iff (m := { m with shape := 0 :: shape }) hlayout hsize hle hfill).1]
    simpa [beforeZero] using hle

/-- Elements of four bytes, too many of them along the outer dimension alone. -/
theorem noData_tooLarge_emptyRows :
    (⟨[4611686018427387904, 0], 4, none, .noData⟩ : StorageMetadata).IsTooLarge :=
  (noData_tooLarge rfl (by decide) (by decide) (by simp)).1.2 (by decide)

/-- A variable without elements is refused for its size in one order of its dimensions, and accepted
in the other. -/
theorem tooLarge_without_elements :
    create ⟨[4611686018427387904, 0], 4, none, .noData⟩ =
        .error (.variableTooLarge [4611686018427387904, 0] 4) ∧
      4 * elementCount [4611686018427387904, 0] = 0 ∧
      ∃ d, create ⟨[0, 4611686018427387904], 4, none, .noData⟩ = .ok d :=
  ⟨rfl, rfl, _, rfl⟩

end StorageMetadata

end Hyperslab
