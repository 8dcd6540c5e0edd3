import Hyperslab.Offset
import Hyperslab.Proofs.Index

/-!
# Products and sums of a build

Where products and sums are offsets all along, every build comes to the exact ones. A build without
checks comes to something in any case, and one with checks stops for an overflow only.

## Main definitions

- `Build.OnlyOverflows`: the ways in which a computation of a build may stop

## Main statements

- `Build.product_of_le`, `Build.sumProducts_of_le`: exact products and sums
- `Build.of_product_checked`: what a checked build comes to is exact
-/

namespace Hyperslab

/-- What comes after a step passes exactly if the step passes and it passes with what the step
gives. -/
theorem bind_eq_ok_iff {α β ε : Type} {x : Except ε α} {f : α → Except ε β} {y : β} :
    (x >>= f) = .ok y ↔ ∃ a, x = .ok a ∧ f a = .ok y := by
  cases x <;> simp [bind, Except.bind]

theorem mapM_eq_ok {α β ε : Type} {f : α → Except ε β} {g : α → β} {xs : List α}
    (h : ∀ x ∈ xs, f x = .ok (g x)) : xs.mapM f = .ok (xs.map g) := by
  induction xs with
  | nil => rfl
  | cons x xs ih =>
    obtain ⟨hx, hxs⟩ := List.forall_mem_cons.1 h
    rw [List.mapM_cons, hx, ih hxs]
    rfl

/-- What all steps keep of their elements is kept of the list. -/
theorem map_eq_of_mapM {α β γ ε : Type} {f : α → Except ε β} {g : β → γ} {g' : α → γ} {xs : List α}
    {ys : List β} (h : xs.mapM f = .ok ys) (hstep : ∀ x y, f x = .ok y → g y = g' x) :
    ys.map g = xs.map g' := by
  induction xs generalizing ys with
  | nil =>
    cases h
    rfl
  | cons x xs ih =>
    rw [List.mapM_cons] at h
    obtain ⟨y, hy, h⟩ := bind_eq_ok_iff.1 h
    obtain ⟨rest, hrest, h⟩ := bind_eq_ok_iff.1 h
    cases h
    rw [List.map_cons, List.map_cons, hstep x y hy, ih hrest]

/-- Where one of some steps fails in the only way there is, all of them together do. -/
theorem mapM_eq_error {α β ε : Type} {f : α → Except ε β} {xs : List α} {e : ε}
    (honly : ∀ x ∈ xs, ∀ cause, f x = .error cause → cause = e)
    (h : ∃ x ∈ xs, f x = .error e) : xs.mapM f = .error e := by
  induction xs with
  | nil =>
    obtain ⟨x, hx, -⟩ := h
    cases hx
  | cons x xs ih =>
    obtain ⟨hx, hxs⟩ := List.forall_mem_cons.1 honly
    rw [List.mapM_cons]
    cases hfirst : f x with
    | error cause =>
      rw [hx cause hfirst]
      rfl
    | ok y =>
      obtain ⟨x', hmem, hfail⟩ := h
      rcases List.mem_cons.1 hmem with rfl | hmem
      · rw [hfirst] at hfail
        cases hfail
      · show (do let ys ← xs.mapM f; pure (y :: ys)) = _
        rw [ih hxs ⟨x', hmem, hfail⟩]
        rfl

namespace Build

variable {b : Build} {α β : Type}

/-- A product of offsets other than zero is an offset all along if it is one at its end, and then
every build comes to it. -/
theorem product_of_le {n : Nat} {numbers : List Nat} (hpos : ∀ m ∈ numbers, 0 < m)
    (hle : n * elementCount numbers ≤ maxOffset) :
    b.product n numbers = .ok (n * elementCount numbers) := by
  induction numbers generalizing n with
  | nil => rw [product, elementCount_nil, Nat.mul_one]
  | cons m numbers ih =>
    rw [elementCount_cons, ← Nat.mul_assoc] at hle ⊢
    have hrest : 0 < elementCount numbers :=
      elementCount_pos fun k hk => hpos k (List.mem_cons_of_mem _ hk)
    have hfirst : n * m ≤ maxOffset := Nat.le_trans (Nat.le_mul_of_pos_right _ hrest) hle
    rw [product, mul_of_le hfirst]
    exact ih (fun k hk => hpos k (List.mem_cons_of_mem _ hk)) hle

/-- A checked build comes to a product only if it is an offset. -/
theorem of_product_checked {n p : Nat} {numbers : List Nat} (hn : n ≤ maxOffset)
    (h : checked.product n numbers = .ok p) :
    n * elementCount numbers ≤ maxOffset ∧ n * elementCount numbers = p := by
  induction numbers generalizing n with
  | nil =>
    rw [product] at h
    cases h
    simpa using hn
  | cons m numbers ih =>
    obtain ⟨k, hk, hrest⟩ := bind_eq_ok_iff.1 h
    obtain ⟨hle, rfl⟩ := fit_checked_eq_ok_iff.1 hk
    rw [elementCount_cons, ← Nat.mul_assoc]
    exact ih hle hrest

/-- Nothing is left of a product that is zero on the way. -/
theorem product_zero {numbers : List Nat} : b.product 0 numbers = .ok 0 := by
  induction numbers with
  | nil => rfl
  | cons m numbers ih =>
    rw [product, mul_of_le (by rw [Nat.zero_mul]; exact Nat.zero_le _), Nat.zero_mul]
    exact ih

/-- Where one factor is zero the product is, whatever happens to the others. -/
theorem product_eq_zero {n p : Nat} {numbers : List Nat} (hmem : 0 ∈ numbers)
    (h : b.product n numbers = .ok p) : p = 0 := by
  induction numbers generalizing n with
  | nil => exact absurd hmem List.not_mem_nil
  | cons m numbers ih =>
    obtain ⟨k, hk, hrest⟩ := bind_eq_ok_iff.1 h
    rcases List.mem_cons.1 hmem with rfl | hmem
    · rw [mul, Nat.mul_zero, fit_of_le (Nat.zero_le _)] at hk
      cases hk
      rw [product_zero] at hrest
      cases hrest
      rfl
    · exact ih hmem hrest

/-- The sum of the products of the pairs of a list. -/
def exactSum : List (Nat × Nat) → Nat
  | [] => 0
  | (x, y) :: pairs => x * y + exactSum pairs

/-- A sum is an offset all along if it is one at its end, and then every build comes to it. -/
theorem sumProducts_of_le {n : Nat} {pairs : List (Nat × Nat)}
    (hle : n + exactSum pairs ≤ maxOffset) :
    b.sumProducts n pairs = .ok (n + exactSum pairs) := by
  induction pairs generalizing n with
  | nil => rfl
  | cons pair pairs ih =>
    obtain ⟨x, y⟩ := pair
    rw [exactSum, ← Nat.add_assoc] at hle ⊢
    have hfirst : n + x * y ≤ maxOffset := Nat.le_trans (Nat.le_add_right _ _) hle
    rw [sumProducts, mul_of_le (Nat.le_trans (Nat.le_add_left _ _) hfirst)]
    show b.add n (x * y) >>= _ = _
    rw [add_of_le hfirst]
    exact ih hle

/-- A computation stops in a build with checks only, and for an overflow. -/
def OnlyOverflows (b : Build) (x : Except Halt α) : Prop :=
  ∀ cause, x = .error cause → b = .checked ∧ cause = .overflow

theorem onlyOverflows_ok (v : α) : b.OnlyOverflows (.ok v) :=
  fun _ h => by cases h

theorem onlyOverflows_fit (n : Nat) : b.OnlyOverflows (b.fit n) := by
  intro cause h
  unfold fit at h
  split at h
  · cases h
  · cases b <;> cases h
    exact ⟨rfl, rfl⟩

namespace OnlyOverflows

theorem bind {x : Except Halt α} {f : α → Except Halt β} (hx : b.OnlyOverflows x)
    (hf : ∀ v, b.OnlyOverflows (f v)) : b.OnlyOverflows (x >>= f) := by
  intro cause h
  cases x with
  | error e =>
    cases h
    exact hx cause rfl
  | ok v => exact hf v cause h

theorem mapM {f : β → Except Halt α} {xs : List β} (h : ∀ x ∈ xs, b.OnlyOverflows (f x)) :
    b.OnlyOverflows (xs.mapM f) := by
  induction xs with
  | nil => exact onlyOverflows_ok []
  | cons x xs ih =>
    obtain ⟨hx, hxs⟩ := List.forall_mem_cons.1 h
    rw [List.mapM_cons]
    exact hx.bind fun _ => (ih hxs).bind fun _ => onlyOverflows_ok _

end OnlyOverflows

theorem onlyOverflows_product (n : Nat) (numbers : List Nat) :
    b.OnlyOverflows (b.product n numbers) := by
  induction numbers generalizing n with
  | nil => exact onlyOverflows_ok n
  | cons m numbers ih => exact (onlyOverflows_fit _).bind ih

theorem onlyOverflows_sumProducts (n : Nat) (pairs : List (Nat × Nat)) :
    b.OnlyOverflows (b.sumProducts n pairs) := by
  induction pairs generalizing n with
  | nil => exact onlyOverflows_ok n
  | cons pair pairs ih => exact (onlyOverflows_fit _).bind fun _ => (onlyOverflows_fit _).bind ih

end Build

end Hyperslab
