import Hyperslab.Proofs.Grid
import Hyperslab.Proofs.Offset

/-!
# Restrictions of a range

A range is restricted to an extent by a division on either side of it. What comes out are the
positions whose indices lie in the extent, neither more nor fewer, and nothing comes out where there
is no such position. The numbers on the way are offsets as well: `SectionRange.localiseSteps` is the
same restriction with each of its steps looked at, and no step goes wrong, whatever the range and
the extent are.

## Main definitions

- `SectionRange.localiseSteps`: a restriction, step by step

## Main statements

- `SectionRange.localiseSteps_eq`: no step of a restriction goes wrong
- `SectionRange.localise_exact`: what a restriction selects, and when it selects nothing
-/

namespace Hyperslab

namespace SectionRange

/-- The selected index at position `j`, step by step. -/
def elementSteps (r : SectionRange) (j : Nat) : Except Offset.Fault Nat := do
  let span ← Offset.mul j r.stride
  Offset.add r.start span

/-- The first position at or after the origin of an extent. -/
def firstSteps (r : SectionRange) (origin : Nat) : Except Offset.Fault Nat :=
  if origin ≤ r.start then pure 0
  else do
    let distance ← Offset.sub origin r.start
    Offset.divUp distance r.stride

/-- The last position before the end of an extent. -/
def finalSteps (r : SectionRange) (stop : Nat) : Except Offset.Fault Nat := do
  let last ← Offset.sub stop 1
  let distance ← Offset.sub last r.start
  let position ← Offset.div distance r.stride
  let final ← Offset.sub r.count 1
  pure (min position final)

/-- The part of the range within `extent` indices from `origin` on, step by step. The steps are
those of `localise`, and each of them may go wrong. -/
def localiseSteps (r : SectionRange) (origin extent : Nat) :
    Except Offset.Fault (Option LocalRange) :=
  match r.last?, Offset.checked (origin + extent) with
  | some last, some stop =>
    if extent = 0 ∨ last < origin ∨ stop ≤ r.start then pure none
    else do
      let first ← r.firstSteps origin
      let final ← r.finalSteps stop
      if final < first then pure none
      else do
        let index ← r.elementSteps first
        let start ← Offset.sub index origin
        let others ← Offset.sub final first
        let count ← Offset.add others 1
        pure (some { start, stride := r.stride, count, output := first })
  | _, _ => pure none

variable {r : SectionRange} {origin extent stop last : Nat}

/-- An index within the range is at most the last one, so it is an offset with it. -/
theorem elementSteps_eq {j : Nat} (h : r.element j ≤ maxOffset) :
    r.elementSteps j = pure (r.element j) := by
  rw [element] at h
  rw [elementSteps, Offset.mul_eq (by omega), pure_bind, Offset.add_eq h, element]

theorem firstSteps_eq (r : SectionRange) (origin : Nat) :
    r.firstSteps origin =
      pure (if origin ≤ r.start then 0 else ceilDiv (origin - r.start) r.stride) := by
  rw [firstSteps]
  split
  · rfl
  · rename_i hlt
    rw [Offset.sub_eq (by omega), pure_bind, Offset.divUp_eq r.stride_pos]

theorem finalSteps_eq (hstop : r.start < stop) (hcount : 0 < r.count) :
    r.finalSteps stop = pure (min ((stop - 1 - r.start) / r.stride) (r.count - 1)) := by
  rw [finalSteps, Offset.sub_eq (by omega), pure_bind, Offset.sub_eq (by omega), pure_bind,
    Offset.div_eq r.stride_pos, pure_bind, Offset.sub_eq hcount, pure_bind]

theorem of_last?_eq_some (h : r.last? = some last) :
    0 < r.count ∧ last = r.element (r.count - 1) ∧ last ≤ maxOffset := by
  rw [last?] at h
  split at h
  · cases h
  · obtain ⟨hle, rfl⟩ := Offset.checked_eq_some_iff.1 h
    exact ⟨by omega, rfl, hle⟩

/-- No step of a restriction goes wrong. -/
theorem localiseSteps_eq (r : SectionRange) (origin extent : Nat) :
    r.localiseSteps origin extent = .ok (r.localise origin extent) := by
  rw [localiseSteps, localise]
  cases hlast : r.last? with
  | none => rfl
  | some last =>
    obtain ⟨hcount, rfl, hmax⟩ := of_last?_eq_some hlast
    cases hstop : Offset.checked (origin + extent) with
    | none => rfl
    | some stop =>
      obtain ⟨hstopMax, rfl⟩ := Offset.checked_eq_some_iff.1 hstop
      dsimp only
      split
      · rfl
      · rename_i hinside
        rw [firstSteps_eq, pure_bind, finalSteps_eq (by omega) hcount, pure_bind]
        have horigin := r.origin_le_element_iff origin
        revert horigin
        generalize (if origin ≤ r.start then 0 else ceilDiv (origin - r.start) r.stride) = first
        intro horigin
        split
        · rfl
        · rename_i hle
          -- the first position is within the range, so its index is not after the last one
          have hindex : r.element first ≤ r.element (r.count - 1) := element_le (by omega)
          have hquotient := Nat.div_le_self (origin + extent - 1 - r.start) r.stride
          rw [elementSteps_eq (Nat.le_trans hindex hmax), pure_bind,
            Offset.sub_eq ((horigin first).2 (Nat.le_refl first)), pure_bind,
            Offset.sub_eq (by omega), pure_bind, Offset.add_eq (by omega), pure_bind]
          rfl

/-- The index at a position of a part is as far after the first one of the part as strides lie
between them. -/
theorem PartIn.element_eq {part : LocalRange} (h : r.PartIn origin extent part) {j : Nat}
    (hj : part.output ≤ j) :
    r.element j = origin + part.start + (j - part.output) * part.stride := by
  obtain ⟨i, rfl⟩ := Nat.exists_eq_add_of_le hj
  rw [h.start_eq, h.stride_eq, Nat.add_sub_cancel_left, element, element, Nat.add_mul,
    Nat.add_assoc]

theorem exists_last? (hlast : r.element (r.count - 1) ≤ maxOffset) (hcount : r.count ≠ 0) :
    r.last? = some (r.element (r.count - 1)) := by
  rw [last?, if_neg hcount]
  exact Offset.checked_eq_some_iff.2 ⟨hlast, rfl⟩

/-- A range whose last index is an offset, restricted to an extent that ends at an offset. Nothing
comes out just where no selected index lies in the extent. Otherwise it is the positions whose
indices lie there, at least one of them, with the indices counted from the origin of the extent. On
the way no number is larger than an offset or below zero, and none is divided by zero. -/
theorem localise_exact (r : SectionRange) (origin extent : Nat)
    (hlast : r.count ≠ 0 → r.element (r.count - 1) ≤ maxOffset)
    (hstop : origin + extent ≤ maxOffset) :
    (r.localise origin extent = none ↔
      ¬∃ j, j < r.count ∧ origin ≤ r.element j ∧ r.element j < origin + extent) ∧
    (∀ part, r.localise origin extent = some part →
      part.stride = r.stride ∧ 1 ≤ part.count ∧ part.output + part.count ≤ r.count ∧
      ∀ j, j < r.count →
        ((origin ≤ r.element j ∧ r.element j < origin + extent) ↔
          (part.output ≤ j ∧ j < part.output + part.count)) ∧
        (origin ≤ r.element j → r.element j < origin + extent →
          r.element j = origin + part.start + (j - part.output) * part.stride)) ∧
    r.localiseSteps origin extent = .ok (r.localise origin extent) := by
  refine ⟨⟨?_, ?_⟩, ?_, localiseSteps_eq r origin extent⟩
  · rintro hnone ⟨j, hj, hin⟩
    have hcount : r.count ≠ 0 := by omega
    exact not_mem_of_localise (exists_last? (hlast hcount) hcount) hstop hnone hj hin
  · intro hempty
    cases hpart : r.localise origin extent with
    | none => rfl
    | some part =>
      -- the first position of the part would be one
      have hin := partIn_of_localise hpart
      have hpos := hin.count_pos
      have hle := hin.stop_le
      exact absurd ⟨part.output, by omega,
        (hin.mem_iff part.output (by omega)).2 ⟨Nat.le_refl _, by omega⟩⟩ hempty
  · intro part hpart
    have hin := partIn_of_localise hpart
    refine ⟨hin.stride_eq, hin.count_pos, hin.stop_le, fun j hj => ⟨hin.mem_iff j hj, ?_⟩⟩
    intro horigin hextent
    exact hin.element_eq ((hin.mem_iff j hj).1 ⟨horigin, hextent⟩).1

/-- Four indices with a stride of seven, the last of which is the largest offset. -/
def topmost : SectionRange :=
  ⟨18446744073709551594, 7, 4, by decide⟩

/-- The ten indices before the largest offset hold the third of the four, and the six before it lie
between the third and the fourth. -/
theorem localise_topmost :
    (topmost.count ≠ 0 → topmost.element (topmost.count - 1) ≤ maxOffset) ∧
    18446744073709551605 + 10 ≤ maxOffset ∧ 18446744073709551609 + 6 ≤ maxOffset ∧
    topmost.localise 18446744073709551605 10 = some ⟨3, 7, 1, 2⟩ ∧
    (∀ j, j < 4 → ((18446744073709551605 ≤ topmost.element j ∧
      topmost.element j < 18446744073709551605 + 10) ↔ 2 ≤ j ∧ j < 3)) ∧
    topmost.localiseSteps 18446744073709551605 10 = .ok (some ⟨3, 7, 1, 2⟩) ∧
    topmost.localise 18446744073709551609 6 = none ∧
    ¬∃ j, j < 4 ∧ 18446744073709551609 ≤ topmost.element j ∧
      topmost.element j < 18446744073709551609 + 6 := by
  have hlast : topmost.count ≠ 0 → topmost.element (topmost.count - 1) ≤ maxOffset := by decide
  have hstop : 18446744073709551605 + 10 ≤ maxOffset := by decide
  have hstop' : 18446744073709551609 + 6 ≤ maxOffset := by decide
  have hpart : topmost.localise 18446744073709551605 10 = some ⟨3, 7, 1, 2⟩ := by decide
  have hnone : topmost.localise 18446744073709551609 6 = none := by decide
  obtain ⟨-, hsome, hsteps⟩ := localise_exact topmost _ _ hlast hstop
  obtain ⟨hempty, -, -⟩ := localise_exact topmost _ _ hlast hstop'
  obtain ⟨-, -, -, hpositions⟩ := hsome _ hpart
  exact ⟨hlast, hstop, hstop', hpart, fun j hj => (hpositions j hj).1, hpart ▸ hsteps, hnone,
    hempty.1 hnone⟩

end SectionRange

end Hyperslab
