import Mathlib.Control.Monad.Basic
import Hyperslab.Proofs.Read.Field
import Hyperslab.Proofs.Read.Rejection

/-!
# Reads make no mistakes

The branches of a read that are there for mistakes of the library alone are never taken: the checks
of a descriptor, of a section and of a layout of records exclude them, whatever the source answers
and whatever the options are. A request for a section or a field that there is comes to its bytes or
to an error of what was read, and any other request is refused for what is the matter with it.

## Main definitions

- `SourceM.NoDefect`: no error of the computation is a mistake of the library

## Main statements

- `RecordReader.meets_readField`: a field that was read has its size
- `reads_without_defect`: no way to read comes to a mistake of the library
-/

namespace Hyperslab

open SourceM

namespace RecordReader

variable {r : RecordReader} {s : Section} {field : RecordField}

/-- The fields of records of one size are as many bytes as one of them for each record. -/
theorem length_flatMap_bytesOf {records : List Bytes} {size : Nat}
    (hsizes : ∀ record ∈ records, record.size = size) (hfit : field.offset + field.size ≤ size) :
    (records.flatMap fun record => (field.bytesOf record).toList).length =
      records.length * field.size := by
  induction records with
  | nil => simp
  | cons record records ih =>
    obtain ⟨hsize, hsizes⟩ := List.forall_mem_cons.1 hsizes
    have hfield : (field.bytesOf record).size = field.size := by
      rw [RecordField.bytesOf, Array.size_extract]
      omega
    rw [List.flatMap_cons, List.length_append, Array.length_toList, hfield, ih hsizes,
      List.length_cons, Nat.succ_mul, Nat.add_comm]

/-- The field of whole records is inside of each of them. -/
theorem meets_project (hfield : field ∈ r.records.fields) {records : Bytes} {count : Nat}
    (hsize : records.size = count * r.records.recordSize) :
    Meets (ofExcept (project r.records.recordSize field records))
      (fun bytes => bytes.size = count * field.size) ReadError.IsExternal := by
  have hfit := r.records.fits hfield
  have hpos : 0 < r.records.recordSize := r.size_eq ▸ r.descriptor.elementSize_pos
  obtain ⟨fields, hproject, hlist⟩ := exists_project records hfit
  rw [hproject]
  refine .pure ?_
  rw [hsize, Nat.mul_div_cancel count hpos] at hlist
  have hsizes : ∀ record ∈ recordsOf r.records.recordSize count records,
      record.size = r.records.recordSize :=
    fun _ => size_of_mem_recordsOf (Nat.le_of_eq hsize.symm)
  rw [← Array.length_toList, hlist, length_flatMap_bytesOf hsizes hfit, length_recordsOf]

/-- The requests for a field alone come to its bytes, or one of them fails, or the program stops. -/
theorem meets_readAddressed (hs : s.validate r.descriptor.shape = .ok ())
    (hdirect : r.descriptor.layout.isDirectlyAddressable = true)
    (hfield : field ∈ r.records.fields) (hpos : 0 < field.size) (b : Build) :
    Meets (r.readAddressed field s b) (fun bytes => bytes.size = s.totalCount * field.size)
      ReadError.IsExternal := by
  obtain ⟨plan, hplan, -⟩ := exists_exact hs
  by_cases hstops : r.descriptor.Stops b s
  · obtain ⟨fill, hfill, -⟩ := exists_fieldFill hfield
    obtain hread | hread := readAddressed_of_stops hs hstops field
    · rw [hread]
      exact .throw trivial
    · rw [hread]
      exact .bind .report fun _ _ => .bind_ok hfill (.bind (meets_reserve _) fun _ _ => .throw trivial)
  · rw [readAddressed_eq_of_fit hs hstops hplan, ← readAddressed_eq hs hplan]
    intro a
    refine (ends_readAddressed hs hplan hdirect hfield hpos a).mono (fun bytes _ h => h.1.1) ?_
    rintro e - (⟨_, _, _, cause, -, -, -, rfl⟩ | ⟨-, rfl⟩)
    all_goals trivial

/-- A read of a field that there is gives as many bytes as the field has in the records of the
section, or fails for something that it read, or the program stops. -/
theorem meets_readField (hs : s.validate r.descriptor.shape = .ok ())
    (hfield : field ∈ r.records.fields) (b : Build) :
    Meets (r.readField s field.name b) (fun bytes => bytes.size = s.totalCount * field.size)
      ReadError.IsExternal := by
  rw [readField, RecordLayout.field?_eq_some_iff.2 ⟨hfield, rfl⟩]
  dsimp only
  by_cases hzero : field.size = 0
  · rw [if_pos hzero, hzero]
    exact .pure rfl
  rw [if_neg hzero]
  split
  · exact meets_readAddressed hs ‹_› hfield (Nat.pos_of_ne_zero hzero) b
  · refine .bind (meets_readSection hs) fun records hsize => meets_project hfield ?_
    rw [hsize, r.size_eq]

end RecordReader

/-- No error of the computation is a mistake of the library, whatever was observed before. -/
def SourceM.NoDefect {α : Type} (x : SourceM ReadError α) : Prop :=
  ∀ a cause, (x.outcome a).1 ≠ .error (.defect cause)

theorem SourceM.Meets.noDefect {α : Type} {x : SourceM ReadError α} {post : α → Prop}
    (h : Meets x post ReadError.IsExternal) : x.NoDefect :=
  fun _ _ he => h.of_error he

theorem SourceM.noDefect_pure {α : Type} (v : α) : NoDefect (pure v : SourceM ReadError α) := by
  intro a cause h
  cases h

theorem SourceM.noDefect_throw {α : Type} {e : ReadError} (he : ∀ cause, e ≠ .defect cause) :
    NoDefect (throw e : SourceM ReadError α) :=
  fun _ cause h => he cause (Except.error.inj h)

theorem noDefect_resolve (d : Descriptor) (s : Section) (cause : Defect) :
    resolve d s ≠ .error (.defect cause) := by
  cases hs : s.validate d.shape with
  | error refusal => simp [resolve, resolveParts, hs]
  | ok _ =>
    obtain ⟨plan, hplan, -⟩ := exists_exact hs
    simp [hplan]

theorem noDefect_resolveIn (b : Build) (d : Descriptor) (s : Section) (cause : Defect) :
    resolveIn b d s ≠ .error (.defect cause) := by
  cases hs : s.validate d.shape with
  | error refusal =>
    rw [resolveIn_of_invalid hs]
    simp
  | ok _ =>
    by_cases hstops : d.Stops b s
    · rw [resolveIn_of_stops hs hstops]
      simp
    · obtain ⟨plan, -, hlist⟩ := resolveIn_of_fit hs hstops
      simp [hlist]

theorem noDefect_readSectionInto (r : ReadRequest) (s : Section) (destination : Bytes) (b : Build) :
    (readSectionInto r s destination b).NoDefect := by
  cases hs : s.validate r.descriptor.shape with
  | error cause =>
    rw [readSectionInto_of_invalid hs]
    exact noDefect_throw (by simp)
  | ok _ =>
    by_cases hsize : destination.size = s.totalCount * r.descriptor.elementSize
    · exact (meets_readSectionInto hs hsize).noDefect
    by_cases hstops : r.descriptor.Stops b s
    · obtain hstart | ⟨t, hstart, -⟩ := startTransfers_of_stops hs hstops
      · rw [readSectionInto, hstart]
        exact noDefect_throw (by simp)
      · rw [readSectionInto_of_size_of_start hstart hsize]
        exact noDefect_throw (by simp)
    · rw [readSectionInto_of_size_of_fit hs hstops hsize]
      exact noDefect_throw (by simp)

theorem noDefect_readSection (r : ReadRequest) (s : Section) (b : Build) :
    (readSection r s b).NoDefect := by
  cases hs : s.validate r.descriptor.shape with
  | error cause =>
    rw [readSection_of_invalid hs]
    exact noDefect_throw (by simp)
  | ok _ => exact (meets_readSection hs).noDefect

theorem RecordReader.noDefect_readField (r : RecordReader) (s : Section) (name : String)
    (b : Build) : (r.readField s name b).NoDefect := by
  cases hfound : r.records.field? name with
  | none =>
    rw [readField, hfound]
    exact noDefect_throw (by simp)
  | some field =>
    obtain ⟨hfield, rfl⟩ := RecordLayout.field?_eq_some_iff.1 hfound
    cases hs : s.validate r.descriptor.shape with
    | ok _ => exact (meets_readField hs hfield b).noDefect
    | error cause =>
      by_cases hzero : field.size = 0
      · rw [readField_of_size_zero hfield hzero]
        exact noDefect_pure #[]
      · rw [readField_of_invalid hfield (Nat.pos_of_ne_zero hzero) hs]
        exact noDefect_throw (by simp)

/-- Whatever the variable, the section, the options and the answers of the source: in no build does
a way to read come to a mistake of the library, as long as the descriptor is one that every build
accepts. -/
theorem reads_without_defect (b : Build) :
    (∀ (d : Descriptor) (s : Section) (cause : Defect),
      resolve d s ≠ .error (.defect cause) ∧ resolveIn b d s ≠ .error (.defect cause)) ∧
    (∀ (r : ReadRequest) (s : Section), (readSection r s b).NoDefect) ∧
    (∀ (r : ReadRequest) (s : Section) (destination : Bytes),
      (readSectionInto r s destination b).NoDefect) ∧
    ∀ (r : RecordReader) (s : Section) (name : String), (r.readField s name b).NoDefect :=
  ⟨fun d s cause => ⟨noDefect_resolve d s cause, noDefect_resolveIn b d s cause⟩,
    fun r s => noDefect_readSection r s b, fun r s destination =>
    noDefect_readSectionInto r s destination b, fun r s name => r.noDefect_readField s name b⟩

/-- Four bytes in a chunk whose number of elements goes around to zero, and which is stored in no
bytes at all. A build without checks accepts it. -/
def hollowTiles : Descriptor .wrapping :=
  { shape := [2, 2]
    elementSize := 1
    fill := none
    layout := .compressedTiled [⟨2147483648, Nat.zero_lt_succ _⟩, ⟨8589934592, Nat.zero_lt_succ _⟩]
      (.ofList [([0, 0], ⟨.contiguous ⟨0, 0⟩, 0, 0⟩)])
    accepted := rfl }

/-- The chunk is decoded to just the bytes that it is declared to have, and a read finds it too
short. -/
theorem readSection_hollowTiles :
    Section.validate ⟨[.contiguous 0 2, .contiguous 0 2]⟩ hollowTiles.shape = .ok () ∧
      ((readSection ⟨.memory #[], hollowTiles, {}⟩
        ⟨[.contiguous 0 2, .contiguous 0 2]⟩).outcome {}).1 =
          .error (.defect (.chunkShort [0, 0] 2)) :=
  ⟨rfl, by decide +kernel⟩

end Hyperslab
