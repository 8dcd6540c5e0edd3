import Hyperslab.Offset

/-!
# Record layouts

The element of a record variable is a record: bytes with named fields at fixed places. Fields may
overlap and need not cover the record, but each fits into it and has a name of its own.
-/

namespace Hyperslab

/-- A named part of a record. -/
structure RecordField where
  name : String
  /-- The place of the first byte in the record. -/
  offset : Nat
  size : Nat
deriving DecidableEq, Repr

/-- The ways in which the layout of a record is inconsistent. -/
inductive RecordLayoutError where
  /-- A field ends after the record. -/
  | fieldOutOfBounds (field : RecordField) (recordSize : Nat)
  /-- Two fields share a name. -/
  | duplicateField (name : String)
  /-- No field has the name. -/
  | unknownField (name : String)
  /-- A record does not have the size of an element. -/
  | recordSizeMismatch (recordSize elementSize : Nat)
deriving DecidableEq, Repr

def RecordLayoutError.message : RecordLayoutError → String
  | .fieldOutOfBounds field recordSize =>
    s!"field {field.name} at offset {field.offset} with size {field.size} exceeds " ++
      s!"the record size {recordSize}"
  | .duplicateField name => s!"duplicate field {name}"
  | .unknownField name => s!"unknown field {name}"
  | .recordSizeMismatch recordSize elementSize =>
    s!"record size {recordSize} does not match the element size {elementSize}"

/-- Whether the field ends in a record of the given size. -/
def RecordField.fits (field : RecordField) (recordSize : Nat) : Bool :=
  match Offset.checked (field.offset + field.size) with
  | some stop => stop ≤ recordSize
  | none => false

/-- The first name in the list that was there before. -/
def firstRepeated (seen : List String) : List String → Option String
  | [] => none
  | name :: names => if name ∈ seen then some name else firstRepeated (name :: seen) names

/-- Refuses the first field that does not fit, and after that the first name that comes a second
time. -/
def checkFields (recordSize : Nat) (fields : List RecordField) : Except RecordLayoutError Unit :=
  match fields.find? (fun field => !field.fits recordSize) with
  | some field => .error (.fieldOutOfBounds field recordSize)
  | none =>
    match firstRepeated [] (fields.map (·.name)) with
    | some name => .error (.duplicateField name)
    | none => .ok ()

/-- The fields of a record. -/
structure RecordLayout where
  recordSize : Nat
  fields : List RecordField
  accepted : checkFields recordSize fields = .ok ()

namespace RecordLayout

def create (recordSize : Nat) (fields : List RecordField) : Except RecordLayoutError RecordLayout :=
  match h : checkFields recordSize fields with
  | .ok () => .ok ⟨recordSize, fields, h⟩
  | .error e => .error e

def field? (l : RecordLayout) (name : String) : Option RecordField :=
  l.fields.find? (·.name = name)

/-- The place in a record of the field with the given name. -/
def fieldOffset? (l : RecordLayout) (name : String) : Option Nat :=
  (l.field? name).map (·.offset)

end RecordLayout

end Hyperslab
