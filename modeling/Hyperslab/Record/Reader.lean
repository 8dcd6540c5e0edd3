import Hyperslab.Read.Section
import Hyperslab.Record.Layout

/-!
# Reads of records

A record variable is read record by record, or one field of each record. Where each element has an
offset of its own only the bytes of the field are requested, one request a record. In the other
layouts whole records are read and cut.
-/

namespace Hyperslab

/-- A read of a variable whose elements are records. -/
structure RecordReader (a : Build := .checked) extends ReadRequest a where
  records : RecordLayout
  size_eq : records.recordSize = descriptor.elementSize

namespace RecordReader

variable {a : Build} [Decoder]

/-- The reader of records of the given layout. -/
def create (r : ReadRequest a) (records : RecordLayout) : Except ReadError (RecordReader a) :=
  if h : records.recordSize = r.descriptor.elementSize then .ok ⟨r, records, h⟩
  else
    .error (.corruptRecord (.recordSizeMismatch records.recordSize r.descriptor.elementSize))

def readRecords (r : RecordReader a) (s : Section) (b : Build := .wrapping) :
    SourceM ReadError Bytes :=
  readSection r.toReadRequest s b

/-- The bytes of a field in a record. -/
def fieldOf (field : RecordField) (record : Bytes) : Except ReadError Bytes :=
  match Bytes.window? record field.offset field.size with
  | some bytes => .ok bytes
  | none => .error (.defect (.outsideRecord field record.size))

/-- The bytes of a field in each of the records that follow one another. -/
def project (recordSize : Nat) (field : RecordField) (records : Bytes) : Except ReadError Bytes :=
  (List.range (records.size / recordSize)).foldlM
    (fun out k => do
      let bytes ← fieldOf field (records.extract (k * recordSize) (k * recordSize + recordSize))
      pure (out ++ bytes))
    #[]

/-- The field of the fill value, which is that of a whole record. -/
def fieldFill (r : RecordReader a) (field : RecordField) : Except ReadError (Option FillValue) :=
  match r.descriptor.fill with
  | none => .ok none
  | some v =>
    match v.slice? field.offset field.size with
    | some part => .ok (some part)
    | none => .error (.defect (.outsideRecord field v.size))

/-- Requests the field of each of `run` records, the first one at `offset` in the source, for the
records from `destination` on. -/
def fetchFields (r : RecordReader a) (field : RecordField) :
    (run offset destination : Nat) → Bytes → SourceM ReadError Bytes
  | 0, _, _, output => pure output
  | run + 1, offset, destination, output => do
    let bytes ←
      (r.source.fetchExactly ⟨offset + field.offset, field.size⟩).mapError ReadError.storage
    match Bytes.overwrite? output (destination * field.size) bytes with
    | some output =>
      fetchFields r field run (offset + r.records.recordSize) (destination + 1) output
    | none => throw (.defect (.outsideDestination (destination * field.size) field.size))

/-- Carries out a transfer for one field, with the field of the fill value. -/
def executeField (r : RecordReader a) (field : RecordField) (fill : Option FillValue) (output : Bytes)
    (t : Transfer) : SourceM ReadError Bytes :=
  match t.source with
  | .direct offset => r.fetchFields field t.runLength offset t.destination output
  | .fill =>
    match fillRuns output field.size fill [(t.destination, t.runLength)] with
    | some output => pure output
    | none =>
      throw (.defect
        (.outsideDestination (t.destination * field.size) (t.runLength * field.size)))
  | .stream _ | .chunk _ _ => throw (.defect (.unaddressed r.descriptor.layout.name))

/-- Reads a field of the records of a section, and nothing else, where each has an offset. -/
def readAddressed (r : RecordReader a) (field : RecordField) (s : Section)
    (b : Build := .wrapping) : SourceM ReadError Bytes := do
  let transfers ← ofExcept (startTransfers b r.descriptor s)
  SourceM.report (.readingField field.name s r.descriptor.layout.name s.totalCount)
  let fill ← ofExcept (r.fieldFill field)
  reserve (s.totalCount * field.size)
  transfers.fold b r.descriptor.elementSize s (r.executeField field fill)
    (Bytes.zeros (s.totalCount * field.size))

/-- Reads the field with the given name of the records of a section. A field without bytes needs no
read. -/
def readField (r : RecordReader a) (s : Section) (name : String) (b : Build := .wrapping) :
    SourceM ReadError Bytes :=
  match r.records.field? name with
  | none => throw (.corruptRecord (.unknownField name))
  | some field =>
    if field.size = 0 then pure #[]
    else if r.descriptor.layout.isDirectlyAddressable then r.readAddressed field s b
    else do
      let records ← r.readRecords s b
      ofExcept (project r.records.recordSize field records)

end RecordReader

end Hyperslab
