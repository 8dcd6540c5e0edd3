import Hyperslab.Proofs.Bytes
import Hyperslab.Proofs.Descriptor
import Hyperslab.Proofs.Resolve.Computed
import Hyperslab.Record.Reader

/-!
# Fields of records

An accepted layout has one field of each of its names, and every field ends in the record, so that
it can be cut out of any record and out of the fill value. A field of directly addressed records is
read by the transfers of the section.

## Main statements

- `RecordLayout.field?_eq_some_iff`: what is found under a name
- `exists_project`: the field of each record
- `RecordReader.fill_fits`: a field is inside of the fill value
- `RecordReader.exists_fieldFill`: the field of the fill value
- `RecordReader.readAddressed_eq`: a read of a field as a run of transfers
-/

namespace Hyperslab

theorem RecordField.fits_iff {field : RecordField} {recordSize : Nat} :
    field.fits recordSize = true ↔
      field.offset + field.size ≤ maxOffset ∧ field.offset + field.size ≤ recordSize := by
  rw [fits]
  cases h : Offset.checked (field.offset + field.size) with
  | none =>
    rw [Offset.checked] at h
    split at h
    · cases h
    · simp only [Bool.false_eq_true, false_iff]
      omega
  | some stop =>
    obtain ⟨hle, rfl⟩ := Offset.checked_eq_some_iff.1 h
    simp [hle]

/-- Where no name is repeated, the names not seen before are all different. -/
theorem firstRepeated_eq_none_iff {seen names : List String} :
    firstRepeated seen names = none ↔ names.Nodup ∧ ∀ name ∈ names, name ∉ seen := by
  induction names generalizing seen with
  | nil => simp [firstRepeated]
  | cons name names ih =>
    rw [firstRepeated]
    by_cases hseen : name ∈ seen
    · simp [hseen]
    · rw [if_neg hseen, ih]
      simp only [List.nodup_cons, List.mem_cons, not_or]
      grind

theorem checkFields_eq_ok_iff {recordSize : Nat} {fields : List RecordField} :
    checkFields recordSize fields = .ok () ↔
      (∀ field ∈ fields, field.fits recordSize = true) ∧ (fields.map (·.name)).Nodup := by
  rw [checkFields]
  cases hfind : fields.find? fun field => !field.fits recordSize with
  | some field =>
    have hmem := List.mem_of_find?_eq_some hfind
    have hnot := List.find?_some hfind
    simp only [Bool.not_eq_true'] at hnot
    simp only [reduceCtorEq, false_iff, not_and]
    intro hall
    simp [hall field hmem] at hnot
  | none =>
    have hall : ∀ field ∈ fields, field.fits recordSize = true := by simpa using hfind
    have hnodup := @firstRepeated_eq_none_iff [] (fields.map (·.name))
    cases hrepeated : firstRepeated [] (fields.map (·.name)) with
    | none =>
      rw [hrepeated] at hnodup
      simp only [true_iff] at hnodup
      simpa using ⟨hall, hnodup.1⟩
    | some name =>
      rw [hrepeated] at hnodup
      simp_all

namespace RecordLayout

theorem create_eq_ok_iff {recordSize : Nat} {fields : List RecordField} {l : RecordLayout} :
    create recordSize fields = .ok l ↔ l.recordSize = recordSize ∧ l.fields = fields := by
  constructor
  · intro h
    unfold create at h
    split at h <;> cases h
    exact ⟨rfl, rfl⟩
  · rintro ⟨rfl, rfl⟩
    unfold create
    split
    · rfl
    · rename_i e herror
      rw [l.accepted] at herror
      cases herror

theorem create_eq_error_iff {recordSize : Nat} {fields : List RecordField}
    {e : RecordLayoutError} :
    create recordSize fields = .error e ↔ checkFields recordSize fields = .error e := by
  unfold create
  split <;> simp_all

theorem fits (l : RecordLayout) {field : RecordField} (h : field ∈ l.fields) :
    field.offset + field.size ≤ l.recordSize :=
  (RecordField.fits_iff.1 ((checkFields_eq_ok_iff.1 l.accepted).1 field h)).2

/-- A name stands for the one field that has it. -/
theorem field?_eq_some_iff {l : RecordLayout} {name : String} {field : RecordField} :
    l.field? name = some field ↔ field ∈ l.fields ∧ field.name = name := by
  have hnodup := (checkFields_eq_ok_iff.1 l.accepted).2
  generalize hfields : l.fields = fields at hnodup
  rw [field?, hfields]
  clear hfields
  induction fields with
  | nil => simp
  | cons first fields ih =>
    rw [List.map_cons, List.nodup_cons] at hnodup
    rw [List.find?_cons]
    by_cases hname : first.name = name
    · simp only [hname, decide_true, Option.some.injEq, List.mem_cons]
      constructor
      · rintro rfl
        exact ⟨.inl rfl, hname⟩
      · rintro ⟨rfl | hmem, heq⟩
        · rfl
        · -- two fields would have the name
          exact absurd (List.mem_map.2 ⟨field, hmem, heq.trans hname.symm⟩) hnodup.1
    · simp only [hname, decide_false, ih hnodup.2, List.mem_cons]
      constructor
      · rintro ⟨hmem, heq⟩
        exact ⟨.inr hmem, heq⟩
      · rintro ⟨rfl | hmem, heq⟩
        · exact absurd heq hname
        · exact ⟨hmem, heq⟩

end RecordLayout

/-- The bytes of the field in a record. -/
def RecordField.bytesOf (field : RecordField) (record : Bytes) : Bytes :=
  record.extract field.offset (field.offset + field.size)

/-- The first `count` records of `size` bytes each that follow one another in a byte string. -/
def recordsOf (size count : Nat) (bytes : Bytes) : List Bytes :=
  (List.range count).map fun k => bytes.extract (k * size) (k * size + size)

section Records

variable {size count : Nat} {bytes : Bytes} {field : RecordField}

@[simp] theorem length_recordsOf (size count : Nat) (bytes : Bytes) :
    (recordsOf size count bytes).length = count := by
  simp [recordsOf]

theorem size_of_mem_recordsOf (h : count * size ≤ bytes.size) {record : Bytes}
    (hrecord : record ∈ recordsOf size count bytes) : record.size = size := by
  obtain ⟨k, hk, rfl⟩ := List.mem_map.1 hrecord
  have hle := mul_add_le_mul size (List.mem_range.1 hk)
  rw [Array.size_extract]
  omega

/-- The records make up all of the bytes. -/
theorem flatMap_recordsOf (h : bytes.size = count * size) :
    (recordsOf size count bytes).flatMap (·.toList) = bytes.toList := by
  have hfront : ∀ n, (recordsOf size n bytes).flatMap (·.toList) =
      (bytes.extract 0 (n * size)).toList := by
    intro n
    induction n with
    | zero => simp [recordsOf]
    | succ n ih =>
      rw [recordsOf] at ih ⊢
      rw [List.range_succ, List.map_append, List.flatMap_append, ih, List.map_singleton,
        List.flatMap_singleton, ← Array.toList_append, Array.extract_append_extract,
        Nat.succ_mul, Nat.min_eq_left (Nat.zero_le _), Nat.max_eq_right (Nat.le_add_right _ _)]
  rw [hfront, ← h, Array.extract_size]

theorem bytesOf_recordsOf (hfit : field.offset + field.size ≤ size) (k : Nat) :
    field.bytesOf (bytes.extract (k * size) (k * size + size)) =
      bytes.extract (k * size + field.offset) (k * size + field.offset + field.size) := by
  rw [RecordField.bytesOf, Array.extract_extract, Nat.min_eq_left (by omega), Nat.add_assoc]

/-- Bytes that hold just the field of each record are these fields after one another. -/
theorem toList_eq_of_fields {fields : Bytes} (hfit : field.offset + field.size ≤ size)
    (h : bytes.size = count * size) (hsize : fields.size = count * field.size)
    (hbytes : ∀ k b, k < count → b < field.size →
      fields[k * field.size + b]? = bytes[k * size + (field.offset + b)]?) :
    fields.toList =
      (recordsOf size count bytes).flatMap fun record => (field.bytesOf record).toList := by
  have hrecord : ∀ k, k < count →
      fields.extract (k * field.size) (k * field.size + field.size) =
        field.bytesOf (bytes.extract (k * size) (k * size + size)) := by
    intro k hk
    have hle := mul_add_le_mul size hk
    have hle' := mul_add_le_mul field.size hk
    rw [bytesOf_recordsOf hfit]
    refine Bytes.eq_of_getElem? (n := field.size) ?_ ?_ fun b hb => ?_
    · rw [Array.size_extract]
      omega
    · rw [Array.size_extract]
      omega
    · rw [Array.getElem?_extract, if_pos (by omega), Array.getElem?_extract, if_pos (by omega),
        hbytes k b hk hb, Nat.add_assoc]
  rw [← flatMap_recordsOf hsize, recordsOf, recordsOf, List.flatMap_map, List.flatMap_map,
    List.flatMap_def, List.flatMap_def]
  refine congrArg List.flatten (List.map_congr_left fun k hk => ?_)
  exact congrArg Array.toList (hrecord k (List.mem_range.1 hk))

theorem fieldOf_eq {record : Bytes} (h : field.offset + field.size ≤ record.size) :
    RecordReader.fieldOf field record = .ok (field.bytesOf record) := by
  rw [RecordReader.fieldOf, Bytes.window?_eq_some h]
  rfl

/-- Cutting whole records gives their fields after one another. -/
theorem exists_project (bytes : Bytes) (hfit : field.offset + field.size ≤ size) :
    ∃ fields, RecordReader.project size field bytes = .ok fields ∧ fields.toList =
      (recordsOf size (bytes.size / size) bytes).flatMap fun record =>
        (field.bytesOf record).toList := by
  have hfold : ∀ records : List Bytes, (∀ record ∈ records, record.size = size) → ∀ out : Bytes,
      ∃ fields, records.foldlM (fun out record => do
          let bytes ← RecordReader.fieldOf field record
          pure (out ++ bytes)) out = .ok fields ∧
        fields.toList = out.toList ++ records.flatMap fun record =>
          (field.bytesOf record).toList := by
    intro records
    induction records with
    | nil => exact fun _ out => ⟨out, rfl, by simp⟩
    | cons record records ih =>
      intro hsizes out
      obtain ⟨hsize, hsizes⟩ := List.forall_mem_cons.1 hsizes
      obtain ⟨fields, hfields, hlist⟩ := ih hsizes (out ++ field.bytesOf record)
      rw [List.foldlM_cons, fieldOf_eq (hsize ▸ hfit)]
      exact ⟨fields, hfields, by rw [hlist]; simp⟩
  obtain ⟨fields, hfields, hlist⟩ := hfold (recordsOf size (bytes.size / size) bytes)
    (fun record => size_of_mem_recordsOf (Nat.div_mul_le_self _ _)) #[]
  rw [recordsOf, List.foldlM_map] at hfields
  exact ⟨fields, hfields, hlist⟩

end Records

namespace RecordReader

variable {r : RecordReader} {s : Section} {plan : TransferPlan} {b : Build}

/-- A field fits into the fill value as it does into a record. -/
theorem fill_fits {field : RecordField} (hfield : field ∈ r.records.fields) {v : FillValue}
    (hfill : r.descriptor.fill = some v) : field.offset + field.size ≤ v.bytes.size := by
  have hv : v.bytes.size = r.descriptor.elementSize := r.descriptor.fill_size hfill
  rw [hv, ← r.size_eq]
  exact r.records.fits hfield

/-- The field of the fill value fills the bytes that the whole value would fill. -/
theorem exists_fieldFill {field : RecordField} (hfield : field ∈ r.records.fields) :
    ∃ fill, r.fieldFill field = .ok fill ∧ (∀ v, fill = some v → v.size = field.size) ∧
      ∀ b < field.size, byteOfFill fill b = byteOfFill r.descriptor.fill (field.offset + b) := by
  rw [fieldFill]
  cases hfill : r.descriptor.fill with
  | none => exact ⟨none, rfl, nofun, fun b hb => rfl⟩
  | some v =>
    have hfit := r.fill_fits hfield hfill
    have hslice : v.slice? field.offset field.size = some ⟨field.bytesOf v.bytes⟩ := by
      rw [FillValue.slice?, Bytes.window?_eq_some hfit]
      rfl
    dsimp only
    rw [hslice]
    refine ⟨_, rfl, ?_, fun b hb => ?_⟩
    · rintro part ⟨⟩
      rw [FillValue.size, RecordField.bytesOf, Array.size_extract]
      omega
    · simp only [byteOfFill, RecordField.bytesOf, Array.getD_eq_getD_getElem?,
        Array.getElem?_extract]
      rw [if_pos (by omega)]

theorem readAddressed_of_start {t : Transfers}
    (hstart : startTransfers b r.descriptor s = .ok t) (field : RecordField) :
    r.readAddressed field s b = (do
      SourceM.report (.readingField field.name s r.descriptor.layout.name s.totalCount)
      let fill ← ofExcept (r.fieldFill field)
      reserve (s.totalCount * field.size)
      t.fold b r.descriptor.elementSize s (r.executeField field fill)
        (Bytes.zeros (s.totalCount * field.size))) := by
  rw [readAddressed, hstart]
  rfl

/-- A field of directly addressed records is read transfer by transfer. -/
theorem readAddressed_eq_of_fit (hs : s.validate r.descriptor.shape = .ok ())
    (hfit : ¬r.descriptor.Stops b s) (hplan : resolve r.descriptor s = .ok plan)
    (field : RecordField) :
    r.readAddressed field s b = (do
      SourceM.report (.readingField field.name s r.descriptor.layout.name s.totalCount)
      let fill ← ofExcept (r.fieldFill field)
      reserve (s.totalCount * field.size)
      plan.transfers.foldlM (r.executeField field fill)
        (Bytes.zeros (s.totalCount * field.size))) := by
  obtain ⟨plan', t, hplan', hstart, hyields⟩ := startTransfers_of_fit hs hfit
  rw [hplan] at hplan'
  cases hplan'
  rw [readAddressed_of_start hstart]
  simp only [hyields.fold_eq]

theorem readAddressed_eq (hs : s.validate r.descriptor.shape = .ok ())
    (hplan : resolve r.descriptor s = .ok plan) (field : RecordField) :
    r.readAddressed field s = (do
      SourceM.report (.readingField field.name s r.descriptor.layout.name s.totalCount)
      let fill ← ofExcept (r.fieldFill field)
      reserve (s.totalCount * field.size)
      plan.transfers.foldlM (r.executeField field fill)
        (Bytes.zeros (s.totalCount * field.size))) :=
  readAddressed_eq_of_fit hs (r.descriptor.not_stops s) hplan field

/-- A build that stops at the section does so before the first transfer. -/
theorem readAddressed_of_stops (hs : s.validate r.descriptor.shape = .ok ())
    (hstops : r.descriptor.Stops b s) (field : RecordField) :
    r.readAddressed field s b = throw (.halted .overflow) ∨
      r.readAddressed field s b = (do
        SourceM.report (.readingField field.name s r.descriptor.layout.name s.totalCount)
        let _ ← ofExcept (r.fieldFill field)
        reserve (s.totalCount * field.size)
        throw (.halted .overflow)) := by
  obtain hstart | ⟨t, hstart, hstuck⟩ := startTransfers_of_stops hs hstops
  · refine .inl ?_
    rw [readAddressed, hstart]
    rfl
  · refine .inr ?_
    rw [readAddressed_of_start hstart]
    simp only [hstuck.fold_eq]

end RecordReader

end Hyperslab
