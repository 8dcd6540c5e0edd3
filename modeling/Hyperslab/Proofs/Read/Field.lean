import Mathlib.Data.List.Basic
import Hyperslab.Proofs.Read.Direct
import Hyperslab.Proofs.Read.Padding
import Hyperslab.Proofs.Read.Sound
import Hyperslab.Proofs.Record
import Hyperslab.Proofs.Resolve.Offsets

/-!
# Reads of fields

A field of directly addressed records is read with requests of its own, one a record, and a part of
the fill value. The plan of a read says what is requested before the request for a record, so each
byte of the field is a function of its position: the byte of the answer to the request for its
record, or of the fill value. Where all requests are answered from memory it is what cutting whole
records would give.

## Main definitions

- `TransferPlan.elements`: the elements of a section in the order of its transfers
- `RecordReader.fieldRequest?`: the request for the field of one record
- `RecordReader.fieldRequests`: the requests of a transfer for a field
- `RecordReader.requestsBefore`: the requests before that for a record
- `RecordReader.fieldByte?`: what a byte of a field has to be
- `RecordReader.FieldRefused`: the request for a field of a record fails

## Main statements

- `RecordReader.fieldRequests_eq`: the requests of a transfer, record by record
- `RecordReader.ends_fetchFields`: the requests for one run of records
- `RecordReader.ends_executeField`: a transfer puts the bytes that it covers where they belong
- `RecordReader.ends_readAddressed`: the field of a section, with the requests for it
- `readField_eq_projection`: the field of a section is that of its records
-/

namespace Hyperslab

open SourceM

/-- The bytes of the field of the record at an address. -/
def RecordField.rangeAt (field : RecordField) (address : Nat) : ByteRange :=
  ⟨address + field.offset, field.size⟩

/-- What the byte at position `j` of a field has to be, with the records stored as described. -/
def RecordField.byteAt? (field : RecordField) (d : Descriptor) (content : Bytes) (s : Section)
    (j : Nat) : Option UInt8 :=
  d.elementByte? content (s.indexAt (j / field.size)) (field.offset + j % field.size)

theorem RecordField.byteAt?_record {field : RecordField} {d : Descriptor} {content : Bytes}
    {s : Section} {k b : Nat} (hb : b < field.size) :
    field.byteAt? d content s (k * field.size + b) =
      d.elementByte? content (s.indexAt k) (field.offset + b) := by
  rw [byteAt?, mul_add_div_of_lt hb, Nat.mul_add_mod_of_lt hb]

/-- The elements of a section, by number, in the order in which the transfers move them. -/
def TransferPlan.elements (plan : TransferPlan) : List Nat :=
  plan.transfers.flatMap fun t => List.range' t.destination t.runLength

/-- The elements that are moved before element `k`. -/
def TransferPlan.elementsBefore (plan : TransferPlan) (k : Nat) : List Nat :=
  plan.elements.takeWhile (· ≠ k)

/-- What is moved before an element is what stands before it, since no element is moved twice. -/
theorem TransferPlan.elementsBefore_eq {plan : TransferPlan} {front back : List Nat} {k : Nat}
    (hnodup : plan.elements.Nodup) (h : plan.elements = front ++ k :: back) :
    plan.elementsBefore k = front := by
  rw [h] at hnodup
  have hne : ∀ i ∈ front, i ≠ k := fun i hi =>
    (List.nodup_append.1 hnodup).2.2 i hi k List.mem_cons_self
  rw [elementsBefore, h, List.takeWhile_append_of_pos (by simpa using hne),
    List.takeWhile_cons_of_neg (by simp), List.append_nil]

namespace RecordReader

/-- The request for the field of a record that a section selects, if the record is stored. -/
def fieldRequest? (r : RecordReader) (field : RecordField) (s : Section) (k : Nat) :
    Option ByteRange :=
  match r.descriptor.place? (s.indexAt k) with
  | some (.direct address) => some (field.rangeAt address)
  | _ => none

/-- The places of the field in a run of records, the first one at `offset`. -/
def fieldRanges (r : RecordReader) (field : RecordField) (offset run : Nat) : List ByteRange :=
  (List.range run).map fun k => field.rangeAt (offset + k * r.records.recordSize)

/-- The requests of a transfer for a field: one for each of its records, in their order. -/
def fieldRequests (r : RecordReader) (field : RecordField) (t : Transfer) : List ByteRange :=
  match t.source with
  | .direct offset => r.fieldRanges field offset t.runLength
  | _ => []

/-- The requests before that for the field of record `k`: those of `start`, and those for the
records that come before it. -/
def requestsBefore (r : RecordReader) (field : RecordField) (s : Section) (plan : TransferPlan)
    (start : List ByteRange) (k : Nat) : List ByteRange :=
  start ++ (plan.elementsBefore k).filterMap (r.fieldRequest? field s)

/-- What the byte at position `j` of a field has to be: that of the answer to the request for its
record, and that of the fill value where the record is not stored. -/
def fieldByte? (r : RecordReader) (field : RecordField) (s : Section) (plan : TransferPlan)
    (start : List ByteRange) (j : Nat) : Option UInt8 :=
  match r.descriptor.place? (s.indexAt (j / field.size)) with
  | some (.direct address) =>
    (r.source.readInto (r.requestsBefore field s plan start (j / field.size))
      (field.rangeAt address)).toOption.bind (·[j % field.size]?)
  | some .fill => some (byteOfFill r.descriptor.fill (field.offset + j % field.size))
  | _ => none

/-- The request for the field of one of the records that a section selects fails, in the given
way. -/
def FieldRefused (r : RecordReader) (field : RecordField) (s : Section) (e : ReadError) : Prop :=
  ∃ k address before cause, k < s.totalCount ∧
    r.descriptor.place? (s.indexAt k) = some (.direct address) ∧
    r.source.readInto before (field.rangeAt address) = .error cause ∧ e = .storage cause

variable {r : RecordReader} {content : Bytes} {field : RecordField} {s : Section}
  {plan : TransferPlan} {start : List ByteRange} {fill : Option FillValue}

theorem fieldRanges_succ (r : RecordReader) (field : RecordField) (offset run : Nat) :
    r.fieldRanges field offset (run + 1) =
      field.rangeAt offset :: r.fieldRanges field (offset + r.records.recordSize) run := by
  simp only [fieldRanges, List.range_succ_eq_map, List.map_cons, List.map_map, Nat.zero_mul,
    Nat.add_zero]
  refine congrArg _ (List.map_congr_left fun k _ => ?_)
  rw [Function.comp_apply, Nat.succ_mul, Nat.add_comm (k * _), Nat.add_assoc]

/-- The requests of a transfer are those for its records, one after the other, and so are those for
the first `run` of its records. -/
theorem fieldRequests_eq (hexact : plan.Exact r.descriptor s)
    (hdirect : r.descriptor.layout.isDirectlyAddressable = true) {t : Transfer}
    (ht : t ∈ plan.transfers) {run : Nat} (hrun : run ≤ t.runLength) :
    r.fieldRequests field { t with runLength := run } =
      (List.range' t.destination run).filterMap (r.fieldRequest? field s) := by
  have hplace : ∀ k ∈ List.range run,
      r.descriptor.place? (s.indexAt (t.destination + k)) =
        some (t.source.advance (k * r.records.recordSize)) := by
    intro k hk
    have hlt := List.mem_range.1 hk
    rw [hexact.place_eq t ht _ ⟨Nat.le_add_right _ _, by omega⟩, Transfer.sourceOf,
      Nat.add_sub_cancel_left, r.size_eq]
  rw [List.range'_eq_map_range, List.filterMap_map, fieldRequests]
  rcases hexact.source_of_direct hdirect ht with hsource | ⟨offset, hsource⟩
  · simp only [hsource, TransferSource.advance] at hplace ⊢
    refine (List.filterMap_eq_nil_iff.2 fun k hk => ?_).symm
    rw [Function.comp_apply, fieldRequest?, hplace k hk]
  · simp only [hsource, TransferSource.advance] at hplace ⊢
    refine (List.filterMap_eq_map_iff_forall_eq_some.2 fun k hk => ?_).symm
    rw [Function.comp_apply, fieldRequest?, hplace k hk]

theorem requests_eq_filterMap (hexact : plan.Exact r.descriptor s)
    (hdirect : r.descriptor.layout.isDirectlyAddressable = true) {front back : List Transfer}
    (htransfers : plan.transfers = front ++ back) :
    front.flatMap (r.fieldRequests field) =
      (front.flatMap fun t => List.range' t.destination t.runLength).filterMap
        (r.fieldRequest? field s) := by
  rw [List.filterMap_flatMap, List.flatMap_def, List.flatMap_def]
  refine congrArg List.flatten (List.map_congr_left fun t ht => ?_)
  exact fieldRequests_eq hexact hdirect (by simp [htransfers, ht]) (Nat.le_refl t.runLength)

/-- Before the request for a record of a transfer come those of the transfers before it, and those
for the records before it in the transfer. -/
theorem requestsBefore_eq (hexact : plan.Exact r.descriptor s)
    (hdirect : r.descriptor.layout.isDirectlyAddressable = true) {front back : List Transfer}
    {t : Transfer} (htransfers : plan.transfers = front ++ t :: back) {k : Nat}
    (hk : k < t.runLength) :
    r.requestsBefore field s plan start (t.destination + k) =
      start ++ front.flatMap (r.fieldRequests field) ++
        r.fieldRequests field { t with runLength := k } := by
  have hnodup : plan.elements.Nodup := hexact.perm_range.nodup_iff.2 List.nodup_range
  have hsplit : List.range' t.destination t.runLength = List.range' t.destination k ++
      (t.destination + k) :: List.range' (t.destination + k + 1) (t.runLength - k - 1) := by
    rw [← List.range'_succ, List.range'_append_1]
    congr 1
    omega
  have helements : plan.elements =
      ((front.flatMap fun t => List.range' t.destination t.runLength) ++
        List.range' t.destination k) ++ (t.destination + k) ::
          (List.range' (t.destination + k + 1) (t.runLength - k - 1) ++
            back.flatMap fun t => List.range' t.destination t.runLength) := by
    rw [TransferPlan.elements, htransfers, List.flatMap_append, List.flatMap_cons, hsplit]
    simp only [List.append_assoc, List.cons_append]
  rw [requestsBefore, TransferPlan.elementsBefore_eq hnodup helements, List.filterMap_append,
    ← requests_eq_filterMap hexact hdirect htransfers,
    ← fieldRequests_eq hexact hdirect (by simp [htransfers]) (Nat.le_of_lt hk), List.append_assoc]

theorem fieldByte?_stored {k b address : Nat} (hb : b < field.size)
    (hplace : r.descriptor.place? (s.indexAt k) = some (.direct address)) :
    r.fieldByte? field s plan start (k * field.size + b) =
      (r.source.readInto (r.requestsBefore field s plan start k)
        (field.rangeAt address)).toOption.bind (·[b]?) := by
  rw [fieldByte?, mul_add_div_of_lt hb, Nat.mul_add_mod_of_lt hb, hplace]

/-- The field of each record of a run is requested and put where it belongs, up to the first request
that fails. -/
theorem ends_fetchFields (want : Nat → Option UInt8) {run offset destination : Nat} {output : Bytes}
    (hfit : destination * field.size + run * field.size ≤ output.size)
    {a : Activity} (hwant : ∀ k b piece, k < run → b < field.size →
      r.source.readInto (a.requests.toList ++ r.fieldRanges field offset k)
        (field.rangeAt (offset + k * r.records.recordSize)) = .ok piece →
      want ((destination + k) * field.size + b) = piece[b]?) :
    Ends (r.fetchFields field run offset destination output) a
      (fun out a' => Bytes.Completes want (fun j => destination * field.size ≤ j ∧
          j < destination * field.size + run * field.size) output out ∧
        a'.requests.toList = a.requests.toList ++ r.fieldRanges field offset run)
      fun e _ => ∃ k < run, ∃ before cause,
        r.source.readInto before (field.rangeAt (offset + k * r.records.recordSize)) =
          .error cause ∧ e = .storage cause := by
  induction run generalizing offset destination output a with
  | zero =>
    refine ⟨⟨rfl, fun j hj => ?_, fun j hj => hj⟩, (List.append_nil _).symm⟩
    omega
  | succ run ih =>
    have hnext : ∀ k, offset + r.records.recordSize + k * r.records.recordSize =
        offset + (k + 1) * r.records.recordSize := fun k => by
      rw [Nat.succ_mul]
      omega
    rw [fetchFields, ends_bind, ends_mapError]
    cases hanswer : r.source.readInto a.requests.toList (field.rangeAt offset) with
    | error cause =>
      refine (ends_fetchExactly_of_error hanswer).2 ⟨0, Nat.succ_pos run,
        a.requests.toList, cause, ?_, rfl⟩
      rwa [Nat.zero_mul, Nat.add_zero]
    | ok piece =>
      have hpiece : piece.size = field.size := r.source.readInto_size _ _ _ hanswer
      have hrequested : ∀ n,
          ((a.request (field.rangeAt offset)).count piece.size).requests.toList ++
              r.fieldRanges field (offset + r.records.recordSize) n =
            a.requests.toList ++ r.fieldRanges field offset (n + 1) := fun n => by
        rw [fieldRanges_succ, Activity.count, Activity.request, Array.toList_push,
          List.append_assoc, List.singleton_append]
      rw [Nat.succ_mul] at hfit
      have hspace : destination * field.size + piece.size ≤ output.size := by omega
      obtain ⟨out, hout, hput⟩ := Bytes.exists_overwrite want hspace fun i hi => by
        have hbyte := hwant 0 i piece (Nat.succ_pos run) (by omega)
          (by rwa [Nat.zero_mul, Nat.add_zero, fieldRanges, List.range_zero, List.map_nil,
            List.append_nil])
        rw [Nat.add_zero] at hbyte
        rw [hbyte, Array.getElem?_eq_getElem hi]
      refine (ends_fetchExactly_of_ok hanswer).2 ?_
      rw [hout]
      dsimp only
      refine (ih ?_ ?_).mono ?_ ?_
      · rw [Nat.succ_mul, hput.size_eq]
        omega
      · intro k b piece' hk hb hanswer'
        rw [hnext, hrequested] at hanswer'
        rw [← hwant (k + 1) b piece' (Nat.succ_lt_succ hk) hb hanswer', Nat.add_assoc,
          Nat.add_comm 1]
      · rintro out' a' ⟨hrest, hrequests⟩
        refine ⟨(hput.trans hrest).mono fun j hj => ?_, ?_⟩
        · rw [Nat.succ_mul] at hj ⊢
          omega
        · rw [hrequests, hrequested]
      · rintro e a' ⟨k, hk, before, cause, hcause, he⟩
        exact ⟨k + 1, Nat.succ_lt_succ hk, before, cause, hnext k ▸ hcause, he⟩

/-- A transfer puts the bytes that it covers where they belong, or a request of it fails. -/
theorem ends_executeField (hexact : plan.Exact r.descriptor s)
    (hdirect : r.descriptor.layout.isDirectlyAddressable = true) (hpos : 0 < field.size)
    (hfillSize : ∀ v, fill = some v → v.size = field.size)
    (hfillByte : ∀ b < field.size,
      byteOfFill fill b = byteOfFill r.descriptor.fill (field.offset + b))
    {front back : List Transfer} {t : Transfer} (htransfers : plan.transfers = front ++ t :: back)
    {output : Bytes} (hsize : output.size = s.totalCount * field.size) {a : Activity}
    (hrequests : a.requests.toList = start ++ front.flatMap (r.fieldRequests field)) :
    Ends (r.executeField field fill output t) a
      (fun out a' =>
        Bytes.Completes (r.fieldByte? field s plan start) (t.CoversByte field.size) output out ∧
        a'.requests.toList = a.requests.toList ++ r.fieldRequests field t)
      fun e _ => r.FieldRefused field s e := by
  have ht : t ∈ plan.transfers := by simp [htransfers]
  have hfit := hexact.fits ht field.size
  rw [← hsize] at hfit
  rw [executeField, fieldRequests]
  rcases hexact.source_of_direct hdirect ht with hsrc | ⟨offset, hsrc⟩
  · obtain ⟨out, hout, hput⟩ := exists_fillRuns hfillSize hpos
      (r.fieldByte? field s plan start) hfit fun j hfrom hto => by
        have hplace := hexact.place_eq t ht _ ((Transfer.covers_div hpos).2 ⟨hfrom, hto⟩)
        rw [Transfer.sourceOf, hsrc] at hplace
        rw [hfillByte _ (Nat.mod_lt j hpos), fieldByte?, hplace]
        rfl
    simp only [hsrc, hout]
    exact ⟨hput, (List.append_nil _).symm⟩
  · have hcovers : ∀ k, k < t.runLength → t.Covers (t.destination + k) := fun k hk =>
      ⟨Nat.le_add_right _ _, Nat.add_lt_add_left hk _⟩
    have hplace : ∀ k, k < t.runLength → r.descriptor.place? (s.indexAt (t.destination + k)) =
        some (.direct (offset + k * r.records.recordSize)) := by
      intro k hk
      rw [hexact.place_eq t ht _ (hcovers k hk), Transfer.sourceOf, hsrc, Nat.add_sub_cancel_left,
        ← r.size_eq]
      rfl
    simp only [hsrc]
    refine (ends_fetchFields (r.fieldByte? field s plan start) hfit ?_).mono (fun _ _ h => h) ?_
    · intro k b piece hk hb hanswer
      have hbefore : r.requestsBefore field s plan start (t.destination + k) = _ :=
        requestsBefore_eq hexact hdirect htransfers hk
      rw [← hrequests, fieldRequests, hsrc] at hbefore
      rw [fieldByte?_stored hb (hplace k hk), hbefore, hanswer]
      rfl
    · rintro e a' ⟨k, hk, before, cause, hcause, he⟩
      exact ⟨_, _, before, cause, hexact.inside t ht _ (hcovers k hk), hplace k hk, hcause, he⟩

/-- The field of directly addressed records: each byte is there, and the requests were those of the
transfers one after the other, or a request has failed, or there is no destination for them. -/
theorem ends_readAddressed (hs : s.validate r.descriptor.shape = .ok ())
    (hplan : resolve r.descriptor s = .ok plan)
    (hdirect : r.descriptor.layout.isDirectlyAddressable = true)
    (hfield : field ∈ r.records.fields) (hpos : 0 < field.size) (a : Activity) :
    Ends (r.readAddressed field s) a
      (fun out a' => (out.size = s.totalCount * field.size ∧
        ∀ j, j < s.totalCount * field.size →
          out[j]? = r.fieldByte? field s plan a.requests.toList j) ∧
        a'.requests.toList = a.requests.toList ++ plan.transfers.flatMap (r.fieldRequests field))
      fun e _ => r.FieldRefused field s e ∨ Bytes.maxCapacity < s.totalCount * field.size ∧
        e = .halted (.capacity (s.totalCount * field.size)) := by
  have hexact := exact_of_resolve hs hplan
  obtain ⟨fill, hfill, hfillSize, hfillByte⟩ := exists_fieldFill hfield
  rw [readAddressed_eq hs hplan, ends_bind, ends_report, hfill, ends_bind, ends_ofExcept_ok]
  by_cases hcapacity : s.totalCount * field.size ≤ Bytes.maxCapacity
  case neg =>
    have hlarge := Nat.lt_of_not_le hcapacity
    rw [reserve_of_lt hlarge, ends_bind, ends_throw]
    exact .inr ⟨hlarge, rfl⟩
  rw [reserve_of_le hcapacity, pure_bind]
  refine (Ends.foldlM (fun front _ out a' => (out.size = s.totalCount * field.size ∧
    ∀ j, CoveredByte front field.size j →
      out[j]? = r.fieldByte? field s plan a.requests.toList j) ∧
    a'.requests.toList = a.requests.toList ++ front.flatMap (r.fieldRequests field))
    ?_ ?_).mono ?_ fun _ _ h => .inl h
  · rintro front t back htransfers out a' ⟨⟨hsize, hdone⟩, hrequests⟩
    refine (ends_executeField hexact hdirect hpos hfillSize hfillByte htransfers hsize
      hrequests).mono ?_ fun _ _ h => h
    rintro out' a'' ⟨hput, hrequests'⟩
    refine ⟨⟨hput.size_eq.trans hsize, fun j hj => ?_⟩, ?_⟩
    · exact hput.settled hdone j (coveredByte_concat.1 hj)
    · rw [hrequests', hrequests, List.flatMap_append, List.flatMap_singleton, List.append_assoc]
  · refine ⟨⟨Bytes.size_zeros _, fun j hj => absurd hj (not_coveredByte_nil _ j)⟩, ?_⟩
    exact (List.append_nil _).symm
  · rintro out a' ⟨⟨hsize, hdone⟩, hrequests⟩
    exact ⟨⟨hsize, fun j hj => hdone j (hexact.coveredByte hpos hj)⟩, hrequests⟩

section Memory

variable (hsource : r.source = .memory content) (hstored : r.descriptor.StoredIn content s)
  (hfield : field ∈ r.records.fields)

include hsource hstored hfield

/-- The request for the field of a record that is stored is answered from memory. -/
theorem readInto_memory {k address : Nat} (hk : k < s.totalCount)
    (hplace : r.descriptor.place? (s.indexAt k) = some (.direct address))
    (before : List ByteRange) :
    r.source.readInto before (field.rangeAt address) =
      .ok (content.extract (address + field.offset) (address + field.offset + field.size)) := by
  have hin := hstored k address hk hplace
  have hmax := Descriptor.place_le hplace
  have hinRecord := r.records.fits hfield
  have hrecordSize := r.size_eq
  rw [hsource]
  exact ByteSource.serves_memory content _ _ (by simp only [RecordField.rangeAt]; omega)
    (by simp only [RecordField.rangeAt]; omega)

theorem fieldByte?_memory {j : Nat} (hj : j < s.totalCount * field.size) :
    r.fieldByte? field s plan start j = field.byteAt? r.descriptor content s j := by
  have hpos : 0 < field.size := Nat.pos_of_ne_zero fun hzero => by simp [hzero] at hj
  have hk : j / field.size < s.totalCount := Nat.div_lt_of_lt_mul (by rwa [Nat.mul_comm])
  rw [fieldByte?, RecordField.byteAt?, Descriptor.elementByte?]
  cases hplace : r.descriptor.place? (s.indexAt (j / field.size)) with
  | none => rfl
  | some place =>
    cases place with
    | direct address =>
      have hlt := Nat.mod_lt j hpos
      have hin := hstored _ address hk hplace
      have hinRecord := r.records.fits hfield
      have hrecordSize := r.size_eq
      dsimp only
      rw [readInto_memory hsource hstored hfield hk hplace]
      simp only [Except.toOption, Option.bind_some, Array.getElem?_extract]
      rw [if_pos (by omega), Nat.add_assoc]
    | _ => rfl

theorem not_fieldRefused_memory (e : ReadError) : ¬r.FieldRefused field s e := by
  rintro ⟨k, address, before, cause, hk, hplace, hcause, -⟩
  rw [readInto_memory hsource hstored hfield hk hplace] at hcause
  cases hcause

end Memory

variable {records : Bytes} {a : Activity}

theorem size_of_readRecords (h : ((r.readRecords s).outcome a).1 = .ok records) :
    records.size = s.totalCount * r.records.recordSize := by
  rw [r.size_eq]
  exact size_of_readSection h

/-- The requests for a field alone give what cutting the records gives. -/
theorem readAddressed_of_readRecords (hsource : r.source = .memory content)
    (hdirect : r.descriptor.layout.isDirectlyAddressable = true)
    (hfield : field ∈ r.records.fields) (hpos : 0 < field.size)
    (h : ((r.readRecords s).outcome a).1 = .ok records) (a' : Activity) :
    ∃ bytes : Bytes, ((r.readAddressed field s).outcome a').1 = .ok bytes ∧
      bytes.toList = (recordsOf r.records.recordSize s.totalCount records).flatMap fun record =>
        (field.bytesOf record).toList := by
  have hs := validate_of_readSection h
  have hinRecord := r.records.fits hfield
  have hrequest : r.toReadRequest = ⟨.memory content, r.descriptor, r.options⟩ := by
    rw [← hsource]
  have hread : EndsDirect r.descriptor content s (r.readRecords s) a := by
    rw [readRecords, hrequest]
    exact ends_readSection_direct hdirect hs (capacity_of_readSection h) r.options a
  obtain ⟨hsize, hbytes⟩ := hread.of_ok (Prod.ext h rfl)
  have hstored := Descriptor.storedIn_of_bytes hsize hbytes
  obtain ⟨plan, hplan, -⟩ := exists_exact hs
  have hcapacity : s.totalCount * field.size ≤ Bytes.maxCapacity := by
    refine Nat.le_trans (Nat.mul_le_mul_left _ ?_) (capacity_of_readSection h)
    rw [← r.size_eq]
    exact Nat.le_trans (Nat.le_add_left _ _) hinRecord
  obtain ⟨out, a'', hout, ⟨hsize', hbytes'⟩, -⟩ | ⟨e, _, -, hrefused | ⟨hlarge, -⟩⟩ :=
    (ends_readAddressed hs hplan hdirect hfield hpos a').cases
  · refine ⟨out, by rw [hout], toList_eq_of_fields hinRecord (size_of_readRecords h) hsize' ?_⟩
    intro k b hk hb
    have hin : field.offset + b < r.descriptor.elementSize := by
      have hrecordSize := r.size_eq
      omega
    have hj := mul_add_lt_mul hk hb
    rw [hbytes' _ hj, fieldByte?_memory hsource hstored hfield hj, RecordField.byteAt?_record hb,
      r.size_eq, hbytes _ (mul_add_lt_mul hk hin), Descriptor.byteAt?_element hin]
  · exact absurd hrefused (not_fieldRefused_memory hsource hstored hfield e)
  · exact absurd hlarge (Nat.not_lt.2 hcapacity)

/-- Reads of records from memory come to one result, whatever was observed before. -/
theorem readRecords_eq (hsource : r.source = .memory content) (s : Section) (a a' : Activity) :
    ((r.readRecords s).outcome a).1 = ((r.readRecords s).outcome a').1 := by
  have halike : a.AnsweredAlike r.source a' := by
    rw [hsource]
    exact Activity.answeredAlike_memory content a a'
  have hagree : (r.readRecords s).Agree r.source (· = ·) (r.readRecords s) :=
    agree_readSection ⟨rfl, rfl, rfl, .refl _⟩ s
  exact (hagree.result halike).eq

end RecordReader

/-- A field is read as the records are: where the records of a section can be read from memory, a
read of a field gives the bytes that it has in each of them, record after record. This holds of
every layout, though some fields are requested alone and some are cut out of whole records. -/
theorem readField_eq_projection (r : RecordReader) (content : Bytes)
    (hsource : r.source = .memory content) (field : RecordField)
    (hfield : field ∈ r.records.fields) (s : Section) (a a' : Activity) (whole : Bytes)
    (h : ((r.readRecords s).outcome a).1 = .ok whole) :
    ∃ records : List Bytes,
      records.length = s.totalCount ∧
      (∀ record ∈ records, record.size = r.records.recordSize) ∧
      records.flatMap (·.toList) = whole.toList ∧
      ∃ bytes : Bytes, ((r.readField s field.name).outcome a').1 = .ok bytes ∧
        bytes.toList = records.flatMap fun record =>
          (record.extract field.offset (field.offset + field.size)).toList := by
  have hsize := RecordReader.size_of_readRecords h
  refine ⟨recordsOf r.records.recordSize s.totalCount whole, length_recordsOf _ _ _,
    fun record => size_of_mem_recordsOf (Nat.le_of_eq hsize.symm), flatMap_recordsOf hsize, ?_⟩
  rw [RecordReader.readField, RecordLayout.field?_eq_some_iff.2 ⟨hfield, rfl⟩]
  dsimp only
  by_cases hzero : field.size = 0
  · rw [if_pos hzero]
    refine ⟨#[], rfl, ?_⟩
    simp [hzero]
  · rw [if_neg hzero]
    have hpos := Nat.pos_of_ne_zero hzero
    by_cases hdirect : r.descriptor.layout.isDirectlyAddressable = true
    · rw [if_pos hdirect]
      exact RecordReader.readAddressed_of_readRecords hsource hdirect hfield hpos h a'
    · rw [if_neg hdirect]
      have hread := (RecordReader.readRecords_eq hsource s a' a).trans h
      obtain ⟨fields, hproject, hfields⟩ := exists_project whole (r.records.fits hfield)
      refine ⟨fields, ?_, ?_⟩
      · rw [outcome_bind]
        rcases houtcome : (r.readRecords s).outcome a' with ⟨e | records, a''⟩ <;>
          rw [houtcome] at hread <;> cases hread
        dsimp only
        rw [hproject]
        rfl
      · have hrecord : 0 < r.records.recordSize := r.size_eq ▸ r.descriptor.elementSize_pos
        rw [hfields, hsize, Nat.mul_div_cancel _ hrecord]
        rfl

/-- Two records of three bytes, of which the last two bytes are a field. -/
def pairs : RecordReader :=
  { source := .memory #[1, 2, 3, 4, 5, 6]
    descriptor :=
      { shape := [2]
        elementSize := 3
        fill := none
        layout := .regular 0
        accepted := rfl }
    options := {}
    records := { recordSize := 3, fields := [⟨"tail", 1, 2⟩], accepted := rfl }
    size_eq := rfl }

/-- The field is read record after record. -/
theorem readField_pairs :
    pairs.source = .memory #[1, 2, 3, 4, 5, 6] ∧ ⟨"tail", 1, 2⟩ ∈ pairs.records.fields ∧
    ((pairs.readRecords ⟨[.contiguous 0 2]⟩).outcome {}).1 = .ok #[1, 2, 3, 4, 5, 6] ∧
    ((pairs.readField ⟨[.contiguous 0 2]⟩ "tail").outcome {}).1 = .ok #[2, 3, 5, 6] := by
  have hfield : (⟨"tail", 1, 2⟩ : RecordField) ∈ pairs.records.fields := List.mem_singleton_self _
  have hwhole : ((pairs.readRecords ⟨[.contiguous 0 2]⟩).outcome {}).1 =
      .ok #[1, 2, 3, 4, 5, 6] := rfl
  obtain ⟨records, hlength, hsizes, hjoined, bytes, hread, hbytes⟩ :=
    readField_eq_projection pairs _ rfl _ hfield _ {} {} _ hwhole
  refine ⟨rfl, hfield, hwhole, ?_⟩
  -- the six bytes are cut into two records of three
  match records, hlength with
  | [first, second], _ =>
    have hfirst : first.toList.length = 3 := hsizes first (by simp)
    have hsecond : second.toList.length = 3 := hsizes second (by simp)
    have hcut : first.toList ++ second.toList = [1, 2, 3] ++ [4, 5, 6] := by simpa using hjoined
    obtain ⟨hfirst, hsecond⟩ := List.append_inj hcut hfirst
    obtain rfl : first = #[1, 2, 3] := Array.toList_inj.1 hfirst
    obtain rfl : second = #[4, 5, 6] := Array.toList_inj.1 hsecond
    obtain rfl : bytes = #[2, 3, 5, 6] := Array.toList_inj.1 hbytes
    exact hread

end Hyperslab
