import Hyperslab.Proofs.Descriptor
import Hyperslab.Proofs.Persist.Lawful
import Hyperslab.Proofs.Record

/-!
# Documents of descriptors and records

What a document says is taken apart once for each type that is read by its kind or after a check:
`Says` names the members that the document has, and a value is read exactly if they are its own and
the constructor accepts them.

## Main definitions

- `StorageLayout.Says`, `StorageMetadata.Says`, `RecordLayout.Says`: what a document says

## Main statements

- `StorageLayout.decode_eq_some_iff`: a layout is read by its kind and its members
- `Descriptor.decode_eq_some_iff`, `RecordLayout.decode_eq_some_iff`: no value is read that is not
  accepted
-/

namespace Hyperslab

open Persisted LawfulPersisted

namespace StorageLayout

/-- The numbers of the layout can be read. -/
def InRange : StorageLayout → Prop
  | noData => True
  | regular baseOffset => baseOffset ≤ maxOffset
  | compressed data length codec =>
    LawfulPersisted.InRange data ∧ length ≤ maxOffset ∧ codec ≤ maxCodecId
  | segmented segments => ∀ segment ∈ segments, LawfulPersisted.InRange segment
  | tiled chunkShape chunks => chunkShape.InRange ∧ LawfulPersisted.InRange chunks
  | compressedTiled chunkShape chunks => chunkShape.InRange ∧ LawfulPersisted.InRange chunks
  | compressedSegmented segments codec length =>
    (∀ segment ∈ segments, LawfulPersisted.InRange segment) ∧ codec ≤ maxCodecId ∧
      length ≤ maxOffset

/-- The document has the members of the layout. -/
def Says (d : Document) : StorageLayout → Prop
  | noData => ∀ item items, d ≠ .list (item :: items)
  | regular baseOffset =>
    ∃ base, d.fields? ["base_offset"] = some [base] ∧ decodeOffset base = some baseOffset
  | compressed data length codec =>
    ∃ range size id, d.fields? ["data", "uncompressed_length", "codec"] = some [range, size, id] ∧
      decode range = some data ∧ decodeOffset size = some length ∧ CodecId.decode id = some codec
  | segmented segments =>
    ∃ list, d.fields? ["segments"] = some [list] ∧ decodeList list = some segments
  | tiled chunkShape chunks =>
    ∃ shape list, d.fields? ["chunk_shape", "chunks"] = some [shape, list] ∧
      ChunkShape.decode shape = some chunkShape ∧ decode list = some chunks
  | compressedTiled chunkShape chunks =>
    ∃ shape list, d.fields? ["chunk_shape", "chunks"] = some [shape, list] ∧
      ChunkShape.decode shape = some chunkShape ∧ decode list = some chunks
  | compressedSegmented segments codec length =>
    ∃ list id size, d.fields? ["segments", "codec", "uncompressed_length"] = some [list, id, size] ∧
      decodeList list = some segments ∧ CodecId.decode id = some codec ∧
        decodeOffset size = some length

theorem decodeKind_of_says {d : Document} {l : StorageLayout} (h : Says d l) :
    decodeKind l.name d = some l := by
  cases l with
  | noData =>
    cases d with
    | list items =>
      cases items with
      | nil => rfl
      | cons item items => exact absurd rfl (h item items)
    | _ => rfl
  | regular baseOffset =>
    obtain ⟨base, hfields, hbase⟩ := h
    exact Option.bind_eq_some_iff.2 ⟨_, hfields, Option.bind_eq_some_iff.2 ⟨_, hbase, rfl⟩⟩
  | compressed data length codec =>
    obtain ⟨range, size, id, hfields, hrange, hsize, hid⟩ := h
    refine Option.bind_eq_some_iff.2 ⟨_, hfields, Option.bind_eq_some_iff.2 ⟨_, hrange, ?_⟩⟩
    exact Option.bind_eq_some_iff.2 ⟨_, hsize, Option.bind_eq_some_iff.2 ⟨_, hid, rfl⟩⟩
  | segmented segments =>
    obtain ⟨list, hfields, hlist⟩ := h
    exact Option.bind_eq_some_iff.2 ⟨_, hfields, Option.bind_eq_some_iff.2 ⟨_, hlist, rfl⟩⟩
  | tiled chunkShape chunks =>
    obtain ⟨shape, list, hfields, hshape, hlist⟩ := h
    refine Option.bind_eq_some_iff.2 ⟨_, hfields, Option.bind_eq_some_iff.2 ⟨_, hshape, ?_⟩⟩
    exact Option.bind_eq_some_iff.2 ⟨_, hlist, rfl⟩
  | compressedTiled chunkShape chunks =>
    obtain ⟨shape, list, hfields, hshape, hlist⟩ := h
    refine Option.bind_eq_some_iff.2 ⟨_, hfields, Option.bind_eq_some_iff.2 ⟨_, hshape, ?_⟩⟩
    exact Option.bind_eq_some_iff.2 ⟨_, hlist, rfl⟩
  | compressedSegmented segments codec length =>
    obtain ⟨list, id, size, hfields, hlist, hid, hsize⟩ := h
    refine Option.bind_eq_some_iff.2 ⟨_, hfields, Option.bind_eq_some_iff.2 ⟨_, hlist, ?_⟩⟩
    exact Option.bind_eq_some_iff.2 ⟨_, hid, Option.bind_eq_some_iff.2 ⟨_, hsize, rfl⟩⟩

theorem says_of_decodeKind {kind : String} {d : Document} {l : StorageLayout}
    (h : decodeKind kind d = some l) : kind = l.name ∧ Says d l := by
  unfold decodeKind at h
  split at h
  · split at h
    · cases h
    · rename_i hne
      cases h
      exact ⟨rfl, hne⟩
  · obtain ⟨fields, hfields, h⟩ := Option.bind_eq_some_iff.1 h
    split at h
    · obtain ⟨baseOffset, hbase, h⟩ := Option.bind_eq_some_iff.1 h
      cases h
      exact ⟨rfl, _, hfields, hbase⟩
    · cases h
  · obtain ⟨fields, hfields, h⟩ := Option.bind_eq_some_iff.1 h
    split at h
    · obtain ⟨data, hdata, h⟩ := Option.bind_eq_some_iff.1 h
      obtain ⟨length, hlength, h⟩ := Option.bind_eq_some_iff.1 h
      obtain ⟨codec, hcodec, h⟩ := Option.bind_eq_some_iff.1 h
      cases h
      exact ⟨rfl, _, _, _, hfields, hdata, hlength, hcodec⟩
    · cases h
  · obtain ⟨fields, hfields, h⟩ := Option.bind_eq_some_iff.1 h
    split at h
    · obtain ⟨segments, hsegments, h⟩ := Option.bind_eq_some_iff.1 h
      cases h
      exact ⟨rfl, _, hfields, hsegments⟩
    · cases h
  · obtain ⟨fields, hfields, h⟩ := Option.bind_eq_some_iff.1 h
    split at h
    · obtain ⟨chunkShape, hshape, h⟩ := Option.bind_eq_some_iff.1 h
      obtain ⟨chunks, hchunks, h⟩ := Option.bind_eq_some_iff.1 h
      cases h
      exact ⟨rfl, _, _, hfields, hshape, hchunks⟩
    · cases h
  · obtain ⟨fields, hfields, h⟩ := Option.bind_eq_some_iff.1 h
    split at h
    · obtain ⟨chunkShape, hshape, h⟩ := Option.bind_eq_some_iff.1 h
      obtain ⟨chunks, hchunks, h⟩ := Option.bind_eq_some_iff.1 h
      cases h
      exact ⟨rfl, _, _, hfields, hshape, hchunks⟩
    · cases h
  · obtain ⟨fields, hfields, h⟩ := Option.bind_eq_some_iff.1 h
    split at h
    · obtain ⟨segments, hsegments, h⟩ := Option.bind_eq_some_iff.1 h
      obtain ⟨codec, hcodec, h⟩ := Option.bind_eq_some_iff.1 h
      obtain ⟨length, hlength, h⟩ := Option.bind_eq_some_iff.1 h
      cases h
      exact ⟨rfl, _, _, _, hfields, hsegments, hcodec, hlength⟩
    · cases h
  · cases h

/-- A document says a layout by its kind and its members. -/
theorem decode_eq_some_iff {doc : Document} {l : StorageLayout} :
    decode doc = some l ↔ ∃ d, doc.tagged? "kind" = some (l.name, d) ∧ Says d l := by
  constructor
  · intro h
    obtain ⟨⟨kind, d⟩, htagged, h⟩ := Option.bind_eq_some_iff.1 h
    obtain ⟨rfl, hsays⟩ := says_of_decodeKind h
    exact ⟨d, htagged, hsays⟩
  · rintro ⟨d, htagged, hsays⟩
    exact Option.bind_eq_some_iff.2 ⟨_, htagged, decodeKind_of_says hsays⟩

/-- What a layout is written as has its members under their names. -/
theorem says_encode {l : StorageLayout} (h : l.InRange) : Says (encode l) l := by
  cases l with
  | noData => exact fun _ _ => Document.noConfusion
  | regular baseOffset => exact ⟨_, rfl, decodeOffset_nat h⟩
  | compressed data length codec =>
    obtain ⟨hdata, hlength, hcodec⟩ := h
    exact ⟨_, _, _, rfl, decode_encode data hdata, decodeOffset_nat hlength,
      CodecId.decode_encode hcodec⟩
  | segmented segments => exact ⟨_, rfl, decodeList_encodeList h⟩
  | tiled chunkShape chunks =>
    exact ⟨_, _, rfl, ChunkShape.decode_encode h.1, decode_encode chunks h.2⟩
  | compressedTiled chunkShape chunks =>
    exact ⟨_, _, rfl, ChunkShape.decode_encode h.1, decode_encode chunks h.2⟩
  | compressedSegmented segments codec length =>
    obtain ⟨hsegments, hcodec, hlength⟩ := h
    exact ⟨_, _, _, rfl, decodeList_encodeList hsegments, CodecId.decode_encode hcodec,
      decodeOffset_nat hlength⟩

theorem inRange_of_says {d : Document} {l : StorageLayout} (h : Says d l) : l.InRange := by
  cases l with
  | noData => trivial
  | regular baseOffset =>
    obtain ⟨base, -, hbase⟩ := h
    exact le_of_decodeOffset hbase
  | compressed data length codec =>
    obtain ⟨range, size, id, -, hrange, hsize, hid⟩ := h
    exact ⟨inRange_of_decode hrange, le_of_decodeOffset hsize, CodecId.le_of_decode hid⟩
  | segmented segments =>
    obtain ⟨list, -, hlist⟩ := h
    exact inRange_of_decodeList hlist
  | tiled chunkShape chunks =>
    obtain ⟨shape, list, -, hshape, hlist⟩ := h
    exact ⟨ChunkShape.inRange_of_decode hshape, inRange_of_decode hlist⟩
  | compressedTiled chunkShape chunks =>
    obtain ⟨shape, list, -, hshape, hlist⟩ := h
    exact ⟨ChunkShape.inRange_of_decode hshape, inRange_of_decode hlist⟩
  | compressedSegmented segments codec length =>
    obtain ⟨list, id, size, -, hlist, hid, hsize⟩ := h
    exact ⟨inRange_of_decodeList hlist, CodecId.le_of_decode hid, le_of_decodeOffset hsize⟩

end StorageLayout

instance : LawfulPersisted StorageLayout where
  InRange := StorageLayout.InRange
  decode_encode l h :=
    StorageLayout.decode_eq_some_iff.2 ⟨encode l, rfl, StorageLayout.says_encode h⟩
  inRange_of_decode h := by
    obtain ⟨d, -, hsays⟩ := StorageLayout.decode_eq_some_iff.1 h
    exact StorageLayout.inRange_of_says hsays

theorem decodeOptional_encode (fill : Option FillValue) :
    decodeOptional (some ((fill.map encode).getD .null)) = some fill := by
  cases fill with
  | none => rfl
  | some v =>
    show (decode (encode v)).map some = some (some v)
    rw [decode_encode v trivial, Option.map_some]

namespace StorageMetadata

/-- The document has the members of the declaration. A fill value that is missing is none. -/
def Says (doc : Document) (m : StorageMetadata) : Prop :=
  ∃ shape size fill layout,
    doc.record? ["variable_shape", "element_size", "fill_value", "layout"] =
      some [some shape, some size, fill, some layout] ∧
    decodeOffsets shape = some m.shape ∧ decodeOffset size = some m.elementSize ∧
      decodeOptional fill = some m.fill ∧ decode layout = some m.layout

theorem decodeMembers_eq_some_iff {shape size fill layout : Option Document} {m : StorageMetadata} :
    decodeMembers shape size fill layout = some m ↔
      shape.bind decodeOffsets = some m.shape ∧ size.bind decodeOffset = some m.elementSize ∧
        decodeOptional fill = some m.fill ∧ layout.bind decode = some m.layout := by
  cases m
  simp only [decodeMembers, Option.bind_eq_bind, Option.bind_eq_some_iff, Option.some.injEq,
    StorageMetadata.mk.injEq]
  grind

theorem decode_eq_some_iff {doc : Document} {m : StorageMetadata} :
    decode doc = some m ↔ Says doc m := by
  constructor
  · intro h
    obtain ⟨members, hmembers, h⟩ := Option.bind_eq_some_iff.1 h
    split at h
    · obtain ⟨hshape, hsize, hfill, hlayout⟩ := decodeMembers_eq_some_iff.1 h
      obtain ⟨shape, rfl, hshape⟩ := Option.bind_eq_some_iff.1 hshape
      obtain ⟨size, rfl, hsize⟩ := Option.bind_eq_some_iff.1 hsize
      obtain ⟨layout, rfl, hlayout⟩ := Option.bind_eq_some_iff.1 hlayout
      exact ⟨shape, size, _, layout, hmembers, hshape, hsize, hfill, hlayout⟩
    · cases h
  · rintro ⟨shape, size, fill, layout, hmembers, hshape, hsize, hfill, hlayout⟩
    exact Option.bind_eq_some_iff.2
      ⟨_, hmembers, decodeMembers_eq_some_iff.2 ⟨hshape, hsize, hfill, hlayout⟩⟩

end StorageMetadata

instance : LawfulPersisted StorageMetadata where
  InRange m := (∀ n ∈ m.shape, n ≤ maxOffset) ∧ m.elementSize ≤ maxOffset ∧ m.layout.InRange
  decode_encode m := by
    rintro ⟨hshape, hsize, hlayout⟩
    refine StorageMetadata.decode_eq_some_iff.2 ⟨_, _, _, _, rfl, ?_⟩
    exact ⟨decodeOffsets_nats hshape, decodeOffset_nat hsize, decodeOptional_encode m.fill,
      decode_encode m.layout hlayout⟩
  inRange_of_decode h := by
    obtain ⟨_, _, _, _, -, hshape, hsize, -, hlayout⟩ := StorageMetadata.decode_eq_some_iff.1 h
    exact ⟨le_of_decodeOffsets hshape, le_of_decodeOffset hsize, inRange_of_decode hlayout⟩

theorem toOption_eq_some_iff {α ε : Type} {x : Except ε α} {v : α} :
    x.toOption = some v ↔ x = .ok v := by
  cases x <;> simp [Except.toOption]

namespace Descriptor

/-- A document says a descriptor if it says a declaration that is accepted. -/
theorem decode_eq_some_iff {doc : Document} {d : Descriptor} :
    decode doc = some d ↔ ∃ m, StorageMetadata.Says doc m ∧ create m = .ok d := by
  refine Option.bind_eq_some_iff.trans (exists_congr fun m => ?_)
  rw [StorageMetadata.decode_eq_some_iff, toOption_eq_some_iff]

end Descriptor

instance : LawfulPersisted Descriptor where
  InRange d := InRange d.toStorageMetadata
  decode_encode d h := by
    have hsays := StorageMetadata.decode_eq_some_iff.1 (decode_encode d.toStorageMetadata h)
    exact Descriptor.decode_eq_some_iff.2 ⟨_, hsays, Descriptor.create_eq_ok_iff.2 rfl⟩
  inRange_of_decode h := by
    obtain ⟨m, hsays, hcreate⟩ := Descriptor.decode_eq_some_iff.1 h
    rw [← Descriptor.create_eq_ok_iff.1 hcreate] at hsays
    exact inRange_of_decode (StorageMetadata.decode_eq_some_iff.2 hsays)

instance : LawfulPersisted RecordField where
  InRange f := f.offset ≤ maxOffset ∧ f.size ≤ maxOffset
  decode_encode f := by
    rintro ⟨hoffset, hsize⟩
    have hfields : (encode f).fields? ["name", "offset", "size"] =
        some [.string f.name, .nat f.offset, .nat f.size] := rfl
    refine Option.bind_eq_some_iff.2 ⟨_, hfields, ?_⟩
    refine Option.bind_eq_some_iff.2 ⟨f.name, rfl, ?_⟩
    refine Option.bind_eq_some_iff.2 ⟨_, decodeOffset_nat hoffset, ?_⟩
    exact Option.bind_eq_some_iff.2 ⟨_, decodeOffset_nat hsize, rfl⟩
  inRange_of_decode {d f} h := by
    obtain ⟨fields, -, h⟩ := Option.bind_eq_some_iff.1 h
    split at h
    · obtain ⟨name, -, h⟩ := Option.bind_eq_some_iff.1 h
      obtain ⟨offset, hoffset, h⟩ := Option.bind_eq_some_iff.1 h
      obtain ⟨size, hsize, h⟩ := Option.bind_eq_some_iff.1 h
      cases h
      exact ⟨le_of_decodeOffset hoffset, le_of_decodeOffset hsize⟩
    · cases h

namespace RecordLayout

/-- The record size and the fields that a document says, whether or not the fields fit. -/
def Says (doc : Document) (recordSize : Nat) (fields : List RecordField) : Prop :=
  ∃ size list, doc.fields? ["record_size", "fields"] = some [size, list] ∧
    decodeOffset size = some recordSize ∧ decodeList list = some fields

/-- A document says a record layout if it says a size and fields that are accepted. -/
theorem decode_eq_some_iff {doc : Document} {l : RecordLayout} :
    decode doc = some l ↔
      ∃ recordSize fields, Says doc recordSize fields ∧ create recordSize fields = .ok l := by
  constructor
  · intro h
    obtain ⟨members, hmembers, h⟩ := Option.bind_eq_some_iff.1 h
    split at h
    · obtain ⟨recordSize, hsize, h⟩ := Option.bind_eq_some_iff.1 h
      obtain ⟨fields, hfields, h⟩ := Option.bind_eq_some_iff.1 h
      exact ⟨recordSize, fields, ⟨_, _, hmembers, hsize, hfields⟩, toOption_eq_some_iff.1 h⟩
    · cases h
  · rintro ⟨recordSize, fields, ⟨size, list, hmembers, hsize, hfields⟩, h⟩
    refine Option.bind_eq_some_iff.2 ⟨_, hmembers, ?_⟩
    refine Option.bind_eq_some_iff.2 ⟨_, hsize, ?_⟩
    exact Option.bind_eq_some_iff.2 ⟨_, hfields, toOption_eq_some_iff.2 h⟩

end RecordLayout

instance : LawfulPersisted RecordLayout where
  InRange l := l.recordSize ≤ maxOffset ∧ ∀ field ∈ l.fields, InRange field
  decode_encode l := by
    rintro ⟨hsize, hfields⟩
    refine RecordLayout.decode_eq_some_iff.2
      ⟨l.recordSize, l.fields, ?_, RecordLayout.create_eq_ok_iff.2 ⟨rfl, rfl⟩⟩
    exact ⟨_, _, rfl, decodeOffset_nat hsize, decodeList_encodeList hfields⟩
  inRange_of_decode {d l} h := by
    obtain ⟨recordSize, fields, ⟨size, list, -, hsize, hfields⟩, h⟩ :=
      RecordLayout.decode_eq_some_iff.1 h
    obtain ⟨rfl, rfl⟩ := RecordLayout.create_eq_ok_iff.1 h
    exact ⟨le_of_decodeOffset hsize, inRange_of_decodeList hfields⟩

/-- The fields of a record end in it, so their numbers are no larger than its size. -/
theorem RecordLayout.inRange_of_size {l : RecordLayout} (h : l.recordSize ≤ maxOffset) :
    InRange l := by
  refine ⟨h, fun field hfield => ?_⟩
  have hfits := l.fits hfield
  exact ⟨by omega, by omega⟩

end Hyperslab
