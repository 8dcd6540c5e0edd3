import Hyperslab.Descriptor.Basic
import Hyperslab.Persist.Document
import Hyperslab.Record.Layout

/-!
# Persistence

How the values of the library are written as documents and read back. Reading checks what the
constructors check: a stride and a chunk length are not zero, a descriptor is consistent and the
fields of a record fit. Chunk maps are written in the order of their origins; in a list that is read
the last entry of an origin counts.
-/

namespace Hyperslab

/-- Values that are written as documents. -/
class Persisted (α : Type) where
  encode : α → Document
  decode : Document → Option α

namespace Persisted

def encodeList {α : Type} [Persisted α] (items : List α) : Document :=
  .list (items.map encode)

def decodeList {α : Type} [Persisted α] (d : Document) : Option (List α) :=
  d.list? decode

/-- An offset, an index or a length. -/
def decodeOffset (d : Document) : Option Nat :=
  d.natUpTo? maxOffset

def decodeOffsets (d : Document) : Option (List Nat) :=
  d.list? decodeOffset

end Persisted

open Persisted

instance : Persisted SectionRange where
  encode r :=
    .object [("start", .nat r.start), ("stride", .nat r.stride), ("count", .nat r.count)]
  decode d := do
    match ← d.fields? ["start", "stride", "count"] with
    | [start, stride, count] =>
      SectionRange.ofStride? (← decodeOffset start) (← decodeOffset stride) (← decodeOffset count)
    | _ => none

instance : Persisted Section where
  encode s := .object [("ranges", encodeList s.ranges)]
  decode d := do
    match ← d.fields? ["ranges"] with
    | [ranges] => some ⟨← decodeList ranges⟩
    | _ => none

instance : Persisted ByteRange where
  encode r := .object [("offset", .nat r.offset), ("length", .nat r.length)]
  decode d := do
    match ← d.fields? ["offset", "length"] with
    | [offset, length] => some ⟨← decodeOffset offset, ← decodeOffset length⟩
    | _ => none

def maxCodecId : CodecId := 4294967295

/-- A codec is written as its number. -/
def CodecId.encode (id : CodecId) : Document :=
  .nat id

/-- The number of a codec. -/
def CodecId.decode (d : Document) : Option CodecId :=
  d.natUpTo? maxCodecId

instance : Persisted FillValue where
  encode v := .nats (v.bytes.toList.map (·.toNat))
  decode d := do
    let bytes ← d.list? (·.natUpTo? 255)
    some ⟨(bytes.map UInt8.ofNat).toArray⟩

instance : Persisted ChunkData where
  encode
    | .contiguous range => .object [("contiguous", encode range)]
    | .linked segments => .object [("linked", encodeList segments)]
  decode d := do
    match ← d.single? with
    | ("contiguous", range) => some (.contiguous (← decode range))
    | ("linked", segments) => some (.linked (← decodeList segments))
    | _ => none

instance : Persisted CompressedChunk where
  encode c :=
    .object
      [("data", encode c.data), ("uncompressed_length", .nat c.uncompressedLength),
        ("codec", CodecId.encode c.codec)]
  decode d := do
    match ← d.fields? ["data", "uncompressed_length", "codec"] with
    | [data, length, codec] =>
      some ⟨← decode data, ← decodeOffset length, ← CodecId.decode codec⟩
    | _ => none

/-- A chunk shape is written as a list of its lengths. -/
def ChunkShape.encode (c : ChunkShape) : Document :=
  .nats c.toShape

/-- The lengths of a chunk, none of them zero. -/
def ChunkShape.decode (d : Document) : Option ChunkShape :=
  d.list? fun n => do
    let n ← decodeOffset n
    PosNat.ofNat? n

/-- A pair of an origin and what is stored there. -/
def decodeEntry {α : Type} [Persisted α] (d : Document) : Option (Index × α) :=
  match d with
  | .list [origin, value] => do some (← decodeOffsets origin, ← decode value)
  | _ => none

instance {α : Type} [Persisted α] : Persisted (ChunkMap α) where
  encode m := .list (m.entries.map fun (origin, value) => .list [.nats origin, encode value])
  decode d := do
    let entries ← d.list? decodeEntry
    some (ChunkMap.ofList entries)

namespace StorageLayout

/-- What a layout says beside its kind. -/
def encodeMembers : StorageLayout → List (String × Document)
  | noData => []
  | regular baseOffset => [("base_offset", .nat baseOffset)]
  | compressed data length codec =>
    [("data", encode data), ("uncompressed_length", .nat length), ("codec", CodecId.encode codec)]
  | segmented segments => [("segments", encodeList segments)]
  | tiled chunkShape chunks =>
    [("chunk_shape", ChunkShape.encode chunkShape), ("chunks", encode chunks)]
  | compressedTiled chunkShape chunks =>
    [("chunk_shape", ChunkShape.encode chunkShape), ("chunks", encode chunks)]
  | compressedSegmented segments codec length =>
    [("segments", encodeList segments), ("codec", CodecId.encode codec),
      ("uncompressed_length", .nat length)]

/-- The layout of the given kind. -/
def decodeKind (kind : String) (d : Document) : Option StorageLayout :=
  match kind with
  | "no_data" =>
    -- as a list it has no second item, as an object anything else is passed over
    match d with
    | .list (_ :: _) => none
    | _ => some noData
  | "regular" => do
    match ← d.fields? ["base_offset"] with
    | [baseOffset] => some (regular (← decodeOffset baseOffset))
    | _ => none
  | "compressed" => do
    match ← d.fields? ["data", "uncompressed_length", "codec"] with
    | [data, length, codec] =>
      some (compressed (← decode data) (← decodeOffset length) (← CodecId.decode codec))
    | _ => none
  | "segmented" => do
    match ← d.fields? ["segments"] with
    | [segments] => some (segmented (← decodeList segments))
    | _ => none
  | "tiled" => do
    match ← d.fields? ["chunk_shape", "chunks"] with
    | [chunkShape, chunks] => some (tiled (← ChunkShape.decode chunkShape) (← decode chunks))
    | _ => none
  | "compressed_tiled" => do
    match ← d.fields? ["chunk_shape", "chunks"] with
    | [chunkShape, chunks] =>
      some (compressedTiled (← ChunkShape.decode chunkShape) (← decode chunks))
    | _ => none
  | "compressed_segmented" => do
    match ← d.fields? ["segments", "codec", "uncompressed_length"] with
    | [segments, codec, length] =>
      some (compressedSegmented (← decodeList segments) (← CodecId.decode codec)
        (← decodeOffset length))
    | _ => none
  | _ => none

end StorageLayout

instance : Persisted StorageLayout where
  encode l := .object (("kind", .string l.name) :: l.encodeMembers)
  decode d := do
    let (kind, members) ← d.tagged? "kind"
    StorageLayout.decodeKind kind members

/-- A value that may be missing, or null. -/
def decodeOptional {α : Type} [Persisted α] : Option Document → Option (Option α)
  | none | some .null => some none
  | some d => (decode d).map some

namespace StorageMetadata

/-- The declaration with the given members. The fill value may be missing. -/
def decodeMembers (shape elementSize fill layout : Option Document) : Option StorageMetadata := do
  some
    { shape := ← decodeOffsets (← shape)
      elementSize := ← decodeOffset (← elementSize)
      fill := ← decodeOptional fill
      layout := ← decode (← layout) }

end StorageMetadata

instance : Persisted StorageMetadata where
  encode m :=
    .object
      [("variable_shape", .nats m.shape), ("element_size", .nat m.elementSize),
        ("fill_value", (m.fill.map encode).getD .null), ("layout", encode m.layout)]
  decode d := do
    match ← d.record? ["variable_shape", "element_size", "fill_value", "layout"] with
    | [shape, elementSize, fill, layout] =>
      StorageMetadata.decodeMembers shape elementSize fill layout
    | _ => none

instance {b : Build} : Persisted (Descriptor b) where
  encode d := encode d.toStorageMetadata
  decode d := do
    let m ← decode d
    (Descriptor.create m b).toOption

instance : Persisted RecordField where
  encode f :=
    .object [("name", .string f.name), ("offset", .nat f.offset), ("size", .nat f.size)]
  decode d := do
    match ← d.fields? ["name", "offset", "size"] with
    | [name, offset, size] =>
      some ⟨← name.string?, ← decodeOffset offset, ← decodeOffset size⟩
    | _ => none

instance : Persisted RecordLayout where
  encode l := .object [("record_size", .nat l.recordSize), ("fields", encodeList l.fields)]
  decode d := do
    match ← d.fields? ["record_size", "fields"] with
    | [recordSize, fields] =>
      (RecordLayout.create (← decodeOffset recordSize) (← decodeList fields)).toOption
    | _ => none

end Hyperslab
