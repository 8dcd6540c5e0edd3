import Hyperslab.Persist.Basic
import Hyperslab.Proofs.ChunkMap

/-!
# Reading what was written

A value is read as it was written where the numbers in it can be read, and every value that was read
is of that kind. Each type says of its own numbers what that means; lists, chunk maps and records of
such types are lawful because their members are.

## Main definitions

- `LawfulPersisted`: values that are read as they were written
- `encodeEntry`: a pair of a chunk map in a document

## Main statements

- `Document.mapM_map`, `Document.of_list?`: lists, member by member
- `decodeEntry_encodeEntry`, `inRange_of_decodeEntry`: the pairs of a chunk map
-/

namespace Hyperslab

open Persisted

namespace Document

theorem natUpTo?_nat {limit n : Nat} (h : n ≤ limit) : (nat n).natUpTo? limit = some n :=
  if_pos h

theorem le_of_natUpTo? {limit n : Nat} {d : Document} (h : d.natUpTo? limit = some n) :
    n ≤ limit := by
  unfold natUpTo? at h
  split at h
  · split at h
    · obtain ⟨hle, heq⟩ := Option.ite_none_right_eq_some.1 h
      cases heq
      exact hle
    · cases h
  · cases h

theorem mapM_map {α : Type} {read : Document → Option α} {write : α → Document} {items : List α}
    (h : ∀ x ∈ items, read (write x) = some x) : (items.map write).mapM read = some items := by
  induction items with
  | nil => rfl
  | cons x xs ih =>
    obtain ⟨hx, hxs⟩ := List.forall_mem_cons.1 h
    rw [List.map_cons, List.mapM_cons, hx, ih hxs]
    rfl

theorem of_mapM {α β : Type} {read : α → Option β} {items : List α} {values : List β}
    (h : items.mapM read = some values) : ∀ v ∈ values, ∃ item ∈ items, read item = some v := by
  induction items generalizing values with
  | nil =>
    cases h
    simp
  | cons item items ih =>
    rw [List.mapM_cons, Option.bind_eq_bind, Option.bind_eq_some_iff] at h
    obtain ⟨v, hv, h⟩ := h
    obtain ⟨vs, hvs, h⟩ := Option.bind_eq_some_iff.1 h
    cases h
    rw [List.forall_mem_cons]
    refine ⟨⟨item, List.mem_cons_self, hv⟩, fun w hw => ?_⟩
    obtain ⟨item', hitem', hread⟩ := ih hvs w hw
    exact ⟨item', List.mem_cons_of_mem item hitem', hread⟩

theorem of_list? {α : Type} {read : Document → Option α} {d : Document} {values : List α}
    (h : d.list? read = some values) : ∀ v ∈ values, ∃ item, read item = some v := by
  intro v hv
  unfold list? at h
  split at h
  · obtain ⟨item, -, hread⟩ := of_mapM h v hv
    exact ⟨item, hread⟩
  · cases h

end Document

/-- Values that are read as they were written, where the numbers in them can be read. -/
class LawfulPersisted (α : Type) [Persisted α] where
  /-- The numbers in the value are at most the largest ones that are read. -/
  InRange : α → Prop
  decode_encode : ∀ v : α, InRange v → decode (encode v) = some v
  inRange_of_decode : ∀ {d : Document} {v : α}, decode d = some v → InRange v

namespace Persisted

theorem decodeOffset_nat {n : Nat} (h : n ≤ maxOffset) : decodeOffset (.nat n) = some n :=
  Document.natUpTo?_nat h

theorem le_of_decodeOffset {n : Nat} {d : Document} (h : decodeOffset d = some n) :
    n ≤ maxOffset :=
  Document.le_of_natUpTo? h

theorem decodeOffsets_nats {ns : List Nat} (h : ∀ n ∈ ns, n ≤ maxOffset) :
    decodeOffsets (.nats ns) = some ns :=
  Document.mapM_map fun n hn => decodeOffset_nat (h n hn)

theorem le_of_decodeOffsets {ns : List Nat} {d : Document} (h : decodeOffsets d = some ns) :
    ∀ n ∈ ns, n ≤ maxOffset := by
  intro n hn
  obtain ⟨item, hitem⟩ := Document.of_list? h n hn
  exact le_of_decodeOffset hitem

end Persisted

open LawfulPersisted

section List

variable {α : Type} [Persisted α] [LawfulPersisted α]

theorem decodeList_encodeList {items : List α} (h : ∀ x ∈ items, InRange x) :
    decodeList (encodeList items) = some items :=
  Document.mapM_map fun x hx => decode_encode x (h x hx)

theorem inRange_of_decodeList {items : List α} {d : Document} (h : decodeList d = some items) :
    ∀ x ∈ items, InRange x := by
  intro x hx
  obtain ⟨item, hitem⟩ := Document.of_list? h x hx
  exact inRange_of_decode hitem

end List

instance : LawfulPersisted SectionRange where
  InRange r := r.start ≤ maxOffset ∧ r.stride ≤ maxOffset ∧ r.count ≤ maxOffset
  decode_encode r := by
    rintro ⟨hstart, hstride, hcount⟩
    have hfields : (encode r).fields? ["start", "stride", "count"] =
        some [.nat r.start, .nat r.stride, .nat r.count] := rfl
    refine Option.bind_eq_some_iff.2 ⟨_, hfields, ?_⟩
    refine Option.bind_eq_some_iff.2 ⟨_, decodeOffset_nat hstart, ?_⟩
    refine Option.bind_eq_some_iff.2 ⟨_, decodeOffset_nat hstride, ?_⟩
    refine Option.bind_eq_some_iff.2 ⟨_, decodeOffset_nat hcount, ?_⟩
    exact dif_pos r.stride_pos
  inRange_of_decode {d r} h := by
    obtain ⟨fields, -, h⟩ := Option.bind_eq_some_iff.1 h
    split at h
    · obtain ⟨start, hstart, h⟩ := Option.bind_eq_some_iff.1 h
      obtain ⟨stride, hstride, h⟩ := Option.bind_eq_some_iff.1 h
      obtain ⟨count, hcount, h⟩ := Option.bind_eq_some_iff.1 h
      obtain ⟨hpos, heq⟩ := Option.dite_none_right_eq_some.1 h
      cases heq
      exact ⟨le_of_decodeOffset hstart, le_of_decodeOffset hstride, le_of_decodeOffset hcount⟩
    · cases h

instance : LawfulPersisted Section where
  InRange s := ∀ range ∈ s.ranges, InRange range
  decode_encode s h := by
    have hfields : (encode s).fields? ["ranges"] = some [encodeList s.ranges] := rfl
    exact Option.bind_eq_some_iff.2 ⟨_, hfields,
      Option.bind_eq_some_iff.2 ⟨_, decodeList_encodeList h, rfl⟩⟩
  inRange_of_decode {d s} h := by
    obtain ⟨fields, -, h⟩ := Option.bind_eq_some_iff.1 h
    split at h
    · obtain ⟨ranges, hranges, h⟩ := Option.bind_eq_some_iff.1 h
      cases h
      exact inRange_of_decodeList hranges
    · cases h

instance : LawfulPersisted ByteRange where
  InRange r := r.offset ≤ maxOffset ∧ r.length ≤ maxOffset
  decode_encode r := by
    rintro ⟨hoffset, hlength⟩
    have hfields : (encode r).fields? ["offset", "length"] = some [.nat r.offset, .nat r.length] :=
      rfl
    refine Option.bind_eq_some_iff.2 ⟨_, hfields, ?_⟩
    refine Option.bind_eq_some_iff.2 ⟨_, decodeOffset_nat hoffset, ?_⟩
    exact Option.bind_eq_some_iff.2 ⟨_, decodeOffset_nat hlength, rfl⟩
  inRange_of_decode {d r} h := by
    obtain ⟨fields, -, h⟩ := Option.bind_eq_some_iff.1 h
    split at h
    · obtain ⟨offset, hoffset, h⟩ := Option.bind_eq_some_iff.1 h
      obtain ⟨length, hlength, h⟩ := Option.bind_eq_some_iff.1 h
      cases h
      exact ⟨le_of_decodeOffset hoffset, le_of_decodeOffset hlength⟩
    · cases h

theorem CodecId.decode_encode {id : CodecId} (h : id ≤ maxCodecId) :
    CodecId.decode (CodecId.encode id) = some id :=
  Document.natUpTo?_nat h

theorem CodecId.le_of_decode {id : CodecId} {d : Document} (h : CodecId.decode d = some id) :
    id ≤ maxCodecId :=
  Document.le_of_natUpTo? h

instance : LawfulPersisted FillValue where
  InRange _ := True
  decode_encode v _ := by
    have hbytes : (encode v).list? (·.natUpTo? 255) = some (v.bytes.toList.map (·.toNat)) := by
      refine Document.mapM_map fun n hn => Document.natUpTo?_nat ?_
      obtain ⟨b, -, rfl⟩ := List.mem_map.1 hn
      exact Nat.le_of_lt_succ b.toNat_lt
    refine Option.bind_eq_some_iff.2 ⟨_, hbytes, ?_⟩
    rw [List.map_map]
    simp [Function.comp_def]
  inRange_of_decode _ := trivial

instance : LawfulPersisted ChunkData where
  InRange
    | .contiguous range => InRange range
    | .linked segments => ∀ segment ∈ segments, InRange segment
  decode_encode data h := by
    cases data with
    | contiguous range =>
      have hsingle : (encode (ChunkData.contiguous range)).single? =
          some ("contiguous", encode range) := rfl
      refine Option.bind_eq_some_iff.2 ⟨_, hsingle, ?_⟩
      exact Option.bind_eq_some_iff.2 ⟨_, LawfulPersisted.decode_encode range h, rfl⟩
    | linked segments =>
      have hsingle : (encode (ChunkData.linked segments)).single? =
          some ("linked", encodeList segments) := rfl
      refine Option.bind_eq_some_iff.2 ⟨_, hsingle, ?_⟩
      exact Option.bind_eq_some_iff.2 ⟨_, decodeList_encodeList h, rfl⟩
  inRange_of_decode {d data} h := by
    obtain ⟨member, -, h⟩ := Option.bind_eq_some_iff.1 h
    split at h
    · obtain ⟨range, hrange, h⟩ := Option.bind_eq_some_iff.1 h
      cases h
      exact inRange_of_decode hrange
    · obtain ⟨segments, hsegments, h⟩ := Option.bind_eq_some_iff.1 h
      cases h
      exact inRange_of_decodeList hsegments
    · cases h

instance : LawfulPersisted CompressedChunk where
  InRange c := InRange c.data ∧ c.uncompressedLength ≤ maxOffset ∧ c.codec ≤ maxCodecId
  decode_encode c := by
    rintro ⟨hdata, hlength, hcodec⟩
    have hfields : (encode c).fields? ["data", "uncompressed_length", "codec"] =
        some [encode c.data, .nat c.uncompressedLength, CodecId.encode c.codec] := rfl
    refine Option.bind_eq_some_iff.2 ⟨_, hfields, ?_⟩
    refine Option.bind_eq_some_iff.2 ⟨_, LawfulPersisted.decode_encode c.data hdata, ?_⟩
    refine Option.bind_eq_some_iff.2 ⟨_, decodeOffset_nat hlength, ?_⟩
    exact Option.bind_eq_some_iff.2 ⟨_, CodecId.decode_encode hcodec, rfl⟩
  inRange_of_decode {d c} h := by
    obtain ⟨fields, -, h⟩ := Option.bind_eq_some_iff.1 h
    split at h
    · obtain ⟨data, hdata, h⟩ := Option.bind_eq_some_iff.1 h
      obtain ⟨length, hlength, h⟩ := Option.bind_eq_some_iff.1 h
      obtain ⟨codec, hcodec, h⟩ := Option.bind_eq_some_iff.1 h
      cases h
      exact ⟨inRange_of_decode hdata, le_of_decodeOffset hlength, CodecId.le_of_decode hcodec⟩
    · cases h

namespace ChunkShape

/-- The lengths of the chunk can be read. -/
def InRange (c : ChunkShape) : Prop :=
  ∀ n ∈ c, n.val ≤ maxOffset

theorem decode_encode {c : ChunkShape} (h : c.InRange) : decode (encode c) = some c := by
  rw [encode, toShape, Document.nats, List.map_map]
  refine Document.mapM_map fun n hn => ?_
  exact Option.bind_eq_some_iff.2 ⟨_, decodeOffset_nat (h n hn), dif_pos n.property⟩

theorem inRange_of_decode {c : ChunkShape} {d : Document} (h : decode d = some c) : c.InRange := by
  intro n hn
  obtain ⟨item, hitem⟩ := Document.of_list? h n hn
  obtain ⟨m, hm, hitem⟩ := Option.bind_eq_some_iff.1 hitem
  obtain ⟨hpos, heq⟩ := Option.dite_none_right_eq_some.1 hitem
  cases heq
  exact le_of_decodeOffset hm

end ChunkShape

section ChunkMap

variable {α : Type} [Persisted α] [LawfulPersisted α]

/-- A pair of an origin and what is stored there. -/
def encodeEntry (e : Index × α) : Document :=
  .list [.nats e.1, encode e.2]

theorem decodeEntry_encodeEntry {e : Index × α} (horigin : ∀ n ∈ e.1, n ≤ maxOffset)
    (hvalue : InRange e.2) : decodeEntry (encodeEntry e) = some e :=
  Option.bind_eq_some_iff.2 ⟨_, decodeOffsets_nats horigin,
    Option.bind_eq_some_iff.2 ⟨_, decode_encode e.2 hvalue, rfl⟩⟩

theorem inRange_of_decodeEntry {e : Index × α} {d : Document} (h : decodeEntry d = some e) :
    (∀ n ∈ e.1, n ≤ maxOffset) ∧ InRange e.2 := by
  unfold decodeEntry at h
  split at h
  · obtain ⟨origin, horigin, h⟩ := Option.bind_eq_some_iff.1 h
    obtain ⟨value, hvalue, h⟩ := Option.bind_eq_some_iff.1 h
    cases h
    exact ⟨le_of_decodeOffsets horigin, inRange_of_decode hvalue⟩
  · cases h

instance : LawfulPersisted (ChunkMap α) where
  InRange m := ∀ e ∈ m.entries, (∀ n ∈ e.1, n ≤ maxOffset) ∧ InRange e.2
  decode_encode m h := by
    have hentries : (encode m).list? decodeEntry = some m.entries :=
      Document.mapM_map fun e he => decodeEntry_encodeEntry (h e he).1 (h e he).2
    exact Option.bind_eq_some_iff.2 ⟨_, hentries, congrArg some m.ofList_entries⟩
  inRange_of_decode {d m} h := by
    obtain ⟨entries, hentries, h⟩ := Option.bind_eq_some_iff.1 h
    cases h
    intro e he
    obtain ⟨item, hitem⟩ := Document.of_list? hentries e (ChunkMap.mem_of_mem_ofList he)
    exact inRange_of_decodeEntry hitem

end ChunkMap

end Hyperslab
