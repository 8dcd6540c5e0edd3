import Hyperslab.Proofs.Read.Chunk

/-!
# Fragments of a payload

The encoded bytes of a chunk may be kept in one range or in a chain of segments, cut anywhere and
put anywhere. What the chunk comes to is a function of the concatenated bytes and of what is
declared of the chunk: the bytes it is decoded to, or the kind of its failure.

## Main definitions

- `ReadError.kind`: the kind of a failure
- `ChunkData.Stores`: a payload is cut into the pieces of a chunk
- `unpackPayload`: what a payload comes to as a chunk

## Main statements

- `CompressedChunk.kind_fetch`: a chunk comes to what its payload does
- `fetchChunk_of_same_payload`: two ways to keep a payload come to the same
-/

namespace Hyperslab

/-- The kinds of failures of a read, without what is said of the cause. -/
inductive ReadErrorKind where
  | invalidSection
  | storage
  | corruptChunk
  | unsupportedCodec
  | corruptRecord
  | destinationSize
  | invalidDescriptor
  | defect
  /-- The program stops. -/
  | halted
deriving DecidableEq, Repr

def ReadError.kind : ReadError → ReadErrorKind
  | invalidSection _ => .invalidSection
  | storage _ => .storage
  | corruptChunk _ => .corruptChunk
  | unsupportedCodec _ => .unsupportedCodec
  | corruptRecord _ => .corruptRecord
  | destinationSize _ _ => .destinationSize
  | invalidDescriptor _ => .invalidDescriptor
  | defect _ => .defect
  | halted _ => .halted

theorem Codec.id_eq_zero_or_four (codec : Codec) : codec.id = 0 ∨ codec.id = 4 := by
  cases codec
  · exact .inl rfl
  · exact .inr rfl

/-- The pieces of a chunk lie inside of the content, and one after the other they are the payload.
Pieces may be empty, in any physical order and on top of each other. -/
structure ChunkData.Stores (data : ChunkData) (content payload : Bytes) : Prop where
  inside : data.Inside content
  stop_le : ∀ segment ∈ data.segments, segment.offset + segment.length ≤ maxOffset
  bytes_eq : chainBytes content data.segments = payload

section Payload

variable [Decoder]

/-- What a payload comes to as a chunk with a declared length, where so many decoded bytes are
allowed. The program stops where one has no buffer of the declared length. Bytes after the end of a
zlib stream are no part of it. -/
def unpackPayload (payload : Bytes) (id : CodecId) (declared allowed : Nat) :
    Except ReadErrorKind Bytes :=
  if allowed < declared then .error .corruptChunk
  else
    match Codec.ofId id with
    | .error _ => .error .unsupportedCodec
    | .ok codec =>
      if Bytes.maxCapacity < declared then .error .halted
      else
        match codec.decode payload with
        | .ok bytes => if bytes.size = declared then .ok bytes else .error .corruptChunk
        | .error _ => .error .corruptChunk

variable {payload bytes : Bytes} {id : CodecId} {codec : Codec} {declared allowed : Nat}

theorem unpackPayload_of_lt (h : allowed < declared) :
    unpackPayload payload id declared allowed = .error .corruptChunk := by
  rw [unpackPayload, if_pos h]

theorem unpackPayload_of_unknown (hle : declared ≤ allowed) (h : ∀ codec : Codec, codec.id ≠ id) :
    unpackPayload payload id declared allowed = .error .unsupportedCodec := by
  rw [unpackPayload, if_neg (Nat.not_lt.2 hle), Codec.ofId_of_ne h]

theorem unpackPayload_of_large (hle : declared ≤ allowed) (hid : codec.id = id)
    (hlarge : Bytes.maxCapacity < declared) :
    unpackPayload payload id declared allowed = .error .halted := by
  rw [unpackPayload, if_neg (Nat.not_lt.2 hle), ← hid, Codec.ofId_id]
  exact if_pos hlarge

theorem unpackPayload_of_decode (hle : declared ≤ allowed) (hid : codec.id = id)
    (hcapacity : declared ≤ Bytes.maxCapacity)
    (hdecode : codec.decode payload = .ok bytes) (hsize : bytes.size = declared) :
    unpackPayload payload id declared allowed = .ok bytes := by
  rw [unpackPayload, if_neg (Nat.not_lt.2 hle), ← hid, Codec.ofId_id]
  dsimp only
  rw [if_neg (Nat.not_lt.2 hcapacity), hdecode]
  exact if_pos hsize

/-- A payload that is not decoded to as many bytes as declared is corrupt. -/
theorem unpackPayload_of_corrupt (hle : declared ≤ allowed) (hid : codec.id = id)
    (hcapacity : declared ≤ Bytes.maxCapacity)
    (h : ∀ bytes, codec.decode payload = .ok bytes → bytes.size ≠ declared) :
    unpackPayload payload id declared allowed = .error .corruptChunk := by
  rw [unpackPayload, if_neg (Nat.not_lt.2 hle), ← hid, Codec.ofId_id]
  dsimp only
  rw [if_neg (Nat.not_lt.2 hcapacity)]
  split
  · exact if_neg (h _ ‹_›)
  · rfl

end Payload

namespace CompressedChunk

variable [Decoder] {source : ByteSource} {content payload : Bytes} {options : ReadOptions}
  {chunk : CompressedChunk}

theorem unpackPayload_of_decodes {bytes : Bytes} (hstores : chunk.data.Stores content payload)
    (h : chunk.Decodes content options bytes) :
    unpackPayload payload chunk.codec chunk.uncompressedLength options.maxDecodedChunkSize =
      .ok bytes := by
  obtain ⟨hcapacity, hlimit, hsize, codec, hcodec, hdecode⟩ := h
  rw [← hstores.bytes_eq]
  exact unpackPayload_of_decode hlimit hcodec hcapacity hdecode hsize

theorem unpackPayload_of_bad {e : ReadError} (hstores : chunk.data.Stores content payload)
    (h : chunk.Bad content options e) :
    unpackPayload payload chunk.codec chunk.uncompressedLength options.maxDecodedChunkSize =
      .error e.kind := by
  obtain ⟨hfails, hnot⟩ := h
  rw [← hstores.bytes_eq]
  cases hfails with
  | tooLarge hlt cause => exact unpackPayload_of_lt hlt
  | unknown hlimit hunknown => exact unpackPayload_of_unknown hlimit hunknown
  | large hlimit hknown hlarge =>
    obtain ⟨codec, hcodec⟩ := hknown
    exact unpackPayload_of_large hlimit hcodec hlarge
  | corrupt hlimit hknown hcapacity cause =>
    obtain ⟨codec, hcodec⟩ := hknown
    refine unpackPayload_of_corrupt hlimit hcodec hcapacity fun bytes hdecode hsize => hnot ?_
    exact ⟨bytes, hcapacity, hlimit, hsize, codec, hcodec, hdecode⟩

/-- What a chunk comes to is what its payload comes to, whatever pieces it is kept in. -/
theorem kind_fetch [LawfulDecoder] (chunk : CompressedChunk) (options : ReadOptions)
    (hholds : source.Holds content) (hstores : chunk.data.Stores content payload) (a : Activity) :
    ((fetchChunk source options (.compressed chunk)).outcome a).1.mapError ReadError.kind =
      unpackPayload payload chunk.codec chunk.uncompressedLength options.maxDecodedChunkSize := by
  rw [fetchChunk]
  rcases (chunk.ends_decode hholds hstores.inside hstores.stop_le a).cases with
    ⟨bytes, a', houtcome, hdecodes⟩ | ⟨e, a', houtcome, hbad⟩
  · rw [houtcome, unpackPayload_of_decodes hstores hdecodes]
    rfl
  · rw [houtcome, unpackPayload_of_bad hstores hbad]
    rfl

/-- The declaration of a chunk is enough to refuse it: nothing is asked of any source. -/
theorem activity_fetch_of_refused (chunk : CompressedChunk) (options : ReadOptions)
    (source : ByteSource)
    (hrefused : options.maxDecodedChunkSize < chunk.uncompressedLength ∨
      (chunk.codec ≠ 0 ∧ chunk.codec ≠ 4)) (a : Activity) :
    ((fetchChunk source options (.compressed chunk)).outcome a).2 = a := by
  apply SourceM.Ends.activity (P := fun a' => a' = a)
  rw [fetchChunk, decode, SourceM.ends_bind]
  by_cases hlt : options.maxDecodedChunkSize < chunk.uncompressedLength
  · rw [checkDecodedSize, if_pos hlt, SourceM.ends_ofExcept_error]
  · obtain ⟨hzero, hfour⟩ := hrefused.resolve_left hlt
    have hunknown : ∀ codec : Codec, codec.id ≠ chunk.codec := by
      intro codec hid
      rcases codec.id_eq_zero_or_four with h | h
      · exact hzero (hid.symm.trans h)
      · exact hfour (hid.symm.trans h)
    rw [checkDecodedSize, if_neg hlt, SourceM.ends_ofExcept_ok, SourceM.ends_bind,
      findCodec_of_ne hunknown, SourceM.ends_ofExcept_error]

end CompressedChunk

section Placements

variable [Decoder] [LawfulDecoder] {source source' : ByteSource} {content content' payload : Bytes}
  {data data' : ChunkData} {options options' : ReadOptions}

/-- Two chunks of one payload that are declared alike come to the same, in whatever pieces the
payload is kept and at whatever size the pieces are requested: the bytes it is decoded to, or the
same kind of failure, or the program stops as one has no buffer of the declared length. Where the
declared length is beyond the limit or the codec is not known, there is no request. All this is over
any lawful decoder. -/
theorem fetchChunk_of_same_payload (hholds : source.Holds content)
    (hholds' : source'.Holds content') (hstores : data.Stores content payload)
    (hstores' : data'.Stores content' payload)
    (hallowed : options.maxDecodedChunkSize = options'.maxDecodedChunkSize) (id : CodecId)
    (declared : Nat) (a a' : Activity) :
    let fetched := (fetchChunk source options (.compressed ⟨data, declared, id⟩)).outcome a
    let fetched' := (fetchChunk source' options' (.compressed ⟨data', declared, id⟩)).outcome a'
    fetched.1.mapError ReadError.kind = fetched'.1.mapError ReadError.kind ∧
      fetched.1.mapError ReadError.kind =
        unpackPayload payload id declared options.maxDecodedChunkSize ∧
      (options.maxDecodedChunkSize < declared ∨ (id ≠ 0 ∧ id ≠ 4) →
        fetched.2 = a ∧ fetched'.2 = a') := by
  dsimp only
  have hkind := CompressedChunk.kind_fetch ⟨data, declared, id⟩ options hholds hstores a
  have hkind' := CompressedChunk.kind_fetch ⟨data', declared, id⟩ options' hholds' hstores' a'
  refine ⟨?_, hkind, fun hrefused => ⟨?_, ?_⟩⟩
  · rw [hkind, hkind', hallowed]
  · exact CompressedChunk.activity_fetch_of_refused _ options source hrefused a
  · rw [hallowed] at hrefused
    exact CompressedChunk.activity_fetch_of_refused _ options' source' hrefused a'

end Placements

/-- The end and the start of a zlib stream of three bytes, and after them the stream in one
piece. -/
def scatteredPayload : Bytes :=
  #[252, 255, 7, 8, 9, 0, 49, 0, 25, 120, 1, 1, 3, 0,
    120, 1, 1, 3, 0, 252, 255, 7, 8, 9, 0, 49, 0, 25]

/-- The stream in one piece. -/
def scatteredWhole : ChunkData :=
  .contiguous ⟨14, 14⟩

/-- The same stream in parts, with an empty segment beyond the content between them. -/
def scatteredParts : ChunkData :=
  .linked [⟨9, 5⟩, ⟨40, 0⟩, ⟨0, 9⟩]

/-- The parts are fetched like the whole, also with requests of one byte each, and come to the three
bytes. -/
theorem fetchChunk_scattered :
    (((fetchChunk (.memory scatteredPayload) {} (.compressed ⟨scatteredWhole, 3, 4⟩)).outcome {}).1
        |>.mapError ReadError.kind).toOption = some #[7, 8, 9] ∧
      (((fetchChunk (.memory scatteredPayload) { segmentReadSize := 1 }
        (.compressed ⟨scatteredParts, 3, 4⟩)).outcome {}).1
        |>.mapError ReadError.kind).toOption = some #[7, 8, 9] := by
  have hwhole : scatteredWhole.Stores scatteredPayload (scatteredPayload.extract 14 28) :=
    { inside := by decide
      stop_le := by decide
      bytes_eq := by decide }
  have hparts : scatteredParts.Stores scatteredPayload (scatteredPayload.extract 14 28) :=
    { inside := by decide
      stop_le := by decide
      bytes_eq := by decide }
  have hholds := ByteSource.holds_memory scatteredPayload
  have hunpack : (unpackPayload (scatteredPayload.extract 14 28) 4 3
      ({} : ReadOptions).maxDecodedChunkSize).toOption = some #[7, 8, 9] := by
    decide +kernel
  have hallowed : ({} : ReadOptions).maxDecodedChunkSize =
      ({ segmentReadSize := 1 } : ReadOptions).maxDecodedChunkSize := rfl
  obtain ⟨hsame, hkind, -⟩ :=
    fetchChunk_of_same_payload hholds hholds hwhole hparts hallowed 4 3 {} {}
  rw [← hsame, hkind]
  exact ⟨hunpack, hunpack⟩

/-- A chunk of one byte that is declared to have one byte more than a buffer can have, with options
that allow it, stops the program, and does not come out as corrupt. -/
theorem fetchChunk_huge :
    ((fetchChunk (.memory #[0]) { maxDecodedChunkSize := maxOffset }
        (.compressed ⟨.contiguous ⟨0, 1⟩, 9223372036854775808, 0⟩)).outcome {}).1 =
      .error (.halted (.capacity 9223372036854775808)) := by
  rfl

end Hyperslab
