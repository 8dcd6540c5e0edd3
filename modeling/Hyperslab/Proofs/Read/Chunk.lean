import Hyperslab.Proofs.Read.Compressed

/-!
# Decoded chunks

A compressed chunk is decoded as a whole, up to one byte after its declared length. It comes out
where its payload is decoded without a fault to just as many bytes as declared, with a codec that is
known, within the limits of the options and those of a buffer. Otherwise it fails, and how it fails
is said by what is declared of it: a codec that is not known is named, the program stops where one
has no buffer of the declared length, and everything else is corrupt.

## Main definitions

- `ChunkData.Inside`: the encoded bytes of a chunk lie inside of a content
- `CompressedChunk.Good`, `CompressedChunk.Bad`: a chunk is what was declared, or fails on its own

## Main statements

- `DecodedStream.ends_readDeclared`: the bytes of a stream up to one after a number of them
- `CompressedChunk.ends_decode`: a chunk comes out or fails
-/

namespace Hyperslab

variable {content : Bytes} {codec : Codec} {source : ByteSource} {options : ReadOptions}

theorem Codec.eq_of_id_eq {codec codec' : Codec} (h : codec.id = codec'.id) : codec = codec' := by
  have hfound := congrArg Codec.ofId h
  rw [Codec.ofId_id, Codec.ofId_id] at hfound
  exact Except.ok.inj hfound

namespace EncodedStream

variable [Decoder] {e : EncodedStream} {bytes : Bytes}

/-- What the payload is decoded to without a fault. -/
def decoded? (e : EncodedStream) (content : Bytes) : Option Bytes :=
  match Codec.ofId e.codec with
  | .ok codec => (codec.decode (chainBytes content e.segments)).toOption
  | .error _ => none

theorem Yields.decoded?_eq (h : e.Yields content options bytes) :
    e.decoded? content = some bytes := by
  obtain ⟨-, -, codec, hcodec, hdecode⟩ := h
  rw [decoded?, ← hcodec, Codec.ofId_id]
  dsimp only
  rw [hdecode]
  rfl

/-- A payload that yields something has a codec that is known, and is decoded to just as many bytes
as declared. -/
theorem Yields.decodes (h : e.Yields content options bytes) (hcodec : codec.id = e.codec) :
    codec.Decodes (chainBytes content e.segments) e.length := by
  obtain ⟨-, hsize, codec', hcodec', hdecode⟩ := h
  obtain rfl := Codec.eq_of_id_eq (hcodec.trans hcodec'.symm)
  obtain ⟨hclean, houtput⟩ := Codec.decode_eq_ok_iff.1 hdecode
  exact ⟨hclean, by rw [houtput, hsize]⟩

end EncodedStream

namespace ChunkData

/-- The encoded bytes lie inside of the content. A range in one piece is requested as it is, while
the segments of a chain that hold nothing are never asked for. -/
def Inside (content : Bytes) : ChunkData → Prop
  | contiguous range => range.offset + range.length ≤ content.size
  | linked segments => ∀ segment ∈ segments,
      segment.length = 0 ∨ segment.offset + segment.length ≤ content.size

instance (content : Bytes) (data : ChunkData) : Decidable (data.Inside content) :=
  match data with
  | contiguous range =>
    inferInstanceAs (Decidable (range.offset + range.length ≤ content.size))
  | linked segments =>
    inferInstanceAs (Decidable (∀ segment ∈ segments,
      segment.length = 0 ∨ segment.offset + segment.length ≤ content.size))

variable {data : ChunkData}

/-- The payload of a chunk stands for its encoded bytes. -/
theorem ends_payload (hholds : source.Holds content) (hinside : data.Inside content)
    (hmax : ∀ segment ∈ data.segments, segment.offset + segment.length ≤ maxOffset)
    (a : Activity) :
    SourceM.Ends (data.payload source options) a
      (fun payload _ => payload.Within content ∧
        payload.bytes content = chainBytes content data.segments)
      (fun _ _ => False) := by
  cases data with
  | contiguous range =>
    have hfetch := hholds.readAt a.requests.toList range (hmax range List.mem_cons_self) hinside
    rw [payload, SourceM.ends_bind, SourceM.ends_fetch_of_ok hfetch]
    refine ⟨trivial, ?_⟩
    show Array.extract _ 0 _ = _ ++ _
    rw [Array.extract_size, chainBytes, Array.append_empty]
  | linked segments =>
    refine ⟨fun segment hsegment hsome => ⟨?_, hmax segment hsegment⟩, rfl⟩
    exact (hinside segment hsegment).resolve_left hsome

end ChunkData

namespace DecodedStream

variable {encoded : Bytes}

theorem wantedFor_pos {largest : Nat} (hlargest : 0 < largest) (missing : Nat) :
    0 < wantedFor missing largest := by
  unfold wantedFor probeSize
  split <;> omega

variable [Decoder] [LawfulDecoder]

/-- What is held is put before the bytes after it, and they stop within the declared length only at
the end of the stream. -/
theorem ends_readDeclaredFrom (hserves : source.Serves content) (s : DecodedStream)
    (declared : Nat) (held : Bytes) (largest : Nat) (hlargest : 0 < largest)
    (h : s.At content codec encoded held.size)
    (hheld : held = (codec.output encoded).extract 0 held.size) (a : Activity) :
    SourceM.Ends (s.readDeclaredFrom source declared held largest) a
      (fun bytes _ => bytes.size ≤ (codec.output encoded).size ∧
        bytes = (codec.output encoded).extract 0 bytes.size ∧
        (bytes.size ≤ declared → codec.Decodes encoded bytes.size))
      (fun e _ => codec.Broken encoded e) := by
  fun_induction s.readDeclaredFrom source declared held largest generalizing a with
  | case1 s held largest hlonger =>
    exact ⟨h.le_size, hheld, fun hle => absurd hlonger (Nat.not_lt.2 hle)⟩
  | case2 s held largest hmissing wanted =>
    rename_i ih
    rw [SourceM.ends_bind]
    refine (ends_read hserves h (wantedFor_pos hlargest _) a).mono ?_ fun _ _ he => he
    rintro ⟨bytes, s'⟩ a' ⟨hat, -, hbytes, hend⟩
    dsimp only at hat hbytes hend ⊢
    split
    · rename_i hzero
      exact ⟨h.le_size, hheld, fun _ => hend hzero⟩
    · rename_i hsome
      have hsize : (held ++ bytes).size = held.size + bytes.size := Array.size_append
      refine ih bytes s' hsome (largestAfter_pos (by decide) hlargest _ _) (hsize ▸ hat) ?_ a'
      rw [hsize]
      conv => lhs; rw [hheld, hbytes]
      rw [Array.extract_append_extract]
      congr 1
      omega

theorem ends_readDeclared (hserves : source.Serves content) {s : DecodedStream}
    (h : s.At content codec encoded 0) (declared : Nat) (a : Activity) :
    SourceM.Ends (s.readDeclared source declared) a
      (fun bytes _ => bytes.size ≤ (codec.output encoded).size ∧
        bytes = (codec.output encoded).extract 0 bytes.size ∧
        (bytes.size ≤ declared → codec.Decodes encoded bytes.size))
      (fun e _ => codec.Broken encoded e) :=
  ends_readDeclaredFrom hserves s declared #[] firstLargest (by decide) h
    (Array.extract_empty_of_stop_le_start (Nat.le_refl 0)).symm a

end DecodedStream

namespace CompressedChunk

/-- What the chunk is decoded from, and what is declared of it. -/
def encoded (chunk : CompressedChunk) : EncodedStream :=
  ⟨chunk.data.segments, chunk.codec, chunk.uncompressedLength⟩

variable [Decoder]

/-- The chunk is decoded to some bytes, within the limits of the options and those of a buffer. -/
def Decodes (chunk : CompressedChunk) (content : Bytes) (options : ReadOptions) (bytes : Bytes) :
    Prop :=
  chunk.uncompressedLength ≤ Bytes.maxCapacity ∧ chunk.encoded.Yields content options bytes

/-- The chunk is stored as it is declared. -/
def Good (chunk : CompressedChunk) (content : Bytes) (options : ReadOptions) : Prop :=
  ∃ bytes, chunk.Decodes content options bytes

/-- The failures of a chunk that is not good. The limit comes before the codec, the codec before the
buffer and the buffer before the payload is decoded. -/
inductive FailsWith (chunk : CompressedChunk) (options : ReadOptions) : ReadError → Prop where
  | tooLarge (h : options.maxDecodedChunkSize < chunk.uncompressedLength) (cause : CorruptChunk) :
    FailsWith chunk options (.corruptChunk cause)
  | unknown (hlimit : chunk.uncompressedLength ≤ options.maxDecodedChunkSize)
      (h : ∀ codec : Codec, codec.id ≠ chunk.codec) :
    FailsWith chunk options (.unsupportedCodec ⟨chunk.codec⟩)
  | large (hlimit : chunk.uncompressedLength ≤ options.maxDecodedChunkSize)
      (h : ∃ codec : Codec, codec.id = chunk.codec)
      (hlarge : Bytes.maxCapacity < chunk.uncompressedLength) :
    FailsWith chunk options (.halted (.capacity chunk.uncompressedLength))
  | corrupt (hlimit : chunk.uncompressedLength ≤ options.maxDecodedChunkSize)
      (h : ∃ codec : Codec, codec.id = chunk.codec)
      (hcapacity : chunk.uncompressedLength ≤ Bytes.maxCapacity) (cause : CorruptChunk) :
    FailsWith chunk options (.corruptChunk cause)

/-- The chunk is not good, and it fails as such a chunk does. -/
def Bad (chunk : CompressedChunk) (content : Bytes) (options : ReadOptions) (e : ReadError) :
    Prop :=
  chunk.FailsWith options e ∧ ¬chunk.Good content options

variable {chunk : CompressedChunk}

/-- A chunk inside of what the source holds comes out where it is good, and fails where it is
not. -/
theorem ends_decode [LawfulDecoder] (hholds : source.Holds content)
    (hinside : chunk.data.Inside content)
    (hmax : ∀ segment ∈ chunk.data.segments, segment.offset + segment.length ≤ maxOffset)
    (a : Activity) :
    SourceM.Ends (chunk.decode source options) a
      (fun bytes _ => chunk.Decodes content options bytes)
      (fun e _ => chunk.Bad content options e) := by
  by_cases hlimit : chunk.uncompressedLength ≤ options.maxDecodedChunkSize
  case neg =>
    have hlt : options.maxDecodedChunkSize < chunk.uncompressedLength := Nat.lt_of_not_le hlimit
    rw [decode, checkDecodedSize, if_pos hlt, SourceM.ends_bind, SourceM.ends_ofExcept_error]
    refine ⟨.tooLarge hlt _, ?_⟩
    rintro ⟨_, -, hle, _⟩
    exact hlimit hle
  rw [decode, checkDecodedSize, if_neg (Nat.not_lt.2 hlimit), SourceM.ends_bind,
    SourceM.ends_ofExcept_ok, SourceM.ends_bind]
  by_cases hknown : ∃ codec : Codec, codec.id = chunk.codec
  case neg =>
    have hunknown : ∀ codec : Codec, codec.id ≠ chunk.codec := fun codec h => hknown ⟨codec, h⟩
    rw [findCodec_of_ne hunknown, SourceM.ends_ofExcept_error]
    refine ⟨.unknown hlimit hunknown, ?_⟩
    rintro ⟨_, -, _, _, codec, hcodec, _⟩
    exact hknown ⟨codec, hcodec⟩
  obtain ⟨codec, hcodec⟩ := hknown
  rw [findCodec_of_id hcodec, SourceM.ends_ofExcept_ok, SourceM.ends_bind, SourceM.ends_mapError]
  refine (chunk.data.ends_payload hholds hinside hmax a).mono ?_ fun _ _ h => h.elim
  rintro payload a₁ ⟨hwithin, hpayload⟩
  by_cases hcapacity : chunk.uncompressedLength ≤ Bytes.maxCapacity
  case neg =>
    have hlarge := Nat.lt_of_not_le hcapacity
    rw [SourceM.ends_bind, reserve_of_lt hlarge, SourceM.ends_throw]
    refine ⟨.large hlimit ⟨codec, hcodec⟩ hlarge, ?_⟩
    rintro ⟨_, hle, _⟩
    exact hcapacity hle
  -- whatever fails from here on is corrupt, and would not fail if the payload were as declared
  have hfails : ∀ e, codec.Mismatch (chainBytes content chunk.data.segments)
      chunk.uncompressedLength e → chunk.Bad content options e := by
    rintro e ⟨⟨cause, rfl⟩, hnot⟩
    refine ⟨.corrupt hlimit ⟨codec, hcodec⟩ hcapacity cause, ?_⟩
    rintro ⟨_, -, h⟩
    exact hnot (h.decodes hcodec)
  have hat := DecodedStream.at_ofPayload codec hwithin
  rw [hpayload] at hat
  rw [reserve_of_le hcapacity, pure_bind, SourceM.ends_bind, SourceM.ends_mapError]
  refine (DecodedStream.ends_readDeclared hholds.serves hat _ a₁).mono ?_
    fun e _ he => hfails _ (he.mismatch _)
  rintro bytes a₂ ⟨hfit, hbytes, hend⟩
  split
  · rename_i hne
    rw [SourceM.ends_bind, SourceM.ends_throw]
    refine hfails _ ⟨⟨_, rfl⟩, fun hdecodes => ?_⟩
    rw [hdecodes.2] at hfit
    exact hne ((hend hfit).2.symm.trans hdecodes.2)
  · rename_i heq
    have hsize : bytes.size = chunk.uncompressedLength := Decidable.not_not.1 heq
    obtain ⟨hclean, houtput⟩ := hend (Nat.le_of_eq hsize)
    refine ⟨hcapacity, hlimit, hsize, codec, hcodec, Codec.decode_eq_ok_iff.2 ⟨hclean, ?_⟩⟩
    show codec.output (chainBytes content chunk.data.segments) = bytes
    rw [hbytes, ← houtput, Array.extract_size]

end CompressedChunk

end Hyperslab
