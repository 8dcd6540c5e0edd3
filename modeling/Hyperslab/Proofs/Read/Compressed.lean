import Hyperslab.Proofs.Codec.Inflate
import Hyperslab.Proofs.Read.Direct
import Hyperslab.Proofs.Read.Forward
import Hyperslab.Proofs.Stream.Decoded

/-!
# Reads of compressed variables

A variable that is compressed as a whole is read from one decoded stream. The transfers of a section
go forward in it, and the last step of a read compares it with its declared length, so every read
decodes the whole payload and passes only where that is what was declared, however little of it a
section selects. A read that passes gives what the decoded bytes would give by themselves.

## Main definitions

- `Descriptor.streamByte?`: what a byte of the destination has to be
- `ReadProgress.Streams`: covered bytes are there, and the stream is before all others

## Main statements

- `ReadProgress.ends_execute_stream`: a transfer puts the bytes that it covers there
- `readSection_compressed`: a read of a compressed variable, whatever the section and the options
-/

namespace Hyperslab

/-- What the byte at position `j` of the destination has to be, with `bytes` for those of the
stream. -/
def Descriptor.streamByte? (d : Descriptor) (bytes : Bytes) (s : Section) (j : Nat) :
    Option UInt8 :=
  match d.place? (s.indexAt (j / d.elementSize)) with
  | some (.stream offset) => bytes[offset + j % d.elementSize]?
  | _ => none

/-- The source over a content serves the stream that a variable is decoded from. -/
structure EncodedStream.Stored (e : EncodedStream) (d : Descriptor) (source : ByteSource)
    (content : Bytes) : Prop where
  encoded_eq : d.layout.encoded? = some e
  serves : source.Serves content
  within : ChainWithin content e.segments

variable {d : Descriptor} {s : Section} {e : EncodedStream} {content : Bytes}
  {source : ByteSource} {codec : Codec} {options : ReadOptions} {plan : TransferPlan} {t : Transfer}

namespace StorageLayout

variable {layout : StorageLayout}

theorem isLinear_of_encoded (h : layout.encoded? = some e) : layout.isLinear = true :=
  isLinear_of_chain (chain?_of_encoded h)

theorem isAbsent_of_encoded (h : layout.encoded? = some e) : layout.isAbsent = false :=
  isAbsent_of_isLinear (isLinear_of_encoded h)

end StorageLayout

theorem Descriptor.place?_encoded (h : d.layout.encoded? = some e) (index : Index) :
    d.place? index = (ravel? index d.shape).map fun k => .stream (k * d.elementSize) :=
  place?_of_chain (StorageLayout.chain?_of_encoded h) index

/-- The bytes of a transfer from the stream follow one another there. -/
theorem TransferPlan.Exact.streamByte?_eq (h : plan.Exact d s) (ht : t ∈ plan.transfers)
    {offset : Nat} (hsource : t.source = .stream offset) (bytes : Bytes) {i : Nat}
    (hi : i < t.runLength * d.elementSize) :
    d.streamByte? bytes s (t.destination * d.elementSize + i) = bytes[offset + i]? := by
  obtain ⟨hplace, hmod⟩ := h.place_byte ht hi
  rw [hsource] at hplace
  rw [Descriptor.streamByte?, hplace]
  simp only [TransferSource.advance, hmod]
  rw [Nat.add_assoc, Nat.div_add_mod']

/-- A transfer of a compressed variable is from the stream, from within its declared length. -/
theorem TransferPlan.Exact.stream_of_encoded (h : plan.Exact d s)
    (hlayout : d.layout.encoded? = some e) (ht : t ∈ plan.transfers) :
    ∃ offset, t.source = .stream offset ∧ offset + t.runLength * d.elementSize ≤ e.length ∧
      ∀ bytes i, i < t.runLength * d.elementSize →
        d.streamByte? bytes s (t.destination * d.elementSize + i) = bytes[offset + i]? := by
  obtain ⟨n, hlast, hn⟩ := h.place_last ht
  rw [Descriptor.place?_encoded hlayout] at hlast
  obtain ⟨k, hk, heq⟩ := Option.map_eq_some_iff.1 hlast
  cases hsource : t.source with
  | stream offset =>
    rw [hsource] at heq
    have hoffset : k * d.elementSize = offset + n := TransferSource.stream.inj heq
    refine ⟨offset, rfl, ?_, fun bytes i hi => h.streamByte?_eq ht hsource bytes hi⟩
    have hmul := mul_add_le_mul d.elementSize (ravel?_lt hk)
    rw [(Descriptor.of_encoded hlayout).1, Descriptor.variableSize,
      Nat.mul_comm d.elementSize]
    omega
  | _ =>
    rw [hsource] at heq
    cases heq

namespace LogicalStream

variable [Decoder]

theorem ofLayout_encoded {layout : StorageLayout} (h : layout.encoded? = some e)
    (options : ReadOptions) :
    ofLayout options layout = ofSegments options e.segments e.codec e.length := by
  cases layout <;> cases h <;> rfl

end LogicalStream

theorem findCodec_of_id {id : CodecId} (h : codec.id = id) : findCodec id = .ok codec := by
  rw [findCodec, ← h, Codec.ofId_id]
  rfl

theorem Codec.ofId_of_ne {id : CodecId} (h : ∀ codec : Codec, codec.id ≠ id) :
    Codec.ofId id = .error ⟨id⟩ := by
  rw [Codec.ofId, if_neg (h .plain).symm, if_neg (h .deflate).symm]

theorem findCodec_of_ne {id : CodecId} (h : ∀ codec : Codec, codec.id ≠ id) :
    findCodec id = .error (.unsupportedCodec ⟨id⟩) := by
  rw [findCodec, Codec.ofId_of_ne h]
  rfl

namespace LogicalStream

variable [Decoder]

/-- A stream within the limits of the options, with a codec that is known, starts at its first
byte. -/
theorem ends_ofSegments_decoded (hwithin : ChainWithin content e.segments)
    (hlimit : e.length ≤ options.maxDecodedChunkSize) (hcodec : codec.id = e.codec) (a : Activity) :
    SourceM.Ends (ofSegments options e.segments e.codec e.length) a
      (fun stream _ => stream.DecodedAt content codec (chainBytes content e.segments) e.length 0)
      (fun _ _ => False) := by
  have hsize : checkDecodedSize e.length options = .ok () := if_neg (Nat.not_lt.2 hlimit)
  rw [ofSegments, hsize, findCodec_of_id hcodec]
  have hpayload : Payload.Within content (.chain (.ofChain e.segments options)) := hwithin
  exact ⟨rfl, rfl, DecodedStream.at_ofPayload codec hpayload⟩

theorem ends_ofSegments_tooLarge (h : options.maxDecodedChunkSize < e.length) (a : Activity) :
    SourceM.Ends (ofSegments options e.segments e.codec e.length) a (fun _ _ => False)
      (fun err a' =>
        err = .corruptChunk (.tooLarge e.length options.maxDecodedChunkSize) ∧ a' = a) := by
  have hsize : checkDecodedSize e.length options =
      .error (.corruptChunk (.tooLarge e.length options.maxDecodedChunkSize)) := if_pos h
  rw [ofSegments, hsize]
  exact ⟨rfl, rfl⟩

theorem ends_ofSegments_unknown (hlimit : e.length ≤ options.maxDecodedChunkSize)
    (h : ∀ codec : Codec, codec.id ≠ e.codec) (a : Activity) :
    SourceM.Ends (ofSegments options e.segments e.codec e.length) a (fun _ _ => False)
      (fun err a' => err = .unsupportedCodec ⟨e.codec⟩ ∧ a' = a) := by
  have hsize : checkDecodedSize e.length options = .ok () := if_neg (Nat.not_lt.2 hlimit)
  rw [ofSegments, hsize, findCodec_of_ne h]
  exact ⟨rfl, rfl⟩

end LogicalStream

namespace ReadProgress

variable [Decoder]

/-- The bytes of `done` are there. The stream is at or before the transfers still to come, and open
once a byte is there. -/
structure Streams (p : ReadProgress) (d : Descriptor) (e : EncodedStream) (content : Bytes)
    (codec : Codec) (s : Section) (back : List Transfer) (done : Nat → Prop) : Prop where
  size_eq : p.output.size = s.totalCount * d.elementSize
  pending_eq : p.pending = none
  stream_at : ∀ stream, p.stream = some stream → ∃ k, k ≤ e.length ∧
    stream.DecodedAt content codec (chainBytes content e.segments) e.length k ∧
    ∀ t ∈ back, k ≤ t.source.offset
  opened : ∀ j, done j → p.stream ≠ none
  settled : ∀ j, done j →
    p.output[j]? = d.streamByte? (codec.output (chainBytes content e.segments)) s j

variable {p : ReadProgress} {back : List Transfer} {done : Nat → Prop}

theorem Streams.mono {done' : Nat → Prop} (h : p.Streams d e content codec s back done)
    (hdone : ∀ j, done' j → done j) : p.Streams d e content codec s back done' :=
  ⟨h.size_eq, h.pending_eq, h.stream_at, fun j hj => h.opened j (hdone j hj),
    fun j hj => h.settled j (hdone j hj)⟩

theorem ends_streamBefore_decoded (options : ReadOptions) (hstored : e.Stored d source content)
    (hlimit : e.length ≤ options.maxDecodedChunkSize) (hcodec : codec.id = e.codec)
    (h : p.Streams d e content codec s (t :: back) done) (a : Activity) :
    SourceM.Ends (p.streamBefore ⟨source, d, options⟩ t.source.offset) a
      (fun stream _ => ∃ k, k ≤ t.source.offset ∧
        stream.DecodedAt content codec (chainBytes content e.segments) e.length k)
      (fun _ _ => False) := by
  rw [streamBefore]
  cases hstream : p.stream with
  | none =>
    simp only [LogicalStream.ofLayout_encoded hstored.encoded_eq]
    exact (LogicalStream.ends_ofSegments_decoded hstored.within hlimit hcodec a).mono
      (fun stream _ hat => ⟨0, Nat.zero_le _, hat⟩) fun _ _ he => he
  | some stream =>
    obtain ⟨k, -, hat, hback⟩ := h.stream_at stream hstream
    have hle := hback t List.mem_cons_self
    dsimp only
    rw [hat.position_eq, if_neg (Nat.not_lt.2 hle)]
    exact ⟨k, hle, hat⟩

variable [LawfulDecoder]

/-- A transfer puts the bytes that it covers there, and leaves the stream after them. -/
theorem ends_execute_stream (hstored : e.Stored d source content)
    (hlimit : e.length ≤ options.maxDecodedChunkSize) (hcodec : codec.id = e.codec)
    (hexact : plan.Exact d s) (ht : t ∈ plan.transfers)
    (hback : ∀ u ∈ back, t.source.offset + t.runLength * d.elementSize ≤ u.source.offset)
    (h : p.Streams d e content codec s (t :: back) done) (a : Activity) :
    SourceM.Ends (p.execute ⟨source, d, options⟩ t) a
      (fun p' _ => p'.Streams d e content codec s back
        fun j => done j ∨ t.CoversByte d.elementSize j)
      (fun err _ => codec.Mismatch (chainBytes content e.segments) e.length err) := by
  -- find the stream, move it on to the place, read from it, and put the bytes there
  obtain ⟨offset, hsource, hinside, hbyte⟩ := hexact.stream_of_encoded hstored.encoded_eq ht
  have hopen := ends_streamBefore_decoded options hstored hlimit hcodec h a
  have hfit := hexact.fits ht d.elementSize
  have hoffset : t.source.offset = offset := by rw [hsource, TransferSource.offset]
  rw [hoffset] at hopen hback
  rw [execute, hsource]
  dsimp only
  rw [fromStream_eq, SourceM.ends_bind]
  refine hopen.mono ?_ fun _ _ he => he.elim
  rintro stream a₁ ⟨k, hle, hat⟩
  rw [SourceM.ends_bind]
  refine (LogicalStream.ends_skipTo_decoded hstored.serves hat hle (by omega) a₁).mono ?_
    fun _ _ he => he
  intro stream₂ a₂ hat₂
  rw [checkPart, if_pos (by rw [h.size_eq]; exact hfit), SourceM.ends_bind,
    SourceM.ends_ofExcept_ok, SourceM.ends_bind]
  refine (LogicalStream.ends_readExact_decoded hstored.serves hat₂ hinside a₂).mono ?_
    fun _ _ he => he
  rintro ⟨bytes, stream₃⟩ a₃ ⟨hat₃, hsize, hbytes⟩
  dsimp only at hat₃ hsize hbytes ⊢
  have hspace : t.destination * d.elementSize + bytes.size ≤
      ({ p with stream := some stream₃ } : ReadProgress).output.size := by
    rw [hsize, h.size_eq]
    exact hfit
  obtain ⟨output, hwrite, hput⟩ := exists_write
      (d.streamByte? (codec.output (chainBytes content e.segments)) s) hspace fun i hi => by
    rw [hbyte _ i (hsize ▸ hi)]
    rw [hbytes, Array.size_extract] at hi
    rw [hbytes, Array.getElem?_extract, if_pos hi]
  rw [hsize] at hput
  rw [hwrite, SourceM.ends_ofExcept_ok]
  refine ⟨hput.size_eq.trans h.size_eq, h.pending_eq, ?_, ?_, hput.settled h.settled⟩
  · intro stream hstream
    cases hstream
    exact ⟨_, hinside, hat₃, hback⟩
  · intro j _ hnone
    cases hnone

theorem ends_transfers_stream (hstored : e.Stored d source content)
    (hlimit : e.length ≤ options.maxDecodedChunkSize) (hcodec : codec.id = e.codec)
    (hexact : plan.Exact d s)
    (hforward : plan.transfers.Pairwise fun t u =>
      t.source.offset + t.runLength * d.elementSize ≤ u.source.offset)
    {destination : Bytes} (hsize : destination.size = s.totalCount * d.elementSize)
    (a : Activity) :
    SourceM.Ends (plan.transfers.foldlM (execute ⟨source, d, options⟩) { output := destination }) a
      (fun p _ => p.Streams d e content codec s [] fun j => j < s.totalCount * d.elementSize)
      (fun err _ => codec.Mismatch (chainBytes content e.segments) e.length err) := by
  refine (SourceM.Ends.foldlM (fun front back p _ => p.Streams d e content codec s back
    (CoveredByte front d.elementSize)) ?_ ?_).mono ?_ fun _ _ he => he
  · intro front t back htransfers p a hp
    have ht : t ∈ plan.transfers := by simp [htransfers]
    -- the transfers still to come start where this one ends or later
    rw [htransfers] at hforward
    have hback := (List.pairwise_cons.1 (List.pairwise_append.1 hforward).2.1).1
    refine (ends_execute_stream hstored hlimit hcodec hexact ht hback hp a).mono ?_
      fun _ _ he => he
    intro p' a' hp'
    exact hp'.mono fun j hj => coveredByte_concat.1 hj
  · refine ⟨hsize, rfl, ?_, ?_, ?_⟩
    · intro stream hstream
      cases hstream
    all_goals
      intro j hj
      exact absurd hj (not_coveredByte_nil _ j)
  · intro p a hp
    exact hp.mono fun j hj => hexact.coveredByte d.elementSize_pos hj

/-- The last step passes just where the whole payload is what was declared. -/
theorem ends_finish_stream (hstored : e.Stored d source content) (hlength : e.length < maxOffset)
    (h : p.Streams d e content codec s [] done) {j : Nat} (hj : done j) (a : Activity) :
    SourceM.Ends (p.finish ⟨source, d, options⟩) a
      (fun bytes _ => bytes = p.output ∧
        codec.Decodes (chainBytes content e.segments) e.length)
      (fun err _ => codec.Mismatch (chainBytes content e.segments) e.length err) := by
  rw [finish, flush, h.pending_eq, SourceM.ends_bind, SourceM.ends_pure]
  cases hstream : p.stream with
  | none => exact absurd hstream (h.opened j hj)
  | some stream =>
    obtain ⟨k, hle, hat, -⟩ := h.stream_at stream hstream
    dsimp only
    rw [SourceM.ends_bind]
    refine (LogicalStream.ends_finish_decoded hstored.serves hat hle hlength a).mono ?_
      fun _ _ he => he
    exact fun _ _ hdecodes => ⟨rfl, hdecodes⟩

end ReadProgress

variable {a : Activity}

/-- A read within the limits of the options gives the bytes that have to be there, just where the
whole payload is what was declared. -/
theorem ends_readSection_stream [Decoder] [LawfulDecoder] (hstored : e.Stored d source content)
    (hlength : e.length < maxOffset) (hs : s.validate d.shape = .ok ()) (hne : s.totalCount ≠ 0)
    (hcapacity : s.totalCount * d.elementSize ≤ Bytes.maxCapacity)
    (hlimit : e.length ≤ options.maxDecodedChunkSize) (hcodec : codec.id = e.codec)
    (a : Activity) :
    SourceM.Ends (readSection ⟨source, d, options⟩ s) a
      (fun bytes _ => codec.Decodes (chainBytes content e.segments) e.length ∧
        bytes.size = s.totalCount * d.elementSize ∧
        ∀ j, j < s.totalCount * d.elementSize →
          bytes[j]? = d.streamByte? (codec.output (chainBytes content e.segments)) s j)
      (fun err _ => codec.Mismatch (chainBytes content e.segments) e.length err) := by
  have hlinear := StorageLayout.isLinear_of_encoded hstored.encoded_eq
  obtain ⟨plan, hplan⟩ := exists_plan_linear hlinear hs
  have hexact := exact_of_resolve_linear hlinear hs hplan
  have hsize := Bytes.size_zeros (s.totalCount * d.elementSize)
  rw [readSection_eq (r := ⟨source, d, options⟩) hs
      (StorageLayout.isAbsent_of_encoded hstored.encoded_eq) hcapacity,
    readSectionInto_eq (r := ⟨source, d, options⟩) hs hplan hsize, SourceM.ends_bind,
    SourceM.ends_report, SourceM.ends_bind]
  refine (ReadProgress.ends_transfers_stream hstored hlimit hcodec hexact
    (resolve_linear_forward hlinear hs hplan) hsize _).mono ?_ fun _ _ he => he
  intro p a' hp
  have hfirst : 0 < s.totalCount * d.elementSize :=
    Nat.mul_pos (Nat.pos_of_ne_zero hne) d.elementSize_pos
  refine (ReadProgress.ends_finish_stream hstored hlength hp hfirst a').mono ?_ fun _ _ he => he
  rintro bytes a'' ⟨rfl, hdecodes⟩
  exact ⟨hdecodes, hp.size_eq, hp.settled⟩

/-- A read of a compressed variable whose stream cannot be opened fails as opening it does, before
any request. -/
theorem outcome_of_refused [Decoder] (source : ByteSource) (hlayout : d.layout.encoded? = some e)
    (hs : s.validate d.shape = .ok ()) (hne : s.totalCount ≠ 0)
    (hcapacity : s.totalCount * d.elementSize ≤ Bytes.maxCapacity) {err : ReadError}
    (hopen : ∀ a, SourceM.Ends (LogicalStream.ofSegments options e.segments e.codec e.length) a
      (fun _ _ => False) (fun err' a' => err' = err ∧ a' = a)) (a : Activity) :
    ∃ a', (readSection ⟨source, d, options⟩ s).outcome a = (.error err, a') ∧
      a'.requests = a.requests := by
  have hends : SourceM.Ends (readSection ⟨source, d, options⟩ s) a (fun _ _ => False)
      (fun err' a' => err' = err ∧ a'.requests = a.requests) := by
    -- the first transfer opens the stream
    refine ends_readSection_of_first (StorageLayout.chain?_of_encoded hlayout) hs hne hcapacity a ?_
    intro length _ _
    rw [ReadProgress.fromStream_eq, SourceM.ends_bind, ReadProgress.streamBefore]
    dsimp only
    rw [LogicalStream.ofLayout_encoded hlayout]
    refine (hopen _).mono (fun _ _ h => h.elim) ?_
    rintro err' a' ⟨rfl, rfl⟩
    exact ⟨rfl, rfl⟩
  rcases hends.cases with ⟨_, _, -, himpossible⟩ | ⟨err', a', houtcome, rfl, hrequests⟩
  · exact himpossible.elim
  · exact ⟨a', houtcome, hrequests⟩

/-- The variable with the same elements, stored as they are from the start of the byte source. -/
def StorageMetadata.flat (m : StorageMetadata) : StorageMetadata :=
  { m with layout := .regular 0 }

theorem Descriptor.check_flat (hlayout : d.layout.encoded? = some e)
    (hlength : e.length < maxOffset) : d.flat.check = .ok () := by
  obtain ⟨hsize, hfill, hbytes, -⟩ := StorageMetadata.of_check d.accepted
  have hdeclared := (of_encoded hlayout).1
  refine StorageMetadata.check_eq_ok_iff.2
    ⟨hsize, hfill, _, hbytes, ByteRange.check_eq_ok_iff.2 ?_⟩
  show 0 + d.variableSize ≤ maxOffset
  omega

section

variable (haccepted : d.flat.check = .ok ())

theorem Descriptor.place?_flat (index : Index) :
    Descriptor.place? ⟨d.flat, haccepted⟩ index =
      (ravel? index d.shape).map fun k => .direct (0 + k * d.elementSize) :=
  rfl

/-- The decoded bytes have at each place what the stream has. -/
theorem Descriptor.byteAt?_flat (hlayout : d.layout.encoded? = some e) (bytes : Bytes)
    (s : Section) (j : Nat) :
    Descriptor.byteAt? ⟨d.flat, haccepted⟩ bytes s j = d.streamByte? bytes s j := by
  have hsize : (⟨d.flat, haccepted⟩ : Descriptor).elementSize = d.elementSize := rfl
  rw [byteAt?, elementByte?, place?_flat, streamByte?, place?_encoded hlayout, hsize]
  cases ravel? (s.indexAt (j / d.elementSize)) d.shape with
  | none => rfl
  | some k =>
    simp only [Option.map_some]
    rw [Nat.zero_add]

end

/-- A payload that is decoded to the declared number of bytes, with a codec that is known and within
the limits of the options. -/
def EncodedStream.Yields [Decoder] (e : EncodedStream) (content : Bytes)
    (options : ReadOptions) (bytes : Bytes) : Prop :=
  e.length ≤ options.maxDecodedChunkSize ∧ bytes.size = e.length ∧
    ∃ codec : Codec, codec.id = e.codec ∧
      codec.decode (chainBytes content e.segments) = .ok bytes

/-- The section is readable just where it is of the elements stored as they are. -/
theorem Descriptor.readable_flat (haccepted : d.flat.check = .ok ())
    (hlayout : d.layout.encoded? = some e) {b : Build} (h : d.Readable b s) :
    Descriptor.Readable b ⟨d.flat, haccepted⟩ s := by
  refine ⟨fun ⟨hb, hne, shape, hshape, hfit⟩ => h.1 ⟨hb, hne, shape, ?_, hfit⟩, h.2⟩
  rw [← hshape]
  cases hkind : d.layout <;> rw [hkind] at hlayout <;> first | rfl | cases hlayout

/-- A read of a compressed variable, if the program does not stop, passes just where the payload is
decoded to the declared number of bytes, whatever the section selects and whatever else the options
are, and gives what the decoded bytes would give by themselves. A declared length beyond the limit
and a codec that is not known are refused before any request, and everything else that fails is
corrupt. The program stops, before any request and before the declared length is looked at, in a
build with checks where the step of the section is no offset, and in every build where the
destination is larger than a buffer can be. All this is over any lawful decoder. -/
theorem readSection_compressed [Decoder] [LawfulDecoder] (d : Descriptor) {e : EncodedStream}
    (hlayout : d.layout.encoded? = some e) (hlength : e.length < maxOffset) {source : ByteSource}
    {content : Bytes} (hserves : source.Serves content)
    (hinside : ∀ segment ∈ e.segments,
      segment.length = 0 ∨ segment.offset + segment.length ≤ content.size)
    (s : Section) (hs : s.validate d.shape = .ok ()) (hne : s.totalCount ≠ 0) (b : Build) :
    (¬d.Readable b s → ∀ options a, ∃ cause,
      (readSection ⟨source, d, options⟩ s b).Halts a cause) ∧
    (d.Readable b s → ∃ flat, Descriptor.create d.flat = .ok flat ∧ ∀ options a,
      (∀ bytes, e.Yields content options bytes →
        ∃ out a', (readSection ⟨source, d, options⟩ s b).outcome a = (.ok out, a') ∧
          ∀ options' a₁,
            ((readSection ⟨.memory bytes, flat, options'⟩ s b).outcome a₁).1 = .ok out) ∧
      (options.maxDecodedChunkSize < e.length →
        ∃ a', (readSection ⟨source, d, options⟩ s b).outcome a =
            (.error (.corruptChunk (.tooLarge e.length options.maxDecodedChunkSize)), a') ∧
          a'.requests = a.requests) ∧
      (e.length ≤ options.maxDecodedChunkSize → (∀ codec : Codec, codec.id ≠ e.codec) →
        ∃ a', (readSection ⟨source, d, options⟩ s b).outcome a =
            (.error (.unsupportedCodec ⟨e.codec⟩), a') ∧
          a'.requests = a.requests) ∧
      (e.length ≤ options.maxDecodedChunkSize → (∃ codec : Codec, codec.id = e.codec) →
        (∀ bytes, ¬e.Yields content options bytes) →
        ∃ cause a', (readSection ⟨source, d, options⟩ s b).outcome a =
          (.error (.corruptChunk cause), a'))) := by
  have haccepted := d.check_flat hlayout hlength
  have hwithin : ChainWithin content e.segments := fun segment hsegment hsome =>
    ⟨(hinside segment hsegment).resolve_left hsome, (Descriptor.of_encoded hlayout).2 _ hsegment⟩
  have hstored : e.Stored d source content := ⟨hlayout, hserves, hwithin⟩
  refine ⟨fun hread options a => readSection_halts (r := ⟨source, d, options⟩) hs hread a,
    fun hread => ⟨⟨d.flat, haccepted⟩, Descriptor.create_eq_ok haccepted, fun options a => ?_⟩⟩
  have hcapacity := hread.2
  rw [readSection_build (r := ⟨source, d, options⟩) hs hread]
  refine ⟨?_, ?_, ?_, ?_⟩
  · rintro bytes ⟨hlimit, hsize, codec, hcodec, hdecode⟩
    obtain ⟨hclean, houtput⟩ := Codec.decode_eq_ok_iff.1 hdecode
    have hdecodes : codec.Decodes (chainBytes content e.segments) e.length :=
      ⟨hclean, by rw [houtput]; exact hsize⟩
    rcases (ends_readSection_stream hstored hlength hs hne hcapacity hlimit hcodec a).cases with
      ⟨out, a', houtcome, -, houtSize, hout⟩ | ⟨err, a', -, -, hnot⟩
    · refine ⟨out, a', houtcome, fun options' a₁ => ?_⟩
      rw [readSection_build (r := ⟨.memory bytes, ⟨d.flat, haccepted⟩, options'⟩) hs
        (d.readable_flat haccepted hlayout hread)]
      have hflat : EndsDirect ⟨d.flat, haccepted⟩ bytes s
          (readSection ⟨.memory bytes, ⟨d.flat, haccepted⟩, options'⟩ s) a₁ :=
        ends_readSection_direct (d := ⟨d.flat, haccepted⟩) rfl hs hcapacity options' a₁
      rw [houtput] at hout
      refine EndsDirect.eq_ok hflat houtSize fun j hj => (hout j hj).trans ?_
      exact (Descriptor.byteAt?_flat haccepted hlayout bytes s j).symm
    · exact absurd hdecodes hnot
  · intro hlt
    exact outcome_of_refused source hlayout hs hne hcapacity
      (LogicalStream.ends_ofSegments_tooLarge hlt) a
  · intro hlimit hunknown
    exact outcome_of_refused source hlayout hs hne hcapacity
      (LogicalStream.ends_ofSegments_unknown hlimit hunknown) a
  · rintro hlimit ⟨codec, hcodec⟩ hnot
    rcases (ends_readSection_stream hstored hlength hs hne hcapacity hlimit hcodec a).cases with
      ⟨out, a', -, ⟨hclean, hsize⟩, -⟩ | ⟨err, a', houtcome, ⟨cause, rfl⟩, -⟩
    · exact absurd ⟨hlimit, hsize, codec, hcodec, Codec.decode_eq_ok_iff.2 ⟨hclean, rfl⟩⟩ (hnot _)
    · exact ⟨cause, a', houtcome⟩

/-- Three bytes in a zlib stream, of which two parts are stored and nothing between them. -/
def packedRow : Descriptor :=
  { shape := [3]
    elementSize := 1
    fill := none
    layout := .compressedSegmented [⟨0, 4⟩, ⟨9, 0⟩, ⟨6, 10⟩] 4 3
    accepted := rfl }

/-- Two bytes of other data between the two parts. -/
def packedBytes : Bytes :=
  #[120, 1, 1, 3, 9, 9, 0, 252, 255, 7, 8, 9, 0, 49, 0, 25]

/-- The stream yields the three bytes, and a read of the second one gives it. -/
theorem readSection_packedRow :
    EncodedStream.Yields ⟨[⟨0, 4⟩, ⟨9, 0⟩, ⟨6, 10⟩], 4, 3⟩ packedBytes {} #[7, 8, 9] ∧
      ∀ a, ∃ a', (readSection ⟨.memory packedBytes, packedRow, {}⟩
        ⟨[.contiguous 1 1]⟩).outcome a = (.ok #[8], a') := by
  have hdecode : Decoder.decode (chainBytes packedBytes [⟨0, 4⟩, ⟨9, 0⟩, ⟨6, 10⟩]) =
      (#[7, 8, 9], none) := by
    decide +kernel
  have hyields :
      EncodedStream.Yields ⟨[⟨0, 4⟩, ⟨9, 0⟩, ⟨6, 10⟩], 4, 3⟩ packedBytes {} #[7, 8, 9] :=
    ⟨by decide, rfl, .deflate, rfl,
      Codec.decode_eq_ok_iff.2 ⟨congrArg Prod.snd hdecode, congrArg Prod.fst hdecode⟩⟩
  refine ⟨hyields, fun a => ?_⟩
  obtain ⟨flat, hflat, hread⟩ := (readSection_compressed packedRow rfl (by decide)
    (ByteSource.serves_memory packedBytes) (by decide) ⟨[.contiguous 1 1]⟩ rfl (by decide)
    .wrapping).2 ⟨packedRow.not_stops _, by decide⟩
  obtain ⟨out, a', houtcome, hflatRead⟩ := (hread {} a).1 #[7, 8, 9] hyields
  cases hflat
  have hout : ((readSection ⟨.memory #[7, 8, 9], (⟨packedRow.flat, rfl⟩ : Descriptor), {}⟩
      ⟨[.contiguous 1 1]⟩).outcome {}).1.toOption = some #[8] := by
    decide +kernel
  rw [hflatRead {} {}] at hout
  cases hout
  exact ⟨a', houtcome⟩

/-- A variable of one byte more than a buffer can have, which is beyond the limit. -/
def hugeStream : Descriptor :=
  { shape := [9223372036854775808]
    elementSize := 1
    fill := none
    layout := .compressed ⟨0, 1⟩ 9223372036854775808 0
    accepted := rfl }

/-- The program is stopped by the size of the destination, in every build, before the declared
length is refused. -/
theorem readSection_hugeStream :
    ReadOptions.maxDecodedChunkSize {} < 9223372036854775808 ∧
      Section.validate ⟨[.contiguous 0 (9223372036854775808)]⟩ hugeStream.shape = .ok () ∧
      ∀ b, (readSection ⟨.memory #[0], hugeStream, {}⟩
        ⟨[.contiguous 0 (9223372036854775808)]⟩ b).Halts {}
          (.capacity (9223372036854775808)) :=
  ⟨by decide, rfl, fun _ =>
    readSection_of_large (r := ⟨.memory #[0], hugeStream, {}⟩) rfl (by decide) {}⟩

end Hyperslab
