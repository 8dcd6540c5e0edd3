import Hyperslab.Proofs.Codec.Padding
import Hyperslab.Proofs.Read.Section
import Hyperslab.Proofs.Resolve.Exact

/-!
# Reads of padded variables

Two variables that are stored alike, but with segments without bytes at other places of their
chains, have one plan for each section, and each transfer of it is carried out in step. So reads of
both give the same bytes or the same error, by the same requests.

## Main definitions

- `StorageLayout.Padded`, `Descriptor.Padded`: stored alike, up to segments without bytes

## Main statements

- `resolve_eq_of_padded`: a section has one plan for both variables
- `ReadProgress.Padded.agree_execute`: a transfer is carried out in step
- `zero_length_segments_invisible`: segments without bytes never show
-/

namespace Hyperslab

open SourceM

/-- The layouts are one and the same, or differ in segments without bytes of their chains. -/
inductive StorageLayout.Padded : StorageLayout → StorageLayout → Prop where
  | refl (layout : StorageLayout) : Padded layout layout
  | segmented {segments segments' : List ByteRange} (h : compact segments = compact segments') :
      Padded (.segmented segments) (.segmented segments')
  | compressedSegmented {segments segments' : List ByteRange}
      (h : compact segments = compact segments') (codec : CodecId) (length : Nat) :
      Padded (.compressedSegmented segments codec length)
        (.compressedSegmented segments' codec length)
  | compressedTiled (chunkShape : ChunkShape) {chunks chunks' : ChunkMap CompressedChunk}
      (h : ∀ origin, Option.Rel CompressedChunk.Padded (chunks.get? origin)
        (chunks'.get? origin)) :
      Padded (.compressedTiled chunkShape chunks) (.compressedTiled chunkShape chunks')

theorem StorageLayout.Padded.isAbsent_eq {layout layout' : StorageLayout}
    (h : layout.Padded layout') : layout.isAbsent = layout'.isAbsent := by
  cases h <;> rfl

/-- The variables are stored alike, up to segments without bytes. -/
structure Descriptor.Padded (d d' : Descriptor) : Prop where
  shape : d.shape = d'.shape
  elementSize : d.elementSize = d'.elementSize
  fill : d.fill = d'.fill
  layout : d.layout.Padded d'.layout

variable {source : ByteSource} {options : ReadOptions} {d d' : Descriptor} {s : Section}

theorem chunkBlocks_eq_of_padded (hd : d.Padded d') (chunkShape : ChunkShape)
    (f : Index → BlockSource) (parts : ChunkGrid → List ChunkIntersection) :
    chunkBlocks d chunkShape f s parts = chunkBlocks d' chunkShape f s parts := by
  have hblock : chunkBlock d chunkShape f s.shape = chunkBlock d' chunkShape f s.shape := by
    funext part
    rw [chunkBlock, chunkBlock, hd.elementSize]
  rw [chunkBlocks, chunkBlocks, hd.shape, hblock]

/-- A chunk is stored or not, whatever the padding of its segments. -/
theorem compressedSource_eq_of_padded {chunks chunks' : ChunkMap CompressedChunk}
    (h : ∀ origin, Option.Rel CompressedChunk.Padded (chunks.get? origin) (chunks'.get? origin)) :
    compressedSource chunks = compressedSource chunks' := by
  funext origin
  have horigin := h origin
  rw [compressedSource, compressedSource]
  generalize chunks.get? origin = chunk at horigin
  generalize chunks'.get? origin = chunk' at horigin
  cases horigin <;> rfl

theorem resolveBlocks_eq_of_padded (hd : d.Padded d')
    (parts : ChunkGrid → List ChunkIntersection) :
    resolveBlocks d s parts = resolveBlocks d' s parts := by
  have hruns : variableRuns d s = variableRuns d' s := by rw [variableRuns, variableRuns, hd.shape]
  have hchunks := fun chunkShape f => chunkBlocks_eq_of_padded (s := s) hd chunkShape f parts
  have hlayout := hd.layout
  rw [resolveBlocks, resolveBlocks, hd.elementSize, hruns]
  simp only [hchunks]
  generalize d.layout = layout at hlayout
  generalize d'.layout = layout' at hlayout
  cases hlayout with
  | compressedTiled chunkShape h => simp only [compressedSource_eq_of_padded h]
  | _ => rfl

/-- A section has one plan for both variables. -/
theorem resolve_eq_of_padded (hd : d.Padded d') (s : Section) : resolve d s = resolve d' s := by
  rw [resolve, resolve, resolveParts, resolveParts, hd.shape, resolveBlocks_eq_of_padded hd]

/-- What is still to come of the streams differs in padding. -/
inductive LogicalStream.Padded : LogicalStream → LogicalStream → Prop where
  | plain {s t : SegmentStream} (h : s.Padded t) : Padded (.plain s) (.plain t)
  | decoded {s t : DecodedStream} (h : s.Padded t) (position length : Nat) :
      Padded (.decoded s position length) (.decoded t position length)

namespace LogicalStream

variable {s t : LogicalStream}

theorem Padded.position_eq (h : s.Padded t) : s.position = t.position := by
  cases h with
  | plain h => exact h.position
  | decoded h position length => rfl

theorem agree_ofSegments {segments segments' : List ByteRange}
    (h : compact segments = compact segments') (codec : CodecId) (length : Nat) :
    (ofSegments options segments codec length).Agree source Padded
      (ofSegments options segments' codec length) := by
  refine (Agree.ofExcept (.refl _)).bind_same fun _ => ?_
  refine (Agree.ofExcept (.refl _)).bind_same fun codec => ?_
  refine (Agree.report _ _).bind fun _ _ _ => ?_
  have hstream := SegmentStream.padded_ofChain (padded_iff.2 h) options
  exact .pure (.decoded (DecodedStream.padded_ofPayload codec (.chain hstream)) 0 length)

theorem agree_ofLayout {layout layout' : StorageLayout} (h : layout.Padded layout') :
    (ofLayout options layout).Agree source Padded (ofLayout options layout') := by
  have hsegmented : ∀ {segments segments' : List ByteRange}, compact segments = compact segments' →
      (ofLayout options (.segmented segments)).Agree source Padded
        (ofLayout options (.segmented segments')) := by
    intro segments segments' h
    refine (Agree.report _ _).bind fun _ _ _ => ?_
    exact .pure (.plain (SegmentStream.padded_ofChain (padded_iff.2 h) options))
  cases h with
  | refl =>
    cases layout with
    | segmented segments => exact hsegmented rfl
    | compressed data length codec => exact agree_ofSegments rfl codec length
    | compressedSegmented segments codec length => exact agree_ofSegments rfl codec length
    | _ => exact .throw _
  | segmented h => exact hsegmented h
  | compressedSegmented h codec length => exact agree_ofSegments h codec length
  | compressedTiled chunkShape h => exact .throw _

theorem Padded.agree_skip (h : s.Padded t) (count : Nat) :
    (s.skip source count).Agree source Padded (t.skip source count) := by
  cases h with
  | @plain s t h =>
    obtain ⟨hpassed, hst⟩ := h.skip count
    rw [skip, skip]
    dsimp only
    rw [hpassed, hst.position]
    split
    · exact .throw_bind _ _ _
    · exact .pure (.plain hst)
  | decoded h position length =>
    refine ((h.agree_skip count).mapError ReadError.ofDecode).bind ?_
    rintro ⟨passed, s'⟩ ⟨_, t'⟩ ⟨rfl, hst⟩
    dsimp only
    split
    · exact .throw_bind _ _ _
    · exact .pure (.decoded hst _ length)

theorem Padded.agree_readExact (h : s.Padded t) (count : Nat) :
    (s.readExact source count).Agree source (FirstSame Padded) (t.readExact source count) := by
  cases h with
  | @plain s t h =>
    refine (Agree.lift (h.inStep_readBy (fun range => .issue (.readInto range)) count)).bind ?_
    rintro ⟨result, s'⟩ ⟨_, t'⟩ ⟨rfl, hst⟩
    cases result with
    | error e => exact .throw _
    | ok bytes =>
      dsimp only
      rw [hst.position]
      split
      · exact .throw_bind _ _ _
      · exact .pure ⟨rfl, .plain hst⟩
  | decoded h position length =>
    refine ((h.agree_readExact count).mapError ReadError.ofDecode).bind ?_
    rintro ⟨bytes, s'⟩ ⟨_, t'⟩ ⟨rfl, hst⟩
    exact .pure ⟨rfl, .decoded hst _ length⟩

theorem Padded.agree_finish (h : s.Padded t) :
    (s.finish source).Agree source (fun _ _ => True) (t.finish source) := by
  cases h with
  | plain h => exact .pure trivial
  | decoded h position length =>
    refine ((h.agree_skip _).mapError ReadError.ofDecode).bind ?_
    rintro ⟨passed, s'⟩ ⟨_, t'⟩ ⟨rfl, hst⟩
    dsimp only
    split
    · exact .throw_bind _ _ _
    · split
      · exact .throw _
      · exact .pure trivial

end LogicalStream

/-- The reads hold the same, but for the padding of their streams. -/
structure ReadProgress.Padded (p q : ReadProgress) : Prop where
  output : p.output = q.output
  pending : p.pending = q.pending
  chunk : p.chunk = q.chunk
  stream : Option.Rel LogicalStream.Padded p.stream q.stream

namespace ReadProgress

variable {p q : ReadProgress}

theorem Padded.write (h : p.Padded q) (start : Nat) (bytes : Bytes) :
    SameResult Padded (p.write start bytes) (q.write start bytes) := by
  simp only [ReadProgress.write]
  rw [← h.output]
  split
  · exact .ok ⟨rfl, h.pending, h.chunk, h.stream⟩
  · exact .error _

theorem Padded.checkPart_eq (h : p.Padded q) (start length : Nat) :
    p.checkPart start length = q.checkPart start length := by
  rw [checkPart, checkPart, h.output]

theorem Padded.agree_fetchInto (h : p.Padded q) (offset destination length : Nat) :
    (p.fetchInto ⟨source, d, options⟩ offset destination length).Agree source Padded
      (q.fetchInto ⟨source, d', options⟩ offset destination length) := by
  rw [fetchInto, fetchInto, h.checkPart_eq]
  refine (Agree.ofExcept (.refl _)).bind_same fun _ => ?_
  refine ((Agree.issue (.readInto _)).mapError ReadError.storage).bind_same fun bytes => ?_
  exact .ofExcept (h.write destination bytes)

theorem Padded.agree_flush (h : p.Padded q) :
    (p.flush ⟨source, d, options⟩).Agree source Padded (q.flush ⟨source, d', options⟩) := by
  rw [flush, flush, ← h.pending]
  split
  · have hnone : Padded { p with pending := none } { q with pending := none } :=
      ⟨h.output, rfl, h.chunk, h.stream⟩
    exact hnone.agree_fetchInto _ _ _
  · exact .pure h

theorem Padded.agree_direct (h : p.Padded q) (offset destination length : Nat) :
    (p.direct ⟨source, d, options⟩ offset destination length).Agree source Padded
      (q.direct ⟨source, d', options⟩ offset destination length) := by
  rw [direct, direct, ← h.pending]
  dsimp only
  split
  · split
    · exact .pure ⟨h.output, rfl, h.chunk, h.stream⟩
    · refine h.agree_flush.bind fun p' q' hpq => ?_
      exact .pure ⟨hpq.output, rfl, hpq.chunk, hpq.stream⟩
  · exact h.agree_fetchInto offset destination length

theorem Padded.agree_streamBefore (hd : d.Padded d') (h : p.Padded q) (offset : Nat) :
    (p.streamBefore ⟨source, d, options⟩ offset).Agree source LogicalStream.Padded
      (q.streamBefore ⟨source, d', options⟩ offset) := by
  have hstream := h.stream
  rw [streamBefore, streamBefore]
  generalize p.stream = stream at hstream
  generalize q.stream = stream' at hstream
  cases hstream with
  | none => exact LogicalStream.agree_ofLayout hd.layout
  | some hst =>
    dsimp only
    rw [hst.position_eq]
    split
    · exact LogicalStream.agree_ofLayout hd.layout
    · exact .pure hst

theorem Padded.agree_fromStream (hd : d.Padded d') (h : p.Padded q)
    (offset destination length : Nat) :
    (p.fromStream ⟨source, d, options⟩ offset destination length).Agree source Padded
      (q.fromStream ⟨source, d', options⟩ offset destination length) := by
  rw [fromStream_eq, fromStream_eq, h.checkPart_eq]
  refine (h.agree_streamBefore hd offset).bind fun s t hst => ?_
  refine Agree.bind (R := LogicalStream.Padded) ?_ fun s t hst => ?_
  · rw [LogicalStream.skipTo, LogicalStream.skipTo, hst.position_eq]
    split
    · exact hst.agree_skip _
    · exact .pure hst
  · refine (Agree.ofExcept (.refl _)).bind_same fun _ => ?_
    refine (hst.agree_readExact length).bind ?_
    rintro ⟨bytes, s'⟩ ⟨_, t'⟩ ⟨rfl, hst'⟩
    have hmoved : Padded { p with stream := some s' } { q with stream := some t' } :=
      ⟨h.output, h.pending, h.chunk, .some hst'⟩
    exact .ofExcept (hmoved.write destination bytes)

/-- Chunks that differ in padding are fetched in step. What is reported of them may differ. -/
theorem agree_fetchStored (hd : d.Padded d') (origin : Index) :
    (fetchStored ⟨source, d, options⟩ origin).Agree source (· = ·)
      (fetchStored ⟨source, d', options⟩ origin) := by
  have hfetch : ∀ {chunk chunk' : CompressedChunk}, chunk.Padded chunk' →
      (do
        SourceM.report (.fetchingChunk origin chunk.data.encodedLength chunk.codec)
        fetchChunk source options (.compressed chunk)).Agree source (· = ·) (do
        SourceM.report (.fetchingChunk origin chunk'.data.encodedLength chunk'.codec)
        fetchChunk source options (.compressed chunk')) := by
    intro chunk chunk' h
    refine (Agree.report _ _).bind fun _ _ _ => ?_
    exact h.agree_decode options
  have hlayout := hd.layout
  rw [fetchStored, fetchStored]
  dsimp only
  generalize d.layout = layout at hlayout
  generalize d'.layout = layout' at hlayout
  cases hlayout with
  | refl =>
    cases layout with
    | compressedTiled chunkShape chunks =>
      dsimp only
      split
      · exact hfetch (.refl _)
      · exact .throw _
    | _ => exact .throw _
  | @compressedTiled chunkShape chunks chunks' h =>
    have horigin := h origin
    dsimp only
    generalize chunks.get? origin = chunk at horigin
    generalize chunks'.get? origin = chunk' at horigin
    cases horigin with
    | none => exact .throw _
    | some h => exact hfetch h
  | _ => exact .throw _

theorem Padded.agree_chunkBytes (hd : d.Padded d') (h : p.Padded q) (origin : Index) :
    (p.chunkBytes ⟨source, d, options⟩ origin).Agree source (· = ·)
      (q.chunkBytes ⟨source, d', options⟩ origin) := by
  rw [chunkBytes, chunkBytes, ← h.chunk]
  split
  · split
    · exact .pure rfl
    · exact agree_fetchStored hd origin
  · exact agree_fetchStored hd origin

theorem Padded.agree_fromChunk (hd : d.Padded d') (h : p.Padded q) (origin : Index)
    (offset destination length : Nat) :
    (p.fromChunk ⟨source, d, options⟩ origin offset destination length).Agree source Padded
      (q.fromChunk ⟨source, d', options⟩ origin offset destination length) := by
  refine (h.agree_chunkBytes hd origin).bind_same fun bytes => ?_
  have hkept : Padded { p with chunk := some (origin, bytes) }
      { q with chunk := some (origin, bytes) } := ⟨h.output, h.pending, rfl, h.stream⟩
  split
  · exact .ofExcept (hkept.write destination _)
  · exact .throw _

theorem Padded.fillElements (hd : d.Padded d') (h : p.Padded q) (destination run : Nat) :
    SameResult Padded (p.fillElements ⟨source, d, options⟩ destination run)
      (q.fillElements ⟨source, d', options⟩ destination run) := by
  rw [ReadProgress.fillElements, ReadProgress.fillElements]
  dsimp only
  rw [← h.output, ← hd.elementSize, ← hd.fill]
  split
  · exact .ok ⟨rfl, h.pending, h.chunk, h.stream⟩
  · exact .error _

/-- A transfer is carried out in step. -/
theorem Padded.agree_execute (hd : d.Padded d') (h : p.Padded q) (t : Transfer) :
    (p.execute ⟨source, d, options⟩ t).Agree source Padded
      (q.execute ⟨source, d', options⟩ t) := by
  rw [execute, execute]
  dsimp only
  rw [← hd.elementSize]
  cases t.source with
  | direct offset => exact h.agree_direct _ _ _
  | stream offset => exact h.agree_fromStream hd _ _ _
  | chunk origin offset => exact h.agree_fromChunk hd _ _ _ _
  | fill => exact .ofExcept (h.fillElements hd _ _)

theorem Padded.agree_finish (h : p.Padded q) :
    (p.finish ⟨source, d, options⟩).Agree source (· = ·) (q.finish ⟨source, d', options⟩) := by
  refine h.agree_flush.bind fun p' q' hpq => ?_
  have hstream := hpq.stream
  dsimp only
  generalize p'.stream = stream at hstream
  generalize q'.stream = stream' at hstream
  cases hstream with
  | none => exact .pure hpq.output
  | some hst => exact hst.agree_finish.bind fun _ _ _ => .pure hpq.output

end ReadProgress

/-- Reads of both variables are in step. -/
theorem agree_readSectionInto (hd : d.Padded d') (s : Section) (destination : Bytes) :
    (readSectionInto ⟨source, d, options⟩ s destination).Agree source (· = ·)
      (readSectionInto ⟨source, d', options⟩ s destination) := by
  cases hs : s.validate d.shape with
  | error cause =>
    have hs' : s.validate d'.shape = .error cause := hd.shape ▸ hs
    rw [readSectionInto_of_invalid hs, readSectionInto_of_invalid hs']
    exact .throw _
  | ok _ =>
    have hs' : s.validate d'.shape = .ok () := hd.shape ▸ hs
    by_cases hsize : destination.size = s.totalCount * d.elementSize
    · have hsize' : destination.size = s.totalCount * d'.elementSize := hd.elementSize ▸ hsize
      obtain ⟨plan, hplan, -⟩ := exists_exact hs
      have hplan' : resolve d' s = .ok plan := (resolve_eq_of_padded hd s).symm.trans hplan
      rw [readSectionInto_eq hs hplan hsize, readSectionInto_eq hs' hplan' hsize']
      refine (Agree.report _ _).bind fun _ _ _ => ?_
      refine Agree.bind (R := ReadProgress.Padded) ?_ fun p q hpq => hpq.agree_finish
      exact Agree.foldlM (fun p q t hpq => hpq.agree_execute hd t) plan.transfers
        ⟨rfl, rfl, rfl, .none⟩
    · have hsize' : destination.size ≠ s.totalCount * d'.elementSize := hd.elementSize ▸ hsize
      rw [readSectionInto_of_size hs hsize, readSectionInto_of_size hs' hsize', hd.elementSize]
      exact .throw _

theorem agree_readSection (hd : d.Padded d') (s : Section) :
    (readSection ⟨source, d, options⟩ s).Agree source (· = ·)
      (readSection ⟨source, d', options⟩ s) := by
  cases hs : s.validate d.shape with
  | error cause =>
    have hs' : s.validate d'.shape = .error cause := hd.shape ▸ hs
    rw [readSection_of_invalid hs, readSection_of_invalid hs']
    exact .throw _
  | ok _ =>
    have hs' : s.validate d'.shape = .ok () := hd.shape ▸ hs
    by_cases habsent : d.layout.isAbsent = true
    · have habsent' : d'.layout.isAbsent = true := hd.layout.isAbsent_eq ▸ habsent
      rw [readSection_absent hs habsent, readSection_absent hs' habsent']
      dsimp only
      rw [hd.elementSize, hd.fill]
      refine (Agree.report _ _).bind fun _ _ _ => ?_
      exact (Agree.ofExcept (.refl _)).bind_same fun _ => .pure rfl
    · have hstored : d.layout.isAbsent = false := by simpa using habsent
      have hstored' : d'.layout.isAbsent = false := hd.layout.isAbsent_eq ▸ hstored
      rw [readSection_stored hs hstored, readSection_stored hs' hstored']
      dsimp only
      rw [hd.elementSize]
      exact (Agree.ofExcept (.refl _)).bind_same fun _ => agree_readSectionInto hd s _

/-- Segments without bytes are invisible. Chains that are equal without them give the same answers to
all calls, whatever requests of these fail, and lead to the same positions by the same requests. And
sections of variables that are stored in such chains are read alike. No source tells them apart by
answering a range in one way and later in another one. -/
theorem zero_length_segments_invisible :
    (∀ chain chain', compact chain = compact chain' → ∀ options calls a,
      let r := runCalls calls (.ofChain chain options) a
      let r' := runCalls calls (.ofChain chain' options) a
      r.1.1 = r'.1.1 ∧ r.1.2.position = r'.1.2.position ∧ r.2.requests = r'.2.requests) ∧
    ∀ d d' : Descriptor, d.Padded d' → ∀ source options s a,
      let r := (readSection ⟨source, d, options⟩ s).outcome a
      let r' := (readSection ⟨source, d', options⟩ s).outcome a
      r.1 = r'.1 ∧ r.2.requests = r'.2.requests := by
  constructor
  · intro chain chain' hchain options calls a
    have hstart := SegmentStream.padded_ofChain (padded_iff.2 hchain) options
    obtain ⟨⟨hresults, hend⟩, htraffic⟩ :=
      padded_runCalls calls hstart (show a.traffic = a.traffic from rfl)
    exact ⟨hresults, hend.position, Activity.requests_eq htraffic⟩
  · intro d d' hd source options s a
    have hread : (readSection ⟨source, d, options⟩ s).Agree source (· = ·)
        (readSection ⟨source, d', options⟩ s) := agree_readSection hd s
    exact ⟨(hread.result (.of_requests_eq rfl)).eq, Activity.requests_eq (hread.traffic rfl)⟩

/-- Three bytes in two segments, behind one without bytes. -/
def paddedAhead : Descriptor :=
  { shape := [3]
    elementSize := 1
    fill := none
    layout := .segmented [⟨7, 0⟩, ⟨0, 2⟩, ⟨3, 1⟩]
    accepted := rfl }

/-- The same bytes, with a segment without bytes between them. -/
def paddedBetween : Descriptor :=
  { shape := [3]
    elementSize := 1
    fill := none
    layout := .segmented [⟨0, 2⟩, ⟨99, 0⟩, ⟨3, 1⟩]
    accepted := rfl }

/-- The chains of both variables are read alike, and so are the variables, from any source. -/
theorem paddedAhead_read_as_paddedBetween :
    compact [⟨7, 0⟩, ⟨0, 2⟩, ⟨3, 1⟩] = compact [⟨0, 2⟩, ⟨99, 0⟩, ⟨3, 1⟩] ∧
    paddedAhead.Padded paddedBetween ∧
    (∀ options calls a,
      (runCalls calls (.ofChain [⟨7, 0⟩, ⟨0, 2⟩, ⟨3, 1⟩] options) a).1.1 =
        (runCalls calls (.ofChain [⟨0, 2⟩, ⟨99, 0⟩, ⟨3, 1⟩] options) a).1.1) ∧
    ∀ source options s a,
      ((readSection ⟨source, paddedAhead, options⟩ s).outcome a).1 =
        ((readSection ⟨source, paddedBetween, options⟩ s).outcome a).1 := by
  have hchains : compact [⟨7, 0⟩, ⟨0, 2⟩, ⟨3, 1⟩] = compact [⟨0, 2⟩, ⟨99, 0⟩, ⟨3, 1⟩] := rfl
  have hpadded : paddedAhead.Padded paddedBetween := ⟨rfl, rfl, rfl, .segmented hchains⟩
  refine ⟨hchains, hpadded, fun options calls a => ?_, fun source options s a => ?_⟩
  · exact (zero_length_segments_invisible.1 _ _ hchains options calls a).1
  · exact (zero_length_segments_invisible.2 _ _ hpadded source options s a).1

end Hyperslab
