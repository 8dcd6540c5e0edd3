import Hyperslab.Codec.Deflate.Stream
import Hyperslab.Proofs.Read.Section
import Hyperslab.Proofs.Record
import Hyperslab.Proofs.Request.Failure
import Hyperslab.Proofs.Resolve.Exact

/-!
# Reads on a source that fails

On each way from a request to the caller a failure of the byte source stays what it is: through the
segments of a stream, through a decoder above them, and through reads that were put off. A read that
issued a request in vain issues no other one. So compressed data is called corrupt only where all of
it that was asked for has come.

## Main definitions

- `ReadError.IsExternal`: the errors that are not of the request but of what is read or of the
  machine

## Main statements

- `SegmentStream.surfaces_walk`: a walk along a chain stops at the first request that fails
- `ReadProgress.surfaces_execute`: so does a transfer
- `failures_surface`: every way to read passes the failures of its source on
-/

namespace Hyperslab

open SourceM

variable {source : ByteSource}

namespace SegmentStream

/-- A walk stops at the first segment whose request fails. -/
theorem surfaces_walk (way : ByteRange → Request) (chain : List ByteRange) (count : Nat)
    (w : ChainWalk) (a : Activity) :
    ∃ issued,
      (walk (fun range => (way range).issue source) chain count w a).2.traffic =
        (a.after source issued).traffic ∧
      StopsAtFailure source id a.requests.toList issued
        (walk (fun range => (way range).issue source) chain count w a).1.1 := by
  induction chain generalizing count w a with
  | nil => exact ⟨[], rfl, stopsAtFailure_nil⟩
  | cons segment rest ih =>
    rw [walk]
    split
    · exact ⟨[], rfl, stopsAtFailure_nil⟩
    · split
      · exact ih count w a
      · dsimp only
        rw [run_bind]
        have hresult : (((way (segment.take count)).issue source).attempt a).1 =
            (way (segment.take count)).answer source a.requests.toList := Request.issue_result _ a
        have hrequests : (((way (segment.take count)).issue source).attempt a).2.requests =
            a.requests.push (way (segment.take count)).range := Request.issue_requests _ a
        rw [hresult]
        cases hanswer : (way (segment.take count)).answer source a.requests.toList with
        | error e =>
          -- nothing is asked for after the failure
          refine ⟨[way (segment.take count)], rfl, stopsAtFailure_singleton ?_⟩
          intro e' he'
          rw [hanswer] at he'
          cases he'
          rfl
        | ok bytes =>
          dsimp only
          split
          · obtain ⟨issued, htraffic, hstops⟩ := ih (count - segment.length) _ _
            rw [hrequests, Array.toList_push] at hstops
            exact ⟨way (segment.take count) :: issued, htraffic, hstops.cons hanswer⟩
          · exact ⟨[way (segment.take count)], rfl, stopsAtFailure_nil.cons hanswer⟩

theorem surfaces_readBy (way : ByteRange → Request) (s : SegmentStream) (count : Nat)
    (a : Activity) :
    ∃ issued,
      (s.readBy (fun range => (way range).issue source) count a).2.traffic =
        (a.after source issued).traffic ∧
      StopsAtFailure source id a.requests.toList issued
        (s.readBy (fun range => (way range).issue source) count a).1.1 := by
  obtain ⟨issued, htraffic, hstops⟩ :=
    surfaces_walk way s.left count { bytes := #[], passed := 0, left := [] } a
  rw [readBy, run_bind]
  rcases h : walk _ s.left count _ a with ⟨⟨e | _, w⟩, a'⟩
  · rw [h] at htraffic hstops
    refine ⟨issued, htraffic, hstops.congr fun e' he' => ?_⟩
    cases he'
    rfl
  · rw [h] at htraffic hstops
    refine ⟨issued, ?_, hstops.congr nofun⟩
    dsimp only
    split
    · exact (traffic_reportEmpty _ _ _).trans htraffic
    · exact htraffic

/-- A pull passes the failure of its one request on. -/
theorem surfaces_pull (s : SegmentStream) (limit : Nat) :
    Surfaces source id (fun _ => True) (s.pull source limit) := by
  rw [pull]
  split
  · exact (Surfaces.issue (.readInto _) fun _ => trivial).bind fun _ => .pure _
  · exact (Surfaces.lift (traffic_reportEmpty s limit)).bind fun _ => .pure _

end SegmentStream

namespace Payload

theorem surfaces_obtain (supply : Supply) :
    Surfaces source id (fun _ => True) (obtain source supply) := by
  cases supply with
  | held bytes => exact .pure bytes
  | request range => exact .issue (.readInto range) fun _ => trivial

theorem surfaces_pull (payload : Payload) (limit : Nat) :
    Surfaces source id (fun _ => True) (payload.pull source limit) := by
  rw [pull]
  split
  · exact (surfaces_obtain _).bind fun _ => .pure _
  · exact (Surfaces.lift (payload.traffic_reportEnd limit)).bind fun _ => .pure _

end Payload

/-- Decoding on bytes that have come issues no request. -/
theorem InflateStream.surfaces_refill (s : InflateStream) (limit : Nat) :
    Surfaces source .source (fun _ => True) (s.refill source limit) := by
  fun_induction s.refill source limit with
  | case1 s hnone =>
    refine (Surfaces.lift (s.payload.traffic_reportEnd window)).bind fun _ => ?_
    exact .ofExcept fun _ _ => trivial
  | case2 s supply payload hnext ih =>
    refine ((Payload.surfaces_obtain supply).mapError (fun _ => rfl) fun _ _ => trivial).bind ?_
    intro piece
    refine (Surfaces.ofExcept fun _ _ => trivial).bind ?_
    rintro ⟨bytes, s'⟩
    dsimp only
    split
    · exact ih s'
    · exact .pure _

theorem InflateStream.surfaces_read (s : InflateStream) (limit : Nat) :
    Surfaces source .source (fun _ => True) (s.read source limit) := by
  rw [read]
  split
  · refine (Surfaces.ofExcept fun _ _ => trivial).bind ?_
    rintro ⟨bytes, s'⟩
    dsimp only
    split
    · exact s'.surfaces_refill limit
    · exact .pure _
  · exact s.surfaces_refill limit

namespace DecodedStream

theorem surfaces_read (s : DecodedStream) (limit : Nat) :
    Surfaces source .source (fun _ => True) (s.read source limit) := by
  cases s with
  | plain payload =>
    refine ((payload.surfaces_pull limit).mapError (fun _ => rfl) fun _ _ => trivial).bind ?_
    exact fun _ => .pure _
  | inflating stream => exact (stream.surfaces_read limit).bind fun _ => .pure _

theorem surfaces_collect (growth largest : Nat) (s : DecodedStream) (count : Nat) (held : Bytes) :
    Surfaces source .source (fun _ => True) (s.collect source growth largest count held) := by
  fun_induction s.collect source growth largest count held with
  | case1 => exact .pure _
  | case2 largest s count held hcount wanted ih =>
    refine (s.surfaces_read _).bind ?_
    rintro ⟨bytes, s'⟩
    dsimp only
    split
    · exact .pure _
    · exact ih bytes s' ‹_›

theorem surfaces_readExact (s : DecodedStream) (count : Nat) :
    Surfaces source .source (fun _ => True) (s.readExact source count) := by
  refine (s.surfaces_collect 1 count count #[]).bind ?_
  rintro ⟨bytes, s'⟩
  dsimp only
  split
  · exact (Surfaces.throw trivial).bind fun _ => .pure _
  · exact .pure _

theorem surfaces_skip (s : DecodedStream) (count : Nat) :
    Surfaces source .source (fun _ => True) (s.skip source count) :=
  (s.surfaces_collect 1 skipSize count #[]).bind fun _ => .pure _

theorem surfaces_readDeclaredFrom (s : DecodedStream) (declared : Nat) (held : Bytes)
    (largest : Nat) :
    Surfaces source .source (fun _ => True) (s.readDeclaredFrom source declared held largest) := by
  fun_induction s.readDeclaredFrom source declared held largest with
  | case1 => exact .pure _
  | case2 s held largest hheld wanted ih =>
    refine (s.surfaces_read _).bind ?_
    rintro ⟨bytes, s'⟩
    dsimp only
    split
    · exact .pure _
    · exact ih bytes s' ‹_›

end DecodedStream

/-- The error is not of the request but of what is read or of the machine: the source failed, the
compressed data is not what was declared, it needs a codec that there is not, or the program
stopped. -/
def ReadError.IsExternal : ReadError → Prop
  | storage _ | corruptChunk _ | unsupportedCodec _ | halted _ => True
  | _ => False

/-- The computation passes the failures of the source on, and all its errors are of what is read. -/
abbrev SourceM.SurfacesExternal {α : Type} (source : ByteSource) (x : SourceM ReadError α) : Prop :=
  Surfaces source .storage ReadError.IsExternal x

/-- The computation passes the failures of the source on, whatever other errors it has. -/
abbrev SourceM.SurfacesAny {α : Type} (source : ByteSource) (x : SourceM ReadError α) : Prop :=
  Surfaces source .storage (fun _ => True) x

theorem ReadError.isExternal_ofDecode (e : DecodeError) : (ofDecode e).IsExternal := by
  cases e <;> trivial

/-- A step of a decoder in a read. -/
theorem SourceM.Surfaces.ofDecode {α : Type} {x : SourceM DecodeError α}
    (h : Surfaces source .source (fun _ => True) x) :
    SurfacesExternal source (x.mapError ReadError.ofDecode) :=
  h.mapError (fun _ => rfl) fun e _ => ReadError.isExternal_ofDecode e

/-- A request of a read. -/
theorem SourceM.Surfaces.ofStorage {α : Type} {x : SourceM StorageError α}
    (h : Surfaces source id (fun _ => True) x) :
    SurfacesExternal source (x.mapError ReadError.storage) :=
  h.mapError (fun _ => rfl) fun _ _ => trivial

theorem isExternal_of_checkDecodedSize {declared : Nat} {options : ReadOptions} {e : ReadError}
    (h : checkDecodedSize declared options = .error e) : e.IsExternal := by
  rw [checkDecodedSize] at h
  split at h <;> cases h
  trivial

theorem isExternal_of_findCodec {id : CodecId} {e : ReadError} (h : findCodec id = .error e) :
    e.IsExternal := by
  rw [findCodec] at h
  cases hid : Codec.ofId id <;> rw [hid] at h <;> cases h
  trivial

theorem isExternal_of_reserve {size : Nat} {e : ReadError}
    (h : (Bytes.reserve size).mapError ReadError.halted = .error e) : e.IsExternal := by
  rw [Bytes.reserve] at h
  split at h <;> cases h
  trivial

theorem meets_reserve (size : Nat) :
    Meets (reserve size) (fun _ => True) ReadError.IsExternal :=
  .ofExcept (fun _ _ => trivial) fun _ => isExternal_of_reserve

theorem surfaces_reserve (size : Nat) : SurfacesExternal source (reserve size) :=
  .ofExcept fun _ => isExternal_of_reserve

theorem CompressedChunk.surfaces_decode (options : ReadOptions) (chunk : CompressedChunk) :
    SurfacesExternal source (chunk.decode source options) := by
  rw [decode]
  refine (Surfaces.ofExcept fun _ => isExternal_of_checkDecodedSize).bind fun _ => ?_
  refine (Surfaces.ofExcept fun _ => isExternal_of_findCodec).bind fun codec => ?_
  refine (Surfaces.ofStorage ?_).bind fun payload => ?_
  · cases chunk.data with
    | contiguous range => exact (Surfaces.issue (.readAt range) fun _ => trivial).bind fun _ => .pure _
    | linked segments => exact .pure _
  · refine (surfaces_reserve _).bind fun _ => ?_
    refine (DecodedStream.surfaces_readDeclaredFrom _ _ _ _).ofDecode.bind fun bytes => ?_
    split
    · exact (Surfaces.throw trivial).bind fun _ => .pure _
    · exact .pure _

theorem surfaces_fetchChunk (options : ReadOptions) (locator : ChunkLocator) :
    SurfacesExternal source (fetchChunk source options locator) := by
  cases locator with
  | direct range => exact (Surfaces.issue (.readAt range) fun _ => trivial).ofStorage
  | compressed chunk => exact chunk.surfaces_decode options

namespace LogicalStream

theorem surfaces_ofSegments (options : ReadOptions) (segments : List ByteRange) (codec : CodecId)
    (length : Nat) : SurfacesExternal source (ofSegments options segments codec length) := by
  rw [ofSegments]
  refine (Surfaces.ofExcept fun _ => isExternal_of_checkDecodedSize).bind fun _ => ?_
  refine (Surfaces.ofExcept fun _ => isExternal_of_findCodec).bind fun codec => ?_
  exact (Surfaces.report _).bind fun _ => .pure _

theorem surfaces_ofLayout (options : ReadOptions) (layout : StorageLayout) :
    SurfacesAny source (ofLayout options layout) := by
  cases layout with
  | segmented segments => exact (Surfaces.report _).bind fun _ => .pure _
  | compressed data length codec => exact (surfaces_ofSegments _ _ _ _).anyError
  | compressedSegmented segments codec length => exact (surfaces_ofSegments _ _ _ _).anyError
  | _ => exact .throw trivial

theorem surfaces_skip (s : LogicalStream) (count : Nat) :
    SurfacesExternal source (s.skip source count) := by
  cases s with
  | plain stream =>
    rw [skip]
    dsimp only
    split
    · exact (Surfaces.throw trivial).bind fun _ => .pure _
    · exact .pure _
  | decoded stream position length =>
    refine (stream.surfaces_skip count).ofDecode.bind ?_
    rintro ⟨passed, stream'⟩
    dsimp only
    split
    · exact (Surfaces.throw trivial).bind fun _ => .pure _
    · exact .pure _

theorem surfaces_readExact (s : LogicalStream) (count : Nat) :
    SurfacesExternal source (s.readExact source count) := by
  cases s with
  | plain stream =>
    refine Surfaces.andThen (stream.surfaces_readBy .readInto count) ?_ (fun _ _ => rfl)
      fun _ => trivial
    intro bytes stream'
    dsimp only
    split
    · exact (Surfaces.throw trivial).bind fun _ => .pure _
    · exact .pure _
  | decoded stream position length =>
    exact (stream.surfaces_readExact count).ofDecode.bind fun _ => .pure _

theorem surfaces_finish (s : LogicalStream) : SurfacesExternal source (s.finish source) := by
  cases s with
  | plain stream => exact .pure _
  | decoded stream position length =>
    refine (stream.surfaces_skip _).ofDecode.bind ?_
    rintro ⟨passed, stream'⟩
    dsimp only
    split
    · refine (Surfaces.throw trivial).bind fun _ => ?_
      split
      · exact .throw trivial
      · exact .pure _
    · split
      · exact .throw trivial
      · exact .pure _

end LogicalStream

namespace ReadProgress

variable {r : ReadRequest}

theorem surfaces_fetchInto (p : ReadProgress) (offset destination length : Nat) :
    SurfacesAny r.source (p.fetchInto r offset destination length) := by
  rw [fetchInto]
  refine (Surfaces.ofExcept fun _ _ => trivial).bind fun _ => ?_
  refine (Surfaces.issue (.readInto _) fun _ => trivial).ofStorage.anyError.bind fun bytes => ?_
  exact .ofExcept fun _ _ => trivial

/-- A read that was put off fails as one that was not. -/
theorem surfaces_flush (p : ReadProgress) : SurfacesAny r.source (p.flush r) := by
  rw [flush]
  split
  · exact surfaces_fetchInto _ _ _ _
  · exact .pure p

theorem surfaces_direct (p : ReadProgress) (offset destination length : Nat) :
    SurfacesAny r.source (p.direct r offset destination length) := by
  rw [direct]
  split
  · split
    · exact .pure _
    · exact p.surfaces_flush.bind fun _ => .pure _
  · exact p.surfaces_fetchInto offset destination length

theorem surfaces_streamBefore (p : ReadProgress) (offset : Nat) :
    SurfacesAny r.source (p.streamBefore r offset) := by
  rw [streamBefore]
  split
  · split
    · exact LogicalStream.surfaces_ofLayout _ _
    · exact .pure _
  · exact LogicalStream.surfaces_ofLayout _ _

theorem surfaces_fromStream (p : ReadProgress) (offset destination length : Nat) :
    SurfacesAny r.source (p.fromStream r offset destination length) := by
  rw [fromStream_eq]
  refine (p.surfaces_streamBefore offset).bind fun stream => Surfaces.bind ?_ fun stream' => ?_
  · rw [LogicalStream.skipTo]
    split
    · exact (stream.surfaces_skip _).anyError
    · exact .pure _
  · refine (Surfaces.ofExcept fun _ _ => trivial).bind fun _ => ?_
    refine (stream'.surfaces_readExact length).anyError.bind fun _ => ?_
    exact .ofExcept fun _ _ => trivial

theorem surfaces_fetchStored (origin : Index) : SurfacesAny r.source (fetchStored r origin) := by
  rw [fetchStored]
  split
  · split
    · exact (Surfaces.report _).bind fun _ => (surfaces_fetchChunk _ _).anyError
    · exact .throw trivial
  · exact .throw trivial

theorem surfaces_chunkBytes (p : ReadProgress) (origin : Index) :
    SurfacesAny r.source (p.chunkBytes r origin) := by
  rw [chunkBytes]
  split
  · split
    · exact .pure _
    · exact surfaces_fetchStored origin
  · exact surfaces_fetchStored origin

theorem surfaces_fromChunk (p : ReadProgress) (origin : Index) (offset destination length : Nat) :
    SurfacesAny r.source (p.fromChunk r origin offset destination length) := by
  refine (p.surfaces_chunkBytes origin).bind fun bytes => ?_
  split
  · exact .ofExcept fun _ _ => trivial
  · exact .throw trivial

/-- A transfer stops at the first request of it that fails. -/
theorem surfaces_execute (p : ReadProgress) (t : Transfer) :
    SurfacesAny r.source (p.execute r t) := by
  rw [execute]
  cases t.source with
  | direct offset => exact p.surfaces_direct _ _ _
  | stream offset => exact p.surfaces_fromStream _ _ _
  | chunk origin offset => exact p.surfaces_fromChunk _ _ _ _
  | fill => exact .ofExcept fun _ _ => trivial

theorem surfaces_finish (p : ReadProgress) : SurfacesAny r.source (p.finish r) := by
  refine p.surfaces_flush.bind fun p' => ?_
  dsimp only
  split
  · exact (LogicalStream.surfaces_finish _).anyError.bind fun _ => .pure _
  · exact .pure _

end ReadProgress

section Reads

variable {r : ReadRequest} {s : Section}

theorem surfaces_readSectionInto (r : ReadRequest) (s : Section) (destination : Bytes) :
    SurfacesAny r.source (readSectionInto r s destination) := by
  cases hs : s.validate r.descriptor.shape with
  | error cause =>
    rw [readSectionInto_of_invalid hs]
    exact .throw trivial
  | ok _ =>
    by_cases hsize : destination.size = s.totalCount * r.descriptor.elementSize
    · obtain ⟨plan, hplan, -⟩ := exists_exact hs
      rw [readSectionInto_eq hs hplan hsize]
      refine (Surfaces.report _).bind fun _ => ?_
      refine (Surfaces.foldlM (fun p t => p.surfaces_execute t) plan.transfers _).bind ?_
      exact fun p => p.surfaces_finish
    · rw [readSectionInto_of_size hs hsize]
      exact .throw trivial

theorem surfaces_readSection (r : ReadRequest) (s : Section) :
    SurfacesAny r.source (readSection r s) := by
  cases hs : s.validate r.descriptor.shape with
  | error cause =>
    rw [readSection_of_invalid hs]
    exact .throw trivial
  | ok _ =>
    by_cases habsent : r.descriptor.layout.isAbsent = true
    · rw [readSection_absent hs habsent]
      refine (Surfaces.report _).bind fun _ => ?_
      exact (surfaces_reserve _).anyError.bind fun _ => .pure _
    · rw [readSection_stored hs (by simpa using habsent)]
      exact (surfaces_reserve _).anyError.bind fun _ => surfaces_readSectionInto r s _

end Reads

namespace RecordReader

variable {r : RecordReader}

theorem surfaces_fetchFields (field : RecordField) (run offset destination : Nat) (output : Bytes) :
    SurfacesAny r.source (r.fetchFields field run offset destination output) := by
  induction run generalizing offset destination output with
  | zero => exact .pure output
  | succ run ih =>
    rw [fetchFields]
    refine Surfaces.bind ?_ fun bytes => ?_
    · exact (Surfaces.issue (.readInto _) fun _ => trivial).ofStorage.anyError
    · split
      · exact ih _ _ _
      · exact .throw trivial

theorem surfaces_executeField (field : RecordField) (fill : Option FillValue) (output : Bytes)
    (t : Transfer) :
    SurfacesAny r.source (r.executeField field fill output t) := by
  rw [executeField]
  cases t.source with
  | direct offset => exact surfaces_fetchFields field _ _ _ _
  | fill =>
    dsimp only
    split
    · exact .pure _
    · exact .throw trivial
  | _ => exact .throw trivial

theorem surfaces_readField (r : RecordReader) (s : Section) (name : String) :
    SurfacesAny r.source (r.readField s name) := by
  rw [readField]
  split
  · exact .throw trivial
  · split
    · exact .pure _
    · split
      · cases hs : s.validate r.descriptor.shape with
        | error cause =>
          rw [readAddressed, startTransfers, hs]
          exact .throw trivial
        | ok _ =>
          obtain ⟨plan, hplan, -⟩ := exists_exact hs
          rw [readAddressed_eq hs hplan]
          refine (Surfaces.report _).bind fun _ => ?_
          refine Surfaces.bind (.ofExcept fun _ _ => trivial) fun fill => ?_
          refine (surfaces_reserve _).anyError.bind fun _ => ?_
          exact Surfaces.foldlM (fun output t => surfaces_executeField _ fill output t) _ _
      · exact (surfaces_readSection _ s).bind fun _ => .ofExcept fun _ _ => trivial

end RecordReader

/-- What becomes of failures of the source in a read. No request is issued after one that failed,
and the read ends with that failure. So data is found corrupt only where all requests were
answered. A range may be asked for again and then fail: each request has its answer after those
before it. -/
def SourceM.PassesFailures {α : Type} (source : ByteSource) (x : SourceM ReadError α) : Prop :=
  ∀ a, ∃ issued,
    (x.outcome a).2.traffic = (a.after source issued).traffic ∧
    (x.outcome a).2.requests.toList = a.requests.toList ++ issued.map Request.range ∧
    (∀ front q back e, issued = front ++ q :: back →
      q.answer source (a.requests.toList ++ front.map Request.range) = .error e →
      back = [] ∧ (x.outcome a).1 = .error (.storage e)) ∧
    ∀ cause, (x.outcome a).1 = .error (.corruptChunk cause) →
      ∀ front q back, issued = front ++ q :: back →
        ∃ bytes, q.answer source (a.requests.toList ++ front.map Request.range) = .ok bytes

theorem SourceM.Surfaces.passesFailures {α : Type} {own : ReadError → Prop}
    {x : SourceM ReadError α} (h : Surfaces source .storage own x) : x.PassesFailures source := by
  intro a
  obtain ⟨issued, htraffic, hstops, -⟩ := h a
  refine ⟨issued, htraffic, ?_, hstops, ?_⟩
  · rw [Activity.requests_eq htraffic, Activity.requests_after]
  · intro cause hcause front q back heq
    refine hstops.answered ?_ heq
    rw [hcause]
    exact nofun

/-- Whatever requests a source fails, with whatever failures, be it after it has answered the same
range: a read of a chunk, of a section or of a field stops at the first request that fails, and ends
with just that failure. -/
theorem failures_surface :
    (∀ (source : ByteSource) (options : ReadOptions) (locator : ChunkLocator),
      (fetchChunk source options locator).PassesFailures source) ∧
    (∀ (r : ReadRequest) (s : Section), (readSection r s).PassesFailures r.source) ∧
    (∀ (r : ReadRequest) (s : Section) (destination : Bytes),
      (readSectionInto r s destination).PassesFailures r.source) ∧
    ∀ (r : RecordReader) (s : Section) (name : String),
      (r.readField s name).PassesFailures r.source := by
  refine ⟨fun source options locator => ?_, fun r s => ?_, fun r s destination => ?_,
    fun r s name => ?_⟩
  · exact (surfaces_fetchChunk options locator).passesFailures
  · exact (surfaces_readSection r s).passesFailures
  · exact (surfaces_readSectionInto r s destination).passesFailures
  · exact (r.surfaces_readField s name).passesFailures

/-- Two chunks at the same place, of which only the first one can be read: the source answers no
range twice. -/
example :
    let shared : Descriptor :=
      { shape := [2]
        elementSize := 1
        fill := none
        layout := .tiled [⟨1, Nat.one_pos⟩] (.ofList [([0], ⟨0, 1⟩), ([1], ⟨0, 1⟩)])
        accepted := rfl }
    let once := (ByteSource.memory #[7]).failing fun before range =>
      if range ∈ before then some (.other "spent") else none
    let ended := (readSection ⟨once, shared, {}⟩ ⟨[.contiguous 0 2]⟩).outcome {}
    ended.1 = .error (.storage (.other "spent")) ∧ ended.2.requests = #[⟨0, 1⟩, ⟨0, 1⟩] := by
  exact ⟨rfl, rfl⟩

end Hyperslab
