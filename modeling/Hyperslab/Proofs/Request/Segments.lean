import Hyperslab.Proofs.Codec.Padding
import Hyperslab.Proofs.Codec.Payload

/-!
# Requests for bytes of segments

A decoder draws on a payload, and what it asks for on the way are bytes of the segments of the
payload. This holds of any source, whatever its answers are and whether or not they decode, and
nothing but the lack of bytes is reported.

## Main definitions

- `ByteRange.PartOf`: a range inside of one of some segments
- `Activity.Asked`: what was added are requests inside of segments
- `SourceM.Draws`: a computation asks for bytes of segments only

## Main statements

- `InflateStream.draws_refill`: pieces of a payload are taken from its segments
- `CompressedChunk.ends_decode_issues`: what is asked for to decode a chunk
-/

namespace Hyperslab

/-- The bytes of the range are bytes of one of the segments. -/
def ByteRange.PartOf (range : ByteRange) (segments : List ByteRange) : Prop :=
  ∃ segment ∈ segments, segment.offset ≤ range.offset ∧
    range.offset + range.length ≤ segment.offset + segment.length

/-- The event is the fetch of a chunk. -/
def LogEvent.isFetch : LogEvent → Bool
  | fetchingChunk .. => true
  | _ => false

/-- The fetches of chunks reported, in order. -/
def Activity.fetches (a : Activity) : List LogEvent :=
  a.log.toList.filter LogEvent.isFetch

theorem Activity.fetches_push {a : Activity} {event : LogEvent} (h : event.isFetch = false) :
    Activity.fetches { a with log := a.log.push event } = a.fetches := by
  rw [fetches, Array.toList_push, List.filter_append, List.filter_cons_of_neg (by rw [h]; decide)]
  exact List.append_nil _

/-- The requests of `a'` that `a` has not are for bytes of the segments, and it has no more
fetches. -/
structure Activity.Asked (segments : List ByteRange) (a a' : Activity) : Prop where
  exists_issued : ∃ issued, a'.requests.toList = a.requests.toList ++ issued ∧
    ∀ range ∈ issued, range.PartOf segments
  fetches_eq : a'.fetches = a.fetches

/-- Whatever was observed before, the computation asks for bytes of the segments only. A value that
it comes to is as said. -/
def SourceM.Draws {ε α : Type} (segments : List ByteRange) (P : α → Prop) (x : SourceM ε α) :
    Prop :=
  ∀ a : Activity, Ends x a (fun v a' => a.Asked segments a' ∧ P v) fun _ a' => a.Asked segments a'

variable {segments : List ByteRange} {source : ByteSource}

theorem ByteRange.partOf_of_mem {range : ByteRange} (h : range ∈ segments) :
    range.PartOf segments :=
  ⟨range, h, Nat.le_refl _, Nat.le_refl _⟩

theorem ByteRange.PartOf.take {range : ByteRange} (h : range.PartOf segments) (n : Nat) :
    (range.take n).PartOf segments := by
  obtain ⟨segment, hsegment, hstart, hstop⟩ := h
  refine ⟨segment, hsegment, hstart, ?_⟩
  simp only [ByteRange.take]
  omega

theorem ByteRange.PartOf.drop {range : ByteRange} (h : range.PartOf segments) {n : Nat}
    (hn : n ≤ range.length) : (range.drop n).PartOf segments := by
  obtain ⟨segment, hsegment, hstart, hstop⟩ := h
  refine ⟨segment, hsegment, ?_, ?_⟩
  all_goals
    simp only [ByteRange.drop]
    omega

namespace Activity.Asked

variable {a a' a'' : Activity}

/-- Reports of anything but fetches do not count. -/
theorem of_requests_eq (hrequests : a'.requests = a.requests) (hfetches : a'.fetches = a.fetches) :
    a.Asked segments a' :=
  ⟨⟨[], by rw [hrequests, List.append_nil], nofun⟩, hfetches⟩

protected theorem refl (segments : List ByteRange) (a : Activity) : a.Asked segments a :=
  of_requests_eq rfl rfl

protected theorem trans (h : a.Asked segments a') (h' : a'.Asked segments a'') :
    a.Asked segments a'' := by
  obtain ⟨issued, hissued, hpart⟩ := h.exists_issued
  obtain ⟨more, hmore, hpart'⟩ := h'.exists_issued
  refine ⟨⟨issued ++ more, ?_, ?_⟩, h'.fetches_eq.trans h.fetches_eq⟩
  · rw [hmore, hissued, List.append_assoc]
  · intro range hrange
    rcases List.mem_append.1 hrange with hrange | hrange
    · exact hpart range hrange
    · exact hpart' range hrange

/-- A request may be counted or not. -/
theorem of_request {range : ByteRange} (h : range.PartOf segments)
    (hrequests : a'.requests = a.requests.push range) (hlog : a'.log = a.log) :
    a.Asked segments a' := by
  refine ⟨⟨[range], ?_, List.forall_mem_singleton.2 h⟩, ?_⟩
  · rw [hrequests, Array.toList_push]
  · rw [fetches, hlog, fetches]

end Activity.Asked

namespace SourceM.Draws

variable {ε ε' α β : Type} {P : α → Prop} {Q : β → Prop}

protected theorem pure {v : α} (h : P v) : (pure v : SourceM ε α).Draws segments P :=
  fun a => ⟨.refl segments a, h⟩

protected theorem throw (e : ε) : (throw e : SourceM ε α).Draws segments P :=
  fun a => .refl segments a

protected theorem ofExcept {r : Except ε α} (h : ∀ v, r = .ok v → P v) :
    (ofExcept r : SourceM ε α).Draws segments P := by
  cases r with
  | ok v => exact .pure (h v rfl)
  | error e => exact .throw e

protected theorem bind {x : SourceM ε α} {f : α → SourceM ε β} (hx : x.Draws segments P)
    (hf : ∀ v, P v → (f v).Draws segments Q) : (x >>= f).Draws segments Q := by
  intro a
  rw [ends_bind]
  refine (hx a).mono ?_ fun _ _ h => h
  rintro v a' ⟨hasked, hv⟩
  exact (hf v hv a').mono (fun _ _ ⟨h, hw⟩ => ⟨hasked.trans h, hw⟩) fun _ _ h => hasked.trans h

protected theorem mapError {x : SourceM ε α} (hx : x.Draws segments P) (f : ε → ε') :
    (x.mapError f).Draws segments P := by
  intro a
  rw [ends_mapError]
  exact hx a

theorem fetchExactly {range : ByteRange} (h : range.PartOf segments) :
    (source.fetchExactly range).Draws segments fun _ => True := by
  intro a
  cases hanswer : source.readInto a.requests.toList range with
  | ok bytes =>
    rw [ends_fetchExactly_of_ok hanswer]
    exact ⟨.of_request h rfl rfl, trivial⟩
  | error e =>
    rw [ends_fetchExactly_of_error hanswer]
    exact .of_request h rfl rfl

end SourceM.Draws

open SourceM

/-- What is left of the chain is of the segments. -/
def SegmentStream.LeftOf (segments : List ByteRange) (s : SegmentStream) : Prop :=
  ∀ segment ∈ s.left, segment.PartOf segments

namespace SegmentStream

variable {s s' : SegmentStream} {limit : Nat}

theorem LeftOf.next? (h : s.LeftOf segments) {range : ByteRange}
    (hnext : s.next? limit = some (range, s')) :
    range.PartOf segments ∧ s'.LeftOf segments := by
  rw [SegmentStream.next?] at hnext
  split at hnext
  · cases hnext
  · rename_i segment rest htrim
    obtain ⟨-, hnext⟩ := Option.ite_none_left_eq_some.1 hnext
    cases hnext
    have hleft : ∀ part ∈ segment :: rest, part.PartOf segments := fun part hpart =>
      h part (mem_of_mem_trim (htrim ▸ hpart))
    obtain ⟨hsegment, hrest⟩ := List.forall_mem_cons.1 hleft
    refine ⟨hsegment.take _, List.forall_mem_cons.2 ⟨hsegment.drop ?_, hrest⟩⟩
    omega

theorem asked_reportEmpty (s : SegmentStream) (requested : Nat) (a : Activity) :
    a.Asked segments (s.reportEmpty requested a).2 ∧
      (s.reportEmpty requested a).1.left = s.left := by
  rw [reportEmpty]
  split
  · exact ⟨.of_requests_eq rfl (Activity.fetches_push rfl), rfl⟩
  · exact ⟨.refl segments a, rfl⟩

end SegmentStream

namespace Payload

/-- What is still to come of the payload is held or is of the segments. -/
def LeftOf (segments : List ByteRange) : Payload → Prop
  | held _ _ => True
  | chain stream => stream.LeftOf segments

variable {payload payload' : Payload} {limit : Nat}

/-- A piece that is requested is of the segments. -/
theorem LeftOf.next? (h : payload.LeftOf segments) {supply : Supply}
    (hnext : payload.next? limit = some (supply, payload')) :
    (obtain source supply).Draws segments (fun _ => True) ∧ payload'.LeftOf segments := by
  cases payload with
  | held bytes position =>
    obtain ⟨-, hnext⟩ := Option.ite_none_left_eq_some.1 hnext
    cases hnext
    exact ⟨.pure trivial, trivial⟩
  | chain stream =>
    obtain ⟨⟨range, stream'⟩, hstream, hnext⟩ := Option.map_eq_some_iff.1 hnext
    cases hnext
    obtain ⟨hrange, hleft⟩ := SegmentStream.LeftOf.next? h hstream
    exact ⟨.fetchExactly hrange, hleft⟩

theorem LeftOf.draws_reportEnd {ε : Type} (h : payload.LeftOf segments) (limit : Nat) :
    (liftM (payload.reportEnd limit) : SourceM ε Payload).Draws segments (LeftOf segments) := by
  intro a
  rw [ends_lift]
  cases payload with
  | held bytes position => exact ⟨.refl segments a, trivial⟩
  | chain stream =>
    obtain ⟨hasked, hleft⟩ := stream.asked_reportEmpty limit a
    refine ⟨hasked, fun segment hsegment => h segment ?_⟩
    rwa [← hleft]

theorem LeftOf.draws_pull (h : payload.LeftOf segments) (limit : Nat) :
    (payload.pull source limit).Draws segments fun r => r.2.LeftOf segments := by
  rw [pull]
  split
  · rename_i supply payload' hnext
    obtain ⟨hobtain, hleft⟩ := h.next? hnext
    exact hobtain.bind fun bytes _ => .pure hleft
  · exact (h.draws_reportEnd limit).bind fun payload hleft => .pure hleft

end Payload

namespace InflateStream

variable {s s' : InflateStream} {limit : Nat} {bytes : Bytes}

/-- Decoding what is at hand leaves the payload alone. -/
theorem payload_of_serve (h : s.serve limit = .ok (bytes, s')) : s'.payload = s.payload := by
  have hserve := s.serve_withPayload s.payload limit
  rw [show s.withPayload s.payload = s from rfl, h] at hserve
  exact congrArg (·.2.payload) (Except.ok.inj hserve)

theorem payload_of_serveLast (h : s.serveLast limit = .ok (bytes, s')) :
    s'.payload = s.payload := by
  have hserve := s.serveLast_withPayload s.payload limit
  rw [show s.withPayload s.payload = s from rfl, h] at hserve
  exact congrArg (·.2.payload) (Except.ok.inj hserve)

/-- Pieces are taken from the segments until there are bytes to hand out. -/
theorem draws_refill (h : s.payload.LeftOf segments) (limit : Nat) :
    (s.refill source limit).Draws segments fun r => r.2.payload.LeftOf segments := by
  fun_induction s.refill source limit with
  | case1 s hnone =>
    refine (h.draws_reportEnd window).bind fun payload hleft => .ofExcept ?_
    rintro ⟨bytes, s'⟩ hserve
    rw [payload_of_serveLast hserve]
    exact hleft
  | case2 s supply payload hnext ih =>
    obtain ⟨hobtain, hleft⟩ := h.next? hnext
    refine (hobtain.mapError DecodeError.source).bind fun piece _ => ?_
    refine (Draws.ofExcept (P := fun r => r.2.payload.LeftOf segments) ?_).bind ?_
    · rintro ⟨bytes, s'⟩ hserve
      rw [payload_of_serve hserve]
      exact hleft
    · rintro ⟨bytes, s'⟩ hs'
      dsimp only
      split
      · exact ih s' hleft
      · exact .pure hs'

theorem draws_read (h : s.payload.LeftOf segments) (limit : Nat) :
    (s.read source limit).Draws segments fun r => r.2.payload.LeftOf segments := by
  rw [read]
  split
  · refine (Draws.ofExcept (P := fun r => r.2.payload.LeftOf segments) ?_).bind ?_
    · rintro ⟨bytes, s'⟩ hserve
      rw [payload_of_serve hserve]
      exact h
    · rintro ⟨bytes, s'⟩ hs'
      dsimp only
      split
      · exact draws_refill hs' limit
      · exact .pure hs'
  · exact draws_refill h limit

end InflateStream

namespace DecodedStream

/-- What is still to come of the payload of the stream is held or is of the segments. -/
def LeftOf (segments : List ByteRange) : DecodedStream → Prop
  | plain payload => payload.LeftOf segments
  | inflating stream => stream.payload.LeftOf segments

variable {s : DecodedStream}

theorem leftOf_ofPayload (codec : Codec) {payload : Payload} (h : payload.LeftOf segments) :
    (ofPayload codec payload).LeftOf segments := by
  cases codec <;> exact h

theorem draws_read (h : s.LeftOf segments) (limit : Nat) :
    (s.read source limit).Draws segments fun r => r.2.LeftOf segments := by
  cases s with
  | plain payload =>
    refine ((Payload.LeftOf.draws_pull h limit).mapError DecodeError.source).bind ?_
    rintro ⟨bytes, payload⟩ hleft
    exact .pure hleft
  | inflating stream =>
    refine (InflateStream.draws_read h limit).bind ?_
    rintro ⟨bytes, stream⟩ hleft
    exact .pure hleft

theorem draws_readDeclaredFrom (h : s.LeftOf segments) (declared : Nat) (held : Bytes)
    (largest : Nat) :
    (s.readDeclaredFrom source declared held largest).Draws segments fun _ => True := by
  fun_induction s.readDeclaredFrom source declared held largest with
  | case1 s held largest hheld => exact .pure trivial
  | case2 s held largest hheld wanted =>
    rename_i ih
    refine (draws_read h _).bind ?_
    rintro ⟨bytes, s'⟩ hleft
    dsimp only
    split
    · exact .pure trivial
    · exact ih bytes s' ‹_› hleft

end DecodedStream

/-- The requests for the encoded bytes of a chunk: one for all of them, or some for bytes of the
segments. -/
def ChunkData.Issues : ChunkData → List ByteRange → Prop
  | contiguous range, issued => issued = [range]
  | linked segments, issued => ∀ range ∈ issued, range.PartOf segments

/-- The segments that the payload of a chunk draws on while it is decoded. -/
def ChunkData.drawn : ChunkData → List ByteRange
  | contiguous _ => []
  | linked segments => segments

/-- The payload of a chunk that is in one range is asked for at once, and nothing more is asked
for. -/
theorem ChunkData.ends_payload_issues (source : ByteSource) (options : ReadOptions)
    (data : ChunkData) (a : Activity) :
    Ends (data.payload source options) a
      (fun payload a' => payload.LeftOf data.drawn ∧ ∀ a'', a'.Asked data.drawn a'' →
        (∃ issued, a''.requests.toList = a.requests.toList ++ issued ∧ data.Issues issued) ∧
          a''.fetches = a.fetches)
      fun _ _ => True := by
  cases data with
  | contiguous range =>
    rw [payload, ends_bind]
    cases hanswer : source.readAt a.requests.toList range with
    | error e =>
      simp only [Ends, outcome, ByteSource.fetch, ExceptT.run_mk, hanswer]
    | ok bytes =>
      rw [ends_fetch_of_ok hanswer]
      refine ⟨trivial, fun a'' hasked => ⟨⟨[range], ?_, rfl⟩, hasked.fetches_eq⟩⟩
      obtain ⟨issued, hissued, hpart⟩ := hasked.exists_issued
      have hnone : issued = [] := List.eq_nil_iff_forall_not_mem.2 fun range hrange => by
        obtain ⟨segment, hsegment, -⟩ := hpart range hrange
        cases hsegment
      rw [hissued, hnone, List.append_nil]
      exact Array.toList_push
  | linked segments =>
    refine ⟨fun segment hsegment => ByteRange.partOf_of_mem hsegment, fun a'' hasked => ?_⟩
    exact ⟨hasked.exists_issued, hasked.fetches_eq⟩

/-- What is asked for to decode a chunk, where it can be decoded. -/
theorem CompressedChunk.ends_decode_issues (source : ByteSource) (options : ReadOptions)
    (chunk : CompressedChunk) (a : Activity) :
    Ends (chunk.decode source options) a
      (fun _ a' => (∃ issued, a'.requests.toList = a.requests.toList ++ issued ∧
        chunk.data.Issues issued) ∧ a'.fetches = a.fetches) fun _ _ => True := by
  rw [decode, ends_bind]
  cases checkDecodedSize chunk.uncompressedLength options with
  | error e => trivial
  | ok _ =>
    rw [ends_ofExcept_ok, ends_bind]
    cases findCodec chunk.codec with
    | error e => trivial
    | ok codec =>
      rw [ends_ofExcept_ok, ends_bind, ends_mapError]
      refine (chunk.data.ends_payload_issues source options a).mono ?_ fun _ _ _ => trivial
      rintro payload a' ⟨hleft, hissues⟩
      rcases Nat.lt_or_ge Bytes.maxCapacity chunk.uncompressedLength with hlarge | hsmall
      · rw [reserve_of_lt hlarge]
        trivial
      rw [reserve_of_le hsmall, pure_bind, ends_bind, ends_mapError]
      have hstream := DecodedStream.leftOf_ofPayload codec hleft
      refine (DecodedStream.draws_readDeclaredFrom hstream _ _ _ a').mono ?_ fun _ _ _ => trivial
      rintro bytes a'' ⟨hasked, -⟩
      dsimp only
      split
      · trivial
      · exact hissues a'' hasked

end Hyperslab
