import Hyperslab.Codec.Deflate.Stream
import Hyperslab.Proofs.Stream.Padding
import Hyperslab.Read.Chunk

/-!
# Encoded bytes in padded chains

Decoding depends on a segment chain through its pulls alone, and these are the same for two chains
that differ in segments without bytes. So a decoder gives the same bytes from both, by the same
requests, or the same error.

## Main definitions

- `Payload.Padded`, `DecodedStream.Padded`: what is still to come differs in padding

## Main statements

- `InflateStream.serve_withPayload`: decoding what is at hand does not look at the payload
- `DecodedStream.Padded.agree_collect`: so decoded bytes are the same
- `CompressedChunk.Padded.agree_decode`: and so are the bytes of a chunk
-/

namespace Hyperslab

open SourceM

variable {source : ByteSource}

/-- The payloads are one string at one position, or segment streams that differ in padding. -/
inductive Payload.Padded : Payload → Payload → Prop where
  | held (bytes : Bytes) (position : Nat) : Padded (.held bytes position) (.held bytes position)
  | chain {s t : SegmentStream} (h : s.Padded t) : Padded (.chain s) (.chain t)

namespace Payload

variable {p q : Payload}

protected theorem Padded.refl (p : Payload) : p.Padded p := by
  cases p with
  | held bytes position => exact .held bytes position
  | chain stream => exact .chain (.refl stream)

theorem Padded.next? (h : p.Padded q) (limit : Nat) :
    (p.next? limit = none ∧ q.next? limit = none) ∨ ∃ supply p' q',
      p.next? limit = some (supply, p') ∧ q.next? limit = some (supply, q') ∧ p'.Padded q' := by
  cases h with
  | held bytes position =>
    cases hnext : (Payload.held bytes position).next? limit with
    | none => exact .inl ⟨rfl, rfl⟩
    | some next => exact .inr ⟨_, _, _, rfl, rfl, .refl _⟩
  | chain h =>
    simp only [Payload.next?]
    rcases h.next? limit with ⟨hs, ht⟩ | ⟨range, s', t', hs, ht, hst⟩
    · rw [hs, ht]
      exact .inl ⟨rfl, rfl⟩
    · rw [hs, ht]
      exact .inr ⟨_, _, _, rfl, rfl, .chain hst⟩

theorem Padded.inStep_reportEnd (h : p.Padded q) (limit : Nat) :
    InStep source Padded (p.reportEnd limit) (q.reportEnd limit) := by
  cases h with
  | held bytes position => exact .pure (.held bytes position)
  | chain h =>
    refine InStep.bind (h.inStep_reportEmpty limit) ?_
    intro s t hst
    exact .pure (.chain hst)

theorem agree_obtain (supply : Supply) :
    (obtain source supply).Agree source (· = ·) (obtain source supply) := by
  cases supply with
  | held bytes => exact .pure rfl
  | request range => exact .issue (.readInto range)

theorem Padded.agree_pull (h : p.Padded q) (limit : Nat) :
    (p.pull source limit).Agree source (FirstSame Padded) (q.pull source limit) := by
  rw [pull, pull]
  rcases h.next? limit with ⟨hp, hq⟩ | ⟨supply, p', q', hp, hq, hpq⟩
  · rw [hp, hq]
    refine (Agree.lift (h.inStep_reportEnd limit)).bind ?_
    intro p' q' hpq
    exact .pure ⟨rfl, hpq⟩
  · rw [hp, hq]
    exact (agree_obtain supply).bind_same fun bytes => .pure ⟨rfl, hpq⟩

end Payload

namespace InflateStream

/-- The stream with another payload still to come. -/
def withPayload (s : InflateStream) (payload : Payload) : InflateStream :=
  { s with payload := payload }

/-- What is served, with another payload still to come. -/
def served (payload : Payload) (r : Bytes × InflateStream) : Bytes × InflateStream :=
  (r.1, r.2.withPayload payload)

theorem serveDecoded_withPayload (s : InflateStream) (payload : Payload) (limit : Nat) :
    (s.withPayload payload).serveDecoded limit =
      (s.serveDecoded limit).map (served payload) := by
  fun_induction s.serveDecoded limit with
  | case1 s limit s' hmalformed =>
    rw [serveDecoded]
    exact if_pos hmalformed
  | case2 s limit s' hmalformed bytes s'' hhandOut hdone =>
    have hhandOut : (s.withPayload payload).decode.handOut limit =
        (bytes, s''.withPayload payload) := congrArg (served payload) hhandOut
    have hmalformed : ¬ (s.withPayload payload).decode.machine.isMalformed = true := hmalformed
    rw [serveDecoded]
    dsimp only
    rw [if_neg hmalformed, hhandOut]
    exact if_pos hdone
  | case3 s limit s' hmalformed bytes s'' hhandOut hdone ih =>
    have hhandOut : (s.withPayload payload).decode.handOut limit =
        (bytes, s''.withPayload payload) := congrArg (served payload) hhandOut
    have hmalformed : ¬ (s.withPayload payload).decode.machine.isMalformed = true := hmalformed
    rw [serveDecoded]
    dsimp only
    rw [if_neg hmalformed, hhandOut]
    refine (if_neg hdone).trans ?_
    rw [ih]
    cases s''.serveDecoded (limit - bytes.size) <;> rfl

theorem serve_withPayload (s : InflateStream) (payload : Payload) (limit : Nat) :
    (s.withPayload payload).serve limit = (s.serve limit).map (served payload) := by
  rw [serve, serve, apply_ite (Except.map (served payload)), serveDecoded_withPayload]
  rfl

theorem serveLast_withPayload (s : InflateStream) (payload : Payload) (limit : Nat) :
    (s.withPayload payload).serveLast limit = (s.serveLast limit).map (served payload) := by
  rw [serveLast, serveLast, serve_withPayload]
  by_cases hcut : s.isCut = true
  · have hcut' : (s.withPayload payload).isCut = true := hcut
    rw [if_pos hcut, if_pos hcut']
    rfl
  · have hcut' : ¬ (s.withPayload payload).isCut = true := hcut
    rw [if_neg hcut, if_neg hcut']
    by_cases hready : s.taken < s.released
    · have hready' : (s.withPayload payload).taken < (s.withPayload payload).released := hready
      rw [if_pos hready, if_pos hready']
      rfl
    · have hready' : ¬ (s.withPayload payload).taken < (s.withPayload payload).released := hready
      rw [if_neg hready, if_neg hready']
      rcases s.serve limit with e | ⟨bytes, s'⟩
      · rfl
      · by_cases hfinished : s'.machine.isFinished = true <;>
          by_cases hempty : bytes.isEmpty = true <;>
            simp [served, Except.map, bind, Except.bind, pure, Except.pure, withPayload, hfinished,
              hempty]

/-- The streams are the same but for their payloads, and these differ in padding. -/
def Padded (s t : InflateStream) : Prop :=
  ∃ payload, s.payload.Padded payload ∧ t = s.withPayload payload

variable {s t : InflateStream}

theorem padded_served {p q : Payload} (h : p.Padded q)
    (r : Except DecodeError (Bytes × InflateStream)) :
    SameResult (FirstSame Padded) (r.map (served p)) (r.map (served q)) := by
  cases r with
  | error e => exact .error e
  | ok r => exact .ok ⟨rfl, q, h, rfl⟩

theorem Padded.serve (h : s.Padded t) (limit : Nat) :
    SameResult (FirstSame Padded) (s.serve limit) (t.serve limit) := by
  obtain ⟨payload, hpayload, rfl⟩ := h
  rw [← show s.withPayload s.payload = s from rfl, serve_withPayload, serve_withPayload]
  exact padded_served hpayload _

theorem Padded.serveLast (h : s.Padded t) (limit : Nat) :
    SameResult (FirstSame Padded) (s.serveLast limit) (t.serveLast limit) := by
  obtain ⟨payload, hpayload, rfl⟩ := h
  rw [← show s.withPayload s.payload = s from rfl, serveLast_withPayload, serveLast_withPayload]
  exact padded_served hpayload _

theorem refill_of_none {limit : Nat} (h : s.payload.next? window = none) :
    s.refill source limit = (do
      let payload ← s.payload.reportEnd window
      ofExcept ((s.withPayload payload).serveLast limit)) := by
  rw [refill]
  split
  · rfl
  · simp_all

theorem refill_of_some {limit : Nat} {supply : Supply} {payload : Payload}
    (h : s.payload.next? window = some (supply, payload)) :
    s.refill source limit = (do
      let piece ← (Payload.obtain source supply).mapError DecodeError.source
      let (bytes, s') ← ofExcept
        ({ s with payload := payload, piece := piece, begun := 0 }.serve limit)
      if bytes.isEmpty && !s'.machine.isFinished then (s'.withPayload payload).refill source limit
      else pure (bytes, s')) := by
  rw [refill]
  split
  · simp_all
  · rename_i hnext
    rw [h] at hnext
    cases hnext
    rfl

/-- The pieces of both payloads are the same, and decoding them is all that is done. -/
theorem Padded.agree_refill (h : s.Padded t) (limit : Nat) :
    (s.refill source limit).Agree source (FirstSame Padded) (t.refill source limit) := by
  fun_induction s.refill source limit generalizing t with
  | case1 s hnone =>
    obtain ⟨payload, hpayload, rfl⟩ := h
    rcases hpayload.next? window with ⟨-, ht⟩ | ⟨_, _, _, hs, -⟩
    · rw [refill_of_none ht]
      refine (Agree.lift (hpayload.inStep_reportEnd window)).bind ?_
      intro p q hpq
      exact .ofExcept (Padded.serveLast ⟨q, hpq, rfl⟩ limit)
    · rw [hnone] at hs
      cases hs
  | case2 s supply payload hnext ih =>
    obtain ⟨payload', hpayload, rfl⟩ := h
    rcases hpayload.next? window with ⟨hs, -⟩ | ⟨supply', p, q, hs, ht, hpq⟩
    · rw [hnext] at hs
      cases hs
    · rw [hnext] at hs
      cases hs
      rw [refill_of_some ht]
      refine ((Payload.agree_obtain supply).mapError DecodeError.source).bind_same fun piece => ?_
      refine (Agree.ofExcept (Padded.serve ⟨q, hpq, rfl⟩ limit)).bind ?_
      rintro ⟨bytes, s'⟩ ⟨_, _⟩ ⟨rfl, payload'', hpayload'', rfl⟩
      apply Agree.ite Iff.rfl
      · intro _
        exact ih s' ⟨q, hpq, rfl⟩
      · intro _
        exact .pure ⟨rfl, payload'', hpayload'', rfl⟩

theorem Padded.agree_read (h : s.Padded t) (limit : Nat) :
    (s.read source limit).Agree source (FirstSame Padded) (t.read source limit) := by
  obtain ⟨payload, hpayload, rfl⟩ := h
  rw [read, read]
  apply Agree.ite Iff.rfl
  · intro _
    refine (Agree.ofExcept (Padded.serve ⟨payload, hpayload, rfl⟩ limit)).bind ?_
    rintro ⟨bytes, s'⟩ ⟨_, _⟩ ⟨rfl, payload', hpayload', rfl⟩
    apply Agree.ite Iff.rfl
    · intro _
      exact Padded.agree_refill ⟨payload', hpayload', rfl⟩ limit
    · intro _
      exact .pure ⟨rfl, payload', hpayload', rfl⟩
  · intro _
    exact Padded.agree_refill ⟨payload, hpayload, rfl⟩ limit

end InflateStream

/-- What is still to come of the streams differs in padding. -/
inductive DecodedStream.Padded : DecodedStream → DecodedStream → Prop where
  | plain {p q : Payload} (h : p.Padded q) : Padded (.plain p) (.plain q)
  | inflating {s t : InflateStream} (h : s.Padded t) : Padded (.inflating s) (.inflating t)

namespace DecodedStream

variable {s t : DecodedStream}

theorem padded_ofPayload (codec : Codec) {p q : Payload} (h : p.Padded q) :
    (ofPayload codec p).Padded (ofPayload codec q) := by
  cases codec with
  | plain => exact .plain h
  | deflate => exact .inflating ⟨q, h, rfl⟩

theorem Padded.agree_read (h : s.Padded t) (limit : Nat) :
    (s.read source limit).Agree source (FirstSame Padded) (t.read source limit) := by
  cases h with
  | plain h =>
    refine ((h.agree_pull limit).mapError DecodeError.source).bind ?_
    rintro ⟨bytes, p⟩ ⟨_, q⟩ ⟨rfl, hpq⟩
    exact .pure ⟨rfl, .plain hpq⟩
  | inflating h =>
    refine (h.agree_read limit).bind ?_
    rintro ⟨bytes, s⟩ ⟨_, t⟩ ⟨rfl, hst⟩
    exact .pure ⟨rfl, .inflating hst⟩

theorem Padded.agree_collect (h : s.Padded t) (growth largest count : Nat) (held : Bytes) :
    (s.collect source growth largest count held).Agree source (FirstSame Padded)
      (t.collect source growth largest count held) := by
  fun_induction s.collect source growth largest count held generalizing t with
  | case1 largest s held =>
    rw [collect, if_pos rfl]
    exact .pure ⟨rfl, h⟩
  | case2 largest s count held hcount wanted =>
    rename_i ih
    rw [collect, if_neg hcount]
    refine (h.agree_read _).bind ?_
    rintro ⟨bytes, s'⟩ ⟨_, t'⟩ ⟨rfl, hst⟩
    dsimp only
    split
    · exact .pure ⟨rfl, hst⟩
    · exact ih bytes s' ‹_› hst

theorem Padded.agree_readExact (h : s.Padded t) (count : Nat) :
    (s.readExact source count).Agree source (FirstSame Padded) (t.readExact source count) := by
  refine (h.agree_collect 1 count count #[]).bind ?_
  rintro ⟨bytes, s'⟩ ⟨_, t'⟩ ⟨rfl, hst⟩
  dsimp only
  split
  · exact .throw_bind _ _ _
  · exact .pure ⟨rfl, hst⟩

theorem Padded.agree_skip (h : s.Padded t) (count : Nat) :
    (s.skip source count).Agree source (FirstSame Padded) (t.skip source count) := by
  refine (h.agree_collect 1 skipSize count #[]).bind ?_
  rintro ⟨bytes, s'⟩ ⟨_, t'⟩ ⟨rfl, hst⟩
  exact .pure ⟨rfl, hst⟩

theorem Padded.agree_readDeclaredFrom (h : s.Padded t) (declared : Nat) (held : Bytes)
    (largest : Nat) :
    (s.readDeclaredFrom source declared held largest).Agree source (· = ·)
      (t.readDeclaredFrom source declared held largest) := by
  fun_induction s.readDeclaredFrom source declared held largest generalizing t with
  | case1 s held largest hheld =>
    rw [readDeclaredFrom, if_pos hheld]
    exact .pure rfl
  | case2 s held largest hheld wanted =>
    rename_i ih
    rw [readDeclaredFrom, if_neg hheld]
    refine (h.agree_read _).bind ?_
    rintro ⟨bytes, s'⟩ ⟨_, t'⟩ ⟨rfl, hst⟩
    dsimp only
    split
    · exact .pure rfl
    · exact ih bytes s' ‹_› hst

end DecodedStream

/-- The chunks are one and the same, or differ in the padding of their segments. -/
inductive CompressedChunk.Padded : CompressedChunk → CompressedChunk → Prop where
  | refl (chunk : CompressedChunk) : Padded chunk chunk
  | linked {segments segments' : List ByteRange} (h : compact segments = compact segments')
      (length : Nat) (codec : CodecId) :
      Padded ⟨.linked segments, length, codec⟩ ⟨.linked segments', length, codec⟩

namespace CompressedChunk

variable {chunk chunk' : CompressedChunk}

theorem Padded.uncompressedLength_eq (h : chunk.Padded chunk') :
    chunk.uncompressedLength = chunk'.uncompressedLength := by
  cases h <;> rfl

theorem Padded.codec_eq (h : chunk.Padded chunk') : chunk.codec = chunk'.codec := by
  cases h <;> rfl

/-- A chunk in one range is fetched, and one in a chain is not, which starts both payloads. -/
theorem Padded.agree_payload (h : chunk.Padded chunk') (options : ReadOptions) :
    (chunk.data.payload source options).Agree source Payload.Padded
      (chunk'.data.payload source options) := by
  cases h with
  | refl chunk =>
    cases chunk.data with
    | contiguous range =>
      exact (Agree.issue (.readAt range)).bind_same fun bytes => .pure (.refl _)
    | linked segments => exact .pure (.refl _)
  | linked h length codec =>
    exact .pure (.chain (SegmentStream.padded_ofChain (padded_iff.2 h) options))

/-- Chunks that differ in padding are decoded to the same bytes, by the same requests. -/
theorem Padded.agree_decode (h : chunk.Padded chunk') (options : ReadOptions) :
    (chunk.decode source options).Agree source (· = ·) (chunk'.decode source options) := by
  rw [decode, decode, ← h.uncompressedLength_eq, ← h.codec_eq]
  refine (Agree.ofExcept (.refl _)).bind_same fun _ => ?_
  refine (Agree.ofExcept (.refl _)).bind_same fun codec => ?_
  refine ((h.agree_payload options).mapError ReadError.storage).bind fun p q hpq => ?_
  refine (Agree.ofExcept (.refl _)).bind_same fun _ => ?_
  have hstream := DecodedStream.padded_ofPayload codec hpq
  refine ((hstream.agree_readDeclaredFrom _ _ _).mapError ReadError.ofDecode).bind_same
    fun bytes => ?_
  split
  · exact .throw_bind _ _ _
  · exact .pure rfl

end CompressedChunk

end Hyperslab
