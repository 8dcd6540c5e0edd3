import Hyperslab.Proofs.Request.Segments
import Hyperslab.Read.Stream

/-!
# What streams report

The one thing that a stream reports of itself is that its chain has segments and no byte. Neither
the number of segments nor that of bytes ever changes, so what a stream may report is known from its
start, through a decoder as without one, and whatever is skipped or read.

## Main definitions

- `SegmentStream.Reports`, `LogicalStream.Reports`: what a stream may report is as said

## Main statements

- `SegmentStream.logs_reportEmpty`: where the report is made
- `DecodedStream.logs_collect`: the reports of a decoder
- `LogicalStream.logs_skip`, `LogicalStream.logs_readExact`, `LogicalStream.logs_finish`: the reports
  of a logical stream
-/

namespace Hyperslab

open SourceM

variable {p : LogEvent → Prop} {source : ByteSource}

namespace SegmentStream

/-- What the stream may report is an event with `p`. -/
def Reports (p : LogEvent → Prop) (s : SegmentStream) : Prop :=
  s.length = 0 → s.segments ≠ 0 → p (.emptyChain s.segments)

variable {s s' : SegmentStream}

/-- A chain without segments and a chain with a byte are not reported. -/
theorem reports_ofChain {chain : List ByteRange} (h : chain = [] ∨ chainLength chain ≠ 0)
    (options : ReadOptions) : (ofChain chain options).Reports p := by
  intro hlength hsegments
  have hzero : Offset.clamped (chainLength chain) = 0 := hlength
  rcases h with hnil | hbytes
  · exact absurd (congrArg List.length hnil) hsegments
  · have hmin := Nat.min_eq_zero_iff.1 hzero
    exact absurd (hmin.resolve_right (by decide)) hbytes

theorem Reports.next? (h : s.Reports p) {range : ByteRange} {limit : Nat}
    (hnext : s.next? limit = some (range, s')) : s'.Reports p := by
  rw [SegmentStream.next?] at hnext
  split at hnext
  · cases hnext
  · obtain ⟨-, hnext⟩ := Option.ite_none_left_eq_some.1 hnext
    cases hnext
    exact h

theorem Reports.skip (h : s.Reports p) (count : Nat) : (s.skip count).2.Reports p :=
  h

/-- A walk along a chain reports nothing. -/
theorem log_walk {ask : ByteRange → SourceM StorageError Bytes}
    (hask : ∀ range a, ((ask range).outcome a).2.log = a.log) (chain : List ByteRange) (count : Nat)
    (w : ChainWalk) (a : Activity) : (walk ask chain count w a).2.log = a.log := by
  induction chain generalizing count w a with
  | nil => rfl
  | cons segment rest ih =>
    rw [walk]
    split
    · rfl
    · split
      · exact ih count w a
      · have hlog : (((ask (segment.take count)).attempt) a).2.log = a.log := hask _ a
        dsimp only
        rw [run_bind]
        cases ((ask (segment.take count)).attempt a).1 with
        | error e => exact hlog
        | ok bytes =>
          dsimp only
          split
          · exact (ih _ _ _).trans hlog
          · exact hlog

theorem logs_reportEmpty (h : s.Reports p) (requested : Nat) (a : Activity) :
    a.Logs p (s.reportEmpty requested a).2 ∧ (s.reportEmpty requested a).1.Reports p := by
  rw [reportEmpty]
  split
  · rename_i hempty
    exact ⟨.push (h hempty.2.1 hempty.2.2.1) a, h⟩
  · exact ⟨.refl p a, h⟩

theorem logs_readInto (h : s.Reports p) (count : Nat) (a : Activity) :
    a.Logs p (s.readInto source count a).2 ∧ (s.readInto source count a).1.2.Reports p := by
  have hwalk := log_walk (log_fetchExactly source) s.left count
    { bytes := #[], passed := 0, left := [] } a
  rw [readInto, readBy, run_bind]
  rcases hw : walk source.fetchExactly s.left count _ a with ⟨⟨e | _, w⟩, a'⟩
  all_goals rw [hw] at hwalk
  · exact ⟨.of_log_eq hwalk, h⟩
  · have hafter : (s.after w).Reports p := h
    dsimp only
    split
    · obtain ⟨hlogs, hreports⟩ := logs_reportEmpty hafter count a'
      rw [run_bind]
      exact ⟨.trans (.of_log_eq hwalk) hlogs, hreports⟩
    · exact ⟨.of_log_eq hwalk, hafter⟩

end SegmentStream

namespace Payload

/-- What the stream of a payload may report is an event with `p`. -/
def Reports (p : LogEvent → Prop) : Payload → Prop
  | held _ _ => True
  | chain stream => stream.Reports p

variable {payload payload' : Payload}

theorem logs_obtain (supply : Supply) : (obtain source supply).Logs p fun _ => True := by
  cases supply with
  | held bytes => exact .pure trivial
  | request range => exact .of_log_eq (log_fetchExactly source range)

theorem Reports.next? (h : payload.Reports p) {supply : Supply} {limit : Nat}
    (hnext : payload.next? limit = some (supply, payload')) : payload'.Reports p := by
  cases payload with
  | held bytes position =>
    obtain ⟨-, hnext⟩ := Option.ite_none_left_eq_some.1 hnext
    cases hnext
    trivial
  | chain stream =>
    obtain ⟨⟨range, stream'⟩, hstream, hnext⟩ := Option.map_eq_some_iff.1 hnext
    cases hnext
    exact SegmentStream.Reports.next? h hstream

theorem logs_reportEnd {ε : Type} (h : payload.Reports p) (limit : Nat) :
    (liftM (payload.reportEnd limit) : SourceM ε Payload).Logs p (Reports p) := by
  refine .lift fun a => ?_
  cases payload with
  | held bytes position => exact ⟨.refl p a, trivial⟩
  | chain stream => exact SegmentStream.logs_reportEmpty h limit a

theorem logs_pull (h : payload.Reports p) (limit : Nat) :
    (payload.pull source limit).Logs p fun r => r.2.Reports p := by
  rw [pull]
  split
  · rename_i supply payload' hnext
    exact (logs_obtain supply).bind fun _ _ => .pure (h.next? hnext)
  · exact (logs_reportEnd h limit).bind fun _ hreports => .pure hreports

end Payload

namespace InflateStream

variable {s : InflateStream}

theorem logs_refill (h : s.payload.Reports p) (limit : Nat) :
    (s.refill source limit).Logs p fun r => r.2.payload.Reports p := by
  fun_induction s.refill source limit with
  | case1 s hnone =>
    -- the payload has ended, and this is where it is reported
    refine (Payload.logs_reportEnd h window).bind fun payload hreports => .ofExcept ?_
    rintro ⟨bytes, s'⟩ hserve
    rw [payload_of_serveLast hserve]
    exact hreports
  | case2 s supply payload hnext ih =>
    have hreports := h.next? hnext
    refine ((Payload.logs_obtain supply).mapError DecodeError.source).bind fun piece _ => ?_
    refine (Logs.ofExcept (P := fun r => r.2.payload.Reports p) ?_).bind ?_
    · rintro ⟨bytes, s'⟩ hserve
      rw [payload_of_serve hserve]
      exact hreports
    · rintro ⟨bytes, s'⟩ hs'
      dsimp only
      split
      -- a further piece is taken with the payload as it was before decoding
      · exact ih s' hreports
      · exact .pure hs'

theorem logs_read (h : s.payload.Reports p) (limit : Nat) :
    (s.read source limit).Logs p fun r => r.2.payload.Reports p := by
  rw [read]
  split
  · refine (Logs.ofExcept (P := fun r => r.2.payload.Reports p) ?_).bind ?_
    · rintro ⟨bytes, s'⟩ hserve
      rw [payload_of_serve hserve]
      exact h
    · rintro ⟨bytes, s'⟩ hs'
      dsimp only
      split
      · exact logs_refill hs' limit
      · exact .pure hs'
  · exact logs_refill h limit

end InflateStream

namespace DecodedStream

/-- What the payload of the stream may report is an event with `p`. -/
def Reports (p : LogEvent → Prop) : DecodedStream → Prop
  | plain payload => payload.Reports p
  | inflating stream => stream.payload.Reports p

variable {s : DecodedStream}

theorem reports_ofPayload (codec : Codec) {payload : Payload} (h : payload.Reports p) :
    (ofPayload codec payload).Reports p := by
  cases codec <;> exact h

theorem logs_read (h : s.Reports p) (limit : Nat) :
    (s.read source limit).Logs p fun r => r.2.Reports p := by
  cases s with
  | plain payload =>
    refine ((Payload.logs_pull h limit).mapError DecodeError.source).bind ?_
    rintro ⟨bytes, payload⟩ hreports
    exact .pure hreports
  | inflating stream =>
    refine (InflateStream.logs_read h limit).bind ?_
    rintro ⟨bytes, stream⟩ hreports
    exact .pure hreports

theorem logs_collect (h : s.Reports p) (growth largest count : Nat) (held : Bytes) :
    (s.collect source growth largest count held).Logs p fun r => r.2.Reports p := by
  fun_induction s.collect source growth largest count held with
  | case1 => exact .pure h
  | case2 largest s count held hcount wanted ih =>
    refine (logs_read h _).bind ?_
    rintro ⟨bytes, s'⟩ hs'
    dsimp only
    split
    · exact .pure hs'
    · exact ih bytes s' ‹_› hs'

theorem logs_readExact (h : s.Reports p) (count : Nat) :
    (s.readExact source count).Logs p fun r => r.2.Reports p := by
  refine (logs_collect h 1 count count #[]).bind ?_
  rintro ⟨bytes, s'⟩ hs'
  dsimp only
  split
  · exact .throw_bind _ _
  · exact .pure hs'

theorem logs_skip (h : s.Reports p) (count : Nat) :
    (s.skip source count).Logs p fun r => r.2.Reports p :=
  (logs_collect h 1 skipSize count #[]).bind fun _ hs' => .pure hs'

end DecodedStream

namespace LogicalStream

/-- What the stream may report is an event with `p`. -/
def Reports (p : LogEvent → Prop) : LogicalStream → Prop
  | plain stream => stream.Reports p
  | decoded stream _ _ => stream.Reports p

variable {s : LogicalStream}

/-- Streams report nothing else. -/
theorem reports_of_forall (h : ∀ segments, p (.emptyChain segments)) (s : LogicalStream) :
    s.Reports p := by
  rcases s with stream | ⟨(bytes | stream) | ⟨bytes | stream, _⟩, _, _⟩
  all_goals first | exact fun _ _ => h _ | trivial

theorem logs_skip (h : s.Reports p) (count : Nat) : (s.skip source count).Logs p (Reports p) := by
  cases s with
  | plain stream =>
    rw [skip]
    dsimp only
    split
    · exact .throw_bind _ _
    · exact .pure (SegmentStream.Reports.skip h count)
  | decoded stream position length =>
    refine ((DecodedStream.logs_skip h count).mapError _).bind ?_
    rintro ⟨passed, stream'⟩ hs'
    dsimp only
    split
    · exact .throw_bind _ _
    · exact .pure hs'

theorem logs_readExact (h : s.Reports p) (count : Nat) :
    (s.readExact source count).Logs p fun r => r.2.Reports p := by
  cases s with
  | plain stream =>
    refine (Logs.lift (P := fun r => r.2.Reports p) (SegmentStream.logs_readInto h count)).bind ?_
    rintro ⟨e | bytes, stream'⟩ hs'
    · exact .throw _
    · dsimp only
      split
      · exact .throw_bind _ _
      · exact .pure hs'
  | decoded stream position length =>
    exact ((DecodedStream.logs_readExact h count).mapError _).bind fun _ hs' => .pure hs'

theorem logs_finish (h : s.Reports p) : (s.finish source).Logs p fun _ => True := by
  cases s with
  | plain stream => exact .pure trivial
  | decoded stream position length =>
    refine ((DecodedStream.logs_skip h _).mapError _).bind ?_
    rintro ⟨passed, stream'⟩ -
    dsimp only
    split
    · exact .throw_bind _ _
    · split
      · exact .throw _
      · exact .pure trivial

end LogicalStream

end Hyperslab
