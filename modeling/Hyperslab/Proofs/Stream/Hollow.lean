import Hyperslab.Codec.Deflate.Stream
import Hyperslab.Proofs.Outcome
import Hyperslab.Proofs.Stream.Chain
import Hyperslab.Read.Stream

/-!
# Chains without a byte

A stream over segments that are all without bytes has nothing to give. Asking it for bytes issues no
request, gives none and reports the chain, the first time that this happens. Passing bytes over asks
for none, so without a decoder it gives no report. A decoder has to ask for its payload before it
passes anything over, and as it does not come to its end without one, it fails or ends there.

## Main definitions

- `SegmentStream.Hollow`: a chain with segments and no byte, not reported yet

## Main statements

- `DecodedStream.ends_collect_hollow`: a decoder reports the chain once, however much is wanted
- `LogicalStream.fails_skip_plain`: passing bytes over fails without a report
- `LogicalStream.fails_readExact_plain`, `LogicalStream.fails_skip_decoded`,
  `LogicalStream.fails_readExact_decoded`: everything else fails with one report
-/

namespace Hyperslab

/-- The activity after the report that a chain of so many segments has no byte. -/
def Activity.reportEmpty (a : Activity) (segments : Nat) : Activity :=
  { a with log := a.log.push (.emptyChain segments) }

open SourceM

variable {source : ByteSource} {a : Activity}

namespace SegmentStream

/-- The chain of the stream has segments and no byte, and this is not reported yet. -/
structure Hollow (s : SegmentStream) : Prop where
  left_eq : ∀ segment ∈ s.left, segment.length = 0
  length_eq : s.length = 0
  segments_ne : s.segments ≠ 0
  warned_eq : s.warned = false

variable {s : SegmentStream} {chain : List ByteRange}

theorem hollow_ofChain (hne : chain ≠ []) (hzero : ∀ segment ∈ chain, segment.length = 0)
    (options : ReadOptions) : (ofChain chain options).Hollow where
  left_eq := hzero
  length_eq := by
    show Offset.clamped (chainLength chain) = 0
    rw [chainLength_eq_zero_iff.2 hzero]
    rfl
  segments_ne := fun h => hne (List.length_eq_zero_iff.1 h)
  warned_eq := rfl

theorem trim_of_zero (h : ∀ segment ∈ chain, segment.length = 0) : trim chain = [] := by
  induction chain with
  | nil => rfl
  | cons segment rest ih =>
    obtain ⟨hsegment, hrest⟩ := List.forall_mem_cons.1 h
    rw [trim, if_pos hsegment, ih hrest]

theorem walk_of_zero (h : ∀ segment ∈ chain, segment.length = 0)
    (ask : ByteRange → SourceM StorageError Bytes) {count : Nat} (hcount : count ≠ 0)
    (w : ChainWalk) : walk ask chain count w = pure (.ok (), { w with left := [] }) := by
  induction chain with
  | nil => rfl
  | cons segment rest ih =>
    obtain ⟨hsegment, hrest⟩ := List.forall_mem_cons.1 h
    rw [walk, if_neg hcount, if_pos hsegment, ih hrest]

theorem Hollow.next? (h : s.Hollow) (limit : Nat) : s.next? limit = none := by
  rw [SegmentStream.next?, trim_of_zero h.left_eq]

theorem Hollow.fst_skip (h : s.Hollow) (count : Nat) : (s.skip count).1 = 0 := by
  show (walkPast s.left count).1 = 0
  rw [fst_walkPast, chainLength_eq_zero_iff.2 h.left_eq, Nat.min_zero]

theorem Hollow.reportEmpty (h : s.Hollow) {requested : Nat} (hpos : 0 < requested)
    (a : Activity) :
    s.reportEmpty requested a = ({ s with warned := true }, a.reportEmpty s.segments) := by
  rw [SegmentStream.reportEmpty, if_pos ⟨hpos, h.length_eq, h.segments_ne, h.warned_eq⟩]
  rfl

/-- A read gives nothing and reports the chain. -/
theorem Hollow.readInto (h : s.Hollow) (source : ByteSource) {count : Nat} (hcount : 0 < count)
    (a : Activity) :
    ∃ s', s.readInto source count a = ((.ok #[], s'), a.reportEmpty s.segments) := by
  have hafter : (s.after { bytes := #[], passed := 0, left := [] }).Hollow :=
    ⟨nofun, h.length_eq, h.segments_ne, h.warned_eq⟩
  have hwalk := walk_of_zero h.left_eq source.fetchExactly (Nat.ne_of_gt hcount)
    { bytes := #[], passed := 0, left := [] }
  rw [SegmentStream.readInto, readBy, hwalk, pure_bind]
  dsimp only
  rw [if_pos rfl, run_bind, hafter.reportEmpty hcount]
  exact ⟨_, rfl⟩

end SegmentStream

namespace Payload

variable {stream : SegmentStream}

theorem next?_of_hollow (h : stream.Hollow) (limit : Nat) :
    (chain stream).next? limit = none := by
  rw [next?, h.next?]
  rfl

theorem reportEnd_of_hollow (h : stream.Hollow) {limit : Nat} (hlimit : 0 < limit) (a : Activity) :
    (chain stream).reportEnd limit a =
      (chain { stream with warned := true }, a.reportEmpty stream.segments) := by
  rw [reportEnd, run_bind, h.reportEmpty hlimit]
  rfl

end Payload

namespace InflateStream

/-- A decoder that has got nothing of a stream gives nothing. -/
theorem serveDecoded_ofPayload (payload : Payload) (limit : Nat) :
    (ofPayload payload).serveDecoded limit = .ok (#[], ofPayload payload) := by
  have hdecode : (ofPayload payload).decode = ofPayload payload := by
    rw [decode, ofPayload]
    dsimp only
    rw [takeBits]
    rfl
  have hnone : (ofPayload payload).handOut limit = (#[], ofPayload payload) := by
    have hextract : (#[] : Bytes).extract 0 (min (0 + limit) 0) = #[] := by simp
    show ((#[] : Bytes).extract 0 (min (0 + limit) 0), _) = _
    simp only [ofPayload, hextract]
    rfl
  rw [serveDecoded, hdecode, hnone]
  rfl

/-- It does not come to the end of the stream either. -/
theorem serveLast_ofPayload (payload : Payload) (limit : Nat) :
    (ofPayload payload).serveLast limit = .error .incomplete := by
  have hserve : (ofPayload payload).serve limit = .ok (#[], ofPayload payload) :=
    serveDecoded_ofPayload payload limit
  rw [serveLast, hserve]
  rfl

/-- A read of a stream that has nothing to be decoded from fails. -/
theorem fails_read_hollow {stream : SegmentStream} (h : stream.Hollow) (limit : Nat)
    (a : Activity) :
    ((ofPayload (.chain stream)).read source limit).Fails a (a.reportEmpty stream.segments) := by
  have hread : (ofPayload (.chain stream)).read source limit =
      (ofPayload (.chain stream)).refill source limit := rfl
  rw [hread, refill]
  split
  · rw [SourceM.Fails, ends_bind, ends_lift]
    have hreport := Payload.reportEnd_of_hollow h (show 0 < window by decide) a
    have hlast := serveLast_ofPayload (.chain { stream with warned := true }) limit
    dsimp only [ofPayload] at hreport hlast ⊢
    rw [hreport, hlast]
    rfl
  · rename_i hnext
    have hnone := Payload.next?_of_hollow h window
    cases hnone.symm.trans hnext

end InflateStream

namespace DecodedStream

variable {stream : SegmentStream}

/-- A read gives nothing, or fails, and reports the chain. -/
theorem ends_read_hollow (h : stream.Hollow) (codec : Codec) {limit : Nat} (hlimit : 0 < limit)
    (a : Activity) :
    Ends ((ofPayload codec (.chain stream)).read source limit) a
      (fun r a' => r.1 = #[] ∧ a' = a.reportEmpty stream.segments)
      (fun _ a' => a' = a.reportEmpty stream.segments) := by
  cases codec with
  | plain =>
    rw [ofPayload, read, ends_bind, ends_mapError, Payload.pull, Payload.next?_of_hollow h]
    dsimp only
    rw [ends_bind, ends_lift, Payload.reportEnd_of_hollow h hlimit]
    exact ⟨rfl, rfl⟩
  | deflate =>
    rw [ofPayload, read, ends_bind]
    exact (InflateStream.fails_read_hollow h limit a).ends fun _ => rfl

/-- However many bytes are wanted, the first read for them is the last. -/
theorem ends_collect_hollow (h : stream.Hollow) (codec : Codec) (growth : Nat) {largest count : Nat}
    (hlargest : 0 < largest) (hcount : 0 < count) (a : Activity) :
    Ends ((ofPayload codec (.chain stream)).collect source growth largest count #[]) a
      (fun r a' => r.1 = #[] ∧ a' = a.reportEmpty stream.segments)
      (fun _ a' => a' = a.reportEmpty stream.segments) := by
  rw [collect, if_neg (Nat.ne_of_gt hcount), ends_bind]
  refine (ends_read_hollow h codec (Nat.lt_min.2 ⟨hcount, hlargest⟩) a).mono ?_ fun _ _ heq => heq
  rintro ⟨bytes, s⟩ a' ⟨hbytes, ha'⟩
  -- no bytes pass for the end of the stream, so there is no second read that could report
  have hsize : Array.size bytes = 0 := congrArg Array.size hbytes
  dsimp only
  rw [if_pos hsize]
  exact ⟨rfl, ha'⟩

theorem fails_readExact_hollow (h : stream.Hollow) (codec : Codec) {count : Nat}
    (hcount : 0 < count) (a : Activity) :
    ((ofPayload codec (.chain stream)).readExact source count).Fails a
      (a.reportEmpty stream.segments) := by
  rw [SourceM.Fails, readExact, ends_bind]
  refine (ends_collect_hollow h codec 1 hcount hcount a).mono ?_ fun _ _ heq => heq
  rintro ⟨bytes, s⟩ a' ⟨hbytes, ha'⟩
  have hsize : Array.size bytes < count := by
    rw [show bytes = #[] from hbytes]
    exact hcount
  dsimp only
  rw [if_pos hsize]
  exact ha'

theorem ends_skip_hollow (h : stream.Hollow) (codec : Codec) {count : Nat} (hcount : 0 < count)
    (a : Activity) :
    Ends ((ofPayload codec (.chain stream)).skip source count) a
      (fun r a' => r.1 = 0 ∧ a' = a.reportEmpty stream.segments)
      (fun _ a' => a' = a.reportEmpty stream.segments) := by
  rw [skip, ends_bind]
  refine (ends_collect_hollow h codec 1 (by decide) hcount a).mono ?_ fun _ _ heq => heq
  rintro ⟨bytes, s⟩ a' ⟨hbytes, ha'⟩
  exact ⟨congrArg Array.size hbytes, ha'⟩

end DecodedStream

namespace LogicalStream

variable {stream : SegmentStream}

/-- Passing over bytes of the chain itself asks for none of them, so it fails without a report. -/
theorem fails_skip_plain (h : stream.Hollow) (source : ByteSource) {count : Nat} (hcount : 0 < count)
    (a : Activity) : ((plain stream).skip source count).Fails a a := by
  have hpassed : (stream.skip count).1 ≠ count := by
    rw [h.fst_skip]
    exact Nat.ne_of_lt hcount
  rw [SourceM.Fails, skip]
  dsimp only
  rw [if_pos hpassed]
  rfl

theorem fails_readExact_plain (h : stream.Hollow) {count : Nat} (hcount : 0 < count)
    (a : Activity) :
    ((plain stream).readExact source count).Fails a (a.reportEmpty stream.segments) := by
  obtain ⟨stream', hread⟩ := h.readInto source hcount a
  have hsize : Array.size (#[] : Bytes) ≠ count := Nat.ne_of_lt hcount
  rw [SourceM.Fails, readExact, ends_bind, ends_lift, hread]
  dsimp only
  rw [if_pos hsize]
  rfl

theorem fails_skip_decoded (h : stream.Hollow) (codec : Codec) (position length : Nat) {count : Nat}
    (hcount : 0 < count) (a : Activity) :
    ((decoded (.ofPayload codec (.chain stream)) position length).skip source count).Fails a
      (a.reportEmpty stream.segments) := by
  rw [SourceM.Fails, skip, ends_bind, ends_mapError]
  refine (DecodedStream.ends_skip_hollow h codec hcount a).mono ?_ fun _ _ heq => heq
  rintro ⟨passed, s⟩ a' ⟨rfl, ha'⟩
  dsimp only
  rw [if_pos (Nat.ne_of_lt hcount)]
  exact ha'

theorem fails_readExact_decoded (h : stream.Hollow) (codec : Codec) (position length : Nat)
    {count : Nat} (hcount : 0 < count) (a : Activity) :
    ((decoded (.ofPayload codec (.chain stream)) position length).readExact source count).Fails a
      (a.reportEmpty stream.segments) := by
  rw [SourceM.Fails, readExact, ends_bind, ends_mapError]
  exact (DecodedStream.fails_readExact_hollow h codec hcount a).ends fun _ => rfl

end LogicalStream

end Hyperslab
