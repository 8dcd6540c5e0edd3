import Hyperslab.Proofs.Request.InStep
import Hyperslab.Proofs.Stream.Cursor

/-!
# Segments without bytes

Segments without bytes never show. Two chains that are equal up to such segments are read in step:
call by call the same answers come from the same requests, and both streams move to one position.
The chains that are left differ again in such segments only, so this goes on after any call.

## Main definitions

- `compact`: the segments of a chain that have bytes
- `Padded`: two chains differ in segments without bytes, seen from front to back
- `SegmentStream.Padded`: two streams that differ in such segments of what is left

## Main statements

- `padded_iff`: what is the same chain after deletion differs in padding
- `StreamCall.inStep_carryOut`: a call on two such streams
- `inStep_runCalls`: calls one after the other
-/

namespace Hyperslab

/-- The segments of a chain that have bytes. -/
def compact (chain : List ByteRange) : List ByteRange :=
  chain.filter fun segment => 0 < segment.length

/-- From front to back the chains have the same segments, apart from those without bytes. -/
inductive Padded : List ByteRange → List ByteRange → Prop where
  | nil : Padded [] []
  | cons (segment : ByteRange) {rest rest' : List ByteRange} (h : Padded rest rest') :
      Padded (segment :: rest) (segment :: rest')
  | left {segment : ByteRange} {rest chain' : List ByteRange} (hzero : segment.length = 0)
      (h : Padded rest chain') : Padded (segment :: rest) chain'
  | right {segment : ByteRange} {chain rest' : List ByteRange} (hzero : segment.length = 0)
      (h : Padded chain rest') : Padded chain (segment :: rest')

section Compact

variable {segment : ByteRange} {chain chain' rest : List ByteRange}

@[simp] theorem compact_cons_of_eq_zero (h : segment.length = 0) :
    compact (segment :: rest) = compact rest := by
  simp [compact, h]

@[simp] theorem compact_cons_of_pos (h : 0 < segment.length) :
    compact (segment :: rest) = segment :: compact rest := by
  simp [compact, h]

protected theorem Padded.refl (chain : List ByteRange) : Padded chain chain := by
  induction chain with
  | nil => exact .nil
  | cons segment rest ih => exact .cons segment ih

/-- Padding may be put before the segments of a compact chain. -/
theorem padded_compact (chain : List ByteRange) : Padded chain (compact chain) := by
  induction chain with
  | nil => exact .nil
  | cons segment rest ih =>
    rcases Nat.eq_zero_or_pos segment.length with hzero | hpos
    · rw [compact_cons_of_eq_zero hzero]
      exact .left hzero ih
    · rw [compact_cons_of_pos hpos]
      exact .cons segment ih

/-- Padding may be put anywhere in the second chain. -/
theorem Padded.of_compact (h : Padded chain (compact chain')) : Padded chain chain' := by
  induction chain' generalizing chain with
  | nil => exact h
  | cons segment rest ih =>
    rcases Nat.eq_zero_or_pos segment.length with hzero | hpos
    · rw [compact_cons_of_eq_zero hzero] at h
      exact .right hzero (ih h)
    · rw [compact_cons_of_pos hpos] at h
      generalize hwhole : segment :: compact rest = whole at h
      -- the induction is on the padding of the first chain before the segment
      induction h with
      | nil => cases hwhole
      | cons segment' h _ =>
        cases hwhole
        exact .cons segment (ih h)
      | left hzero _ ih' => exact .left hzero (ih' hwhole)
      | right hzero _ _ =>
        cases hwhole
        omega

/-- Chains are equal after their segments without bytes are deleted just where they differ in such
segments. -/
theorem padded_iff : Padded chain chain' ↔ compact chain = compact chain' := by
  constructor
  · intro h
    induction h with
    | nil => rfl
    | cons segment _ ih =>
      rcases Nat.eq_zero_or_pos segment.length with hzero | hpos
      · simpa [hzero] using ih
      · simpa [hpos] using ih
    | left hzero _ ih => rwa [compact_cons_of_eq_zero hzero]
    | right hzero _ ih => rwa [compact_cons_of_eq_zero hzero]
  · intro h
    exact (h ▸ padded_compact chain).of_compact

theorem Padded.chainLength_eq (h : Padded chain chain') : chainLength chain = chainLength chain' := by
  induction h <;> simp_all

end Compact

namespace SegmentStream

/-- The streams differ in segments without bytes of what is left, and in nothing else that shows. -/
structure Padded (s t : SegmentStream) : Prop where
  left : Hyperslab.Padded s.left t.left
  length : s.length = t.length
  position : s.position = t.position
  readSize : s.readSize = t.readSize

protected theorem Padded.refl (s : SegmentStream) : s.Padded s :=
  ⟨.refl s.left, rfl, rfl, rfl⟩

theorem padded_ofChain {chain chain' : List ByteRange} (h : Hyperslab.Padded chain chain')
    (options : ReadOptions) : (ofChain chain options).Padded (ofChain chain' options) :=
  ⟨h, congrArg Offset.clamped h.chainLength_eq, rfl, rfl⟩

/-- Walks that passed the same bytes and leave chains that differ in padding. -/
structure SameWalk (w w' : ChainWalk) : Prop where
  bytes : w.bytes = w'.bytes
  passed : w.passed = w'.passed
  left : Hyperslab.Padded w.left w'.left

variable {source : ByteSource} {chain chain' : List ByteRange} {s t : SegmentStream}

theorem walk_zero (ask : ByteRange → SourceM StorageError Bytes) (chain : List ByteRange)
    (w : ChainWalk) : walk ask chain 0 w = pure (.ok (), { w with left := chain }) := by
  cases chain <;> rfl

theorem walk_of_eq_zero (ask : ByteRange → SourceM StorageError Bytes) {segment : ByteRange}
    (h : segment.length = 0) (rest : List ByteRange) {count : Nat} (hcount : count ≠ 0)
    (w : ChainWalk) : walk ask (segment :: rest) count w = walk ask rest count w := by
  rw [walk, if_neg hcount, if_pos h]

/-- A walk passes over padding and asks for the same parts of the other segments. -/
theorem inStep_walk {ask : ByteRange → SourceM StorageError Bytes}
    (hask : ∀ range, (ask range).Agree source (· = ·) (ask range))
    (h : Hyperslab.Padded chain chain') (count : Nat) {w w' : ChainWalk}
    (hbytes : w.bytes = w'.bytes) (hpassed : w.passed = w'.passed) :
    InStep source (FirstSame SameWalk) (walk ask chain count w) (walk ask chain' count w') := by
  induction h generalizing count w w' with
  | nil => exact .pure ⟨rfl, hbytes, hpassed, .nil⟩
  | left hzero h ih =>
    by_cases hcount : count = 0
    · subst hcount
      rw [walk_zero, walk_zero]
      exact .pure ⟨rfl, hbytes, hpassed, .left hzero h⟩
    · rw [walk_of_eq_zero ask hzero _ hcount]
      exact ih count hbytes hpassed
  | right hzero h ih =>
    by_cases hcount : count = 0
    · subst hcount
      rw [walk_zero, walk_zero]
      exact .pure ⟨rfl, hbytes, hpassed, .right hzero h⟩
    · rw [walk_of_eq_zero ask hzero _ hcount]
      exact ih count hbytes hpassed
  | cons segment h ih =>
    by_cases hcount : count = 0
    · subst hcount
      rw [walk_zero, walk_zero]
      exact .pure ⟨rfl, hbytes, hpassed, .cons segment h⟩
    · by_cases hzero : segment.length = 0
      · rw [walk_of_eq_zero ask hzero _ hcount, walk_of_eq_zero ask hzero _ hcount]
        exact ih count hbytes hpassed
      · rw [walk, walk, if_neg hcount, if_neg hcount, if_neg hzero, if_neg hzero]
        refine InStep.bind (hask _) ?_
        rintro _ _ (@⟨bytes, _, rfl⟩ | e)
        · dsimp only
          split
          · exact ih _ (by rw [hbytes]) (by rw [hpassed])
          · exact .pure ⟨rfl, by rw [hbytes], by rw [hpassed], .cons _ h⟩
        · exact .pure ⟨rfl, hbytes, hpassed, .cons segment h⟩

/-- Whether the lack of bytes is reported depends on the padding, but nothing else does. -/
theorem Padded.inStep_reportEmpty (h : s.Padded t) (requested : Nat) :
    InStep source Padded (s.reportEmpty requested) (t.reportEmpty requested) := by
  apply InStep.of_silent
  · exact s.traffic_reportEmpty requested
  · exact t.traffic_reportEmpty requested
  · intro a a'
    obtain ⟨hleft, hlength, hposition, hreadSize⟩ := h
    rw [reportEmpty, reportEmpty]
    split <;> split <;> exact ⟨hleft, hlength, hposition, hreadSize⟩

theorem Padded.after (h : s.Padded t) {w w' : ChainWalk} (hw : SameWalk w w') :
    (s.after w).Padded (t.after w') := by
  refine ⟨hw.left, h.length, ?_, h.readSize⟩
  show s.position + w.passed = t.position + w'.passed
  rw [h.position, hw.passed]

theorem Padded.inStep_readBy {ask : ByteRange → SourceM StorageError Bytes}
    (hask : ∀ range, (ask range).Agree source (· = ·) (ask range)) (h : s.Padded t)
    (count : Nat) : InStep source (FirstSame Padded) (s.readBy ask count) (t.readBy ask count) := by
  refine InStep.bind (inStep_walk hask h.left count rfl rfl) ?_
  rintro ⟨result, w⟩ ⟨_, w'⟩ ⟨rfl, hw⟩
  cases result with
  | error e => exact .pure ⟨rfl, h.after hw⟩
  | ok _ =>
    dsimp only
    rw [← hw.passed, ← hw.bytes]
    by_cases hnone : w.passed = 0
    · rw [if_pos hnone, if_pos hnone]
      refine InStep.bind ((h.after hw).inStep_reportEmpty count) ?_
      intro s' t' hst
      exact .pure ⟨rfl, hst⟩
    · rw [if_neg hnone, if_neg hnone]
      exact .pure ⟨rfl, h.after hw⟩

/-- As many bytes are passed, and what is left differs in padding again. -/
theorem padded_walkPast (h : Hyperslab.Padded chain chain') (count : Nat) :
    (walkPast chain count).1 = (walkPast chain' count).1 ∧
      Hyperslab.Padded (walkPast chain count).2 (walkPast chain' count).2 := by
  induction h generalizing count with
  | nil => exact ⟨rfl, .nil⟩
  | cons segment h ih =>
    rw [walkPast, walkPast]
    split
    · exact ⟨rfl, .cons _ h⟩
    · exact ⟨congrArg (segment.length + ·) (ih _).1, (ih _).2⟩
  | left hzero _ ih =>
    rw [walkPast, hzero, if_neg (Nat.not_lt_zero count)]
    exact ⟨(Nat.zero_add _).trans (ih count).1, (ih count).2⟩
  | right hzero _ ih =>
    rw [walkPast, hzero, if_neg (Nat.not_lt_zero count)]
    exact ⟨(ih count).1.trans (Nat.zero_add _).symm, (ih count).2⟩

theorem Padded.skip (h : s.Padded t) (count : Nat) :
    FirstSame Padded (s.skip count) (t.skip count) := by
  obtain ⟨hpassed, hleft⟩ := padded_walkPast h.left count
  refine ⟨hpassed, hleft, h.length, ?_, h.readSize⟩
  show s.position + (walkPast s.left count).1 = t.position + (walkPast t.left count).1
  rw [h.position, hpassed]

/-- Both chains have the same first byte, in the same segment, or none. -/
theorem padded_trim (h : Hyperslab.Padded chain chain') :
    (trim chain = [] ∧ trim chain' = []) ∨ ∃ segment rest rest', trim chain = segment :: rest ∧
      trim chain' = segment :: rest' ∧ Hyperslab.Padded rest rest' := by
  induction h with
  | nil => exact .inl ⟨rfl, rfl⟩
  | cons segment h ih =>
    rw [trim, trim]
    split
    · exact ih
    · exact .inr ⟨segment, _, _, rfl, rfl, h⟩
  | left hzero _ ih => rwa [trim, if_pos hzero]
  | right hzero _ ih =>
    rw [trim.eq_2, if_pos hzero]
    exact ih

/-- A pull asks for the same range of both streams, or for none of either. -/
theorem Padded.next? (h : s.Padded t) (limit : Nat) :
    (s.next? limit = none ∧ t.next? limit = none) ∨ ∃ range s' t',
      s.next? limit = some (range, s') ∧ t.next? limit = some (range, t') ∧ s'.Padded t' := by
  rcases padded_trim h.left with ⟨hs, ht⟩ | ⟨segment, rest, rest', hs, ht, hrest⟩
  · exact .inl ⟨by rw [SegmentStream.next?, hs], by rw [SegmentStream.next?, ht]⟩
  · simp only [SegmentStream.next?, hs, ht, ← h.readSize]
    split
    · exact .inl ⟨rfl, rfl⟩
    · refine .inr ⟨_, _, _, rfl, rfl, .cons _ hrest, h.length, ?_, rfl⟩
      exact congrArg (· + _) h.position

theorem Padded.agree_pull (h : s.Padded t) (limit : Nat) :
    (s.pull source limit).Agree source (FirstSame Padded) (t.pull source limit) := by
  rw [pull, pull]
  rcases h.next? limit with ⟨hs, ht⟩ | ⟨range, s', t', hs, ht, hst⟩
  · rw [hs, ht]
    refine (SourceM.Agree.lift (h.inStep_reportEmpty limit)).bind ?_
    intro s' t' hst
    exact .pure ⟨rfl, hst⟩
  · rw [hs, ht]
    exact (SourceM.Agree.issue (.readInto range)).bind_same fun bytes => .pure ⟨rfl, hst⟩

end SegmentStream

/-- A call on streams that differ in padding gives the same answer by the same requests, and leads
to streams that differ in padding. -/
theorem StreamCall.inStep_carryOut {source : ByteSource} {s t : SegmentStream} (h : s.Padded t)
    (call : StreamCall) :
    InStep source (FirstSame SegmentStream.Padded) (call.carryOut source s)
      (call.carryOut source t) := by
  cases call with
  | read count =>
    refine InStep.bind (h.inStep_readBy (fun range => .issue (.readAt range)) count) ?_
    rintro ⟨result, s'⟩ ⟨_, t'⟩ ⟨rfl, hst⟩
    exact .pure ⟨rfl, hst⟩
  | readInto buffer =>
    refine InStep.bind (h.inStep_readBy (fun range => .issue (.readInto range)) buffer.size) ?_
    rintro ⟨result, s'⟩ ⟨_, t'⟩ ⟨rfl, hst⟩
    exact .pure ⟨rfl, hst⟩
  | skip count =>
    obtain ⟨hpassed, hst⟩ := h.skip count
    exact .pure ⟨congrArg (fun n => Except.ok (StreamAnswer.skipped n)) hpassed, hst⟩
  | pull buffer =>
    refine InStep.bind (h.agree_pull buffer.size) ?_
    rintro _ _ (@⟨⟨bytes, s'⟩, ⟨_, t'⟩, ⟨rfl, hst⟩⟩ | e)
    · exact .pure ⟨rfl, hst⟩
    · exact .pure ⟨rfl, h⟩

/-- So do any calls, one after the other. -/
theorem padded_runCalls (calls : List (ByteSource × StreamCall)) {s t : SegmentStream}
    (h : s.Padded t) {a a' : Activity} (ha : a.traffic = a'.traffic) :
    FirstSame SegmentStream.Padded (runCalls calls s a).1 (runCalls calls t a').1 ∧
      (runCalls calls s a).2.traffic = (runCalls calls t a').2.traffic := by
  induction calls generalizing s t a a' with
  | nil => exact ⟨⟨rfl, h⟩, ha⟩
  | cons call calls ih =>
    obtain ⟨source, call⟩ := call
    have hcall : InStep source (FirstSame SegmentStream.Padded) (call.carryOut source s)
        (call.carryOut source t) := call.inStep_carryOut h
    obtain ⟨hresult, hst⟩ := hcall.result (.of_requests_eq (Activity.requests_eq ha))
    obtain ⟨⟨hresults, hend⟩, htraffic⟩ := ih hst (hcall.traffic ha)
    rw [runCalls_cons, runCalls_cons]
    exact ⟨⟨List.cons_eq_cons.2 ⟨hresult, hresults⟩, hend⟩, htraffic⟩

end Hyperslab
