import Hyperslab.Proofs.Bytes
import Hyperslab.Proofs.Stream.Walk

/-!
# Segment streams as byte strings with a cursor

To its callers a segment stream is the string of the bytes of its chain, and a cursor in it. Each
call has a number of bytes due, which depends on the place of the cursor only. It gives these bytes
and moves the cursor past them, or a request of it fails: then the cursor is where the bytes of that
request begin. So every place that calls lead to is one that the bytes got and skipped add up to.

## Main definitions

- `StreamCall`, `StreamCall.carryOut`: the calls of a stream and what they do
- `StreamCall.due`, `StreamCall.expected`: what a call gives at a place
- `StreamCall.Succeeds`, `StreamCall.Fails`: the ways in which a call ends
- `runCalls`: calls one after the other, each on a source of its own

## Main statements

- `SegmentStream.At.carryOut`: one call of a stream at a place
- `SegmentStream.refines_cursor`: all calls after any others
-/

namespace Hyperslab

/-- A call of a segment stream. A buffer comes with the bytes that it holds. -/
inductive StreamCall where
  | read (count : Nat)
  | readInto (buffer : Bytes)
  | skip (count : Nat)
  /-- The read of a decoder. -/
  | pull (buffer : Bytes)

/-- What a call gives. -/
inductive StreamAnswer where
  | bytes (bytes : Bytes)
  /-- The number of bytes put at the front of a buffer, and the buffer with them. -/
  | filled (count : Nat) (buffer : Bytes)
  | skipped (count : Nat)

namespace StreamAnswer

def filling (buffer bytes : Bytes) : StreamAnswer :=
  .filled bytes.size (Bytes.overwrite buffer 0 bytes)

/-- The number of bytes skipped. -/
def skips : Except StorageError StreamAnswer → Nat
  | .ok (.skipped count) => count
  | _ => 0

end StreamAnswer

namespace StreamCall

def carryOut (source : ByteSource) (s : SegmentStream) :
    StreamCall → StateM Activity (Except StorageError StreamAnswer × SegmentStream)
  | read count => do
    let (result, s) ← s.read source count
    pure (result.map .bytes, s)
  | readInto buffer => do
    let (result, s) ← s.readInto source buffer.size
    pure (result.map (.filling buffer), s)
  | skip count =>
    let (passed, s) := s.skip count
    pure (.ok (.skipped passed), s)
  | pull buffer => do
    match ← (s.pull source buffer.size).attempt with
    | .ok (bytes, s) => pure (.ok (.filling buffer bytes), s)
    | .error e => pure (.error e, s)

/-- The answers to the requests of a call, where it makes any. -/
def answers? (source : ByteSource) :
    StreamCall → Option (List ByteRange → ByteRange → Except StorageError Bytes)
  | read _ => some source.readAt
  | readInto _ | pull _ => some source.readInto
  | skip _ => none

/-- The number of bytes that a call is to pass from place `p` of a chain on. -/
def due (chain : List ByteRange) (options : ReadOptions) (p : Nat) : StreamCall → Nat
  | read count | skip count => min count (chainLength chain - p)
  | readInto buffer => min buffer.size (chainLength chain - p)
  | pull buffer => min (min buffer.size options.segmentReadSize) (leftInSegment chain p)

/-- What a call that passes `n` bytes of a string from place `p` on has to give. -/
def expected (whole : Bytes) (p n : Nat) : StreamCall → StreamAnswer
  | read _ => .bytes (whole.extract p (p + n))
  | readInto buffer | pull buffer =>
    .filled n (whole.extract p (p + n) ++ buffer.extract n buffer.size)
  | skip _ => .skipped n

section Spec

variable (call : StreamCall) (source : ByteSource) (content : Bytes) (chain : List ByteRange)
  (options : ReadOptions) (p p' : Nat) (before issued : List ByteRange)
  (result : Except StorageError StreamAnswer)

/-- A call at place `p` gives what is due by the requests `issued`, and leads to place `p'`. -/
structure Succeeds : Prop where
  result : result = .ok (call.expected (chainBytes content chain) p (call.due chain options p))
  position : p' = p + call.due chain options p
  /-- The bytes that a call gives are requested once each, and nothing else is. -/
  requests : call.answers? source ≠ none → RequestsFor chain p (call.due chain options p) issued
  silent : call.answers? source = none → issued = []
  /-- A pull makes one request, unless nothing is due. -/
  single : ∀ buffer, call = .pull buffer → call.due chain options p ≠ 0 →
    ∃ range, issued = [range] ∧ range.length = call.due chain options p

/-- A call at place `p` fails with the last one of the requests `issued`, which come after those
`before`, and leads to the place `p'` where the bytes of that request begin. -/
structure Fails : Prop where
  exists_failed : ∃ answer answered failed e, call.answers? source = some answer ∧
    issued = answered ++ [failed] ∧ (∃ bytes, gather answer before answered = .ok bytes) ∧
    answer (before ++ answered) failed = .error e ∧ result = .error e ∧
    p' = p + chainLength answered
  requests : RequestsFor chain p (chainLength issued) issued
  le_due : chainLength issued ≤ call.due chain options p
  /-- A pull makes no other request than the one that fails. -/
  single : ∀ buffer, call = .pull buffer →
    ∃ range, issued = [range] ∧ range.length = call.due chain options p

/-- The place and the activity that a call leads to from place `p` on: it succeeds or fails as calls
do, and the cursor goes past the bytes got and skipped. -/
def Obeys (a : Activity)
    (r : (Except StorageError StreamAnswer × SegmentStream) × Activity) : Prop :=
  ∃ p' issued, r.1.2.At chain options p' ∧
    r.2.requests.toList = a.requests.toList ++ issued ∧
    p' + a.bytesRead = p + r.2.bytesRead + StreamAnswer.skips r.1.1 ∧
    (call.Succeeds source content chain options p p' issued r.1.1 ∨
      call.Fails source chain options p p' a.requests.toList issued r.1.1)

end Spec

end StreamCall

/-- Calls one after the other, each on a source of its own. -/
def runCalls : List (ByteSource × StreamCall) → SegmentStream →
    StateM Activity (List (Except StorageError StreamAnswer) × SegmentStream)
  | [], s => pure ([], s)
  | (source, call) :: calls, s => do
    let (result, s) ← call.carryOut source s
    let (results, s) ← runCalls calls s
    pure (result :: results, s)

theorem runCalls_cons (source : ByteSource) (call : StreamCall)
    (calls : List (ByteSource × StreamCall)) (s : SegmentStream) (a : Activity) :
    runCalls ((source, call) :: calls) s a =
      let first := call.carryOut source s a
      let others := runCalls calls first.1.2 first.2
      ((first.1.1 :: others.1.1, others.1.2), others.2) := rfl

/-- The number of bytes skipped by some calls. -/
def skippedIn : List (Except StorageError StreamAnswer) → Nat
  | [] => 0
  | result :: results => StreamAnswer.skips result + skippedIn results

namespace SegmentStream

variable {content : Bytes} {chain : List ByteRange} {options : ReadOptions} {p : Nat}
  {s : SegmentStream} {source : ByteSource}

theorem size_extract_chainBytes (hwithin : ChainWithin content chain) {n : Nat}
    (hn : p + n ≤ chainLength chain) :
    ((chainBytes content chain).extract p (p + n)).size = n := by
  rw [Array.size_extract, size_chainBytes hwithin]
  omega

/-- The answers to the requests for some bytes of a chain are these bytes. -/
theorem eq_extract_of_gather {answer : List ByteRange → ByteRange → Except StorageError Bytes}
    (htruthful : ByteSource.Truthful answer content) (hwithin : ChainWithin content chain)
    {n : Nat} {before issued : List ByteRange} (hissued : RequestsFor chain p n issued)
    {bytes : Bytes} (h : gather answer before issued = .ok bytes) :
    bytes = (chainBytes content chain).extract p (p + n) := by
  rw [eq_of_gather htruthful hissued.length_pos (hissued.within hwithin) h,
    chainBytes_of_offsets hwithin hissued.offsets]

/-- The bytes got by the requests before the one that failed are those passed. -/
theorem size_of_gather {answer : List ByteRange → ByteRange → Except StorageError Bytes}
    (htruthful : ByteSource.Truthful answer content) (hwithin : ChainWithin content chain)
    {n : Nat} {before answered : List ByteRange} {failed : ByteRange}
    (hissued : RequestsFor chain p n (answered ++ [failed])) {bytes : Bytes}
    (h : gather answer before answered = .ok bytes) : bytes.size = chainLength answered := by
  have hpart : ChainWithin content answered := fun range hrange =>
    hissued.within hwithin range (List.mem_append_left _ hrange)
  rw [eq_of_gather htruthful (fun range hrange =>
    hissued.length_pos range (List.mem_append_left _ hrange)) hpart h, size_chainBytes hpart]

/-- A read for a call. -/
theorem At.obeys_readBy {ask : ByteRange → SourceM StorageError Bytes}
    {answer : List ByteRange → ByteRange → Except StorageError Bytes} (hask : Asks ask answer)
    (htruthful : ByteSource.Truthful answer content) (hwithin : ChainWithin content chain)
    (hs : s.At chain options p) (count : Nat) {call : StreamCall}
    (hanswer : call.answers? source = some answer)
    (hdue : call.due chain options p = min count (chainLength chain - p))
    (hpull : ∀ buffer, call ≠ .pull buffer) (give : Bytes → StreamAnswer)
    (hskips : ∀ bytes, StreamAnswer.skips (.ok (give bytes)) = 0)
    (hgive : ∀ bytes, bytes.size = call.due chain options p →
      bytes = (chainBytes content chain).extract p (p + call.due chain options p) →
      give bytes = call.expected (chainBytes content chain) p (call.due chain options p))
    (a : Activity) :
    call.Obeys source content chain options p a
      (((s.readBy ask count a).1.1.map give, (s.readBy ask count a).1.2),
        (s.readBy ask count a).2) := by
  have hle := hs.le
  rcases h : s.readBy ask count a with ⟨⟨e | bytes, s'⟩, a'⟩
  · obtain ⟨answered, failed, got, hissued, hlength, hgot, hfailed, hrequests, hbytesRead, hat⟩ :=
      hs.of_readBy_error hask h
    refine ⟨_, _, hat, hrequests, ?_, .inr ⟨?_, hissued, by rwa [hdue], ?_⟩⟩
    · rw [hbytesRead, size_of_gather htruthful hwithin hissued hgot]
      show _ = p + (a.bytesRead + chainLength answered) + 0
      omega
    · exact ⟨answer, answered, failed, e, hanswer, rfl, ⟨got, hgot⟩, hfailed, rfl, rfl⟩
    · exact fun buffer hcall => absurd hcall (hpull buffer)
  · obtain ⟨issued, hissued, hgot, hrequests, hbytesRead, hat⟩ := hs.of_readBy_ok hask h
    rw [← hdue] at hissued hat
    have hbytes := eq_extract_of_gather htruthful hwithin hissued hgot
    have hsize : bytes.size = call.due chain options p := by
      rw [hbytes, size_extract_chainBytes hwithin (by omega)]
    refine ⟨_, issued, hat, hrequests, ?_, .inl ⟨?_, rfl, fun _ => hissued, ?_, ?_⟩⟩
    · rw [hbytesRead, hsize]
      show _ = p + (a.bytesRead + _) + StreamAnswer.skips (.ok (give bytes))
      rw [hskips]
      omega
    · exact congrArg Except.ok (hgive bytes hsize hbytes)
    · rw [hanswer]
      exact nofun
    · exact fun buffer hcall => absurd hcall (hpull buffer)

section Pull

variable {limit : Nat} {range : ByteRange} {s' : SegmentStream} {a : Activity}

theorem outcome_pull_of_none (h : s.next? limit = none) :
    (s.pull source limit).outcome a =
      (.ok (#[], (s.reportEmpty limit a).1), (s.reportEmpty limit a).2) := by
  rw [pull, h]
  rfl

theorem outcome_pull_of_ok (h : s.next? limit = some (range, s')) {bytes : Bytes}
    (hr : source.readInto a.requests.toList range = .ok bytes) :
    (s.pull source limit).outcome a = (.ok (bytes, s'), (a.request range).count bytes.size) := by
  rw [pull, h]
  dsimp only
  rw [SourceM.outcome_bind, SourceM.outcome_fetchExactly_of_ok hr]
  rfl

theorem outcome_pull_of_error (h : s.next? limit = some (range, s')) {e : StorageError}
    (hr : source.readInto a.requests.toList range = .error e) :
    (s.pull source limit).outcome a = (.error e, a.request range) := by
  rw [pull, h]
  dsimp only
  rw [SourceM.outcome_bind, SourceM.outcome_fetchExactly_of_error hr]

end Pull

/-- What is put into a buffer is what a call has to give. -/
theorem filling_eq_filled {whole buffer bytes : Bytes} {n : Nat} (hsize : bytes.size = n)
    (hn : n ≤ buffer.size) (hbytes : bytes = whole.extract p (p + n)) :
    StreamAnswer.filling buffer bytes =
      .filled n (whole.extract p (p + n) ++ buffer.extract n buffer.size) := by
  rw [StreamAnswer.filling, Bytes.overwrite_zero (by omega), ← hbytes, hsize]

/-- A pull for a decoder. -/
theorem At.obeys_pull (hwithin : ChainWithin content chain) (hanswers : source.Answers content)
    (hs : s.At chain options p) (buffer : Bytes) (a : Activity) :
    (StreamCall.pull buffer).Obeys source content chain options p a
      ((StreamCall.pull buffer).carryOut source s a) := by
  rw [StreamCall.carryOut, run_bind]
  have hattempt : (s.pull source buffer.size).attempt a = (s.pull source buffer.size).outcome a := rfl
  rw [hattempt]
  cases hnext : s.next? buffer.size with
  | none =>
    have hdue : (StreamCall.pull buffer).due chain options p = 0 := hs.eq_zero_of_next? hnext
    obtain ⟨hat, hrequests, hbytesRead⟩ := hs.reportEmpty buffer.size a
    rw [outcome_pull_of_none hnext]
    refine ⟨p, [], hat, ?_, ?_, .inl ⟨?_, ?_, fun _ => ?_, fun _ => rfl, ?_⟩⟩
    · exact (congrArg Array.toList hrequests).trans (List.append_nil _).symm
    · show _ = p + (s.reportEmpty buffer.size a).2.bytesRead + 0
      rw [hbytesRead, Nat.add_zero]
    · rw [hdue]
      refine congrArg Except.ok (filling_eq_filled rfl (Nat.zero_le _) ?_)
      rw [Nat.add_zero, Array.extract_empty_of_stop_le_start (Nat.le_refl p)]
    · rw [hdue, Nat.add_zero]
    · rw [hdue]
      exact RequestsFor.nil chain p
    · exact fun _ _ hne => absurd hdue hne
  | some next =>
    obtain ⟨range, s'⟩ := next
    obtain ⟨hpos, hlength, hoffsets, hat⟩ := hs.of_next? hnext
    have hissued := RequestsFor.single hpos hoffsets
    have hdue : (StreamCall.pull buffer).due chain options p = range.length := hlength.symm
    have hle : range.length ≤ buffer.size := by omega
    cases hr : source.readInto a.requests.toList range with
    | error e =>
      rw [outcome_pull_of_error hnext hr]
      refine ⟨p, [range], hs, Array.toList_push, rfl, .inr ⟨?_, ?_, ?_, ?_⟩⟩
      · refine ⟨source.readInto, [], range, e, rfl, rfl, ⟨#[], rfl⟩, ?_, rfl, rfl⟩
        rwa [List.append_nil]
      · exact hissued
      · rw [hdue]
        exact Nat.le_refl _
      · exact fun _ _ => ⟨range, rfl, hdue.symm⟩
    | ok bytes =>
      have hsize := source.readInto_size _ range bytes hr
      have hbytes := eq_extract_of_gather hanswers.readInto hwithin hissued
        (gather_cons_of_ok hr rfl)
      rw [Array.append_empty] at hbytes
      rw [outcome_pull_of_ok hnext hr]
      refine ⟨_, [range], hat, Array.toList_push, ?_, .inl ⟨?_, ?_, fun _ => ?_, nofun, ?_⟩⟩
      · show _ = p + (a.bytesRead + bytes.size) + 0
        omega
      · rw [hdue]
        exact congrArg Except.ok (filling_eq_filled hsize hle hbytes)
      · rw [hdue]
      · rw [hdue]
        exact hissued
      · exact fun _ _ _ => ⟨range, rfl, hdue.symm⟩

/-- A call of a stream at a place. -/
theorem At.carryOut (hwithin : ChainWithin content chain) (hanswers : source.Answers content)
    (hs : s.At chain options p) (call : StreamCall) (a : Activity) :
    call.Obeys source content chain options p a (call.carryOut source s a) := by
  have hle := hs.le
  cases call with
  | read count =>
    refine hs.obeys_readBy source.asks_fetch hanswers.readAt hwithin count rfl rfl
      (by rintro _ ⟨⟩) .bytes (fun _ => rfl) (fun bytes _ hbytes => ?_) a
    exact congrArg StreamAnswer.bytes hbytes
  | readInto buffer =>
    refine hs.obeys_readBy source.asks_fetchExactly hanswers.readInto hwithin buffer.size rfl rfl
      (by rintro _ ⟨⟩) (.filling buffer) (fun _ => rfl) (fun bytes hsize hbytes => ?_) a
    exact filling_eq_filled hsize (Nat.min_le_left _ _) hbytes
  | skip count =>
    obtain ⟨hpassed, hat⟩ := hs.skip count
    refine ⟨_, [], hat, (List.append_nil _).symm, ?_,
      .inl ⟨?_, rfl, fun h => absurd rfl h, fun _ => rfl, nofun⟩⟩
    · show _ = p + a.bytesRead + (s.skip count).1
      rw [hpassed]
      omega
    · exact congrArg (fun n => Except.ok (StreamAnswer.skipped n)) hpassed
  | pull buffer => exact hs.obeys_pull hwithin hanswers buffer a

/-- Calls lead to a place that the bytes got and skipped add up to. -/
theorem At.runCalls (hwithin : ChainWithin content chain) (hs : s.At chain options p)
    (calls : List (ByteSource × StreamCall)) (hcalls : ∀ c ∈ calls, c.1.Answers content)
    (a : Activity) :
    ∃ p', (runCalls calls s a).1.2.At chain options p' ∧
      p' + a.bytesRead =
        p + (runCalls calls s a).2.bytesRead + skippedIn (runCalls calls s a).1.1 := by
  induction calls generalizing s p a with
  | nil => exact ⟨p, hs, rfl⟩
  | cons c calls ih =>
    obtain ⟨source, call⟩ := c
    obtain ⟨hanswers, hcalls⟩ := List.forall_mem_cons.1 hcalls
    obtain ⟨p', issued, hat, -, hsum, -⟩ := hs.carryOut hwithin hanswers call a
    obtain ⟨p'', hat', hsum'⟩ := ih hat hcalls (call.carryOut source s a).2
    rw [runCalls_cons]
    refine ⟨p'', hat', ?_⟩
    dsimp only [skippedIn] at hsum hsum' ⊢
    omega

/-- A segment stream is the string of the bytes of its chain with a cursor. Whatever the calls were,
the cursor is at a place of the string, the one that the bytes got and skipped add up to. From there
each call gives the bytes due and moves past them, or fails with one of its requests and moves past
the bytes of the requests before it. -/
theorem refines_cursor (hwithin : ChainWithin content chain)
    (hlength : chainLength chain ≤ maxOffset) (options : ReadOptions)
    (calls : List (ByteSource × StreamCall)) (hcalls : ∀ c ∈ calls, c.1.Answers content)
    (start : Activity) {results : List (Except StorageError StreamAnswer)} {s : SegmentStream}
    {a : Activity}
    (hrun : Hyperslab.runCalls calls (ofChain chain options) start = ((results, s), a)) :
    s.length = (chainBytes content chain).size ∧ s.position ≤ s.length ∧
      s.position + start.bytesRead = a.bytesRead + skippedIn results ∧
      ∀ (source : ByteSource) (call : StreamCall), source.Answers content →
        ∀ {result : Except StorageError StreamAnswer} {s' : SegmentStream} {a' : Activity},
          call.carryOut source s a = ((result, s'), a') →
          ∃ issued, a'.requests.toList = a.requests.toList ++ issued ∧
            (call.Succeeds source content chain options s.position s'.position issued result ∨
              call.Fails source chain options s.position s'.position a.requests.toList issued
                result) := by
  obtain ⟨p, hat, hsum⟩ :=
    (at_ofChain chain options).runCalls hwithin calls hcalls start
  rw [hrun, Nat.zero_add] at hsum
  rw [hrun] at hat
  obtain rfl : s.position = p := hat.position
  have hsize : s.length = chainLength chain := hat.length.trans (Offset.clamped_of_le hlength)
  refine ⟨by rw [hsize, size_chainBytes hwithin], by rw [hsize]; exact hat.le, hsum, ?_⟩
  intro source call hanswers result s' a' hcall
  have hobeys := hat.carryOut hwithin hanswers call a
  rw [hcall] at hobeys
  obtain ⟨p', issued, hat', hrequests, -, hends⟩ := hobeys
  obtain rfl : s'.position = p' := hat'.position
  exact ⟨issued, hrequests, hends⟩

/-- After one byte was skipped and a read over two segments has failed in the second one, the cursor
is at the start of that one. -/
theorem refines_cursor_offline :
    ∃ results s a,
      Hyperslab.runCalls
        [(.memory #[10, 11, 12, 13, 14, 15], .skip 1),
          ((ByteSource.memory #[10, 11, 12, 13, 14, 15]).offlineAt 5 (.other "offline"),
            .readInto #[7, 7, 7])]
        (ofChain [⟨1, 2⟩, ⟨3, 0⟩, ⟨4, 2⟩] {}) {} = ((results, s), a) ∧
      s.length = 4 ∧ s.position = 2 ∧
      ∀ {result : Except StorageError StreamAnswer} {s' : SegmentStream} {a' : Activity},
        (StreamCall.pull #[7, 7, 7]).carryOut (.memory #[10, 11, 12, 13, 14, 15]) s a =
            ((result, s'), a') → result = .ok (.filled 2 #[14, 15, 7]) ∧ s'.position = 4 := by
  have hmemory := ByteSource.answers_memory #[10, 11, 12, 13, 14, 15]
  have hwithin : ChainWithin #[10, 11, 12, 13, 14, 15] [⟨1, 2⟩, ⟨3, 0⟩, ⟨4, 2⟩] := by
    unfold ChainWithin
    decide
  refine ⟨_, _, _, rfl, ?_⟩
  obtain ⟨hlength, -, hsum, hcall⟩ := refines_cursor hwithin (by decide) {}
    [(.memory #[10, 11, 12, 13, 14, 15], .skip 1),
      ((ByteSource.memory #[10, 11, 12, 13, 14, 15]).offlineAt 5 (.other "offline"),
        .readInto #[7, 7, 7])]
    (List.forall_mem_cons.2 ⟨hmemory,
      List.forall_mem_cons.2 ⟨hmemory.failing _, nofun⟩⟩)
    {} rfl
  refine ⟨hlength, hsum, fun hpull => ?_⟩
  obtain ⟨issued, -, hsucceeds | hfails⟩ := hcall _ _ hmemory hpull
  · exact ⟨hsucceeds.result, hsucceeds.position⟩
  · obtain ⟨answer, answered, failed, e, hanswer, rfl, -, hfailed, -⟩ := hfails.exists_failed
    cases hanswer
    exact absurd hfailed (hfails.requests.ne_error (ByteSource.serves_memory _) hwithin
      (List.mem_append_right _ (List.mem_singleton_self failed)) _ e)

end SegmentStream

end Hyperslab
