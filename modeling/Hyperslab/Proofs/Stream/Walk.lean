import Hyperslab.Proofs.Stream.Chain

/-!
# Segment streams at places of their chain

A read from a segment stream asks for the pieces of the segments that hold its bytes, one after the
other, and stops at the first request that fails. Which pieces these are is known ahead. After any
operation the stream is at some place of its chain: the number of bytes passed by then, where bytes
of a failed request do not count.

## Main definitions

- `pieces`: the parts of the segments of a chain that its first bytes are in
- `RequestsFor`: requests for just the bytes from some place of a chain on
- `Answered`: how far the requests for some pieces came
- `SegmentStream.At`: a stream at a place of a chain

## Main statements

- `SegmentStream.exists_answered_walk`: a walk asks for pieces up to the first failure
- `SegmentStream.At.of_readBy_ok`, `SegmentStream.At.of_readBy_error`, `SegmentStream.At.skip`,
  `SegmentStream.At.of_next?`: what a stream at a place does, and the place where it is then
-/

namespace Hyperslab

open SegmentStream (walkPast trim)

/-- The parts of the segments of a chain that its first `count` bytes are in. -/
def pieces : List ByteRange → Nat → List ByteRange
  | [], _ => []
  | segment :: rest, count =>
    if count = 0 then []
    else if segment.length = 0 then pieces rest count
    else segment.take count :: pieces rest (count - segment.length)

section Pieces

variable {chain : List ByteRange} {count : Nat}

@[simp] theorem pieces_zero (chain : List ByteRange) : pieces chain 0 = [] := by
  cases chain <;> rfl

/-- The pieces of a chain hold its first bytes. -/
theorem chainOffsets_pieces (chain : List ByteRange) (count : Nat) :
    chainOffsets (pieces chain count) = (chainOffsets chain).take count := by
  induction chain generalizing count with
  | nil => simp [pieces]
  | cons segment rest ih =>
    rw [pieces, chainOffsets_cons]
    split
    · simp_all
    · split
      · rw [ih, ByteRange.offsets_of_length_eq_zero ‹_›, List.nil_append]
      · rw [chainOffsets_cons, ByteRange.offsets_take, ih, List.take_append,
          ByteRange.length_offsets]

theorem chainLength_pieces (chain : List ByteRange) (count : Nat) :
    chainLength (pieces chain count) = min count (chainLength chain) := by
  rw [← length_chainOffsets, chainOffsets_pieces, List.length_take, length_chainOffsets]

theorem length_pos_of_mem_pieces {piece : ByteRange} (h : piece ∈ pieces chain count) :
    0 < piece.length := by
  induction chain generalizing count with
  | nil => cases h
  | cons segment rest ih =>
    rw [pieces] at h
    split at h
    · cases h
    · split at h
      · exact ih h
      · rcases List.mem_cons.1 h with rfl | h
        · show 0 < min count segment.length
          omega
        · exact ih h

theorem pieces_trim (chain : List ByteRange) (count : Nat) :
    pieces (trim chain) count = pieces chain count := by
  induction chain with
  | nil => rfl
  | cons segment rest ih =>
    rw [trim]
    split
    · rw [ih, pieces]
      split
      · simp_all
      · rfl
    · rfl

end Pieces

/-- The ranges hold the `n` bytes from place `p` of a chain on, in order, and each holds one of them
at least. -/
structure RequestsFor (chain : List ByteRange) (p n : Nat) (ranges : List ByteRange) : Prop where
  length_pos : ∀ range ∈ ranges, 0 < range.length
  offsets : chainOffsets ranges = ((chainOffsets chain).drop p).take n

namespace RequestsFor

variable {chain ranges : List ByteRange} {p n : Nat}

theorem of_isPrefix {count : Nat} (h : ranges <+: pieces (walkPast chain p).2 count) :
    RequestsFor chain p (chainLength ranges) ranges where
  length_pos range hrange := length_pos_of_mem_pieces (h.subset hrange)
  offsets := by
    obtain ⟨rest, heq⟩ := h
    have hoffsets := chainOffsets_pieces (walkPast chain p).2 count
    rw [← heq, chainOffsets_append, SegmentStream.chainOffsets_walkPast] at hoffsets
    have hlength : (chainOffsets ranges).length ≤ count := by
      have := congrArg List.length hoffsets
      rw [List.length_append, List.length_take] at this
      omega
    have htake := congrArg (List.take (chainLength ranges)) hoffsets
    rwa [List.take_left' (length_chainOffsets ranges), List.take_take,
      Nat.min_eq_left (length_chainOffsets ranges ▸ hlength)] at htake

theorem single {range : ByteRange} (hpos : 0 < range.length)
    (h : range.offsets = ((chainOffsets chain).drop p).take n) : RequestsFor chain p n [range] where
  length_pos _ hrange := by
    rwa [List.mem_singleton.1 hrange]
  offsets := by
    rw [chainOffsets_cons, chainOffsets_nil, List.append_nil, h]

theorem nil (chain : List ByteRange) (p : Nat) : RequestsFor chain p 0 [] where
  length_pos _ h := nomatch h
  offsets := List.take_zero.symm

theorem within {content : Bytes} (h : RequestsFor chain p n ranges)
    (hwithin : ChainWithin content chain) : ChainWithin content ranges :=
  hwithin.of_subset fun _ ho => List.mem_of_mem_drop (List.mem_of_mem_take (h.offsets ▸ ho))

/-- A source that serves a content does not fail a request for bytes of a chain inside of it. -/
theorem ne_error {content : Bytes} {source : ByteSource} (hserves : source.Serves content)
    (h : RequestsFor chain p n ranges) (hwithin : ChainWithin content chain) {range : ByteRange}
    (hrange : range ∈ ranges) (before : List ByteRange) (e : StorageError) :
    source.readInto before range ≠ .error e := by
  obtain ⟨hle, hmax⟩ := h.within hwithin range hrange (Nat.ne_of_gt (h.length_pos range hrange))
  rw [hserves before range hmax hle]
  exact nofun

end RequestsFor

/-- The answers to requests put one after the other, or the error of the first one that fails. The
requests are made after those `before`. -/
def gather (answer : List ByteRange → ByteRange → Except StorageError Bytes)
    (before : List ByteRange) : List ByteRange → Except StorageError Bytes
  | [] => .ok #[]
  | range :: ranges => do
    let bytes ← answer before range
    let others ← gather answer (before ++ [range]) ranges
    pure (bytes ++ others)

section Gather

variable {answer : List ByteRange → ByteRange → Except StorageError Bytes}
  {before ranges : List ByteRange} {range : ByteRange} {bytes : Bytes}

theorem of_gather_cons (h : gather answer before (range :: ranges) = .ok bytes) :
    ∃ first others, answer before range = .ok first ∧
      gather answer (before ++ [range]) ranges = .ok others ∧ bytes = first ++ others := by
  rw [gather] at h
  cases hfirst : answer before range with
  | error e =>
    rw [hfirst] at h
    cases h
  | ok first =>
    cases hothers : gather answer (before ++ [range]) ranges with
    | error e =>
      rw [hfirst, hothers] at h
      cases h
    | ok others =>
      rw [hfirst, hothers] at h
      exact ⟨first, others, rfl, rfl, (Except.ok.inj h).symm⟩

theorem gather_cons_of_ok {others : Bytes} (h : answer before range = .ok bytes)
    (hothers : gather answer (before ++ [range]) ranges = .ok others) :
    gather answer before (range :: ranges) = .ok (bytes ++ others) := by
  rw [gather, h]
  simp only [hothers]
  rfl

/-- True answers are the bytes of the requests. -/
theorem eq_of_gather {content : Bytes} (htruthful : ByteSource.Truthful answer content)
    (hpos : ∀ range ∈ ranges, 0 < range.length) (hwithin : ChainWithin content ranges)
    (h : gather answer before ranges = .ok bytes) : bytes = chainBytes content ranges := by
  induction ranges generalizing before bytes with
  | nil => exact (Except.ok.inj h).symm
  | cons range ranges ih =>
    obtain ⟨hrange, hpos⟩ := List.forall_mem_cons.1 hpos
    obtain ⟨hinside, hwithin⟩ := List.forall_mem_cons.1 hwithin
    obtain ⟨hle, hmax⟩ := hinside (by omega)
    obtain ⟨first, others, hfirst, hothers, rfl⟩ := of_gather_cons h
    rw [htruthful before range first hmax hle hfirst, ih hpos hwithin hothers, chainBytes]

/-- A source fills what it is asked for in full. -/
theorem size_of_gather_readInto {source : ByteSource}
    (h : gather source.readInto before ranges = .ok bytes) : bytes.size = chainLength ranges := by
  induction ranges generalizing before bytes with
  | nil =>
    cases h
    rfl
  | cons range ranges ih =>
    obtain ⟨first, others, hfirst, hothers, rfl⟩ := of_gather_cons h
    rw [Array.size_append, source.readInto_size before range first hfirst, ih hothers,
      chainLength_cons]

end Gather

/-- The requests of `ask` are answered by `answer` after those that were observed, and they are
counted as reads of a metered source are. -/
structure Asks (ask : ByteRange → SourceM StorageError Bytes)
    (answer : List ByteRange → ByteRange → Except StorageError Bytes) : Prop where
  result : ∀ range a, ((ask range).outcome a).1 = answer a.requests.toList range
  requests : ∀ range a, ((ask range).outcome a).2.requests = a.requests.push range
  bytesRead_of_ok : ∀ range a bytes, answer a.requests.toList range = .ok bytes →
    ((ask range).outcome a).2.bytesRead = a.bytesRead + bytes.size
  bytesRead_of_error : ∀ range a e, answer a.requests.toList range = .error e →
    ((ask range).outcome a).2.bytesRead = a.bytesRead

theorem ByteSource.asks_fetch (source : ByteSource) : Asks source.fetch source.readAt where
  result range a := by
    simp only [SourceM.outcome, fetch, ExceptT.run_mk]
    split <;> simp_all
  requests range a := by
    simp only [SourceM.outcome, fetch, ExceptT.run_mk]
    split <;> rfl
  bytesRead_of_ok range a bytes h := by
    simp only [SourceM.outcome, fetch, ExceptT.run_mk, h]
    rfl
  bytesRead_of_error range a e h := by
    simp only [SourceM.outcome, fetch, ExceptT.run_mk, h]
    rfl

theorem ByteSource.asks_fetchExactly (source : ByteSource) :
    Asks source.fetchExactly source.readInto where
  result range a := by
    cases h : source.readInto a.requests.toList range with
    | ok bytes => rw [SourceM.outcome_fetchExactly_of_ok h]
    | error e => rw [SourceM.outcome_fetchExactly_of_error h]
  requests range a := by
    cases h : source.readInto a.requests.toList range with
    | ok bytes =>
      rw [SourceM.outcome_fetchExactly_of_ok h]
      rfl
    | error e =>
      rw [SourceM.outcome_fetchExactly_of_error h]
      rfl
  bytesRead_of_ok range a bytes h := by
    rw [SourceM.outcome_fetchExactly_of_ok h]
    rfl
  bytesRead_of_error range a e h := by
    rw [SourceM.outcome_fetchExactly_of_error h]
    rfl

/-- Ranges were asked for one after the other. The `answered` ones gave `bytes`, and these are all,
or the next request failed, as `result` says. -/
structure Answered (answer : List ByteRange → ByteRange → Except StorageError Bytes)
    (ranges answered : List ByteRange) (bytes : Bytes) (result : Except StorageError Unit)
    (a a' : Activity) : Prop where
  gathered : gather answer a.requests.toList answered = .ok bytes
  bytesRead : a'.bytesRead = a.bytesRead + bytes.size
  ended : (result = .ok () ∧ ranges = answered ∧
      a'.requests.toList = a.requests.toList ++ answered) ∨
    ∃ e failed rest, result = .error e ∧ ranges = answered ++ failed :: rest ∧
      answer (a.requests.toList ++ answered) failed = .error e ∧
      a'.requests.toList = a.requests.toList ++ (answered ++ [failed])

namespace Answered

variable {ask : ByteRange → SourceM StorageError Bytes}
  {answer : List ByteRange → ByteRange → Except StorageError Bytes}
  {ranges answered : List ByteRange} {range : ByteRange} {bytes others : Bytes}
  {result : Except StorageError Unit} {a a' : Activity}

theorem nil (answer : List ByteRange → ByteRange → Except StorageError Bytes) (a : Activity) :
    Answered answer [] [] #[] (.ok ()) a a where
  gathered := rfl
  bytesRead := rfl
  ended := .inl ⟨rfl, rfl, (List.append_nil _).symm⟩

theorem of_error (hask : Asks ask answer) {e : StorageError}
    (h : answer a.requests.toList range = .error e) (ranges : List ByteRange) :
    Answered answer (range :: ranges) [] #[] (.error e) a ((ask range).outcome a).2 where
  gathered := rfl
  bytesRead := hask.bytesRead_of_error range a e h
  ended := .inr ⟨e, range, ranges, rfl, rfl, by rwa [List.append_nil], by
    rw [hask.requests, Array.toList_push, List.nil_append]⟩

theorem cons (hask : Asks ask answer) (h : answer a.requests.toList range = .ok bytes)
    (hrest : Answered answer ranges answered others result ((ask range).outcome a).2 a') :
    Answered answer (range :: ranges) (range :: answered) (bytes ++ others) result a a' where
  gathered := by
    have hothers := hrest.gathered
    rw [hask.requests, Array.toList_push] at hothers
    exact gather_cons_of_ok h hothers
  bytesRead := by
    rw [hrest.bytesRead, hask.bytesRead_of_ok range a bytes h, Array.size_append, Nat.add_assoc]
  ended := by
    rcases hrest.ended with
      ⟨hresult, hall, hrequests⟩ | ⟨e, failed, rest, hresult, hall, he, hrequests⟩
    · refine .inl ⟨hresult, by rw [hall], ?_⟩
      rw [hrequests, hask.requests, Array.toList_push, List.append_assoc]
      rfl
    · rw [hask.requests, Array.toList_push, List.append_assoc] at he hrequests
      exact .inr ⟨e, failed, rest, hresult, by rw [hall]; rfl, he, hrequests⟩

theorem congr {b : Activity} (h : Answered answer ranges answered bytes result a a')
    (hrequests : b.requests = a'.requests) (hbytesRead : b.bytesRead = a'.bytesRead) :
    Answered answer ranges answered bytes result a b where
  gathered := h.gathered
  bytesRead := hbytesRead.trans h.bytesRead
  ended := by
    rw [hrequests]
    exact h.ended

theorem isPrefix (h : Answered answer ranges answered bytes result a a') : answered <+: ranges := by
  rcases h.ended with ⟨-, rfl, -⟩ | ⟨e, failed, rest, -, rfl, -⟩
  · exact List.prefix_rfl
  · exact List.prefix_append _ _

end Answered

namespace SegmentStream

variable {ask : ByteRange → SourceM StorageError Bytes}
  {answer : List ByteRange → ByteRange → Except StorageError Bytes} {chain : List ByteRange}

/-- A walk asks for the pieces of its bytes up to the first failure, and leaves what is after those
that were answered. -/
theorem exists_answered_walk (hask : Asks ask answer) (chain : List ByteRange) (count : Nat)
    (w : ChainWalk) (a : Activity) :
    ∃ answered bytes,
      Answered answer (pieces chain count) answered bytes (walk ask chain count w a).1.1 a
        (walk ask chain count w a).2 ∧
      (walk ask chain count w a).1.2.bytes = w.bytes ++ bytes ∧
      (walk ask chain count w a).1.2.passed = w.passed + chainLength answered ∧
      trim (walk ask chain count w a).1.2.left = (walkPast chain (chainLength answered)).2 := by
  induction chain generalizing count w a with
  | nil => exact ⟨[], #[], Answered.nil answer a, Array.append_empty.symm, rfl, rfl⟩
  | cons segment rest ih =>
    rw [walk, pieces]
    by_cases hcount : count = 0
    · rw [if_pos hcount, if_pos hcount]
      exact ⟨[], #[], Answered.nil answer a, Array.append_empty.symm, rfl,
        (snd_walkPast_zero (segment :: rest)).symm⟩
    rw [if_neg hcount, if_neg hcount]
    by_cases hzero : segment.length = 0
    · -- a segment without bytes is passed without a request
      rw [if_pos hzero, if_pos hzero]
      obtain ⟨answered, bytes, hanswered, hbytes, hpassed, hleft⟩ := ih count w a
      refine ⟨answered, bytes, hanswered, hbytes, hpassed, ?_⟩
      rw [hleft, ← walkPast_trim (segment :: rest), trim, if_pos hzero, walkPast_trim]
    rw [if_neg hzero, if_neg hzero]
    dsimp only
    rw [run_bind]
    have hresult : ((ask (segment.take count)).attempt a).1 =
        answer a.requests.toList (segment.take count) := hask.result _ a
    have htake : (segment.take count).length = min count segment.length := rfl
    rw [hresult]
    cases h : answer a.requests.toList (segment.take count) with
    | error e =>
      exact ⟨[], #[], Answered.of_error hask h _, Array.append_empty.symm, rfl,
        (snd_walkPast_zero (segment :: rest)).symm⟩
    | ok piece =>
      dsimp only
      by_cases hle : segment.length ≤ count
      · rw [if_pos hle]
        obtain ⟨answered, bytes, hanswered, hbytes, hpassed, hleft⟩ :=
          ih (count - segment.length)
            { w with bytes := w.bytes ++ piece, passed := w.passed + (segment.take count).length }
            ((ask (segment.take count)).attempt a).2
        refine ⟨segment.take count :: answered, piece ++ bytes, hanswered.cons hask h, ?_, ?_, ?_⟩
        · rw [hbytes, Array.append_assoc]
        · rw [hpassed, chainLength_cons, Nat.add_assoc]
        · rw [hleft, chainLength_cons, htake, Nat.min_eq_right hle, walkPast,
            if_neg (by omega), Nat.add_sub_cancel_left]
      · have hdone : pieces rest (count - segment.length) = [] := by
          rw [Nat.sub_eq_zero_of_le (by omega), pieces_zero]
        rw [if_neg hle, hdone]
        refine ⟨[segment.take count], piece ++ #[], (Answered.nil answer _).cons hask h, ?_, rfl, ?_⟩
        · rw [Array.append_empty]
          rfl
        · rw [chainLength_cons, chainLength_nil, htake, Nat.min_eq_left (by omega), walkPast,
            if_pos (by omega)]
          exact trim_of_pos (by show 0 < segment.length - count; omega) rest

/-- The stream is at place `p` of a chain: what is left of it is what comes after the first `p`
bytes. -/
structure At (s : SegmentStream) (chain : List ByteRange) (options : ReadOptions) (p : Nat) :
    Prop where
  position : s.position = p
  left : trim s.left = (walkPast chain p).2
  le : p ≤ chainLength chain
  length : s.length = Offset.clamped (chainLength chain)
  readSize : s.readSize = options.segmentReadSize

theorem at_ofChain (chain : List ByteRange) (options : ReadOptions) :
    (ofChain chain options).At chain options 0 where
  position := rfl
  left := (snd_walkPast_zero chain).symm
  le := Nat.zero_le _
  length := rfl
  readSize := rfl

variable {s : SegmentStream} {options : ReadOptions} {p : Nat}

/-- A stream that has passed the bytes of some requests. -/
theorem At.after {count : Nat} {answered : List ByteRange} {w : ChainWalk} (hs : s.At chain options p)
    (hfront : answered <+: pieces (walkPast chain p).2 count)
    (hpassed : w.passed = chainLength answered)
    (hleft : trim w.left = (walkPast s.left (chainLength answered)).2) :
    (s.after w).At chain options (p + chainLength answered) where
  position := by
    show s.position + w.passed = _
    rw [hs.position, hpassed]
  left := by
    show trim w.left = _
    rw [hleft, ← walkPast_trim s.left, hs.left, walkPast_walkPast]
  le := by
    obtain ⟨rest, heq⟩ := hfront
    have hlength := chainLength_pieces (walkPast chain p).2 count
    rw [← heq, chainLength_append, chainLength_walkPast] at hlength
    have := hs.le
    omega
  length := hs.length
  readSize := hs.readSize

/-- A report that there is no byte is no request and moves nothing. -/
theorem At.reportEmpty (hs : s.At chain options p) (requested : Nat) (a : Activity) :
    (s.reportEmpty requested a).1.At chain options p ∧
      (s.reportEmpty requested a).2.requests = a.requests ∧
      (s.reportEmpty requested a).2.bytesRead = a.bytesRead := by
  rw [SegmentStream.reportEmpty]
  split
  · exact ⟨⟨hs.position, hs.left, hs.le, hs.length, hs.readSize⟩, rfl, rfl⟩
  · exact ⟨hs, rfl, rfl⟩

/-- A read asks for the pieces of the next bytes, up to the first failure, and passes the bytes of
those that were answered. -/
theorem At.readBy (hask : Asks ask answer) (hs : s.At chain options p) (count : Nat)
    (a : Activity) :
    ∃ answered bytes result,
      Answered answer (pieces (walkPast chain p).2 count) answered bytes result a
        (s.readBy ask count a).2 ∧
      (s.readBy ask count a).1.1 = result.map (fun _ => bytes) ∧
      (s.readBy ask count a).1.2.At chain options (p + chainLength answered) := by
  obtain ⟨answered, bytes, hanswered, hbytes, hpassed, hleft⟩ :=
    exists_answered_walk hask s.left count { bytes := #[], passed := 0, left := [] } a
  rw [← pieces_trim, hs.left] at hanswered
  have hafter := hs.after hanswered.isPrefix (hpassed.trans (Nat.zero_add _)) hleft
  rw [Array.empty_append] at hbytes
  rw [SegmentStream.readBy, run_bind]
  rcases hwalk : walk ask s.left count _ a with ⟨⟨result, w⟩, a'⟩
  rw [hwalk] at hanswered hafter hbytes
  refine ⟨answered, bytes, result, ?_⟩
  cases result with
  | error e => exact ⟨hanswered, rfl, hafter⟩
  | ok _ =>
    dsimp only at hbytes ⊢
    split
    · obtain ⟨hreport, hrequests, hbytesRead⟩ := hafter.reportEmpty count a'
      exact ⟨hanswered.congr hrequests hbytesRead, congrArg Except.ok hbytes, hreport⟩
    · exact ⟨hanswered, congrArg Except.ok hbytes, hafter⟩

/-- A read that succeeds has got the next bytes, as many as it wants or all that are left. -/
theorem At.of_readBy_ok (hask : Asks ask answer) (hs : s.At chain options p) {count : Nat}
    {a a' : Activity} {bytes : Bytes} {s' : SegmentStream}
    (h : s.readBy ask count a = ((.ok bytes, s'), a')) :
    ∃ issued,
      RequestsFor chain p (min count (chainLength chain - p)) issued ∧
      gather answer a.requests.toList issued = .ok bytes ∧
      a'.requests.toList = a.requests.toList ++ issued ∧
      a'.bytesRead = a.bytesRead + bytes.size ∧
      s'.At chain options (p + min count (chainLength chain - p)) := by
  obtain ⟨answered, gathered, result, hanswered, hresult, hat⟩ := hs.readBy hask count a
  rw [h] at hanswered hresult hat
  cases result with
  | error e => cases hresult
  | ok _ =>
    obtain rfl := Except.ok.inj hresult
    rcases hanswered.ended with ⟨-, hall, hrequests⟩ | ⟨e, -, -, herror, -⟩
    · have hlength := chainLength_pieces (walkPast chain p).2 count
      rw [hall, chainLength_walkPast] at hlength
      have hfor := RequestsFor.of_isPrefix hanswered.isPrefix
      rw [hlength] at hfor hat
      exact ⟨answered, hfor, hanswered.gathered, hrequests, hanswered.bytesRead, hat⟩
    · cases herror

/-- A read that fails has passed the bytes of the requests that came before the one that failed. -/
theorem At.of_readBy_error (hask : Asks ask answer) (hs : s.At chain options p) {count : Nat}
    {a a' : Activity} {e : StorageError} {s' : SegmentStream}
    (h : s.readBy ask count a = ((.error e, s'), a')) :
    ∃ answered failed bytes,
      RequestsFor chain p (chainLength (answered ++ [failed])) (answered ++ [failed]) ∧
      chainLength (answered ++ [failed]) ≤ min count (chainLength chain - p) ∧
      gather answer a.requests.toList answered = .ok bytes ∧
      answer (a.requests.toList ++ answered) failed = .error e ∧
      a'.requests.toList = a.requests.toList ++ (answered ++ [failed]) ∧
      a'.bytesRead = a.bytesRead + bytes.size ∧
      s'.At chain options (p + chainLength answered) := by
  obtain ⟨answered, gathered, result, hanswered, hresult, hat⟩ := hs.readBy hask count a
  rw [h] at hanswered hresult hat
  cases result with
  | ok _ => cases hresult
  | error e' =>
    obtain rfl := Except.error.inj hresult
    rcases hanswered.ended with ⟨hok, -⟩ | ⟨e', failed, rest, herror, hall, hfailed, hrequests⟩
    · cases hok
    · cases herror
      have hfront : answered ++ [failed] <+: pieces (walkPast chain p).2 count :=
        ⟨rest, by rw [hall, List.append_assoc]; rfl⟩
      have hlength := chainLength_pieces (walkPast chain p).2 count
      rw [hall, chainLength_walkPast, chainLength_append, chainLength_cons] at hlength
      refine ⟨answered, failed, gathered, RequestsFor.of_isPrefix hfront, ?_, hanswered.gathered,
        hfailed, hrequests, hanswered.bytesRead, hat⟩
      rw [chainLength_append, chainLength_cons, chainLength_nil]
      omega

/-- A skip passes the next bytes, or all that are left. -/
theorem At.skip (hs : s.At chain options p) (count : Nat) :
    (s.skip count).1 = min count (chainLength chain - p) ∧
      (s.skip count).2.At chain options (p + min count (chainLength chain - p)) := by
  have hpassed : (walkPast s.left count).1 = min count (chainLength chain - p) := by
    rw [← walkPast_trim, hs.left, fst_walkPast, chainLength_walkPast]
  have hle := hs.le
  refine ⟨hpassed, ?_, ?_, by omega, hs.length, hs.readSize⟩
  · show s.position + (walkPast s.left count).1 = _
    rw [hs.position, hpassed]
  · show trim (walkPast s.left count).2 = _
    rw [trim_walkPast, ← walkPast_trim, hs.left, walkPast_walkPast]
    by_cases hcount : count ≤ chainLength chain - p
    · rw [Nat.min_eq_left hcount]
    · rw [snd_walkPast_of_le (by omega), snd_walkPast_of_le (by omega)]

/-- A pull asks for the next bytes of one segment, as many as are wanted at most. -/
theorem At.of_next? (hs : s.At chain options p) {limit : Nat} {range : ByteRange}
    {s' : SegmentStream} (h : s.next? limit = some (range, s')) :
    0 < range.length ∧
      range.length = min (min limit options.segmentReadSize) (leftInSegment chain p) ∧
      range.offsets = ((chainOffsets chain).drop p).take range.length ∧
      s'.At chain options (p + range.length) := by
  unfold SegmentStream.next? at h
  split at h
  · cases h
  · rename_i segment rest htrim
    have hpos := length_pos_of_trim htrim
    rw [hs.left] at htrim
    have hleft := leftInSegment_of_walkPast_eq_cons htrim
    have hoffsets := chainOffsets_walkPast chain p
    have hlength := chainLength_walkPast chain p
    rw [htrim] at hoffsets hlength
    rw [chainLength_cons] at hlength
    dsimp only at h
    split at h
    · cases h
    · cases h
      rename_i hn
      generalize hcount : min (min segment.length s.readSize) limit = n at *
      have hle : n ≤ segment.length := by omega
      have htake : (segment.take n).length = n := Nat.min_eq_left hle
      rw [htake]
      refine ⟨by omega, ?_, ?_, ⟨?_, ?_, by omega, hs.length, hs.readSize⟩⟩
      · rw [hleft, ← hs.readSize]
        omega
      · rw [← hoffsets, chainOffsets_cons, List.take_append, ByteRange.length_offsets,
          Nat.sub_eq_zero_of_le hle, List.take_zero, List.append_nil, ByteRange.offsets_take]
      · exact congrArg (· + n) hs.position
      · show trim (segment.drop n :: rest) = _
        rw [← walkPast_walkPast, htrim, walkPast]
        split
        · exact trim_of_pos (by show 0 < segment.length - n; omega) rest
        · have hall : n - segment.length = 0 := by omega
          rw [hall]
          show _ = (walkPast rest 0).2
          rw [snd_walkPast_zero, trim, if_pos (by show segment.length - n = 0; omega)]

/-- No pull is for no byte, or at the end. -/
theorem At.eq_zero_of_next? (hs : s.At chain options p) {limit : Nat}
    (h : s.next? limit = none) :
    min (min limit options.segmentReadSize) (leftInSegment chain p) = 0 := by
  unfold SegmentStream.next? at h
  split at h
  · rename_i htrim
    rw [hs.left] at htrim
    rw [leftInSegment_of_walkPast_eq_nil htrim, Nat.min_zero]
  · rename_i segment rest htrim
    rw [hs.left] at htrim
    rw [leftInSegment_of_walkPast_eq_cons htrim, ← hs.readSize]
    dsimp only at h
    split at h
    · omega
    · cases h

end SegmentStream

end Hyperslab
