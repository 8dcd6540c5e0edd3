import Hyperslab.Proofs.Source.Store

/-!
# What a meter counts

The calls of a source pass through a meter, whose counters may be reset at any time. A call gives
what the source gives, and the bytes counted are those that were given since the last reset. So are
the reads, but for one kind: a read that is to fill a buffer and fails is not counted, while any
other read that fails is.

## Main definitions

- `Meter.carryOut`: a read through the meter, or a reset
- `Meter.sinceReset`: the answers since the last reset
- `Meter.failedFills`: the number of reads that failed to fill a buffer

## Main statements

- `StoreCall.metered_eq`: what one read does to the counters
- `Meter.Counts.after`: what the counters stand for after any calls
- `Meter.counts_reads_but_failedFills`: the counters of a new meter
-/

namespace Hyperslab

namespace StoreAnswer

/-- The number of bytes that were given. -/
def size : StoreAnswer → Nat
  | bytes (.ok given) => given.size
  | filled (.ok (), given) => given.size
  | _ => 0

/-- A buffer was to be filled, and was not. -/
def isFailedFill : StoreAnswer → Bool
  | filled (.error _, _) => true
  | _ => false

end StoreAnswer

namespace StoreCall

/-- A read through the meter. A read of a range is a read at its offset. -/
def metered (source : ByteSource) (a : Activity) : StoreCall → StoreAnswer × Activity
  | readAt offset length =>
    let (result, a) := (source.fetch { offset := offset, length := length }).outcome a
    (.bytes result, a)
  | readRange range =>
    let (result, a) := (source.fetch { offset := range.offset, length := range.length }).outcome a
    (.bytes result, a)
  | readInto offset buffer =>
    let (result, a) :=
      (source.fetchExactly { offset := offset, length := buffer.size }).outcome a
    (.filled (fillWith buffer result), a)

/-- A read through the meter gives what the source gives and leaves one request. It counts the bytes
given, and it counts itself unless it fails to fill a buffer. -/
theorem metered_eq (source : ByteSource) (a : Activity) (call : StoreCall) :
    call.metered source a =
      (source.answer a.requests.toList call, { a.request call.range with
        reads := a.reads + if (source.answer a.requests.toList call).isFailedFill then 0 else 1
        bytesRead := a.bytesRead + (source.answer a.requests.toList call).size }) := by
  cases call with
  | readAt offset length =>
    rw [metered, ByteSource.answer, SourceM.outcome, ByteSource.fetch, ExceptT.run_mk]
    cases source.readAt _ { offset := offset, length := length } <;> rfl
  | readRange range =>
    rw [metered, ByteSource.answer, SourceM.outcome, ByteSource.fetch, ExceptT.run_mk]
    cases source.readAt _ { offset := range.offset, length := range.length } <;> rfl
  | readInto offset buffer =>
    rw [metered, ByteSource.answer, SourceM.outcome, ByteSource.fetchExactly, ExceptT.run_mk]
    cases source.readInto _ { offset := offset, length := buffer.size } <;> rfl

end StoreCall

/-- A call of a meter. -/
inductive MeterCall where
  | read (call : StoreCall)
  | reset
deriving DecidableEq, Repr

namespace Meter

/-- What a call gives, if it is a read, and the activity after it. -/
def carryOut (source : ByteSource) (a : Activity) : MeterCall → Option StoreAnswer × Activity
  | .read call => (some (call.metered source a).1, (call.metered source a).2)
  | .reset => (none, a.reset)

/-- The answers to some calls, each with the source as it is at that time. -/
def answers (a : Activity) : List (ByteSource × MeterCall) → List (Option StoreAnswer)
  | [] => []
  | (source, call) :: calls =>
    (carryOut source a call).1 :: answers (carryOut source a call).2 calls

/-- The activity after some calls. -/
def after (a : Activity) : List (ByteSource × MeterCall) → Activity
  | [] => a
  | (source, call) :: calls => after (carryOut source a call).2 calls

/-- What the source itself gives for each call, after the requests `before`. It knows of no
reset. -/
def sourceAnswers (before : List ByteRange) :
    List (ByteSource × MeterCall) → List (Option StoreAnswer)
  | [] => []
  | (source, .read call) :: calls =>
    some (source.answer before call) :: sourceAnswers (before ++ [call.range]) calls
  | (_, .reset) :: calls => none :: sourceAnswers before calls

/-- The ranges that were asked for. -/
def requested : List (ByteSource × MeterCall) → List ByteRange
  | [] => []
  | (_, .read call) :: calls => call.range :: requested calls
  | (_, .reset) :: calls => requested calls

/-- What the source gave for the reads since the last reset, with the requests `before` and what was
`given` for them since a reset before the calls. -/
def sinceReset (before : List ByteRange) (given : List StoreAnswer) :
    List (ByteSource × MeterCall) → List StoreAnswer
  | [] => given
  | (source, .read call) :: calls =>
    sinceReset (before ++ [call.range]) (given ++ [source.answer before call]) calls
  | (_, .reset) :: calls => sinceReset before [] calls

/-- The number of reads that failed to fill a buffer. -/
def failedFills (given : List StoreAnswer) : Nat :=
  given.countP (·.isFailedFill)

/-- The number of bytes of some answers together. -/
def totalSize : List StoreAnswer → Nat
  | [] => 0
  | answer :: given => answer.size + totalSize given

variable {a : Activity} {ranges : List ByteRange} {given : List StoreAnswer}

theorem totalSize_concat (given : List StoreAnswer) (answer : StoreAnswer) :
    totalSize (given ++ [answer]) = totalSize given + answer.size := by
  induction given with
  | nil => exact (Nat.zero_add _).symm
  | cons first given ih => rw [List.cons_append, totalSize, totalSize, ih, Nat.add_assoc]

/-- The requests are for the ranges, and the counters stand for the answers. -/
structure Counts (a : Activity) (ranges : List ByteRange) (given : List StoreAnswer) : Prop where
  requests_eq : a.requests.toList = ranges
  reads_add : a.reads + failedFills given = given.length
  bytesRead_eq : a.bytesRead = totalSize given

/-- A read is one more request and one more answer. -/
theorem Counts.read (h : Counts a ranges given) (source : ByteSource) (call : StoreCall) :
    Counts (carryOut source a (.read call)).2 (ranges ++ [call.range])
      (given ++ [source.answer ranges call]) := by
  have hreads := h.reads_add
  rw [carryOut, StoreCall.metered_eq, h.requests_eq]
  refine ⟨?_, ?_, ?_⟩
  · rw [← h.requests_eq]
    exact Array.toList_push
  · rw [failedFills, List.countP_append, List.countP_singleton, List.length_append,
      List.length_singleton, ← failedFills]
    dsimp only
    split <;> omega
  · rw [totalSize_concat, ← h.bytesRead_eq]

/-- A reset forgets the answers and no request. -/
theorem Counts.reset (h : Counts a ranges given) (source : ByteSource) :
    Counts (carryOut source a .reset).2 ranges [] :=
  ⟨h.requests_eq, rfl, rfl⟩

theorem Counts.after (h : Counts a ranges given) (calls : List (ByteSource × MeterCall)) :
    Counts (after a calls) (ranges ++ requested calls) (sinceReset ranges given calls) := by
  induction calls generalizing a ranges given with
  | nil =>
    rw [requested, List.append_nil]
    exact h
  | cons c calls ih =>
    obtain ⟨source, call | -⟩ := c
    · rw [requested, List.append_cons]
      exact ih (h.read source call)
    · exact ih (h.reset source)

/-- The meter changes no answer. -/
theorem answers_eq (a : Activity) (calls : List (ByteSource × MeterCall)) :
    answers a calls = sourceAnswers a.requests.toList calls := by
  induction calls generalizing a with
  | nil => rfl
  | cons c calls ih =>
    obtain ⟨source, call | -⟩ := c
    · rw [answers, sourceAnswers, ih, carryOut, StoreCall.metered_eq, Activity.request,
        Array.toList_push]
    · rw [answers, sourceAnswers, ih, carryOut, Activity.reset]

/-- What a new meter shows after any calls, whatever the source fails at whatever time. Each call
gives what the source gives and is one request, and the bytes counted are those given since the last
reset. The reads since then are counted but for those that failed to fill a buffer, so the number
shown is theirs just where there is no such read. -/
theorem counts_reads_but_failedFills (calls : List (ByteSource × MeterCall)) :
    answers {} calls = sourceAnswers [] calls ∧
    (after {} calls).requests.toList = requested calls ∧
    (after {} calls).reads + failedFills (sinceReset [] [] calls) = (sinceReset [] [] calls).length ∧
    (after {} calls).bytesRead = totalSize (sinceReset [] [] calls) ∧
    ((after {} calls).reads = (sinceReset [] [] calls).length ↔
      failedFills (sinceReset [] [] calls) = 0) := by
  have hstart : Counts {} [] [] := ⟨rfl, rfl, rfl⟩
  obtain ⟨hrequests, hreads, hbytes⟩ := hstart.after calls
  exact ⟨answers_eq {} calls, hrequests, hreads, hbytes, by omega⟩

/-- One read that is to fill two bytes from a source with one byte is not counted. -/
theorem failedFill_not_counted :
    (after {} [(.memory #[0], .read (.readInto 0 #[0, 0]))]).reads ≠
      (sinceReset [] [] [(.memory #[0], .read (.readInto 0 #[0, 0]))]).length := by
  decide

end Meter

end Hyperslab
