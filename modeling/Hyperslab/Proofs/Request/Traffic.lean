import Hyperslab.Codec.Payload
import Hyperslab.Proofs.Outcome

/-!
# Requests and what is observed of them

Which of the two ways to ask was taken is part of a `Request`. Requests are observed as traffic: the
ranges in order, and the counters of a metered source. Reports are not part of it, and what a
request adds to it does not depend on what was reported.

## Main definitions

- `Request`: a range asked for in one of the two ways
- `Activity.traffic`, `Activity.after`: what is observed of requests
- `Activity.AnsweredAlike`: the answers do not depend on which of two activities came before

## Main statements

- `Activity.traffic_after`: what requests add to the traffic
-/

namespace Hyperslab

/-- A range asked of a byte source. -/
inductive Request where
  /-- Asks for the bytes that the source chooses to give. -/
  | readAt (range : ByteRange)
  /-- Asks for all bytes. -/
  | readInto (range : ByteRange)
deriving DecidableEq, Repr

namespace Request

def range : Request → ByteRange
  | readAt range | readInto range => range

/-- What the source answers after other requests. -/
def answer (source : ByteSource) (before : List ByteRange) :
    Request → Except StorageError Bytes
  | readAt range => source.readAt before range
  | readInto range => source.readInto before range

def issue (source : ByteSource) : Request → SourceM StorageError Bytes
  | readAt range => source.fetch range
  | readInto range => source.fetchExactly range

variable {source : ByteSource}

theorem issue_result (q : Request) (a : Activity) :
    ((q.issue source).outcome a).1 = q.answer source a.requests.toList := by
  cases q with
  | readAt range =>
    simp only [SourceM.outcome, issue, answer, ByteSource.fetch, ExceptT.run_mk]
    split <;> simp_all
  | readInto range =>
    simp only [SourceM.outcome, issue, answer, ByteSource.fetchExactly, ExceptT.run_mk]
    split <;> simp_all

theorem issue_requests (q : Request) (a : Activity) :
    ((q.issue source).outcome a).2.requests = a.requests.push q.range := by
  cases q with
  | readAt range =>
    simp only [SourceM.outcome, issue, ByteSource.fetch, ExceptT.run_mk]
    split <;> rfl
  | readInto range =>
    simp only [SourceM.outcome, issue, ByteSource.fetchExactly, ExceptT.run_mk]
    split <;> rfl

end Request

namespace Activity

/-- The requests observed and the two counters: all but the log. -/
def traffic (a : Activity) : Array ByteRange × Nat × Nat :=
  (a.requests, a.reads, a.bytesRead)

/-- The activity after some requests. -/
def after (source : ByteSource) (a : Activity) (issued : List Request) : Activity :=
  issued.foldl (fun a q => ((q.issue source).outcome a).2) a

variable {source : ByteSource} {a b : Activity}

@[simp] theorem after_nil : a.after source [] = a := rfl

theorem requests_eq (h : a.traffic = b.traffic) : a.requests = b.requests :=
  congrArg Prod.fst h

theorem after_append (front back : List Request) :
    a.after source (front ++ back) = (a.after source front).after source back :=
  List.foldl_append

/-- What a request adds to the traffic does not depend on what was reported before. -/
theorem traffic_issue (q : Request) (h : a.traffic = b.traffic) :
    ((q.issue source).outcome a).2.traffic = ((q.issue source).outcome b).2.traffic := by
  simp only [traffic, Prod.mk.injEq] at h
  cases q with
  | readAt range =>
    simp only [SourceM.outcome, Request.issue, ByteSource.fetch, ExceptT.run_mk, h.1]
    split <;> simp [traffic, request, count, h]
  | readInto range =>
    simp only [SourceM.outcome, Request.issue, ByteSource.fetchExactly, ExceptT.run_mk, h.1]
    split <;> simp [traffic, request, count, h]

theorem traffic_after (issued : List Request) (h : a.traffic = b.traffic) :
    (a.after source issued).traffic = (b.after source issued).traffic := by
  induction issued generalizing a b with
  | nil => exact h
  | cons q issued ih => exact ih (traffic_issue q h)

/-- The requests observed are those issued. -/
theorem requests_after (issued : List Request) :
    (a.after source issued).requests.toList = a.requests.toList ++ issued.map Request.range := by
  induction issued generalizing a with
  | nil => simp
  | cons q issued ih =>
    show (((q.issue source).outcome a).2.after source issued).requests.toList = _
    rw [ih, Request.issue_requests]
    simp

/-- What was requested before two activities makes no difference to the answers from there on. -/
def AnsweredAlike (source : ByteSource) (a b : Activity) : Prop :=
  ∀ (more : List ByteRange) (q : Request),
    q.answer source (a.requests.toList ++ more) = q.answer source (b.requests.toList ++ more)

theorem AnsweredAlike.of_requests_eq (h : a.requests = b.requests) : AnsweredAlike source a b := by
  intro more q
  rw [h]

/-- No answer from memory depends on what was requested before. -/
theorem answeredAlike_memory (content : Bytes) (a b : Activity) :
    AnsweredAlike (.memory content) a b := by
  intro more q
  cases q <;> rfl

theorem AnsweredAlike.answer_eq (h : AnsweredAlike source a b) (q : Request) :
    q.answer source a.requests.toList = q.answer source b.requests.toList := by
  have hnow := h [] q
  rwa [List.append_nil, List.append_nil] at hnow

/-- The same requests after both change nothing of that. -/
theorem AnsweredAlike.after {a' b' : Activity} {issued : List Request}
    (h : AnsweredAlike source a b) (ha : a'.traffic = (a.after source issued).traffic)
    (hb : b'.traffic = (b.after source issued).traffic) : AnsweredAlike source a' b' := by
  intro more q
  rw [requests_eq ha, requests_eq hb, requests_after, requests_after, List.append_assoc,
    List.append_assoc]
  exact h _ q

end Activity

theorem SegmentStream.traffic_reportEmpty (s : SegmentStream) (requested : Nat) (a : Activity) :
    (s.reportEmpty requested a).2.traffic = a.traffic := by
  rw [reportEmpty]
  split <;> rfl

theorem Payload.traffic_reportEnd (payload : Payload) (limit : Nat) (a : Activity) :
    (payload.reportEnd limit a).2.traffic = a.traffic := by
  cases payload with
  | held bytes position => rfl
  | chain stream => exact stream.traffic_reportEmpty limit a

end Hyperslab
