import Hyperslab.Segment.Stream

/-!
# Payloads

The encoded bytes of a chunk or a stream on their way to a decoder: bytes already held, or a segment
chain from which they are requested piece by piece.
-/

namespace Hyperslab

/-- Encoded bytes still to be decoded. -/
inductive Payload where
  /-- The bytes of a string from a position on. -/
  | held (bytes : Bytes) (position : Nat)
  | chain (stream : SegmentStream)

/-- The next piece of a payload. -/
inductive Supply where
  | held (bytes : Bytes)
  | request (range : ByteRange)

namespace Payload

def remaining : Payload → Nat
  | held bytes position => bytes.size - position
  | chain stream => stream.remaining

/-- The next piece of up to `limit` bytes, with the payload after it. -/
def next? (limit : Nat) : Payload → Option (Supply × Payload)
  | held bytes position =>
    let n := min limit (bytes.size - position)
    if n = 0 then none
    else some (.held (bytes.extract position (position + n)), held bytes (position + n))
  | chain stream => (stream.next? limit).map fun (range, stream) => (.request range, chain stream)

/-- Reports that a payload has ended where a piece of up to `limit` bytes was wanted. -/
def reportEnd (limit : Nat) : Payload → StateM Activity Payload
  | held bytes position => pure (held bytes position)
  | chain stream => do
    let stream ← stream.reportEmpty limit
    pure (chain stream)

def obtain (source : ByteSource) : Supply → SourceM StorageError Bytes
  | .held bytes => pure bytes
  | .request range => source.fetchExactly range

/-- Up to `limit` bytes, none at the end of the payload. -/
def pull (source : ByteSource) (payload : Payload) (limit : Nat) :
    SourceM StorageError (Bytes × Payload) :=
  match payload.next? limit with
  | some (supply, payload) => do
    let bytes ← obtain source supply
    pure (bytes, payload)
  | none => do
    let payload ← payload.reportEnd limit
    pure (#[], payload)

theorem remaining_of_next? {payload payload' : Payload} {limit : Nat} {supply : Supply}
    (h : payload.next? limit = some (supply, payload')) :
    payload'.remaining < payload.remaining := by
  cases payload with
  | held bytes position =>
    simp only [next?] at h
    split at h
    · cases h
    · cases h
      simp only [remaining]
      omega
  | chain stream =>
    obtain ⟨⟨range, stream'⟩, hnext, heq⟩ := Option.map_eq_some_iff.1 h
    cases heq
    exact SegmentStream.remaining_of_next? hnext

end Payload

end Hyperslab
