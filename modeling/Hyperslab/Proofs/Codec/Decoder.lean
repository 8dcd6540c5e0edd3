import Hyperslab.Codec.Decoder
import Hyperslab.Proofs.Codec.Payload

/-!
# The laws of decoders

What reads of compressed data rely on in a decoder. However its reads cut a zlib stream up, and
whatever activity they are made in, they hand out the bytes that the payload stands for from front
to back. No bytes come only once all were handed out, and a read fails only over a payload that has
a fault. Nothing is said of the requests that a decoder makes.

## Main definitions

- `Decoder.HandedOut`: the bytes that reads of a stream have handed out
- `LawfulDecoder`: what reads rely on

## Main statements

- `LawfulDecoder.ends_read`: the next bytes of a stream, or a failure over a fault
-/

namespace Hyperslab

variable [Decoder]

/-- Reads over a payload lead to the stream, and have handed out the given bytes. The payload is in
the content, stands for the encoded bytes and is served to each read. -/
inductive Decoder.HandedOut (content encoded : Bytes) : Decoder.Stream → Bytes → Prop where
  | start {payload : Payload} (hwithin : payload.Within content)
      (hbytes : payload.bytes content = encoded) :
      HandedOut content encoded (Decoder.ofPayload payload) #[]
  | read {s s' : Decoder.Stream} {front bytes : Bytes} {source : ByteSource} {limit : Nat}
      {a a' : Activity} (h : HandedOut content encoded s front) (hserves : source.Serves content)
      (hlimit : 0 < limit)
      (hread : (Decoder.read source s limit).outcome a = (.ok (bytes, s'), a')) :
      HandedOut content encoded s' (front ++ bytes)

/-- What reads rely on in a decoder. -/
class LawfulDecoder : Prop where
  /-- A read hands out no more bytes than are wanted, whatever the source answers. -/
  size_le (source : ByteSource) (s : Decoder.Stream) (limit : Nat) :
    SourceM.Meets (Decoder.read source s limit) (fun r => r.1.size ≤ limit) fun _ => True
  /-- The bytes handed out are the first ones of those that the payload stands for. -/
  in_order {content encoded front : Bytes} {s : Decoder.Stream}
    (h : Decoder.HandedOut content encoded s front) :
    ∃ back, (Decoder.decode encoded).1 = front ++ back
  /-- A read hands out no bytes only at the end of a payload without a fault. -/
  ended {content encoded front bytes : Bytes} {s s' : Decoder.Stream} {source : ByteSource}
    {limit : Nat} {a a' : Activity} (h : Decoder.HandedOut content encoded s front)
    (hserves : source.Serves content) (hlimit : 0 < limit)
    (hread : (Decoder.read source s limit).outcome a = (.ok (bytes, s'), a'))
    (hnone : bytes.size = 0) : Decoder.decode encoded = (front, none)
  /-- A read fails only over a payload with a fault. -/
  failed {content encoded front : Bytes} {s : Decoder.Stream} {source : ByteSource} {limit : Nat}
    {a a' : Activity} {e : DecodeError} (h : Decoder.HandedOut content encoded s front)
    (hserves : source.Serves content) (hlimit : 0 < limit)
    (hread : (Decoder.read source s limit).outcome a = (.error e, a')) :
    (e = .malformed ∨ e = .incomplete) ∧ (Decoder.decode encoded).2 ≠ none

/-- A read of a lawful decoder hands out the next bytes, none only at the end of a payload without a
fault, or fails over one with a fault. -/
theorem LawfulDecoder.ends_read [LawfulDecoder] {content encoded front : Bytes}
    {s : Decoder.Stream} {source : ByteSource} {limit : Nat}
    (h : Decoder.HandedOut content encoded s front) (hserves : source.Serves content)
    (hlimit : 0 < limit) (a : Activity) :
    SourceM.Ends (Decoder.read source s limit) a
      (fun r _ => Decoder.HandedOut content encoded r.2 (front ++ r.1) ∧ r.1.size ≤ limit ∧
        (r.1.size = 0 → Decoder.decode encoded = (front, none)))
      (fun e _ => (e = .malformed ∨ e = .incomplete) ∧ (Decoder.decode encoded).2 ≠ none) := by
  unfold SourceM.Ends
  split
  · rename_i r a' hread
    exact ⟨h.read hserves hlimit hread, (size_le source s limit a).of_ok hread,
      ended h hserves hlimit hread⟩
  · rename_i e a' hread
    exact failed h hserves hlimit hread

end Hyperslab
