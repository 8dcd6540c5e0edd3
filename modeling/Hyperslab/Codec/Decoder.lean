import Hyperslab.Codec.Basic
import Hyperslab.Codec.Payload

/-!
# Decoders

How a zlib stream is taken apart is left open. A `Decoder` hands out the bytes of a payload from
front to back, in pieces of its own choosing, and says what a whole payload stands for. All reads
of compressed data are over some decoder.

## Main definitions

- `Decoder`: a way to decode zlib streams
- `Codec.decode`: the bytes that a whole payload stands for
-/

namespace Hyperslab

/-- A way to decode zlib streams. -/
class Decoder where
  /-- What is held of a zlib stream whose decoding has begun. -/
  Stream : Type
  ofPayload : Payload → Stream
  /-- Up to a number of bytes, none at the end of the stream. -/
  read : ByteSource → Stream → Nat → SourceM DecodeError (Bytes × Stream)
  /-- The bytes that a whole zlib stream stands for, whatever follows it, as far as it can be
  decoded, and the fault that ends it early. -/
  decode : Bytes → Bytes × Option DecodeError

namespace Codec

variable [Decoder]

/-- The bytes that a payload is decoded to, as far as it can be decoded. -/
def output (codec : Codec) (encoded : Bytes) : Bytes :=
  match codec with
  | plain => encoded
  | deflate => (Decoder.decode encoded).1

/-- What is wrong with a payload. -/
def fault? (codec : Codec) (encoded : Bytes) : Option DecodeError :=
  match codec with
  | plain => none
  | deflate => (Decoder.decode encoded).2

/-- The bytes that a whole payload stands for. -/
def decode (codec : Codec) (encoded : Bytes) : Except DecodeError Bytes :=
  match codec.fault? encoded with
  | none => .ok (codec.output encoded)
  | some fault => .error fault

end Codec

end Hyperslab
