import Hyperslab.Codec.Decoder

/-!
# Decoded streams

The decoded bytes of a payload, handed out from front to back. Plain bytes are requested as they are
wanted. A zlib stream is left to the decoder.

## Main definitions

- `DecodedStream.read`: some bytes of any payload
- `DecodedStream.collect`: bytes up to a number or the end
- `DecodedStream.readExact`: a number of bytes
-/

namespace Hyperslab

variable [Decoder]

/-- The decoded bytes of a payload still to come. -/
inductive DecodedStream where
  | plain (payload : Payload)
  | inflating (stream : Decoder.Stream)

namespace DecodedStream

def ofPayload (codec : Codec) (payload : Payload) : DecodedStream :=
  match codec with
  | .plain => plain payload
  | .deflate => inflating (Decoder.ofPayload payload)

def read (source : ByteSource) (s : DecodedStream) (limit : Nat) :
    SourceM DecodeError (Bytes × DecodedStream) :=
  match s with
  | plain payload => do
    let (bytes, payload) ← (payload.pull source limit).mapError DecodeError.source
    pure (bytes, plain payload)
  | inflating stream => do
    let (bytes, stream) ← Decoder.read source stream limit
    pure (bytes, inflating stream)

/-- Up to `count` bytes put behind those held, fewer at the end of the stream. No read wants more
than `largest`, which becomes `growth` times as much once a read got all of it. -/
def collect (source : ByteSource) (growth largest : Nat) (s : DecodedStream) (count : Nat)
    (held : Bytes) : SourceM DecodeError (Bytes × DecodedStream) :=
  if count = 0 then pure (held, s)
  else do
    let wanted := min count largest
    let (bytes, s) ← s.read source wanted
    if bytes.size = 0 then pure (held, s)
    else
      collect source growth (largestAfter growth largest wanted bytes.size) s
        (count - bytes.size) (held ++ bytes)
termination_by count

def readExact (source : ByteSource) (s : DecodedStream) (count : Nat) :
    SourceM DecodeError (Bytes × DecodedStream) := do
  let (bytes, s) ← s.collect source 1 count count #[]
  if bytes.size < count then throw .exhausted
  pure (bytes, s)

/-- The largest read of bytes that are not kept. -/
def skipSize : Nat := 8192

/-- Passes up to `count` bytes and gives their number. -/
def skip (source : ByteSource) (s : DecodedStream) (count : Nat) :
    SourceM DecodeError (Nat × DecodedStream) := do
  let (bytes, s) ← s.collect source 1 skipSize count #[]
  pure (bytes.size, s)

/-- The bytes of exact reads of the given sizes, up to the first error. -/
def readExacts (source : ByteSource) (s : DecodedStream) :
    List Nat → StateM Activity (List (Except DecodeError Bytes))
  | [] => pure []
  | count :: counts => do
    match ← (s.readExact source count).attempt with
    | .error e => pure [.error e]
    | .ok (bytes, s) =>
      let rest ← readExacts source s counts
      pure (.ok bytes :: rest)

end DecodedStream

end Hyperslab
