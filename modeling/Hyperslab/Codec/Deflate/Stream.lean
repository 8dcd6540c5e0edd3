import Hyperslab.Codec.Decoder
import Hyperslab.Codec.Deflate.Lookahead

/-!
# Reading zlib streams

A zlib stream is decoded a window of 32768 bytes at a time, and one window after the other until a
read has what it wants. The decoder takes another piece of its payload whenever a read finds the
last one used up, and a window with a fault in it is not handed out. A payload may end before its
stream does. The read that decodes the last bits then hands out what it wants of their bytes, and no
read after it gets any.

## Main definitions

- `InflateStream.read`: some bytes of a zlib stream
- `Inflater.decode`: the bytes of a whole zlib stream
- `Decoder.inflater`: the decoder that runs
-/

namespace Hyperslab

structure InflateStream where
  payload : Payload
  machine : Inflater
  /-- The bits of the byte begun last that are not yet taken. -/
  bits : List Bool
  /-- The piece of the payload that is being decoded. -/
  piece : Bytes
  /-- The number of bytes of the piece that were begun. -/
  begun : Nat
  /-- The number of decoded bytes handed out. -/
  taken : Nat
  /-- The number of decoded bytes that may be handed out. -/
  released : Nat
  /-- Whether the payload was found to end before the stream. -/
  isCut : Bool

namespace InflateStream

/-- The number of bytes that are decoded ahead, and the largest piece of a payload. -/
def window : Nat := 32768

def ofPayload (payload : Payload) : InflateStream :=
  { payload := payload, machine := {}, bits := [], piece := #[], begun := 0, taken := 0,
    released := 0, isCut := false }

/-- Whether decoding pauses with `held` bits held: the machine takes no more bits, or it comes to a
byte beyond the first `limit` ones. Such a byte is known once it is decoded, or before it if it is a
stored one that is not held. -/
def isPaused (limit : Nat) (m : Inflater) (held : Nat) : Bool :=
  m.isStopped || limit < m.output.size ||
    limit = m.output.size && m.isAtStoredByte && held = 0

/-- Takes the bits left and the bytes from `begun` on until decoding pauses or nothing is at hand.
Gives the bits left and the number of bytes begun. The lookahead is brought up to date where that
is due. -/
def takeBits (limit : Nat) (piece : Bytes) (m : Inflater) (ahead : Lookahead) (due : Bool)
    (bits : List Bool) (begun : Nat) : Inflater × List Bool × Nat :=
  let held := bits.length + 8 * ahead.bytes
  if isPaused limit m held then (m, bits, begun)
  else
    let ahead :=
      if due then
        ahead.before m.phase (m.begunBits + held) (piece.size - begun - ahead.bytes)
          (limit - m.output.size)
      else ahead
    match bits with
    | bit :: bits =>
      let m := m.step bit
      -- the lookahead is due again where a code or number ends
      takeBits limit piece m ahead (m.begunBits = 0) bits begun
    | [] =>
      if h : begun < piece.size then
        takeBits limit piece m { ahead with bytes := ahead.bytes - 1 } false
          (Inflater.bitsOf piece[begun]) (begun + 1)
      else (m, [], begun)
termination_by (piece.size - begun, bits.length)

/-- Decodes up to the end of the window that the next byte is in. -/
def decode (s : InflateStream) : InflateStream :=
  let limit := (s.taken / window + 1) * window
  let { payload, machine, bits, piece, begun, taken, released := _, isCut } := s
  let (machine, bits, begun) := takeBits limit piece machine {} true bits begun
  -- the byte that shows the window to be full belongs to the next one
  let released := min machine.output.size limit
  { payload, machine, bits, piece, begun, taken, released, isCut }

/-- Hands out up to `limit` of the bytes that may be handed out. -/
def handOut (s : InflateStream) (limit : Nat) : Bytes × InflateStream :=
  let bytes := s.machine.output.extract s.taken (min (s.taken + limit) s.released)
  (bytes, { s with taken := s.taken + bytes.size })

/-- Up to `limit` bytes, decoding one window after the other until these bytes are there or the
piece is used up. -/
def serveDecoded (s : InflateStream) (limit : Nat) : Except DecodeError (Bytes × InflateStream) :=
  let s := s.decode
  if s.machine.isMalformed then .error .malformed
  else
    let (bytes, s) := s.handOut limit
    if bytes.size = 0 ∨ limit ≤ bytes.size ∨ s.piece.size ≤ s.begun ∨ s.machine.isFinished then
      .ok (bytes, s)
    else do
      let (more, s) ← s.serveDecoded (limit - bytes.size)
      pure (bytes ++ more, s)
termination_by limit

/-- Up to `limit` bytes from what is at hand, decoding where nothing may be handed out. -/
def serve (s : InflateStream) (limit : Nat) : Except DecodeError (Bytes × InflateStream) :=
  if s.taken < s.released then .ok (s.handOut limit) else s.serveDecoded limit

/-- Up to `limit` bytes after the end of the payload. What a stream that is cut short decodes of its
last bits is handed out by one read only. -/
def serveLast (s : InflateStream) (limit : Nat) : Except DecodeError (Bytes × InflateStream) :=
  if s.isCut then .error .incomplete
  else if s.taken < s.released then .ok (s.handOut limit)
  else do
    let (bytes, s) ← s.serve limit
    if s.machine.isFinished then pure (bytes, s)
    else if bytes.isEmpty then .error .incomplete
    else pure (bytes, { s with isCut := true })

/-- Up to `limit` bytes, after taking pieces of the payload until there are some. -/
def refill (source : ByteSource) (s : InflateStream) (limit : Nat) :
    SourceM DecodeError (Bytes × InflateStream) :=
  match _h : s.payload.next? window with
  | none => do
    let payload ← s.payload.reportEnd window
    ofExcept ({ s with payload := payload }.serveLast limit)
  | some (supply, payload) => do
    let piece ← (Payload.obtain source supply).mapError DecodeError.source
    let (bytes, s') ← ofExcept
      ({ s with payload := payload, piece := piece, begun := 0 }.serve limit)
    -- no byte would pass for the end of the stream, so the next piece is taken
    if bytes.isEmpty && !s'.machine.isFinished then
      refill source { s' with payload := payload } limit
    else pure (bytes, s')
termination_by s.payload.remaining
decreasing_by exact Payload.remaining_of_next? _h

/-- Up to `limit` bytes, none at the end of the stream. -/
def read (source : ByteSource) (s : InflateStream) (limit : Nat) :
    SourceM DecodeError (Bytes × InflateStream) :=
  if s.begun < s.piece.size then do
    let (bytes, s) ← ofExcept (s.serve limit)
    if bytes.isEmpty && !s.machine.isFinished then s.refill source limit else pure (bytes, s)
  else s.refill source limit

end InflateStream

/-- The bytes of a whole zlib stream, and its fault. -/
def Inflater.decode (encoded : Bytes) : Bytes × Option DecodeError :=
  let m := ({} : Inflater).run encoded
  (m.output,
    if m.isFinished then none else if m.isMalformed then some .malformed else some .incomplete)

/-- The decoder that runs. -/
instance Decoder.inflater : Decoder where
  Stream := InflateStream
  ofPayload := InflateStream.ofPayload
  read := fun source s limit => s.read source limit
  decode := Inflater.decode

end Hyperslab
