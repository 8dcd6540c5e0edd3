import Hyperslab.Source.Basic

/-!
# Codecs

Stored bytes are plain or compressed. A codec is named by a number.
-/

namespace Hyperslab

abbrev CodecId := Nat

/-- The codecs that can be decoded. -/
inductive Codec where
  /-- The bytes themselves. -/
  | plain
  /-- A zlib stream. -/
  | deflate
deriving DecidableEq, Repr

/-- No codec has the given number. -/
structure UnsupportedCodec where
  id : CodecId
deriving DecidableEq, Repr

def UnsupportedCodec.message (e : UnsupportedCodec) : String :=
  s!"codec {e.id} is not supported"

/-- The ways in which decoding fails. -/
inductive DecodeError where
  | source (cause : StorageError)
  /-- The encoded bytes are no zlib stream. -/
  | malformed
  /-- The encoded bytes stop in the middle of a zlib stream. -/
  | incomplete
  /-- More bytes were wanted than the encoded bytes stand for. -/
  | exhausted
deriving DecidableEq, Repr

def DecodeError.message : DecodeError → String
  | .source cause => cause.message
  | .malformed => "corrupt deflate stream"
  | .incomplete => "incomplete deflate stream"
  | .exhausted => "failed to fill whole buffer"

namespace Codec

def id : Codec → CodecId
  | plain => 0
  | deflate => 4

def ofId (id : CodecId) : Except UnsupportedCodec Codec :=
  if id = plain.id then .ok plain
  else if id = deflate.id then .ok deflate
  else .error ⟨id⟩

@[simp] theorem ofId_id (codec : Codec) : ofId codec.id = .ok codec := by
  cases codec <;> rfl

end Codec

end Hyperslab
