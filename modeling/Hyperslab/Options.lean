/-!
# Read options

A read obeys three settings. The same three are kept once as defaults: options made without further
ado take the values that the defaults have at that moment, and are independent of them afterwards.
-/

namespace Hyperslab

structure ReadOptions where
  /-- The largest request that a segment chain makes on behalf of a decoder. -/
  segmentReadSize : Nat := 4096
  /-- The largest decoded length of a chunk or a stream. -/
  maxDecodedChunkSize : Nat := 1073741824
  /-- Whether direct reads that continue one another are joined into one request. -/
  coalesceDirectReads : Bool := true
  segmentReadSize_pos : 0 < segmentReadSize := by decide
deriving Repr

namespace ReadOptions

/-- Sets the segment read size, for which zero counts as one. -/
def withSegmentReadSize (o : ReadOptions) (n : Nat) : ReadOptions :=
  { o with segmentReadSize := max n 1, segmentReadSize_pos := by omega }

def withMaxDecodedChunkSize (o : ReadOptions) (n : Nat) : ReadOptions :=
  { o with maxDecodedChunkSize := n }

def withCoalesceDirectReads (o : ReadOptions) (b : Bool) : ReadOptions :=
  { o with coalesceDirectReads := b }

end ReadOptions

/-- A change of one setting. -/
inductive SettingChange where
  | segmentReadSize (n : Nat)
  | maxDecodedChunkSize (n : Nat)
  | coalesceDirectReads (b : Bool)
deriving DecidableEq, Repr

def SettingChange.apply (o : ReadOptions) : SettingChange → ReadOptions
  | .segmentReadSize n => o.withSegmentReadSize n
  | .maxDecodedChunkSize n => o.withMaxDecodedChunkSize n
  | .coalesceDirectReads b => o.withCoalesceDirectReads b

/-- A step in the life of the defaults and of some options. -/
inductive ConfigStep where
  /-- Changes a default. -/
  | setDefault (change : SettingChange)
  /-- Changes the options in place. -/
  | setOption (change : SettingChange)
  /-- Replaces the options by changed ones. -/
  | withOption (change : SettingChange)
  /-- Makes the options anew from the defaults. -/
  | renew
deriving DecidableEq, Repr

/-- The defaults and some options made from them. -/
structure Configuration where
  defaults : ReadOptions := {}
  options : ReadOptions := {}
deriving Repr

def Configuration.step (c : Configuration) : ConfigStep → Configuration
  | .setDefault change => { c with defaults := change.apply c.defaults }
  | .setOption change => { c with options := change.apply c.options }
  | .withOption change => { c with options := change.apply c.options }
  | .renew => { c with options := c.defaults }

end Hyperslab
