import Hyperslab.Options
import Hyperslab.Source.Activity

/-!
# Segment streams

A chain of segments is read as one string of bytes, from front to back. The stream keeps what is
left of the chain; segments without bytes never show. Reading a chain that has segments but no byte
is reported once.

## Main definitions

- `SegmentStream.read`, `SegmentStream.readInto`: bytes from the front, across segments
- `SegmentStream.skip`: moves on without a request
- `SegmentStream.pull`: at most one request, for a decoder
- `SegmentStream.readToEnd`: all that is left, by pulls
-/

namespace Hyperslab

/-- A chain of segments with a position in it. -/
structure SegmentStream where
  /-- What is left of the chain. -/
  left : List ByteRange
  /-- The number of segments of the whole chain. -/
  segments : Nat
  /-- The number of bytes of the whole chain, at most the largest offset. -/
  length : Nat
  /-- The number of bytes passed. -/
  position : Nat
  /-- The largest request of a pull. -/
  readSize : Nat
  /-- Whether the lack of bytes was reported. -/
  warned : Bool
  readSize_pos : 0 < readSize
deriving Repr

/-- The largest read at first when all bytes of a stream are collected. -/
def firstLargest : Nat := 8192

/-- The largest read after one that wanted `wanted` bytes and got `got`: `growth` times as large
once a read of the largest size was answered in full. -/
def largestAfter (growth largest wanted got : Nat) : Nat :=
  if largest ≤ wanted ∧ got = wanted then growth * largest else largest

/-- What a walk along a chain came to. -/
structure ChainWalk where
  bytes : Bytes
  /-- The number of bytes passed. -/
  passed : Nat
  left : List ByteRange

namespace SegmentStream

/-- A stream at the start of a chain. -/
def ofChain (chain : List ByteRange) (options : ReadOptions) : SegmentStream :=
  { left := chain
    segments := chain.length
    length := Offset.clamped (chainLength chain)
    position := 0
    readSize := options.segmentReadSize
    warned := false
    readSize_pos := options.segmentReadSize_pos }

def remaining (s : SegmentStream) : Nat :=
  chainLength s.left

/-- Passes up to `count` bytes of a chain, asking for the part of each segment at once. -/
def walk (ask : ByteRange → SourceM StorageError Bytes) :
    List ByteRange → Nat → ChainWalk → StateM Activity (Except StorageError Unit × ChainWalk)
  | [], _, w => pure (.ok (), { w with left := [] })
  | segment :: rest, count, w =>
    if count = 0 then pure (.ok (), { w with left := segment :: rest })
    else if segment.length = 0 then walk ask rest count w
    else do
      let piece := segment.take count
      -- a failed request leaves the stream before its segment, what came earlier is passed
      match ← (ask piece).attempt with
      | .error e => pure (.error e, { w with left := segment :: rest })
      | .ok bytes =>
        let w := { w with bytes := w.bytes ++ bytes, passed := w.passed + piece.length }
        if segment.length ≤ count then walk ask rest (count - segment.length) w
        else pure (.ok (), { w with left := segment.drop count :: rest })

/-- The stream after a walk. -/
def after (s : SegmentStream) (w : ChainWalk) : SegmentStream :=
  { s with left := w.left, position := s.position + w.passed }

/-- Reports, once, that bytes were asked of a chain that has segments and no byte. -/
def reportEmpty (s : SegmentStream) (requested : Nat) : StateM Activity SegmentStream := do
  if 0 < requested ∧ s.length = 0 ∧ s.segments ≠ 0 ∧ s.warned = false then
    modify fun a => { a with log := a.log.push (.emptyChain s.segments) }
    pure { s with warned := true }
  else pure s

/-- Up to `count` bytes by one of the two ways to ask. -/
def readBy (ask : ByteRange → SourceM StorageError Bytes) (s : SegmentStream) (count : Nat) :
    StateM Activity (Except StorageError Bytes × SegmentStream) := do
  let (result, w) ← walk ask s.left count { bytes := #[], passed := 0, left := [] }
  let s := s.after w
  match result with
  | .error e => pure (.error e, s)
  | .ok () =>
    let s ← if w.passed = 0 then s.reportEmpty count else pure s
    pure (.ok w.bytes, s)

/-- Up to `count` bytes, fewer at the end of the stream. -/
def read (source : ByteSource) (s : SegmentStream) (count : Nat) :
    StateM Activity (Except StorageError Bytes × SegmentStream) :=
  s.readBy source.fetch count

/-- The bytes for the front of a destination of `size` bytes, all of it unless the stream
ends. -/
def readInto (source : ByteSource) (s : SegmentStream) (size : Nat) :
    StateM Activity (Except StorageError Bytes × SegmentStream) :=
  s.readBy source.fetchExactly size

/-- Passes up to `count` bytes of a chain without asking for them. -/
def walkPast : List ByteRange → Nat → Nat × List ByteRange
  | [], _ => (0, [])
  | segment :: rest, count =>
    if count < segment.length then (count, segment.drop count :: rest)
    else
      let (passed, left) := walkPast rest (count - segment.length)
      (segment.length + passed, left)

/-- Passes up to `count` bytes without a request, and gives their number. -/
def skip (s : SegmentStream) (count : Nat) : Nat × SegmentStream :=
  let (passed, left) := walkPast s.left count
  (passed, { s with left := left, position := s.position + passed })

/-- The chain from its first byte on. -/
def trim : List ByteRange → List ByteRange
  | [] => []
  | segment :: rest => if segment.length = 0 then trim rest else segment :: rest

/-- The range that the next pull of up to `limit` bytes asks for, with the stream after it. -/
def next? (s : SegmentStream) (limit : Nat) : Option (ByteRange × SegmentStream) :=
  match trim s.left with
  | [] => none
  | segment :: rest =>
    -- a pull never crosses the end of a segment
    let n := min (min segment.length s.readSize) limit
    if n = 0 then none
    else
      some (segment.take n, { s with left := segment.drop n :: rest, position := s.position + n })

/-- Up to `limit` bytes by at most one request, none at the end of the stream. -/
def pull (source : ByteSource) (s : SegmentStream) (limit : Nat) :
    SourceM StorageError (Bytes × SegmentStream) :=
  match s.next? limit with
  | some (range, s') => do
    let bytes ← source.fetchExactly range
    pure (bytes, s')
  | none => do
    let s ← s.reportEmpty limit
    pure (#[], s)

theorem chainLength_trim (chain : List ByteRange) :
    chainLength (trim chain) = chainLength chain := by
  induction chain with
  | nil => rfl
  | cons segment rest ih =>
    rw [trim]
    split
    · rw [ih, chainLength_cons]
      omega
    · rfl

/-- A pull leaves less of the chain. -/
theorem remaining_of_next? {s s' : SegmentStream} {limit : Nat} {range : ByteRange}
    (h : s.next? limit = some (range, s')) : s'.remaining < s.remaining := by
  unfold next? at h
  split at h
  · cases h
  · rename_i segment rest htrim
    dsimp only at h
    split at h
    · cases h
    · rename_i hn
      cases h
      have hlen := chainLength_trim s.left
      rw [htrim, chainLength_cons] at hlen
      simp only [remaining, chainLength_cons, ByteRange.drop]
      omega

/-- The least room of a store that is read into. -/
def leastRoom : Nat := 32

/-- The capacity of a store that holds `held` bytes: at least twice as large as before, where there
was less than the least room. -/
def capacityFor (held capacity : Nat) : Nat :=
  if capacity - held < leastRoom then max (2 * capacity) (held + leastRoom) else capacity

/-- All bytes still to come, put behind those held in a store that grows as it fills, by pulls of at
most `largest` bytes. -/
def readToEndFrom (source : ByteSource) (s : SegmentStream) (held : Bytes)
    (capacity largest : Nat) : StateM Activity (Except StorageError Bytes × SegmentStream) :=
  let capacity := capacityFor held.size capacity
  let limit := min (capacity - held.size) largest
  match _h : s.next? limit with
  | none => do
    let s ← s.reportEmpty limit
    pure (.ok held, s)
  | some (range, s') => do
    match ← (source.fetchExactly range).attempt with
    | .error e => pure (.error e, s)
    | .ok bytes =>
      -- the store is made for the bytes that come first
      let capacity := if held.isEmpty then bytes.size else capacity
      readToEndFrom source s' (held ++ bytes) capacity
        (largestAfter 2 largest limit bytes.size)
termination_by s.remaining
decreasing_by exact remaining_of_next? _h

/-- All bytes still to come. -/
def readToEnd (source : ByteSource) (s : SegmentStream) :
    StateM Activity (Except StorageError Bytes × SegmentStream) :=
  s.readToEndFrom source #[] 0 firstLargest

end SegmentStream

end Hyperslab
