import Hyperslab.Codec.Deflate.Checksum
import Hyperslab.Codec.Deflate.Phase

/-!
# The inflater

A zlib stream is decoded bit by bit. The inflater collects the bits that its phase asks for, the
first one lowest, and their value decides what comes next. It stops and goes on anywhere, and its
state after some bytes is a fold over them, so nothing depends on how the bytes arrive.

Copies may reach back before the first byte, where they find zeros. A stream that is not one stays
`Phase.malformed`, and what comes after the checksum is ignored.

## Main definitions

- `Inflater.step`: takes one bit
- `Inflater.run`: takes whole bytes
-/

namespace Hyperslab

/-- The state of a decoder of a zlib stream. -/
structure Inflater where
  phase : Phase := .header
  /-- Whether the present block is the last one. -/
  isFinal : Bool := false
  /-- The value of the bits collected for the phase. -/
  field : Nat := 0
  /-- The number of bits collected for the phase. -/
  fieldBits : Nat := 0
  /-- The number of bits taken of a code that goes on. -/
  codeBits : Nat := 0
  bitsTaken : Nat := 0
  output : Bytes := #[]

namespace Inflater

/-- The inflater before a code or number. -/
def enter (m : Inflater) (phase : Phase) : Inflater :=
  { m with phase := phase, codeBits := 0 }

/-- The inflater inside of a code. -/
def descend (m : Inflater) (phase : Phase) : Inflater :=
  { m with phase := phase, codeBits := m.codeBits + 1 }

/-- The number of bits that fill up the byte begun last. -/
def padding (m : Inflater) : Nat :=
  (8 - m.bitsTaken % 8) % 8

/-- The inflater after the end of a block. -/
def endBlock (m : Inflater) : Inflater :=
  if m.isFinal then m.enter (.checksum m.padding) else m.enter .blockHeader

def push (m : Inflater) (byte : UInt8) : Inflater :=
  { m with output := m.output.push byte }

/-- The bytes with `length` more, each the one `distance` places before it. -/
def copyBack (output : Bytes) (distance length : Nat) : Bytes :=
  -- a copy longer than its distance repeats bytes that it has put there itself
  Nat.fold length
    (fun _ _ out => out.push (if distance ≤ out.size then out.getD (out.size - distance) 0 else 0))
    output

def copy (m : Inflater) (codes : BlockCodes) (distance length : Nat) : Inflater :=
  { m with output := copyBack m.output distance length }.enter (.symbol codes codes.literals)

/-- Reads the first two bytes: the method, the window, the check of both and no dictionary. -/
def takeHeader (m : Inflater) (value : Nat) : Inflater :=
  let method := value % 256
  let flags := value / 256
  if (method * 256 + flags) % 31 = 0 ∧ method % 16 = 8 ∧ method / 16 ≤ 7 ∧ flags / 32 % 2 = 0 then
    m.enter .blockHeader
  else m.enter .malformed

/-- Reads whether a block is the last one and of which kind it is. -/
def takeBlockHeader (m : Inflater) (value : Nat) : Inflater :=
  let m := { m with isFinal := value % 2 = 1 }
  match value / 2 with
  | 0 => m.enter (.storedLength m.padding)
  | 1 => m.enter (.symbol fixedCodes fixedCodes.literals)
  | 2 => m.enter .codeSizes
  | _ => m.enter .malformed

def takeStoredLength (m : Inflater) (value : Nat) : Inflater :=
  let length := value % 65536
  -- the upper half repeats the length with all bits turned
  if length + value / 65536 ≠ 65535 then m.enter .malformed
  else if length = 0 then m.endBlock
  else m.enter (.storedByte length)

def takeStoredByte (m : Inflater) (left value : Nat) : Inflater :=
  let m := m.push (UInt8.ofNat value)
  if left ≤ 1 then m.endBlock else m.enter (.storedByte (left - 1))

def takeCodeSizes (m : Inflater) (value : Nat) : Inflater :=
  let sizes : CodeSizes :=
    { literals := value % 32 + 257
      distances := value / 32 % 32 + 1
      widths := value / 1024 + 4 }
  if sizes.literals ≤ 286 ∧ sizes.distances ≤ 30 then m.enter (.widthWidth sizes [])
  else m.enter .malformed

/-- Reads a width of the code for widths. -/
def takeWidthWidth (m : Inflater) (sizes : CodeSizes) (widths : List Nat) (value : Nat) :
    Inflater :=
  let widths := widths ++ [value]
  if widths.length < sizes.widths then m.enter (.widthWidth sizes widths)
  else
    match CodeTree.ofWidths? false (widthWidths widths) with
    | some code => m.enter (.width sizes code code #[])
    | none => m.enter .malformed

/-- Adds a width some times over, and starts the block after the last one. -/
def addWidths (m : Inflater) (sizes : CodeSizes) (code : CodeTree) (widths : Array Nat)
    (value times : Nat) : Inflater :=
  let widths := widths ++ Array.replicate times value
  let total := sizes.literals + sizes.distances
  if widths.size < total then m.enter (.width sizes code code widths)
  else if widths.size = total then
    -- both codes are given as one list, so a repetition may run from one into the other
    let given := widths.toList
    match CodeTree.ofWidths? true (given.take sizes.literals),
        CodeTree.ofWidths? true (given.drop sizes.literals) with
    | some literals, some distances =>
      m.enter (.symbol { literals := literals, distances := distances } literals)
    | _, _ => m.enter .malformed
  else m.enter .malformed

/-- Reads a bit of a coded width. -/
def takeWidth (m : Inflater) (sizes : CodeSizes) (code subtree : CodeTree) (widths : Array Nat) :
    Inflater :=
  match subtree with
  | .empty => m.enter .malformed
  | .node _ _ => m.descend (.width sizes code subtree widths)
  | .leaf symbol =>
    if symbol < 16 then m.addWidths sizes code widths symbol 1
    else if symbol = 16 then
      match widths.back? with
      | some last => m.enter (.widthRepeat sizes code widths last 3 2)
      | none => m.enter .malformed
    else if symbol = 17 then m.enter (.widthRepeat sizes code widths 0 3 3)
    else m.enter (.widthRepeat sizes code widths 0 11 7)

def beginDistance (m : Inflater) (codes : BlockCodes) (length : Nat) : Inflater :=
  m.enter (.distance codes length codes.distances)

/-- Reads a bit of a byte, a length or the end of the block. -/
def takeSymbol (m : Inflater) (codes : BlockCodes) (subtree : CodeTree) : Inflater :=
  match subtree with
  | .empty => m.enter .malformed
  | .node _ _ => m.descend (.symbol codes subtree)
  | .leaf symbol =>
    if symbol < 256 then (m.push (UInt8.ofNat symbol)).enter (.symbol codes codes.literals)
    else if symbol = 256 then m.endBlock
    else
      match lengthTable[symbol - 257]? with
      | some (base, 0) => m.beginDistance codes base
      | some (base, extra) => m.enter (.lengthExtra codes base extra)
      | none => m.enter .malformed

/-- Reads a bit of the distance of a copy. -/
def takeDistance (m : Inflater) (codes : BlockCodes) (length : Nat) (subtree : CodeTree) :
    Inflater :=
  match subtree with
  | .empty => m.enter .malformed
  | .node _ _ => m.descend (.distance codes length subtree)
  | .leaf symbol =>
    match distanceTable[symbol]? with
    | some (base, 0) => m.copy codes base length
    | some (base, extra) => m.enter (.distanceExtra codes length base extra)
    | none => m.enter .malformed

/-- Reads the checksum, whose first byte is its highest. -/
def takeChecksum (m : Inflater) (value : Nat) : Inflater :=
  let sum :=
    value % 256 * 16777216 + value / 256 % 256 * 65536 + value / 65536 % 256 * 256 +
      value / 16777216
  if sum = adler32 m.output then m.enter .finished else m.enter .malformed

/-- Takes the value of all bits that the phase asked for. -/
def take (m : Inflater) (value : Nat) : Inflater :=
  match m.phase with
  | .header => m.takeHeader value
  | .blockHeader => m.takeBlockHeader value
  | .storedLength padding => m.takeStoredLength (value >>> padding)
  | .storedByte left => m.takeStoredByte left value
  | .codeSizes => m.takeCodeSizes value
  | .widthWidth sizes widths => m.takeWidthWidth sizes widths value
  | .width sizes code subtree widths => m.takeWidth sizes code (subtree.child (value = 1)) widths
  | .widthRepeat sizes code widths repeated base _ =>
    m.addWidths sizes code widths repeated (base + value)
  | .symbol codes subtree => m.takeSymbol codes (subtree.child (value = 1))
  | .lengthExtra codes base _ => m.beginDistance codes (base + value)
  | .distance codes length subtree => m.takeDistance codes length (subtree.child (value = 1))
  | .distanceExtra codes length base _ => m.copy codes (base + value) length
  | .checksum padding => m.takeChecksum (value >>> padding)
  | .finished => m
  | .malformed => m

/-- Whether the inflater takes no more bits. -/
def isStopped (m : Inflater) : Bool :=
  m.phase.bits = 0

def step (m : Inflater) (bit : Bool) : Inflater :=
  let wanted := m.phase.bits
  if wanted = 0 then m
  else
    let value := if bit then m.field + 1 <<< m.fieldBits else m.field
    let collected := m.fieldBits + 1
    -- the phase is told the value once all of its bits are there
    if collected < wanted then
      { m with field := value, fieldBits := collected, bitsTaken := m.bitsTaken + 1 }
    else
      { m with field := 0, fieldBits := 0, bitsTaken := m.bitsTaken + 1 }.take value

/-- The bits of a byte, the lowest first. -/
def bitsOf (byte : UInt8) : List Bool :=
  (List.range 8).map byte.toNat.testBit

def stepByte (m : Inflater) (byte : UInt8) : Inflater :=
  (bitsOf byte).foldl step m

def run (m : Inflater) (bytes : Bytes) : Inflater :=
  bytes.foldl stepByte m

/-- The number of bits taken of the code or number that comes. -/
def begunBits (m : Inflater) : Nat :=
  m.fieldBits + m.codeBits

/-- Whether the next bit is the first one of a stored byte. -/
def isAtStoredByte (m : Inflater) : Bool :=
  match m.phase with
  | .storedByte _ => m.fieldBits = 0
  | _ => false

def isFinished (m : Inflater) : Bool :=
  match m.phase with
  | .finished => true
  | _ => false

/-- Whether the bits are no zlib stream. -/
def isMalformed (m : Inflater) : Bool :=
  match m.phase with
  | .malformed => true
  | _ => false

end Inflater

end Hyperslab
