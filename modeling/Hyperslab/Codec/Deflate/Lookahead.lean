import Hyperslab.Codec.Deflate.Inflater

/-!
# Lookahead

A decoder holds some bytes ahead of the bits that it takes, so that the next codes are there as a
whole. What is decoded does not depend on them. They only show where there is no more room: a byte
of a stored block that is held is decoded all the same, and one that is not held stays in the input.

Before each code or number the decoder compares the bits it holds with what may come. Where input
and room are plenty it holds enough for two symbols, or even for a symbol and a copy, and looks
again after them. Else it holds enough for one code.

## Main definitions

- `Pace`: what the bits held are enough for
- `Lookahead`: the bytes held and the pace
- `Lookahead.before`: the lookahead before a code or number
-/

namespace Hyperslab

/-- What the bits held are enough for. A pair of symbols is swift if the bits are enough for the
copy after it too. -/
inductive Pace where
  /-- One code or number. -/
  | single
  /-- Two symbols, the first one of which is next. -/
  | firstOfPair (swift : Bool)
  /-- Two symbols, the second one of which is next. -/
  | secondOfPair (swift : Bool)
  /-- What is left of a copy. -/
  | copy
deriving DecidableEq, Repr

/-- Whether the copy after the symbol is part of what the bits held are enough for. -/
def Pace.isSwift : Pace → Bool
  | single => false
  | firstOfPair swift => swift
  | secondOfPair swift => swift
  | copy => false

/-- What a decoder holds of the bytes at hand. -/
structure Lookahead where
  pace : Pace := .single
  /-- The number of bytes held after the one begun last. -/
  bytes : Nat := 0
deriving DecidableEq, Repr

namespace Lookahead

/-- The input that a swift pair needs: two codes and all of a copy, with what is held before. -/
def swiftInput : Nat := 14

/-- The room that a swift pair needs: for a byte and the longest copy. -/
def swiftRoom : Nat := 259

/-- The lookahead for one code, which is up to 15 bits long: two more bytes if fewer bits are
held. -/
def forCode (a : Lookahead) (held left : Nat) : Lookahead :=
  { pace := .single, bytes := if held < 15 ∧ 2 ≤ left then a.bytes + 2 else a.bytes }

/-- The lookahead for two codes: four more bytes if fewer bits than those are held. -/
def forPair (a : Lookahead) (pace : Pace) (held : Nat) : Lookahead :=
  { pace := pace, bytes := if held < 30 then a.bytes + 4 else a.bytes }

/-- The lookahead before a symbol that is no second one. -/
def forSymbol (a : Lookahead) (held left room : Nat) : Lookahead :=
  if left < 4 ∨ room < 2 then a.forCode held left
  else a.forPair (.firstOfPair (swiftInput ≤ left && swiftRoom ≤ room)) held

/-- The lookahead before a code or number, of which `held` bits are held. Besides these, `left`
bytes are at hand, and there is room for `room` bytes. What is held before a checksum is given
back. -/
def before (a : Lookahead) (phase : Phase) (held left room : Nat) : Lookahead :=
  match phase with
  | .symbol _ _ =>
    match a.pace with
    | .firstOfPair swift => { a with pace := .secondOfPair swift }
    | _ => a.forSymbol held left room
  | .lengthExtra _ _ _ =>
    if a.pace.isSwift then a.forPair .copy held else { a with pace := .single }
  | .distance _ _ _ =>
    if a.pace.isSwift then a.forPair .copy held
    else if a.pace = .copy then a
    else a.forCode held left
  | .distanceExtra _ _ _ _ =>
    if a.pace = .copy then a.forPair .copy held else { a with pace := .single }
  | .width _ _ _ _ => a.forCode held left
  | .checksum _ => {}
  | _ => { a with pace := .single }

end Lookahead

end Hyperslab
