import Hyperslab.Codec.Deflate.Code

/-!
# Phases of a zlib stream

A zlib stream is a string of bits. The phase of a decoder says what the next bits mean and how many
of them belong together. This module also holds the numbers that the format fixes: the order of
the widths in a block header, the codes of blocks that bring none, and the lengths and distances
that symbols stand for.
-/

namespace Hyperslab

/-- The two codes of a compressed block: one for bytes and lengths, one for distances. -/
structure BlockCodes where
  literals : CodeTree
  distances : CodeTree

/-- The number of widths that the header of a block gives for each of its codes. -/
structure CodeSizes where
  literals : Nat
  distances : Nat
  /-- The number of widths of the code that the other widths are written in. -/
  widths : Nat

/-- What the next bits of a zlib stream mean. -/
inductive Phase where
  /-- The two bytes before the first block. -/
  | header
  | blockHeader
  /-- The length of a stored block and its complement, after bits that fill up a byte. -/
  | storedLength (padding : Nat)
  /-- A byte of a stored block that has `left` bytes to come. -/
  | storedByte (left : Nat)
  | codeSizes
  /-- A width of the code for widths, after those given. -/
  | widthWidth (sizes : CodeSizes) (widths : List Nat)
  /-- A bit of a coded width. -/
  | width (sizes : CodeSizes) (code subtree : CodeTree) (widths : Array Nat)
  /-- How often more than `base` times a width is repeated. -/
  | widthRepeat (sizes : CodeSizes) (code : CodeTree) (widths : Array Nat) (value base extra : Nat)
  /-- A bit of a byte, a length or the end of the block. -/
  | symbol (codes : BlockCodes) (subtree : CodeTree)
  /-- How much longer than `base` a copy is. -/
  | lengthExtra (codes : BlockCodes) (base extra : Nat)
  /-- A bit of the distance of a copy. -/
  | distance (codes : BlockCodes) (length : Nat) (subtree : CodeTree)
  /-- How much farther away than `base` a copy starts. -/
  | distanceExtra (codes : BlockCodes) (length base extra : Nat)
  /-- The checksum, after bits that fill up a byte. -/
  | checksum (padding : Nat)
  | finished
  /-- The bits are no zlib stream. -/
  | malformed

namespace Phase

/-- The number of bits that a phase asks for, zero where it takes no more. -/
def bits : Phase → Nat
  | header => 16
  | blockHeader => 3
  | storedLength padding => padding + 32
  | storedByte _ => 8
  | codeSizes => 14
  | widthWidth _ _ => 3
  | width _ _ _ _ => 1
  | widthRepeat _ _ _ _ _ extra => extra
  | symbol _ _ => 1
  | lengthExtra _ _ extra => extra
  | distance _ _ _ => 1
  | distanceExtra _ _ _ extra => extra
  | checksum padding => padding + 32
  | finished => 0
  | malformed => 0

end Phase

/-- The symbols of the code for widths in the order in which a block header gives theirs. -/
def widthOrder : List Nat :=
  [16, 17, 18, 0, 8, 7, 9, 6, 10, 5, 11, 4, 12, 3, 13, 2, 14, 1, 15]

/-- The widths of the code for widths, symbol by symbol. -/
def widthWidths (given : List Nat) : List Nat :=
  (List.range 19).map fun symbol => ((widthOrder.zip given).lookup symbol).getD 0

/-- The codes of a block that brings none. -/
def fixedCodes : BlockCodes :=
  let literals :=
    List.replicate 144 8 ++ List.replicate 112 9 ++ List.replicate 24 7 ++ List.replicate 8 8
  { literals := (CodeTree.ofWidths? true literals).getD .empty
    distances := (CodeTree.ofWidths? true (List.replicate 32 5)).getD .empty }

/-- The shortest copy that each length symbol stands for, with the number of bits that are added
to it. The first symbol is 257. -/
def lengthTable : Array (Nat × Nat) :=
  #[(3, 0), (4, 0), (5, 0), (6, 0), (7, 0), (8, 0), (9, 0), (10, 0), (11, 1), (13, 1), (15, 1),
    (17, 1), (19, 2), (23, 2), (27, 2), (31, 2), (35, 3), (43, 3), (51, 3), (59, 3), (67, 4),
    (83, 4), (99, 4), (115, 4), (131, 5), (163, 5), (195, 5), (227, 5), (258, 0)]

/-- The nearest place that each distance symbol stands for, with the number of bits that are added
to it. -/
def distanceTable : Array (Nat × Nat) :=
  #[(1, 0), (2, 0), (3, 0), (4, 0), (5, 1), (7, 1), (9, 2), (13, 2), (17, 3), (25, 3), (33, 4),
    (49, 4), (65, 5), (97, 5), (129, 6), (193, 6), (257, 7), (385, 7), (513, 8), (769, 8),
    (1025, 9), (1537, 9), (2049, 10), (3073, 10), (4097, 11), (6145, 11), (8193, 12), (12289, 12),
    (16385, 13), (24577, 13)]

end Hyperslab
