/-!
# Canonical codes

A deflate block is written in codes of up to 15 bits. Only the width of each symbol's code is
stored: codes are given out in order of width, and in order of symbol within one width, each the
next path from the left of a binary tree.

## Main definitions

- `CodeTree`: a code as a tree, a symbol at the end of each path
- `CodeTree.ofWidths?`: the canonical code of some widths, if there is one
-/

namespace Hyperslab

/-- A code as a binary tree. -/
inductive CodeTree where
  /-- No code starts with this path. -/
  | empty
  | leaf (symbol : Nat)
  | node (zero one : CodeTree)
deriving DecidableEq, Repr

namespace CodeTree

/-- The part of the code that starts with the given bit. -/
def child (t : CodeTree) (bit : Bool) : CodeTree :=
  match t with
  | node zero one => if bit then one else zero
  | _ => empty

/-- Whether every path ends in a symbol. -/
def isComplete : CodeTree → Bool
  | empty => false
  | leaf _ => true
  | node zero one => zero.isComplete && one.isComplete

/-- The widest code that a block may use. -/
def maxWidth : Nat := 15

/-- The used symbols with the width of their codes, narrow codes first. -/
def ordered (widths : List Nat) : List (Nat × Nat) :=
  (List.range' 1 maxWidth).flatMap fun w => widths.zipIdx.filter fun (width, _) => width = w

/-- The tree below a path of `depth` bits that takes its symbols from the front of the list, with
the symbols it leaves. -/
def grow : Nat → Nat → List (Nat × Nat) → CodeTree × List (Nat × Nat)
  | _, _, [] => (empty, [])
  | levels, depth, (width, symbol) :: rest =>
    if width = depth then (leaf symbol, rest)
    else
      match levels with
      | 0 => (empty, (width, symbol) :: rest)
      | levels + 1 =>
        -- symbols are ordered by width, so the zero branch takes the ones that come first
        let (zero, left) := grow levels (depth + 1) ((width, symbol) :: rest)
        let (one, left) := grow levels (depth + 1) left
        (node zero one, left)

/-- Whether a code for these symbols may leave paths over: it has none at all, or a single one of
width one. -/
def mayLeavePaths (symbols : List (Nat × Nat)) : Bool :=
  match symbols with
  | [] => true
  | [(width, _)] => width = 1
  | _ => false

/-- The canonical code whose widths are given symbol by symbol, a width of zero marking a symbol
that is not used. There is none if the paths run out. Paths are left over only where that is
`lenient`, and only by a code for no symbol or one of a single bit for one symbol. -/
def ofWidths? (lenient : Bool) (widths : List Nat) : Option CodeTree :=
  let symbols := ordered widths
  let (tree, left) := grow maxWidth 0 symbols
  if left.isEmpty && (tree.isComplete || lenient && mayLeavePaths symbols) then some tree else none

end CodeTree

end Hyperslab
