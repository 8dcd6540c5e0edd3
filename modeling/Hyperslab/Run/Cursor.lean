import Hyperslab.Run.Basic

/-!
# Cursors over runs

A cursor hands out the runs of a selection from both ends. It holds the numbers of the runs that
are still to come, so what was taken from one end never comes back at the other.
-/

namespace Hyperslab

/-- The runs numbered from `front` up to `back`, which are still to be handed out. -/
structure RunCursor where
  runs : Runs
  front : Nat
  back : Nat
deriving DecidableEq, Repr

namespace RunCursor

def ofRuns (runs : Runs) : RunCursor :=
  { runs := runs, front := 0, back := runs.numRuns }

def remaining (c : RunCursor) : Nat :=
  c.back - c.front

def toList (c : RunCursor) : List Run :=
  (List.range' c.front c.remaining).map c.runs.run

def next (c : RunCursor) : Option Run × RunCursor :=
  if c.front < c.back then
    (some (c.runs.run c.front), { c with front := c.front + 1 })
  else (none, c)

/-- Takes the last run. -/
def nextBack (c : RunCursor) : Option Run × RunCursor :=
  if c.front < c.back then
    (some (c.runs.run (c.back - 1)), { c with back := c.back - 1 })
  else (none, c)

/-- A lower and an upper bound of the number of runs still to come. Both are exact. -/
def sizeHint (c : RunCursor) : Nat × Nat :=
  (c.remaining, c.remaining)

end RunCursor

end Hyperslab
