import Hyperslab.Log
import Hyperslab.Source.Basic

/-!
# Observed requests

Reads of a byte source are observed: the requests in order, the two counters of a metered source
and the events reported on the way. `SourceM` is the monad of computations that issue requests.
What was observed up to an error is kept.
-/

namespace Hyperslab

/-- What was observed of a byte source. -/
structure Activity where
  /-- Every request, failed ones included. -/
  requests : Array ByteRange := #[]
  /-- The reads counted: every `readAt`, and every `readInto` that succeeded. -/
  reads : Nat := 0
  /-- The number of bytes that reads gave. -/
  bytesRead : Nat := 0
  /-- The events reported. -/
  log : Array LogEvent := #[]
deriving DecidableEq, Repr

/-- Computations that issue requests and may fail. -/
abbrev SourceM (ε : Type) := ExceptT ε (StateM Activity)

namespace SourceM

variable {ε ε' α : Type}

def report (event : LogEvent) : SourceM ε Unit :=
  modify fun a => { a with log := a.log.push event }

/-- The computation with its errors replaced. -/
def mapError (f : ε → ε') (x : SourceM ε α) : SourceM ε' α :=
  ExceptT.adapt f x

/-- The computation with its error as part of its value. -/
def attempt (x : SourceM ε α) : StateM Activity (Except ε α) :=
  x.run

end SourceM

namespace Activity

/-- The counters back at zero. -/
def reset (a : Activity) : Activity :=
  { a with reads := 0, bytesRead := 0 }

def request (a : Activity) (range : ByteRange) : Activity :=
  { a with requests := a.requests.push range }

/-- One more read that gave `n` bytes. -/
def count (a : Activity) (n : Nat) : Activity :=
  { a with reads := a.reads + 1, bytesRead := a.bytesRead + n }

end Activity

namespace ByteSource

/-- Asks for the bytes of a range, which counts as a read even where it fails. -/
def fetch (source : ByteSource) (range : ByteRange) : SourceM StorageError Bytes :=
  ExceptT.mk fun a =>
    match source.readAt a.requests.toList range with
    | .ok bytes => (.ok bytes, (a.request range).count bytes.size)
    | .error e => (.error e, (a.request range).count 0)

/-- Asks for all bytes of a range, which counts as a read where it succeeds. -/
def fetchExactly (source : ByteSource) (range : ByteRange) : SourceM StorageError Bytes :=
  ExceptT.mk fun a =>
    match source.readInto a.requests.toList range with
    | .ok bytes => (.ok bytes, (a.request range).count bytes.size)
    | .error e => (.error e, a.request range)

end ByteSource

end Hyperslab
