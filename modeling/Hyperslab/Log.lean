import Hyperslab.Section.Basic

/-!
# Log records

What a read reports about itself. An event holds the numbers it speaks about; its level and its
text are functions of it.
-/

namespace Hyperslab

/-- The importance of an event. -/
inductive LogLevel where
  | trace
  | debug
  | warn
deriving DecidableEq, Repr

def LogLevel.name : LogLevel → String
  | .trace => "TRACE"
  | .debug => "DEBUG"
  | .warn => "WARN"

/-- Something that a read reports. -/
inductive LogEvent where
  /-- A section of a variable that stores nothing is read. -/
  | readingAbsent (selection : Section) (elements : Nat)
  /-- A section is read from a layout with the given name. -/
  | readingSection (selection : Section) (layout : String) (elements : Nat)
  /-- One field of the records of a section is read. -/
  | readingField (field : String) (selection : Section) (layout : String) (records : Nat)
  /-- The byte stream of a segment chain is opened. -/
  | openingStream (segments : Nat)
  /-- The decoded stream of a segment chain is opened. -/
  | openingDecoded (segments codec length : Nat)
  | fetchingChunk (origin : Index) (encodedLength codec : Nat)
  /-- Bytes were asked of a segment chain that has segments and no byte. -/
  | emptyChain (segments : Nat)
deriving DecidableEq, Repr

namespace LogEvent

def level : LogEvent → LogLevel
  | readingAbsent .. | readingSection .. | readingField .. => .debug
  | openingStream .. | openingDecoded .. | fetchingChunk .. => .trace
  | emptyChain .. => .warn

def text : LogEvent → String
  | readingAbsent selection elements =>
    s!"Reading section {selection.text} of a variable without data ({elements} elements)"
  | readingSection selection layout elements =>
    s!"Reading section {selection.text} of a {layout} layout ({elements} elements)"
  | readingField field selection layout records =>
    s!"Reading field {field} of section {selection.text} of a {layout} layout ({records} records)"
  | openingStream segments => s!"Opening a stream over {segments} segments"
  | openingDecoded segments codec length =>
    s!"Opening a decoded stream over {segments} segments (codec {codec}, {length} bytes)"
  | fetchingChunk origin encodedLength codec =>
    s!"Fetching chunk {bracketedNats origin} ({encodedLength} encoded bytes, codec {codec})"
  | emptyChain segments =>
    s!"Segment chain of {segments} segments holds no data. Reporting end of stream."

/-- The line of an event, its level before its text. -/
def line (e : LogEvent) : String :=
  s!"{e.level.name} {e.text}"

end LogEvent

end Hyperslab
