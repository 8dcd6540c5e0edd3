/-!
# Documents

Descriptors, sections and record layouts are kept by others in a structured text format. A document
is what such a text says, without its spelling: values nested in lists and in objects with named
members.

A record of known members is an object with these names, or a list with one value for each of them
in their order. What an object says beyond them is ignored.
-/

namespace Hyperslab

/-- What a structured text says. -/
inductive Document where
  | null
  | bool (value : Bool)
  | integer (value : Int)
  /-- A number that is not written as an integer. -/
  | decimal (text : String)
  | string (value : String)
  | list (items : List Document)
  | object (members : List (String × Document))

namespace Document

def nat (n : Nat) : Document :=
  integer n

def nats (ns : List Nat) : Document :=
  list (ns.map nat)

/-- The value as a natural number of at most `limit`. -/
def natUpTo? (limit : Nat) : Document → Option Nat
  | integer value =>
    match value with
    | .ofNat n => if n ≤ limit then some n else none
    | .negSucc _ => none
  | _ => none

def string? : Document → Option String
  | string value => some value
  | _ => none

/-- The value as a list, each member read by `read`. -/
def list? {α : Type} (read : Document → Option α) : Document → Option (List α)
  | list items => items.mapM read
  | _ => none

/-- The member of an object with the given name. -/
def member? (name : String) : Document → Option Document
  | object members => members.lookup name
  | _ => none

/-- The members of a record with the given names. A list has all of them, an object may lack
some. -/
def record? (names : List String) : Document → Option (List (Option Document))
  | object members => some (names.map (members.lookup ·))
  | list items => if items.length = names.length then some (items.map some) else none
  | _ => none

/-- The members of a record that lacks none of them. -/
def fields? (names : List String) (d : Document) : Option (List Document) := do
  let members ← d.record? names
  members.mapM id

/-- The kind of a record that says it, with the record of what else it says: the member of an object
with the given name, or the first item of a list. -/
def tagged? (name : String) : Document → Option (String × Document)
  | object members => do
    let tag ← members.lookup name
    let tag ← tag.string?
    some (tag, object members)
  | list (tag :: items) => do
    let tag ← tag.string?
    some (tag, list items)
  | _ => none

/-- The name and the value of an object with one member. -/
def single? : Document → Option (String × Document)
  | object [member] => some member
  | _ => none

end Document

end Hyperslab
