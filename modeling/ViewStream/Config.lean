import ViewStream.Options
import ViewStream.Toml.Reader

/-!
# Configuration

A configuration has two parts, `compiler` with the mode and `log` with a filter. Both parts and
both fields may be missing. A part is a table, or an array of fields in their order; a date or time
counts as a part without fields.

Entries with other names are passed over, but **to pass over an entry is to read it**: a number
without a value is an error there. What follows the field in an array is not read at all.

What is there must have the right form: the filter is a string, and the mode is one of the two
names or a table with the name as its one key and nothing under it.
-/

namespace ViewStream

open Toml (Item)

/-- What a configuration file settles. -/
structure Config where
  /-- How to compile. -/
  compiler : Options := {}
  /-- Which log messages are written. -/
  filter : String := "warn"
deriving DecidableEq, Repr, Inhabited

namespace Config

/-- Whether the entries with other names than these can be read. -/
def canPassOver (names : List String) (es : Toml.Entries) : Bool :=
  Toml.readableEntries (es.filter fun entry => entry.1 ∉ names)

/-- The value of the one field of a part, `none` if the part lacks it; nothing at all if the item
is no part. -/
def field? (name : String) : Item → Option (Option Item)
  | .table _ es => if canPassOver [name] es then some (es.lookup name) else none
  | .array items => some items.head?
  | .tables latest earlier => some ((earlier.reverse ++ [latest]).head?.map (.table .header ·))
  | .dateTime => some none
  | _ => none

/-- Whether an item holds nothing. -/
def isEmpty : Item → Bool
  | .table _ es => es.isEmpty
  | .array items => items.isEmpty
  | _ => false

/-- The mode that an item names. -/
def mode? : Item → Option Mode
  | .string s => Mode.ofName? s
  | .table _ [(name, item)] => if isEmpty item then Mode.ofName? name else none
  | _ => none

/-- The text of a string item. -/
def string? : Item → Option String
  | .string s => some s
  | _ => none

/-- A field of a part: its default where the part or the field is missing. -/
def read {α : Type} (es : Toml.Entries) (part name : String) (default : α)
    (read? : Item → Option α) : Option α :=
  match es.lookup part with
  | none => some default
  | some item =>
    match field? name item with
    | none => none
    | some none => some default
    | some (some v) => read? v

/-- The configuration in a table. -/
def ofEntries? (es : Toml.Entries) : Option Config := do
  let mode ← read es "compiler" "mode" .lenient mode?
  let filter ← read es "log" "filter" "warn" string?
  if canPassOver ["compiler", "log"] es then
    return { compiler := { mode }, filter }
  else none

/-- The configuration in a text. -/
def parse? (text : String) : Option Config := (Toml.read? text).bind ofEntries?

end Config

end ViewStream
