import ViewStream.Json.Printer
import ViewStream.Pointer
import ViewStream.Text.Blank

/-!
# Templates

A template is text with placeholders: a dollar sign and a pair of braces around a pointer.
Splitting a template looks at nothing but its text: **a placeholder begins at the first opening and
ends at the first closing brace after it**, and an opening that is never closed is text. So what is
put in for a placeholder is never looked at again.
-/

namespace ViewStream

open Json (Value)

/-- The text of a value within other text: nothing for null, a string as it is, and any other value
as JSON. -/
def Json.Value.display : Value → List Char
  | .null => []
  | .str s => s.toList
  | v => v.chars

namespace Template

/-- The placeholders of a text, each with the text before it, and the text after the last one. -/
abbrev Parts := List (List Char × List Char) × List Char

/-- Put a character in front of the text that comes first. -/
def consText (c : Char) : Parts → Parts
  | ([], rest) => ([], c :: rest)
  | ((before, pointer) :: parts, rest) => ((c :: before, pointer) :: parts, rest)

/-- Split from a given point on. Within a placeholder `inside` holds what has been read of its
pointer, last character first. -/
def splitFrom (inside : Option (List Char)) : List Char → Parts
  | [] =>
    match inside with
    | none => ([], [])
    | some seen => ([], '$' :: '\x7b' :: seen.reverse)
  | c :: cs =>
    match inside, c, cs with
    | none, '$', '\x7b' :: cs => splitFrom (some []) cs
    | none, c, cs => consText c (splitFrom none cs)
    | some seen, '\x7d', cs =>
      let (parts, rest) := splitFrom none cs
      (([], seen.reverse) :: parts, rest)
    | some seen, c, cs => splitFrom (some (c :: seen)) cs

/-- Split a template. -/
def split (cs : List Char) : Parts := splitFrom none cs

/-- What a placeholder shows: the state at its pointer, with the blanks around the pointer left out
of account. -/
def fill (state : Value) (pointer : List Char) : List Char :=
  match Pointer.read? (String.ofList (Text.trim pointer)) state with
  | some v => v.display
  | none => []

/-- The text of a template in a state. -/
def expand (template : String) (state : Value) : String :=
  let (parts, rest) := split template.toList
  String.ofList ((parts.flatMap fun p => p.1 ++ fill state p.2) ++ rest)

end Template

end ViewStream
