import ViewStream.Toml.Basic
import ViewStream.Toml.DateTime
import ViewStream.Toml.Number
import ViewStream.Toml.Quoted

/-!
# TOML scalars

A value without brackets is a string in quotes or a word: a truth value, a number, or a date and
time. **A word goes on up to a blank, a bracket or another mark of the syntax**, and is looked at
as a whole: quotes and letters of any alphabet may stand in it, if the value allows them.

Words are checked in full, though only their kind is kept, and of a number whether it has a value.
-/

namespace ViewStream.Toml

/-- The characters that end a word. -/
def wordEnds : List Char := ['=', ',', '[', ']', '\x7b', '\x7d', '#', ' ', '\t', '\r', '\n']

/-- Whether a character may stand in a word. -/
def isWordChar (c : Char) : Bool := c ∉ wordEnds

/-- The word in front. A date and a time may be parted by a blank. -/
def word (cs : List Char) : List Char × List Char :=
  let w := cs.takeWhile isWordChar
  let rest := cs.dropWhile isWordChar
  match date w, rest with
  | some [], ' ' :: d :: rest =>
    if d.isDigit then
      (w ++ ' ' :: (d :: rest).takeWhile isWordChar, (d :: rest).dropWhile isWordChar)
    else (w, ' ' :: d :: rest)
  | _, _ => (w, rest)

/-- The value of a word. -/
def wordItem? (w : List Char) : Option Item :=
  if w = ['t', 'r', 'u', 'e'] ∨ w = ['f', 'a', 'l', 's', 'e'] then some .boolean
  else
    match number? w with
    | some hasValue => some (.number hasValue)
    | none => if isDateTime w then some .dateTime else none

/-- A value without brackets. -/
def scalar : Scanner Item := fun cs =>
  match quotedText cs with
  | some (s, rest) => some (.string s, rest)
  | none =>
    let (w, rest) := word cs
    (wordItem? w).map (·, rest)

end ViewStream.Toml
