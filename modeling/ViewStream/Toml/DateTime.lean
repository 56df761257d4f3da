import ViewStream.Toml.Scanner

/-!
# Dates and times

A date, a time of day, or both with a distance from universal time. Days are checked against the
calendar: **a day must exist in its month**. The seconds may be missing.
-/

namespace ViewStream.Toml

/-- A number of so many digits, within bounds. -/
def field (count low high : Nat) : Scanner Nat := fun cs =>
  let ds := cs.take count
  let n := Nat.ofDigitChars 10 ds 0
  if ds.length = count ∧ ds.all Char.isDigit ∧ low ≤ n ∧ n ≤ high then some (n, cs.drop count)
  else none

/-- How many days a month has. -/
def daysIn (year month : Nat) : Nat :=
  if month = 2 then
    if year % 4 = 0 ∧ (year % 100 ≠ 0 ∨ year % 400 = 0) then 29 else 28
  else if month = 4 ∨ month = 6 ∨ month = 9 ∨ month = 11 then 30
  else 31

/-- What remains after a date. -/
def date (cs : List Char) : Option (List Char) := do
  let (year, cs) ← field 4 0 9999 cs
  let cs ← exactly '-' cs
  let (month, cs) ← field 2 1 12 cs
  let cs ← exactly '-' cs
  let (_, cs) ← field 2 1 (daysIn year month) cs
  return cs

/-- What remains after a time. The seconds may be missing. -/
def time (cs : List Char) : Option (List Char) := do
  let (_, cs) ← field 2 0 23 cs
  let cs ← exactly ':' cs
  let (_, cs) ← field 2 0 59 cs
  match cs with
  | ':' :: cs =>
    let (_, cs) ← field 2 0 60 cs
    match cs with
    | '.' :: d :: cs => if d.isDigit then return cs.dropWhile Char.isDigit else none
    | cs => return cs
  | cs => return cs

/-- Whether nothing follows, or a distance from universal time. -/
def isOffset : List Char → Bool
  | [] => true
  | ['Z'] => true
  | ['z'] => true
  | c :: cs =>
    if c = '+' ∨ c = '-' then
      let rest := do
        let (_, cs) ← field 2 0 23 cs
        let cs ← exactly ':' cs
        let (_, cs) ← field 2 0 59 cs
        return cs
      rest = some []
    else false

/-- Whether a word is a date, a time or both. -/
def isDateTime (cs : List Char) : Bool :=
  match date cs with
  | some [] => true
  | some (c :: rest) =>
    if c = 'T' ∨ c = 't' ∨ c = ' ' then
      match time rest with
      | some rest => isOffset rest
      | none => false
    else false
  | none => time cs = some []

end ViewStream.Toml
