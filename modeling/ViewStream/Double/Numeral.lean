import ViewStream.Double.Basic
import ViewStream.Text.Decimal

/-!
# Numerals

A numeral is an optional sign, digits with or without a point, and an optional exponent; there is a
digit before the point or after it. **It stands for the nearest double**, if that is finite.
-/

namespace ViewStream

namespace Numeral

/-- The sign in front, and what follows it. -/
def sign : List Char → Bool × List Char
  | '-' :: cs => (true, cs)
  | '+' :: cs => (false, cs)
  | cs => (false, cs)

/-- The digits after a point, if there is a point. -/
def fraction : List Char → List Char × List Char
  | '.' :: cs => Text.digits cs
  | cs => ([], cs)

/-- The exponent that makes up the rest of a numeral. -/
def exponent? : List Char → Option Int
  | [] => some 0
  | e :: cs =>
    if e = 'e' ∨ e = 'E' then
      match sign cs with
      | (negative, cs) =>
        if cs ≠ [] ∧ cs.all Char.isDigit then
          let n := Int.ofNat (Nat.ofDigitChars 10 cs 0)
          some (if negative then -n else n)
        else none
    else none

end Numeral

/-- The double that a numeral stands for. -/
def Double.ofNumeral? (cs : List Char) : Option Double :=
  let (negative, cs) := Numeral.sign cs
  let (whole, cs) := Text.digits cs
  let (fraction, cs) := Numeral.fraction cs
  if whole = [] ∧ fraction = [] then none
  else
    match Numeral.exponent? cs with
    | none => none
    | some exp =>
      Double.ofMagnitude? negative
        (Magnitude.ofDecimal (Nat.ofDigitChars 10 (whole ++ fraction) 0)
          (exp - Int.ofNat fraction.length))

end ViewStream
