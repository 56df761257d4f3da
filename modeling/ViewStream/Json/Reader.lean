import ViewStream.Json.Basic
import ViewStream.Text.Decimal
import ViewStream.Text.Hex

/-!
# Reading JSON text

The reader takes strict JSON and nothing else. Each scanner looks at the characters in front of it
and returns what it read together with **the characters that remain**.

* **Nesting is bounded**: containers may nest `maxNesting` deep. `value` recurses on how many more
  containers may be opened, so the bound is also why it ends.
* A list of items or members is read with at most as many rounds as there are characters left.
* Of two members with one key the last wins, and the members end up in key order.
-/

namespace ViewStream.Json

/-- How deep containers may nest. -/
def maxNesting : Nat := 127

namespace Reader

/-- The blanks that may stand between tokens. -/
def isBlank (c : Char) : Bool :=
  c == ' ' || c == '\n' || c == '\t' || c == '\r'

/-- Drop the blanks in front. -/
def skip (cs : List Char) : List Char :=
  cs.dropWhile isBlank

/-! ## Strings -/

/-- The value of four hexadecimal digits. -/
def hex4? (a b c d : Char) : Option Nat := do
  let a ← Text.hexValue? a
  let b ← Text.hexValue? b
  let c ← Text.hexValue? c
  let d ← Text.hexValue? d
  return a * 4096 + b * 256 + c * 16 + d

/-- The character that a letter after a backslash stands for. -/
def unescape? : Char → Option Char
  | '"' => some '"'
  | '\\' => some '\\'
  | '/' => some '/'
  | 'b' => some '\x08'
  | 'f' => some '\x0c'
  | 'n' => some '\n'
  | 'r' => some '\r'
  | 't' => some '\t'
  | _ => none

/-- The first half of a pair of 16-bit units. -/
def isLead (u : Nat) : Bool := 0xD800 ≤ u && u < 0xDC00

/-- The second half of a pair of 16-bit units. -/
def isTrail (u : Nat) : Bool := 0xDC00 ≤ u && u < 0xE000

/-- The character that a pair of units stands for. -/
def pairChar (lead trail : Nat) : Char :=
  Char.ofNat (0x10000 + (lead - 0xD800) * 0x400 + (trail - 0xDC00))

/-- Put a character in front of a scanned text. -/
def consText (c : Char) : Option (List Char × List Char) → Option (List Char × List Char)
  | some (cs, rest) => some (c :: cs, rest)
  | none => none

/-- The text up to the closing quote. Half a pair of units, an unknown escape and a bare control
character are refused. -/
def stringBody : List Char → Option (List Char × List Char)
  | [] => none
  | '"' :: rest => some ([], rest)
  | '\\' :: 'u' :: a :: b :: c :: d :: rest =>
    match hex4? a b c d with
    | none => none
    | some u =>
      if isLead u then
        match rest with
        | '\\' :: 'u' :: e :: f :: g :: h :: rest' =>
          match hex4? e f g h with
          | none => none
          | some w => if isTrail w then consText (pairChar u w) (stringBody rest') else none
        | _ => none
      else if isTrail u then none
      else consText (Char.ofNat u) (stringBody rest)
  | '\\' :: e :: rest =>
    match unescape? e with
    | none => none
    | some c => consText c (stringBody rest)
  | c :: rest =>
    if c = '\\' ∨ c.toNat < 0x20 then none else consText c (stringBody rest)

/-! ## Numbers -/

/-- The value of a digit. -/
def digitValue (c : Char) : Nat := c.toNat - 48

/-- The greatest significand that is kept; digits that would exceed it are dropped. -/
def maxSignificand : Nat := Nat.pow 2 64 - 1

/-- Digits before the point: the significand so far, and how many digits were dropped. -/
def wholePart (cs : List Char) : Nat × Nat :=
  cs.foldl (fun (sig, dropped) c =>
    if dropped = 0 ∧ sig * 10 + digitValue c ≤ maxSignificand then (sig * 10 + digitValue c, 0)
    else (sig, dropped + 1)) (0, 0)

/-- Digits after the point extend the significand until one does not fit: the significand, and how
many digits it took in. -/
def fractionPart (sig : Nat) : List Char → Nat × Nat
  | [] => (sig, 0)
  | c :: cs =>
    if sig * 10 + digitValue c ≤ maxSignificand then
      let (sig', taken) := fractionPart (sig * 10 + digitValue c) cs
      (sig', taken + 1)
    else (sig, 0)

/-- The number of a literal without fraction and exponent. -/
def integer? (negative : Bool) (sig dropped : Nat) : Option Number :=
  if dropped = 0 ∧ negative = false then some (.int (Int.ofNat sig))
  else if dropped = 0 ∧ 0 < sig ∧ sig ≤ Nat.pow 2 63 then some (.int (-Int.ofNat sig))
  else (Double.ofMagnitude? negative (Magnitude.scaled sig (Int.ofNat dropped))).map .double

/-- A digit run of at least one digit. -/
def digits1 (cs : List Char) : Option (List Char × List Char) :=
  match Text.digits cs with
  | ([], _) => none
  | (d, rest) => some (d, rest)

/-- The digits before the point: a zero, or digits that do not start with one. -/
def whole (cs : List Char) : Option (List Char × List Char) :=
  match cs with
  | '0' :: rest => some (['0'], rest)
  | _ => digits1 cs

/-- The digits after a point, if there is a point. -/
def fraction (cs : List Char) : Option (Option (List Char) × List Char) :=
  match cs with
  | '.' :: rest => (digits1 rest).map fun (d, rest) => (some d, rest)
  | _ => some (none, cs)

/-- The exponent, if there is an exponent mark. -/
def exponent (cs : List Char) : Option (Option Int × List Char) :=
  match cs with
  | e :: rest =>
    if e = 'e' ∨ e = 'E' then
      let (negative, rest) := match rest with
        | '-' :: rest => (true, rest)
        | '+' :: rest => (false, rest)
        | _ => (false, rest)
      (digits1 rest).map fun (d, rest) =>
        let n := Int.ofNat (Nat.ofDigitChars 10 d 0)
        (some (if negative then -n else n), rest)
    else some (none, cs)
  | [] => some (none, cs)

/-- A number literal. One that is too great for a double is refused. -/
def number (cs : List Char) : Option (Number × List Char) := do
  let (negative, cs) := match cs with
    | '-' :: rest => (true, rest)
    | _ => (false, cs)
  let (w, cs) ← whole cs
  let (f, cs) ← fraction cs
  let (e, cs) ← exponent cs
  let (sig, dropped) := wholePart w
  if f = none ∧ e = none then
    return (← integer? negative sig dropped, cs)
  else
    let (sig, taken) := fractionPart sig (f.getD [])
    let exp := Int.ofNat dropped - Int.ofNat taken + e.getD 0
    return (.double (← Double.ofMagnitude? negative (Magnitude.scaled sig exp)), cs)

/-! ## Values -/

/-- Any value that is no container. -/
def scalar : List Char → Option (Value × List Char)
  | 'n' :: 'u' :: 'l' :: 'l' :: rest => some (.null, rest)
  | 't' :: 'r' :: 'u' :: 'e' :: rest => some (.bool true, rest)
  | 'f' :: 'a' :: 'l' :: 's' :: 'e' :: rest => some (.bool false, rest)
  | '"' :: rest => (stringBody rest).map fun (s, rest) => (.str (String.ofList s), rest)
  | cs => (number cs).map fun (n, rest) => (.num n, rest)

/-- What reads one value, or one member, off the front of the characters. -/
abbrev Scanner (α : Type) := List Char → Option (α × List Char)

/-- Items parted by commas up to the closing character; at least one item. -/
def separated {α : Type} (item : Scanner α) (close : Char) : Nat → Scanner (List α)
  | 0, _ => none
  | rounds + 1, cs =>
    match item (skip cs) with
    | none => none
    | some (x, rest) =>
      match skip rest with
      | ',' :: rest =>
        match separated item close rounds rest with
        | some (xs, rest) => some (x :: xs, rest)
        | none => none
      | c :: rest => if c = close then some ([x], rest) else none
      | [] => none

/-- Items parted by commas up to the closing character; perhaps none. -/
def enclosed {α : Type} (item : Scanner α) (close : Char) (cs : List Char) :
    Option (List α × List Char) :=
  match skip cs with
  | [] => none
  | c :: rest => if c = close then some ([], rest) else separated item close cs.length cs

/-- A key, a colon and a value. -/
def member (value : Scanner Value) (cs : List Char) : Option ((String × Value) × List Char) :=
  match cs with
  | '"' :: rest =>
    match stringBody rest with
    | none => none
    | some (k, rest) =>
      match skip rest with
      | ':' :: rest => (value (skip rest)).map fun (v, rest) => ((String.ofList k, v), rest)
      | _ => none
  | _ => none

/-- A value within which `room` more containers may nest. -/
def value : (room : Nat) → Scanner Value
  | 0, cs => scalar cs
  | room + 1, cs =>
    match cs with
    | '[' :: rest => (enclosed (value room) ']' rest).map fun (xs, rest) => (.arr xs, rest)
    | '\x7b' :: rest =>
      (enclosed (member (value room)) '\x7d' rest).map fun (ms, rest) =>
        (.obj (KeyMap.ofList ms), rest)
    | _ => scalar cs

end Reader

/-- The value of a text that is one JSON value, with blanks around it or none. -/
def read? (text : String) : Option Value :=
  match Reader.value maxNesting (Reader.skip text.toList) with
  | some (v, rest) => if (Reader.skip rest).isEmpty then some v else none
  | none => none

end ViewStream.Json
