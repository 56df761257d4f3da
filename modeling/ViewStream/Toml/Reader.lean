import ViewStream.Toml.Scalar

/-!
# Reading TOML text

A document is a list of statements, each on a line of its own: a key with its value, or a header.
Reading it takes two steps: `statements` looks at the text alone, and `Entries.run` builds the
tables.

Arrays and inline tables may go over several lines, may hold comments and may end with a comma. In
an inline table that holds for both sides of an equals sign too; **the parts of a key stay on one
line everywhere**.

Arrays and inline tables nest at most `maxNesting` deep, and a key has at most as many parts. Lists
of any other kind are read with at most as many rounds as there are characters left.
-/

namespace ViewStream.Toml

/-- How deep arrays and inline tables may nest, and how many parts a key may have. -/
def maxNesting : Nat := 80

/-- Drop the blanks in front, within the line. -/
def skip (cs : List Char) : List Char := cs.dropWhile isLineBlank

/-- Drop blanks, line breaks and comments. -/
def gap (comment : Bool) : List Char → Option (List Char)
  | [] => some []
  | '\r' :: '\n' :: rest => gap false rest
  | c :: rest =>
    if c = '\n' then gap false rest
    else if comment then if isPlain c then gap true rest else none
    else if isLineBlank c then gap false rest
    else if c = '#' then gap true rest
    else some (c :: rest)

/-- Drop the rest of a line that holds no more than a comment, and what there is between it and the
next statement. -/
def lineEnd (cs : List Char) : Option (List Char) :=
  match skip cs with
  | [] => some []
  | '\r' :: '\n' :: rest => gap false rest
  | c :: rest => if c = '\n' ∨ c = '#' then gap false (c :: rest) else none

/-! ## Keys -/

/-- Whether a character may stand in a key without quotes. -/
def isBareChar (c : Char) : Bool := c.isAlphanum || c = '_' || c = '-'

/-- One part of a key: a string on one line, or bare. -/
def keyPart (cs : List Char) : Option (String × List Char) :=
  match cs with
  | '"' :: cs => (basicBody cs).map fun (s, rest) => (String.ofList s, rest)
  | '\'' :: cs => (literalBody cs).map fun (s, rest) => (String.ofList s, rest)
  | cs =>
    match cs.takeWhile isBareChar with
    | [] => none
    | part => some (String.ofList part, cs.dropWhile isBareChar)

/-- At most so many parts with dots between them. -/
def keyParts : (room : Nat) → Scanner Key
  | 0, _ => none
  | room + 1, cs =>
    match keyPart (skip cs) with
    | none => none
    | some (part, rest) =>
      match skip rest with
      | '.' :: rest =>
        (keyParts room rest).map fun (k, rest) => ({ k with path := part :: k.path }, rest)
      | rest => some (⟨[], part⟩, rest)

/-- A key, and the blanks behind it. -/
def key : Scanner Key := keyParts maxNesting

/-! ## Values -/

/-- A key, an equals sign and a value, where `drop` drops what may stand around the equals sign. -/
def pair (drop : List Char → Option (List Char)) (value : Scanner Item) :
    Scanner (Key × Item) := fun cs => do
  let (k, rest) ← key cs
  let rest ← drop rest
  let rest ← exactly '=' rest
  let rest ← drop rest
  let (item, rest) ← value rest
  return ((k, item), rest)

/-- Things parted by commas up to the closing character; a comma may stand before it. -/
def listed {α : Type} (one : Scanner α) (close : Char) : (rounds : Nat) → Scanner (List α)
  | 0, _ => none
  | rounds + 1, cs =>
    match gap false cs with
    | none => none
    | some [] => none
    | some (c :: rest) =>
      if c = close then some ([], rest)
      else
        match one (c :: rest) with
        | none => none
        | some (x, rest) =>
          match gap false rest with
          | some (',' :: rest) =>
            (listed one close rounds rest).map fun (xs, rest) => (x :: xs, rest)
          | some (c :: rest) => if c = close then some ([x], rest) else none
          | _ => none

/-- A value within which `room` more arrays or inline tables may nest. -/
def value : (room : Nat) → Scanner Item
  | 0, cs => scalar cs
  | room + 1, cs =>
    match cs with
    | '[' :: rest =>
      (listed (value room) ']' (rest.length + 1) rest).map fun (xs, rest) => (.array xs, rest)
    | '\x7b' :: rest =>
      match listed (pair (gap false) (value room)) '\x7d' (rest.length + 1) rest with
      | some (pairs, rest) => (Entries.ofPairs pairs).map fun es => (.table .inline es, rest)
      | none => none
    | cs => scalar cs

/-! ## Documents -/

/-- One statement. -/
def statement : Scanner Statement
  | '[' :: '[' :: cs =>
    match key cs with
    | some (k, ']' :: ']' :: rest) => some (.arrayHeader k, rest)
    | _ => none
  | '[' :: cs =>
    match key cs with
    | some (k, ']' :: rest) => some (.header k, rest)
    | _ => none
  | cs =>
    (pair (fun cs => some (skip cs)) (value maxNesting) cs).map fun ((k, item), rest) =>
      (.pair k item, rest)

/-- Statements up to the end. -/
def statements : (rounds : Nat) → List Char → Option (List Statement)
  | _, [] => some []
  | 0, _ => none
  | rounds + 1, cs =>
    match statement cs with
    | none => none
    | some (s, rest) =>
      match lineEnd rest with
      | none => none
      | some rest => (statements rounds rest).map (s :: ·)

/-- Drop a byte order mark in front. -/
def dropMark : List Char → List Char
  | '\uFEFF' :: cs => cs
  | cs => cs

/-- The entries of a document. -/
def read? (text : String) : Option Entries := do
  let cs ← gap false (dropMark text.toList)
  let ss ← statements cs.length cs
  Entries.run [] ss []

end ViewStream.Toml
