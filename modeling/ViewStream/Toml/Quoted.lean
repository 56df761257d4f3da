import ViewStream.Text.Hex
import ViewStream.Toml.Scanner

/-!
# Quoted text

Strings are written between single or double quotes, on one line or between triple quotes on
several; **only double quotes know escapes**. A text of several lines keeps its line breaks as they
are written, with the carriage return where there is one; only the break directly after the opening
quotes is dropped, and those that a backslash joins.
-/

namespace ViewStream.Toml

/-- The character with a code in hexadecimal digits. Half a pair of 16-bit units is no
character. -/
def hexChar? (cs : List Char) : Option Char := do
  let n ← cs.foldlM (fun n c => (Text.hexValue? c).map (n * 16 + ·)) 0
  if n.isValidChar then some (Char.ofNat n) else none

/-- The character that a letter after a backslash stands for. -/
def unescape? : Char → Option Char
  | '"' => some '"'
  | '\\' => some '\\'
  | 'b' => some '\x08'
  | 't' => some '\t'
  | 'n' => some '\n'
  | 'f' => some '\x0c'
  | 'r' => some '\r'
  | 'e' => some '\x1b'
  | _ => none

/-- Put a character, if there is one, in front of a scanned text. -/
def consText (c : Option Char) (scanned : Option (List Char × List Char)) :
    Option (List Char × List Char) :=
  match c, scanned with
  | some c, some (cs, rest) => some (c :: cs, rest)
  | _, _ => none

/-- The text up to a closing double quote on the same line. -/
def basicBody : List Char → Option (List Char × List Char)
  | [] => none
  | '"' :: rest => some ([], rest)
  | '\\' :: 'x' :: a :: b :: rest => consText (hexChar? [a, b]) (basicBody rest)
  | '\\' :: 'u' :: a :: b :: c :: d :: rest =>
    consText (hexChar? [a, b, c, d]) (basicBody rest)
  | '\\' :: 'U' :: a :: b :: c :: d :: e :: f :: g :: h :: rest =>
    consText (hexChar? [a, b, c, d, e, f, g, h]) (basicBody rest)
  | '\\' :: c :: rest => consText (unescape? c) (basicBody rest)
  | c :: rest => if isPlain c then consText (some c) (basicBody rest) else none

/-- The text up to a closing single quote on the same line. -/
def literalBody : List Char → Option (List Char × List Char)
  | [] => none
  | '\'' :: rest => some ([], rest)
  | c :: rest => if isPlain c then consText (some c) (literalBody rest) else none

/-- Where a text of several lines stands after a backslash at the end of a line. -/
inductive Joining where
  /-- There was none. -/
  | none
  /-- The line has not ended yet. -/
  | line
  /-- Blanks and line breaks are passed over. -/
  | blanks
deriving DecidableEq

/-- The text up to three closing double quotes; one or two quotes may stand before them. -/
def longBasicBody (joining : Joining) : List Char → Option (List Char × List Char)
  | [] => none
  | '\n' :: rest =>
    match joining with
    | .none => consText (some '\n') (longBasicBody .none rest)
    | _ => longBasicBody .blanks rest
  | '\r' :: '\n' :: rest =>
    match joining with
    | .none => consText (some '\r') (consText (some '\n') (longBasicBody .none rest))
    | _ => longBasicBody .blanks rest
  | c :: rest =>
    if joining ≠ .none ∧ (c = ' ' ∨ c = '\t') then longBasicBody joining rest
    else if joining = .line then none
    else
      match c, rest with
      | '"', '"' :: '"' :: '"' :: '"' :: rest => some (['"', '"'], rest)
      | '"', '"' :: '"' :: '"' :: rest => some (['"'], rest)
      | '"', '"' :: '"' :: rest => some ([], rest)
      | '\\', 'x' :: a :: b :: rest => consText (hexChar? [a, b]) (longBasicBody .none rest)
      | '\\', 'u' :: a :: b :: c :: d :: rest =>
        consText (hexChar? [a, b, c, d]) (longBasicBody .none rest)
      | '\\', 'U' :: a :: b :: c :: d :: e :: f :: g :: h :: rest =>
        consText (hexChar? [a, b, c, d, e, f, g, h]) (longBasicBody .none rest)
      | '\\', '\n' :: rest => longBasicBody .blanks rest
      | '\\', '\r' :: '\n' :: rest => longBasicBody .blanks rest
      | '\\', ' ' :: rest => longBasicBody .line rest
      | '\\', '\t' :: rest => longBasicBody .line rest
      | '\\', c :: rest => consText (unescape? c) (longBasicBody .none rest)
      | c, rest => if isPlain c then consText (some c) (longBasicBody .none rest) else none

/-- The text up to three closing single quotes; one or two quotes may stand before them. -/
def longLiteralBody : List Char → Option (List Char × List Char)
  | [] => none
  | '\'' :: '\'' :: '\'' :: '\'' :: '\'' :: rest => some (['\'', '\''], rest)
  | '\'' :: '\'' :: '\'' :: '\'' :: rest => some (['\''], rest)
  | '\'' :: '\'' :: '\'' :: rest => some ([], rest)
  | '\r' :: '\n' :: rest => consText (some '\r') (consText (some '\n') (longLiteralBody rest))
  | '\n' :: rest => consText (some '\n') (longLiteralBody rest)
  | c :: rest => if isPlain c then consText (some c) (longLiteralBody rest) else none

/-- Drop the line break that may follow three opening quotes. -/
def dropLineBreak : List Char → List Char
  | '\n' :: cs => cs
  | '\r' :: '\n' :: cs => cs
  | cs => cs

/-- A string with its quotes. -/
def quotedText : Scanner String
  | '"' :: '"' :: '"' :: cs =>
    (longBasicBody .none (dropLineBreak cs)).map fun (s, rest) => (String.ofList s, rest)
  | '"' :: cs => (basicBody cs).map fun (s, rest) => (String.ofList s, rest)
  | '\'' :: '\'' :: '\'' :: cs =>
    (longLiteralBody (dropLineBreak cs)).map fun (s, rest) => (String.ofList s, rest)
  | '\'' :: cs => (literalBody cs).map fun (s, rest) => (String.ofList s, rest)
  | _ => none

end ViewStream.Toml
