import ViewStream.Double.Text
import ViewStream.Json.Basic
import ViewStream.Text.Hex

/-!
# JSON as text

Compact text has no blanks; pretty text indents by two blanks and keeps an empty container on one
line. **In both, a string escapes the quote, the backslash and the characters below U+0020 and
nothing else**, so no printed value contains a line break that was not laid out.
-/

namespace ViewStream.Json

/-- The escaped form of one character within a string. -/
def escapeChar (c : Char) : List Char :=
  if c = '"' then ['\\', '"']
  else if c = '\\' then ['\\', '\\']
  else if c = '\n' then ['\\', 'n']
  else if c = '\r' then ['\\', 'r']
  else if c = '\t' then ['\\', 't']
  else if c = '\x08' then ['\\', 'b']
  else if c = '\x0c' then ['\\', 'f']
  else if c.toNat < 0x20 then
    ['\\', 'u', '0', '0', Text.hexDigit (c.toNat / 16), Text.hexDigit (c.toNat % 16)]
  else [c]

/-- A string as a JSON literal, quotes included. -/
def quoted (s : String) : List Char :=
  '"' :: s.toList.flatMap escapeChar ++ ['"']

namespace Number

/-- The text of a number. -/
def chars : Number → List Char
  | .int (.ofNat n) => Nat.toDigits 10 n
  | .int (.negSucc n) => '-' :: Nat.toDigits 10 (n + 1)
  | .double x => x.chars

end Number

namespace Value

mutual

/-- The compact text of a value. -/
def chars : Value → List Char
  | .null => ['n', 'u', 'l', 'l']
  | .bool true => ['t', 'r', 'u', 'e']
  | .bool false => ['f', 'a', 'l', 's', 'e']
  | .num n => n.chars
  | .str s => quoted s
  | .arr xs => '[' :: itemsChars xs ++ [']']
  | .obj ms => '\x7b' :: membersChars ms ++ ['\x7d']

/-- Items parted by commas. -/
def itemsChars : List Value → List Char
  | [] => []
  | x :: xs => x.chars ++ tailChars xs

/-- Items each led by a comma. -/
def tailChars : List Value → List Char
  | [] => []
  | x :: xs => ',' :: (x.chars ++ tailChars xs)

/-- Members parted by commas. -/
def membersChars : List (String × Value) → List Char
  | [] => []
  | (k, v) :: ms => quoted k ++ ':' :: (v.chars ++ memberTailChars ms)

/-- Members each led by a comma. -/
def memberTailChars : List (String × Value) → List Char
  | [] => []
  | (k, v) :: ms => ',' :: (quoted k ++ ':' :: (v.chars ++ memberTailChars ms))

end

/-- The compact text of a value. -/
def compact (v : Value) : String :=
  String.ofList v.chars

/-- A line break and the indentation of nesting depth `depth`. -/
def lineBreak (depth : Nat) : List Char :=
  '\n' :: List.replicate (2 * depth) ' '

mutual

/-- The indented text of a value that stands at nesting depth `depth`. -/
def prettyChars (depth : Nat) : Value → List Char
  | .arr [] => ['[', ']']
  | .arr (x :: xs) =>
    '[' :: prettyItems (depth + 1) (x :: xs) ++ lineBreak depth ++ [']']
  | .obj [] => ['\x7b', '\x7d']
  | .obj (m :: ms) =>
    '\x7b' :: prettyMembers (depth + 1) (m :: ms) ++ lineBreak depth ++ ['\x7d']
  | v => v.chars

/-- Items, each on a line of its own. -/
def prettyItems (depth : Nat) : List Value → List Char
  | [] => []
  | [x] => lineBreak depth ++ prettyChars depth x
  | x :: xs => lineBreak depth ++ prettyChars depth x ++ ',' :: prettyItems depth xs

/-- Members, each on a line of its own. -/
def prettyMembers (depth : Nat) : List (String × Value) → List Char
  | [] => []
  | [(k, v)] => lineBreak depth ++ quoted k ++ ':' :: ' ' :: prettyChars depth v
  | (k, v) :: ms =>
    lineBreak depth ++ quoted k ++ ':' :: ' ' :: prettyChars depth v
      ++ ',' :: prettyMembers depth ms

end

/-- The indented text of a value. -/
def pretty (v : Value) : String :=
  String.ofList (prettyChars 0 v)

end Value

end ViewStream.Json
