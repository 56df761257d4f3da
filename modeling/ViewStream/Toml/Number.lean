import ViewStream.Double.Numeral
import ViewStream.Text.Hex

/-!
# Numbers

A number is an integer in base 2, 8, 10 or 16, or a float in base 10. Underscores may part its
digits.

**How a number is spelled and whether it has a value are two questions.** The spelling is checked
wherever the number stands. The value, which an integer beyond 128 bits and a float beyond the
doubles lack, matters only to one who asks for it; `number?` answers both. Some spellings never
have a value: a base without digits, and decimal digits that go on as something else after an
underscore.
-/

namespace ViewStream.Toml

/-! ## Digits -/

/-- The value of a digit in a base up to 16. -/
def digitValue? (base : Nat) (c : Char) : Option Nat := (Text.hexValue? c).filter (· < base)

/-- Whether a character is a digit in a base up to 16. -/
def isDigitIn (base : Nat) (c : Char) : Bool := (digitValue? base c).isSome

/-- Whether every underscore stands between two digits, where `before` says whether there is a
digit in front. -/
def isParted (isDigit : Char → Bool) (before : Bool) : List Char → Bool
  | [] => true
  | ['_'] => false
  | '_' :: c :: rest => before && isDigit c && isParted isDigit true rest
  | c :: rest => isParted isDigit (isDigit c) rest

/-- Whether every underscore of a number stands between two digits, or between its first character,
which may be a sign, and a digit. -/
def isGrouped (isDigit : Char → Bool) : List Char → Bool
  | [] => true
  | c :: rest => c ≠ '_' && isParted isDigit true rest

/-- The characters without the underscores. -/
def ungrouped (cs : List Char) : List Char := cs.filter (· ≠ '_')

/-- Drop digits and underscores, among them one digit or more. A zero may lead other digits only
where `zeroLeads` says so. -/
def dropDigits (zeroLeads : Bool) (cs : List Char) : Option (List Char) :=
  let isRun := fun c : Char => c.isDigit || c = '_'
  let count := (cs.takeWhile isRun).countP Char.isDigit
  if count = 0 ∨ (1 < count ∧ cs.head? = some '0' ∧ ¬ zeroLeads) then none
  else some (cs.dropWhile isRun)

/-! ## Values -/

/-- The number that digits write, if there is one digit or more. -/
def natural? (base : Nat) (cs : List Char) : Option Nat :=
  if cs = [] then none
  else cs.foldlM (fun n c => (digitValue? base c).map (n * base + ·)) 0

/-- The integer that a sign and digits write, if it fits in 128 bits with a sign or without. -/
def integer? (base : Nat) (cs : List Char) : Option Int := do
  let (negative, ds) := Numeral.sign cs
  let n ← natural? base ds
  let n := if negative then -Int.ofNat n else Int.ofNat n
  if -Int.pow 2 127 ≤ n ∧ n < Int.pow 2 128 then some n else none

/-! ## Spellings -/

/-- The base that a letter after a zero stands for. -/
def base? : Char → Option Nat
  | 'x' => some 16
  | 'o' => some 8
  | 'b' => some 2
  | _ => none

/-- The digits after a base: whether they have a value, if they are spelled as they should be.
There may be none of them. -/
def basedDigits? (base : Nat) (cs : List Char) : Option Bool :=
  if cs.all (fun c => c = '_' || isDigitIn base c) ∧ isGrouped (isDigitIn base) cs then
    some (integer? base (ungrouped cs)).isSome
  else none

/-- Whether the characters after a sign are spelled as a float. -/
def isFloat (cs : List Char) : Bool :=
  let rest := do
    let cs ← dropDigits false cs
    let cs ←
      match cs with
      | '.' :: cs => dropDigits true cs
      | cs => some cs
    match cs with
    | [] => some []
    | c :: rest =>
      if c = 'e' ∨ c = 'E' then dropDigits true (Numeral.sign rest).2 else some (c :: rest)
  rest = some []

/-- Whether the characters after a sign are spelled as a decimal integer: digits without a needless
zero in front, and after an underscore anything. -/
def isInteger (cs : List Char) : Bool :=
  let rest := (Text.digits cs).2
  cs ≠ [] && (cs = ['0'] || cs.head? ≠ some '0') && (rest = [] || rest.head? = some '_')

/-- A word without a base, given also without its sign: whether it has a value, if it is spelled as
a number. Either case of a hexadecimal digit may follow an underscore in an integer, though such an
integer has no value. -/
def decimal? (cs unsigned : List Char) : Option Bool :=
  if unsigned.any fun c => c = '.' || c = 'e' || c = 'E' then
    if isFloat unsigned ∧ isGrouped Char.isDigit cs then
      some (Double.ofNumeral? (ungrouped cs)).isSome
    else none
  else if isInteger unsigned ∧ isGrouped (isDigitIn 16) cs then
    some (integer? 10 (ungrouped cs)).isSome
  else none

/-- Whether a word has a value, if it is spelled as a number. A number with a base has no sign. -/
def number? (cs : List Char) : Option Bool :=
  let unsigned := (Numeral.sign cs).2
  if unsigned = ['i', 'n', 'f'] ∨ unsigned = ['n', 'a', 'n'] then some true
  else
    match unsigned with
    | '0' :: c :: ds =>
      match base? c with
      | some base => if unsigned = cs then basedDigits? base ds else none
      | none => decimal? cs unsigned
    | _ => decimal? cs unsigned

end ViewStream.Toml
