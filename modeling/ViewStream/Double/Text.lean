import ViewStream.Double.Basic

/-!
# Doubles as text

**A double is written with the fewest digits that read back to it**, of two such texts the nearer
one. The point is written out while the leading digit stands for `10 ^ -5` up to `10 ^ 15`; outside
that range the text has one digit before the point and a signed exponent. A text without an
exponent always has a point, so that a double is never mistaken for an integer.
-/

namespace ViewStream

namespace Magnitude

/-- Whether the decimal `digits * 10 ^ exp` rounds to the magnitude `b`. -/
def readsBack (b digits : Nat) (exp : Int) : Bool :=
  ofDecimal digits exp == b

/-- The least `k` with value below `10 ^ k`, for a positive fraction: the estimate from the binary
logarithm is low by at most one, and one comparison settles it. -/
def decimalScale (num den : Nat) : Int :=
  let k := (floorLog2 num den * 30103).fdiv 100000 + 1
  if num * Nat.pow 10 (-k).toNat < den * Nat.pow 10 k.toNat then k else k + 1

/-- The shorter of the value's two neighbours among the multiples of `10 ^ exp`, if one of them
reads back; of two the nearer, and of two equally near the even one. -/
def onGrid (b : Nat) (exp : Int) : Option (Nat × Int) :=
  let num := numerator b * Nat.pow 10 (-exp).toNat
  let den := denominator b * Nat.pow 10 exp.toNat
  let low := num / den
  let near := roundHalfEven num den
  let far := if near = low then low + 1 else low
  if readsBack b near exp then some (near, exp)
  else if readsBack b far exp then some (far, exp)
  else none

/-- The digits and the exponent of the shortest decimal that reads back. Seventeen digits always
do; the exact value stands in for a search that finds none. -/
def shortest (b : Nat) : Nat × Int :=
  let k := decimalScale (numerator b) (denominator b)
  let found := (List.range 17).findSome? fun n => onGrid b (k - Int.ofNat (n + 1))
  found.getD (significand b * Nat.pow 5 (-exponent b).toNat * Nat.pow 2 (exponent b).toNat,
    min (exponent b) 0)

end Magnitude

namespace Double

/-- Drop the zeros at the end of a digit string, counting each in the exponent. -/
def stripZeros (digits : List Char) (exp : Int) : List Char × Int :=
  let kept := (digits.reverse.dropWhile (· == '0')).reverse
  (kept, exp + Int.ofNat (digits.length - kept.length))

/-- Lay out digits whose last one stands for `10 ^ exp`. -/
def layout (digits : List Char) (exp : Int) : List Char :=
  let lead := exp + Int.ofNat digits.length - 1
  if 0 ≤ exp ∧ lead ≤ 15 then digits ++ List.replicate exp.toNat '0' ++ ['.', '0']
  else if 0 ≤ lead ∧ lead ≤ 15 then
    digits.take (lead.toNat + 1) ++ '.' :: digits.drop (lead.toNat + 1)
  else if -5 ≤ lead ∧ lead < 0 then
    '0' :: '.' :: List.replicate (-lead - 1).toNat '0' ++ digits
  else
    let fraction := if digits.length ≤ 1 then [] else '.' :: digits.drop 1
    let mark := if lead < 0 then ['e', '-'] else ['e', '+']
    digits.take 1 ++ fraction ++ mark ++ Nat.toDigits 10 lead.natAbs

/-- The text of a double. -/
def chars (x : Double) : List Char :=
  let sign := if x.negative then ['-'] else []
  if x.magnitude = 0 then sign ++ ['0', '.', '0']
  else
    let (digits, exp) := Magnitude.shortest x.magnitude
    let (kept, exp) := stripZeros (Nat.toDigits 10 digits) exp
    sign ++ layout kept exp

end Double

end ViewStream
