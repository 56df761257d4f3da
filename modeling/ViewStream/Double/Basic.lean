/-!
# Finite double-precision numbers

A finite double is a sign and a **magnitude**: its exponent field and fraction field read as one
natural number. Magnitudes order as the absolute values they stand for, so **comparing two doubles
is comparing two integers** (`Double.rank`), and the two zeros compare equal because both have
rank 0. Rounding is exact arithmetic on naturals (`Magnitude.nearest`).
-/

namespace ViewStream

namespace Magnitude

/-- The least magnitude that is no longer finite. -/
def infinity : Nat := 2047 * Nat.pow 2 52

/-- The integer significand of a magnitude: its value is `significand * 2 ^ exponent`. -/
def significand (b : Nat) : Nat :=
  if b < Nat.pow 2 52 then b else Nat.pow 2 52 + b % Nat.pow 2 52

/-- The binary exponent that belongs to the integer significand. -/
def exponent (b : Nat) : Int :=
  if b < Nat.pow 2 52 then -1074 else Int.ofNat (b / Nat.pow 2 52) - 1075

/-- The value of a magnitude as a fraction: its numerator. -/
def numerator (b : Nat) : Nat :=
  significand b * Nat.pow 2 (exponent b).toNat

/-- The value of a magnitude as a fraction: its denominator. -/
def denominator (b : Nat) : Nat :=
  Nat.pow 2 (-exponent b).toNat

/-- The integer nearest to `num / den`; a half goes to the even neighbour. -/
def roundHalfEven (num den : Nat) : Nat :=
  let q := num / den
  let twice := 2 * (num % den)
  if twice < den then q
  else if den < twice then q + 1
  else if q % 2 = 0 then q else q + 1

/-- The greatest `e` with `2 ^ e ≤ num / den`, for a positive fraction. -/
def floorLog2 (num den : Nat) : Int :=
  let e : Int := Int.ofNat num.log2 - Int.ofNat den.log2
  if num * Nat.pow 2 (-e).toNat < den * Nat.pow 2 e.toNat then e - 1 else e

/-- The magnitude nearest to `num / den`, a half going to the even neighbour. It is `infinity` or
more where the fraction is too great for a finite double. -/
def nearest (num den : Nat) : Nat :=
  if num = 0 then 0
  else
    let q := max (floorLog2 num den - 52) (-1074)
    (q + 1074).toNat * Nat.pow 2 52
      + roundHalfEven (num * Nat.pow 2 (-q).toNat) (den * Nat.pow 2 q.toNat)

/-- The rounded product of two magnitudes. -/
def mul (a b : Nat) : Nat :=
  nearest (numerator a * numerator b) (denominator a * denominator b)

/-- The rounded quotient of two magnitudes. -/
def div (a b : Nat) : Nat :=
  nearest (numerator a * denominator b) (denominator a * numerator b)

/-- The magnitude nearest to `digits * 10 ^ exp`. Exponents so far out that the answer is certain
are answered without computing the power. -/
def ofDecimal (digits : Nat) (exp : Int) : Nat :=
  let leading := Int.ofNat (Nat.toDigits 10 digits).length + exp
  if digits = 0 then 0
  else if 310 < leading then infinity
  else if leading < -330 then 0
  else nearest (digits * Nat.pow 10 exp.toNat) (Nat.pow 10 (-exp).toNat)

/-- The magnitude nearest to `10 ^ n`. -/
def pow10 (n : Nat) : Nat :=
  nearest (Nat.pow 10 n) 1

/-- Divide by `10 ^ n` in steps of at most `10 ^ 308`, rounding at every step. -/
def scaleDown (b n : Nat) : Nat :=
  if n ≤ 308 then div b (pow10 n)
  else if b = 0 then 0
  else scaleDown (div b (pow10 308)) (n - 308)
termination_by n

/-- `significand * 10 ^ exp` in two roundings: the significand first, then its product with, or
quotient by, the rounded power of ten. -/
def scaled (significand : Nat) (exp : Int) : Nat :=
  let b := nearest significand 1
  match exp with
  | .ofNat n => if b = 0 then 0 else if n ≤ 308 then mul b (pow10 n) else infinity
  | .negSucc n => scaleDown b (n + 1)

end Magnitude

/-- A finite double: a sign and a magnitude. -/
structure Double where
  /-- Whether the sign is minus; zero has both signs. -/
  negative : Bool
  /-- The exponent and fraction fields, read as one number. -/
  magnitude : Nat
  /-- Neither an infinity nor a NaN. -/
  finite : magnitude < Magnitude.infinity
deriving DecidableEq, Repr

namespace Double

/-- The double with this sign and magnitude, if it is finite. -/
def ofMagnitude? (negative : Bool) (magnitude : Nat) : Option Double :=
  if h : magnitude < Magnitude.infinity then some ⟨negative, magnitude, h⟩ else none

/-- The signed magnitude: doubles compare as their ranks do. -/
def rank (x : Double) : Int :=
  if x.negative then -Int.ofNat x.magnitude else Int.ofNat x.magnitude

/-- The rank of the double nearest to an integer. -/
def rankOfInt (n : Int) : Int :=
  n.sign * Int.ofNat (Magnitude.nearest n.natAbs 1)

end Double

end ViewStream
