import ViewStream.Double.Numeral
import ViewStream.Spec.PropExpr
import ViewStream.Text.Blank

/-!
# Truth and comparison

What a condition compares may be undefined: `none` stands for that throughout.

* **Truthy** is everything but undefined, null, false, zero and the empty string.
* **Equality** looks through containers and never converts, but numbers are equal when their
  doubles are, so `1` equals `1.0`. Objects are equal when they have as many members and each
  member of one has an equal in the other.
* **Ordering** converts both sides to doubles and never holds when one of them has no number. Null
  and blank strings count as zero, `true` as one.
-/

namespace ViewStream

open Json (Value Number)

/-- Whether a value counts as true. -/
def truthy : Option Value → Bool
  | none => false
  | some .null => false
  | some (.bool b) => b
  | some (.num n) => n.rank ≠ 0
  | some (.str s) => s ≠ ""
  | some (.arr _) => true
  | some (.obj _) => true

/-! ## Equality -/

mutual

/-- Whether two values are equal for a condition. -/
def sameValue : Value → Value → Bool
  | .num x, .num y => x.rank == y.rank
  | .arr xs, .arr ys => sameItems xs ys
  | .obj xs, .obj ys => xs.length == ys.length && sameMembers xs ys
  | x, y => decide (x = y)

/-- Whether two lists have equal items. -/
def sameItems : List Value → List Value → Bool
  | [], [] => true
  | x :: xs, y :: ys => sameValue x y && sameItems xs ys
  | _, _ => false

/-- Whether each member has an equal among `ys`. -/
def sameMembers : List (String × Value) → List (String × Value) → Bool
  | [], _ => true
  | (k, x) :: xs, ys =>
    (match ys.lookup k with
      | some y => sameValue x y
      | none => false) && sameMembers xs ys

end

/-- Whether two operands are equal; undefined equals only undefined. -/
def sameOperand : Option Value → Option Value → Bool
  | none, none => true
  | some x, some y => sameValue x y
  | _, _ => false

/-! ## Ordering -/

/-- The rank of the double that an operand converts to, if it converts to one. -/
def operandRank? : Option Value → Option Int
  | none => none
  | some .null => some 0
  | some (.bool b) => some (Double.rankOfInt (if b then 1 else 0))
  | some (.num n) => some n.rank
  | some (.str s) =>
    match Text.trim s.toList with
    | [] => some 0
    | cs => (Double.ofNumeral? cs).map Double.rank
  | some (.arr _) => none
  | some (.obj _) => none

/-- Whether both operands convert to doubles and their ranks pass the test. -/
def ordered (test : Int → Int → Bool) (a b : Option Value) : Bool :=
  match operandRank? a, operandRank? b with
  | some x, some y => test x y
  | _, _ => false

/-- Whether a comparison holds. -/
def Comparator.holds : Comparator → Option Value → Option Value → Bool
  | .eq, a, b => sameOperand a b
  | .neq, a, b => !sameOperand a b
  | .gt, a, b => ordered (fun x y => y < x) a b
  | .gte, a, b => ordered (fun x y => y ≤ x) a b
  | .lt, a, b => ordered (fun x y => x < y) a b
  | .lte, a, b => ordered (fun x y => x ≤ y) a b

end ViewStream
