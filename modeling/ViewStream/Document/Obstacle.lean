import ViewStream.Patch.Basic
import ViewStream.Text.Decimal

/-!
# What stands in a patch's way

A lenient application builds the best document it can; a strict one reports each place where it
would have had to guess. An obstacle says what was met on the way; an error adds which patch met
it.
-/

namespace ViewStream

/-- How forgiving the application of patches is. -/
inductive Mode where
  /-- Make what is missing, and pass over what cannot be done. -/
  | lenient
  /-- Report every such place. -/
  | strict
deriving DecidableEq, Repr, Inhabited

/-- What keeps a patch from being applied. -/
inductive Obstacle where
  /-- A container on the way does not exist. -/
  | missingParent
  /-- There is nothing at the path. -/
  | missingTarget
  /-- A value on the way holds no other values. -/
  | notAContainer (found : Json.Value.Kind)
  /-- A segment that names a place in an array is neither a position nor `-`. -/
  | badIndex (segment : String)
  /-- A position lies beyond the end of its array. -/
  | indexOutOfRange (index length : Nat)
deriving DecidableEq, Repr

/-- The wording of an obstacle. -/
def Obstacle.message : Obstacle → String
  | .missingParent => "parent does not exist"
  | .missingTarget => "target does not exist"
  | .notAContainer found => "cannot descend into " ++ found.name
  | .badIndex segment => "\"" ++ segment ++ "\" is not an array index"
  | .indexOutOfRange index length =>
    "index " ++ Text.decimal index ++ " out of range (length " ++ Text.decimal length ++ ")"

/-- Why a patch could not be applied. -/
inductive ApplyError where
  /-- Something stood in the way. -/
  | blocked (op : Op) (path : String) (obstacle : Obstacle)
  /-- The operation needs a value and has none. -/
  | missingValue (op : Op)
deriving DecidableEq, Repr

/-- The wording of an error. -/
def ApplyError.message : ApplyError → String
  | .blocked op path obstacle => op.name ++ " \"" ++ path ++ "\": " ++ obstacle.message
  | .missingValue op => op.name ++ " requires a value"

end ViewStream
