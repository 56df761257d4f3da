import ViewStream.Json.Basic

/-!
# Props and conditions

A prop is plain JSON, a reference to something known only when the view is drawn, a choice between
two props, or a container with a reference or choice somewhere inside. A visibility is one
condition or a list of conditions that must all hold; a condition looks at one prop, its subject,
and may compare it with another.

The three types depend on each other: a choice tests a visibility, and a condition has props for
its subject and on the right of its comparison.
-/

namespace ViewStream

open Json (Value)

/-- What a reference reads when the view is drawn. -/
inductive Reference where
  /-- The state at a pointer. -/
  | state (path : String)
  /-- A field of the current repeat item; the empty field is the whole item. -/
  | item (field : String)
  /-- The position of the current repeat item. -/
  | index
  /-- The state at a pointer, which the drawn element may also write. -/
  | bindState (path : String)
  /-- A field of the current repeat item, which the drawn element may also write. -/
  | bindItem (field : String)
  /-- A text with state pointers in it. -/
  | template (text : String)
deriving DecidableEq, Repr

/-- How a condition compares. -/
inductive Comparator where
  | eq | neq | gt | gte | lt | lte
deriving DecidableEq, Repr

namespace Comparator

/-- The key of a comparator on the wire. -/
def key : Comparator → String
  | .eq => "eq"
  | .neq => "neq"
  | .gt => "gt"
  | .gte => "gte"
  | .lt => "lt"
  | .lte => "lte"

/-- All comparators, in the order in which their keys are looked for. -/
def all : List Comparator := [.eq, .neq, .gt, .gte, .lt, .lte]

end Comparator

mutual

/-- A prop as it stands in a spec. -/
inductive PropExpr where
  /-- Plain JSON. -/
  | literal (value : Value)
  /-- Something to be read. -/
  | ref (source : Reference)
  /-- One prop if the test holds and another if not; each may be absent. -/
  | cond (test : Visibility) (whenTrue whenFalse : Option PropExpr)
  /-- An object of props. -/
  | object (props : List (String × PropExpr))
  /-- An array of props. -/
  | array (items : List PropExpr)

/-- When an element is shown, or which of two props is taken. -/
inductive Visibility where
  /-- When the condition holds. -/
  | one (condition : Condition)
  /-- When all conditions hold. -/
  | all (conditions : List Condition)

/-- One test. Without a comparison the subject itself must be truthy; `negate` turns the result
around. -/
structure Condition where
  /-- What is looked at; without it the test is on undefined. On the wire a subject is a fixed
  value, a pointer into the state, a field of the repeat item or its position. -/
  subject : Option PropExpr
  /-- What it is compared with, and how. -/
  comparison : Option (Comparator × PropExpr)
  /-- Whether the result is turned around. -/
  negate : Bool

end

instance : Inhabited PropExpr := ⟨.literal .null⟩

instance : Inhabited Condition := ⟨⟨none, none, false⟩⟩

/-! ## Equality -/

mutual

/-- Equality of props, decided. -/
def PropExpr.decEq : (a b : PropExpr) → Decidable (a = b)
  | .literal v, .literal w => decidable_of_iff (v = w) (by simp)
  | .ref r, .ref s => decidable_of_iff (r = s) (by simp)
  | .cond t x y, .cond t' x' y' =>
    letI := Visibility.decEq t t'
    letI := PropExpr.decEqOption x x'
    letI := PropExpr.decEqOption y y'
    decidable_of_iff (t = t' ∧ x = x' ∧ y = y') (by simp)
  | .object ps, .object qs =>
    letI := PropExpr.decEqMembers ps qs
    decidable_of_iff (ps = qs) (by simp)
  | .array xs, .array ys =>
    letI := PropExpr.decEqItems xs ys
    decidable_of_iff (xs = ys) (by simp)
  | .literal _, .ref _ | .literal _, .cond .. | .literal _, .object _ | .literal _, .array _
  | .ref _, .literal _ | .ref _, .cond .. | .ref _, .object _ | .ref _, .array _
  | .cond .., .literal _ | .cond .., .ref _ | .cond .., .object _ | .cond .., .array _
  | .object _, .literal _ | .object _, .ref _ | .object _, .cond .. | .object _, .array _
  | .array _, .literal _ | .array _, .ref _ | .array _, .cond .. | .array _, .object _ =>
    isFalse (by simp)

/-- Equality of optional props, decided. -/
def PropExpr.decEqOption : (a b : Option PropExpr) → Decidable (a = b)
  | none, none => isTrue rfl
  | some x, some y =>
    letI := PropExpr.decEq x y
    decidable_of_iff (x = y) (by simp)
  | none, some _ | some _, none => isFalse (by simp)

/-- Equality of prop lists, decided. -/
def PropExpr.decEqItems : (a b : List PropExpr) → Decidable (a = b)
  | [], [] => isTrue rfl
  | x :: xs, y :: ys =>
    letI := PropExpr.decEq x y
    letI := PropExpr.decEqItems xs ys
    decidable_of_iff (x = y ∧ xs = ys) (by simp)
  | [], _ :: _ | _ :: _, [] => isFalse (by simp)

/-- Equality of named props, decided. -/
def PropExpr.decEqMembers : (a b : List (String × PropExpr)) → Decidable (a = b)
  | [], [] => isTrue rfl
  | (k, x) :: xs, (j, y) :: ys =>
    letI := PropExpr.decEq x y
    letI := PropExpr.decEqMembers xs ys
    decidable_of_iff ((k = j ∧ x = y) ∧ xs = ys) (by simp)
  | [], _ :: _ | _ :: _, [] => isFalse (by simp)

/-- Equality of visibilities, decided. -/
def Visibility.decEq : (a b : Visibility) → Decidable (a = b)
  | .one c, .one d =>
    letI := Condition.decEq c d
    decidable_of_iff (c = d) (by simp)
  | .all cs, .all ds =>
    letI := Condition.decEqItems cs ds
    decidable_of_iff (cs = ds) (by simp)
  | .one _, .all _ | .all _, .one _ => isFalse (by simp)

/-- Equality of condition lists, decided. -/
def Condition.decEqItems : (a b : List Condition) → Decidable (a = b)
  | [], [] => isTrue rfl
  | x :: xs, y :: ys =>
    letI := Condition.decEq x y
    letI := Condition.decEqItems xs ys
    decidable_of_iff (x = y ∧ xs = ys) (by simp)
  | [], _ :: _ | _ :: _, [] => isFalse (by simp)

/-- Equality of conditions, decided. -/
def Condition.decEq : (a b : Condition) → Decidable (a = b)
  | ⟨s, c, n⟩, ⟨s', c', n'⟩ =>
    letI := PropExpr.decEqOption s s'
    letI := PropExpr.decEqComparison c c'
    decidable_of_iff (s = s' ∧ c = c' ∧ n = n') (by simp)

/-- Equality of comparisons, decided. -/
def PropExpr.decEqComparison : (a b : Option (Comparator × PropExpr)) → Decidable (a = b)
  | none, none => isTrue rfl
  | some (o, x), some (o', y) =>
    letI := PropExpr.decEq x y
    decidable_of_iff (o = o' ∧ x = y) (by simp)
  | none, some _ | some _, none => isFalse (by simp)

end

instance : DecidableEq PropExpr := PropExpr.decEq

instance : DecidableEq Visibility := Visibility.decEq

instance : DecidableEq Condition := Condition.decEq

/-- Whether a prop is plain JSON. -/
def PropExpr.isLiteral : PropExpr → Bool
  | .literal _ => true
  | _ => false

end ViewStream
