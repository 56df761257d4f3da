import ViewStream.View.Comparison
import ViewStream.View.Template

/-!
# Props against state

Resolving reads a prop in a context: the state, and inside a repeat the current item. A reference
to what is not there resolves to undefined, written `none`. **An undefined member of an object is
left out, and an undefined item of an array becomes null.**

A reference that may be written has a binding path, the pointer to write to; inside a repeat it
starts at the item.
-/

namespace ViewStream

open Json (Value)

/-- The item of a repeat that is being drawn. -/
structure Scope where
  /-- The item. -/
  item : Value
  /-- Its position. -/
  index : Nat
  /-- The text of the pointer to it. -/
  basePath : String
deriving DecidableEq, Repr

/-- What a reference can see. -/
structure Context where
  /-- The state of the application. -/
  state : Value
  /-- The innermost repeat item, inside a repeat. -/
  scope : Option Scope := none
deriving DecidableEq, Repr

namespace Context

/-- The state at a pointer. -/
def readState (c : Context) (path : String) : Option Value := Pointer.read? path c.state

/-- A field of the repeat item. -/
def readItem (c : Context) (field : String) : Option Value :=
  c.scope.bind fun s => Pointer.read? field s.item

/-- The position of the repeat item. -/
def readIndex (c : Context) : Option Value := c.scope.map fun s => Value.ofNat s.index

end Context

/-- What a reference reads. -/
def Reference.read (c : Context) : Reference → Option Value
  | .state path => c.readState path
  | .item field => c.readItem field
  | .index => c.readIndex
  | .bindState path => c.readState path
  | .bindItem field => c.readItem field
  | .template text => some (.str (Template.expand text c.state))

mutual

/-- The value of a prop. -/
def PropExpr.resolve (c : Context) : PropExpr → Option Value
  | .literal v => some v
  | .ref source => source.read c
  | .cond test whenTrue whenFalse =>
    if test.holds c then PropExpr.resolveOption c whenTrue
    else PropExpr.resolveOption c whenFalse
  | .object props => some (.obj (PropExpr.resolveMembers c props))
  | .array items => some (.arr (PropExpr.resolveItems c items))

/-- The value of a prop that may be absent. -/
def PropExpr.resolveOption (c : Context) : Option PropExpr → Option Value
  | none => none
  | some e => e.resolve c

/-- The values of named props; a prop that is undefined is left out. -/
def PropExpr.resolveMembers (c : Context) : List (String × PropExpr) → List (String × Value)
  | [] => []
  | (k, e) :: props =>
    match e.resolve c with
    | some v => (k, v) :: PropExpr.resolveMembers c props
    | none => PropExpr.resolveMembers c props

/-- The values of props in an array; null for one that is undefined. -/
def PropExpr.resolveItems (c : Context) : List PropExpr → List Value
  | [] => []
  | e :: items => (e.resolve c).getD .null :: PropExpr.resolveItems c items

/-- Whether a visibility holds. -/
def Visibility.holds (c : Context) : Visibility → Bool
  | .one condition => condition.holds c
  | .all conditions => Condition.allHold c conditions

/-- Whether all conditions hold. -/
def Condition.allHold (c : Context) : List Condition → Bool
  | [] => true
  | d :: ds => d.holds c && Condition.allHold c ds

/-- Whether a condition holds. -/
def Condition.holds (c : Context) : Condition → Bool
  | ⟨subject, comparison, negate⟩ =>
    Condition.passes c (PropExpr.resolveOption c subject) comparison != negate

/-- Whether what a subject resolves to passes a comparison, or is truthy where there is none. -/
def Condition.passes (c : Context) (subject : Option Value) :
    Option (Comparator × PropExpr) → Bool
  | none => truthy subject
  | some (op, e) => op.holds subject (e.resolve c)

end

/-! ## Binding paths -/

/-- The text of a pointer that goes on from another one. -/
def Pointer.textBelow (base field : String) : String :=
  (Pointer.mk ((parse base).segments ++ (parse field).segments)).text

/-- The pointer that a reference writes to, if it writes. -/
def Reference.bindingPath? (c : Context) : Reference → Option String
  | .bindState path => some (Pointer.parse path).text
  | .bindItem field => c.scope.map fun s => Pointer.textBelow s.basePath field
  | _ => none

/-- The pointer that a prop writes to, if it writes. -/
def PropExpr.bindingPath? (c : Context) : PropExpr → Option String
  | .ref source => source.bindingPath? c
  | _ => none

end ViewStream
