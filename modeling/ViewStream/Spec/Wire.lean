import ViewStream.Spec.PropExpr

/-!
# Props and conditions as JSON

On the wire a prop is plain JSON, except that an object with one of the binding keys is a binding.
**The first key that fits decides**: `$cond` with any value, then `$state`, `$item`, `$index`,
`$bindState`, `$bindItem` and `$template`, each of these with a string, but `$index` with anything
other than `false`. Containers without a binding at any depth stay plain JSON.

A condition is an object too, and anything that is no object is a condition on that value itself.
Of several comparators the first one in the order of `Comparator.all` counts.

Writing gives the keys in ascending order.
-/

namespace ViewStream

open Json (Value)

/-! ## References -/

namespace Reference

/-- Whether an object refers to the position of the repeat item. -/
def namesIndex (ms : List (String × Value)) : Bool :=
  match ms.lookup "$index" with
  | none => false
  | some v => v ≠ .bool false

/-- The reference that an object's members make. -/
def ofMembers? (ms : List (String × Value)) : Option Reference :=
  (Value.stringAt? "$state" ms).map .state
    <|> (Value.stringAt? "$item" ms).map .item
    <|> (if namesIndex ms then some .index else none)
    <|> (Value.stringAt? "$bindState" ms).map .bindState
    <|> (Value.stringAt? "$bindItem" ms).map .bindItem
    <|> (Value.stringAt? "$template" ms).map .template

/-- The reference on the wire. -/
def toJson : Reference → Value
  | .state path => .obj [("$state", .str path)]
  | .item field => .obj [("$item", .str field)]
  | .index => .obj [("$index", .bool true)]
  | .bindState path => .obj [("$bindState", .str path)]
  | .bindItem field => .obj [("$bindItem", .str field)]
  | .template text => .obj [("$template", .str text)]

end Reference

/-! ## Recognising bindings -/

/-- Whether an object with these members is a binding. -/
def isBinding (ms : List (String × Value)) : Bool :=
  KeyMap.contains "$cond" ms || (Reference.ofMembers? ms).isSome

mutual

/-- Whether a value is a binding or has one inside. -/
def containsBinding : Value → Bool
  | .obj ms => isBinding ms || membersContainBinding ms
  | .arr xs => itemsContainBinding xs
  | _ => false

/-- Whether an item is a binding or has one inside. -/
def itemsContainBinding : List Value → Bool
  | [] => false
  | v :: vs => containsBinding v || itemsContainBinding vs

/-- Whether a member's value is a binding or has one inside. -/
def membersContainBinding : List (String × Value) → Bool
  | [] => false
  | (_, v) :: ms => containsBinding v || membersContainBinding ms

end

/-! ## Reading -/

namespace Condition

/-- The reference that an object's members name for a condition to look at. -/
def subjectOf (ms : List (String × Value)) : Option Reference :=
  match Value.stringAt? "$state" ms with
  | some path => some (.state path)
  | none =>
    match Value.stringAt? "$item" ms with
    | some field => some (.item field)
    | none => if Reference.namesIndex ms then some .index else none

/-- The comparison in an object whose members, read as props, are `props`. -/
def comparisonOf (props : List (String × PropExpr)) : Option (Comparator × PropExpr) :=
  Comparator.all.findSome? fun c => (props.lookup c.key).map (c, ·)

/-- The condition of an object, from its members and from the same members read as props. -/
def ofParts (ms : List (String × Value)) (props : List (String × PropExpr)) : Condition where
  subject := (subjectOf ms).map .ref
  comparison := comparisonOf props
  negate := ms.lookup "not" = some (.bool true)

/-- The condition that a pointer into the state leads to something truthy. -/
def ofState (path : String) : Condition := ⟨some (.ref (.state path)), none, false⟩

/-- The same condition with this comparison, in place of any other. -/
def compare (c : Condition) (op : Comparator) (right : PropExpr) : Condition :=
  { c with comparison := some (op, right) }

/-- The same condition turned around, unless it is already. -/
def negated (c : Condition) : Condition := { c with negate := true }

end Condition

mutual

/-- The prop that a value describes. -/
def PropExpr.ofJson : Value → PropExpr
  | .obj ms =>
    match Visibility.ofMember? "$cond" ms with
    | some test =>
      .cond test (PropExpr.ofMember? "$then" ms) (PropExpr.ofMember? "$else" ms)
    | none =>
      match Reference.ofMembers? ms with
      | some source => .ref source
      | none =>
        if membersContainBinding ms then .object (PropExpr.ofMembers ms)
        else .literal (.obj ms)
  | .arr vs =>
    if itemsContainBinding vs then .array (PropExpr.ofItems vs) else .literal (.arr vs)
  | v => .literal v

/-- The prop under a key. -/
def PropExpr.ofMember? (key : String) : List (String × Value) → Option PropExpr
  | [] => none
  | (k, v) :: ms =>
    if key == k then some (PropExpr.ofJson v) else PropExpr.ofMember? key ms

/-- The members of an object, each read as a prop. -/
def PropExpr.ofMembers : List (String × Value) → List (String × PropExpr)
  | [] => []
  | (k, v) :: ms => (k, PropExpr.ofJson v) :: PropExpr.ofMembers ms

/-- The items of an array, each read as a prop. -/
def PropExpr.ofItems : List Value → List PropExpr
  | [] => []
  | v :: vs => PropExpr.ofJson v :: PropExpr.ofItems vs

/-- The visibility that a value describes. -/
def Visibility.ofJson : Value → Visibility
  | .arr vs => .all (Condition.ofItems vs)
  | .obj ms => .one (Condition.ofParts ms (PropExpr.ofMembers ms))
  | v => .one ⟨some (.literal v), none, false⟩

/-- The visibility under a key. -/
def Visibility.ofMember? (key : String) : List (String × Value) → Option Visibility
  | [] => none
  | (k, v) :: ms =>
    if key == k then some (Visibility.ofJson v) else Visibility.ofMember? key ms

/-- The condition that a value describes. -/
def Condition.ofJson : Value → Condition
  | .obj ms => Condition.ofParts ms (PropExpr.ofMembers ms)
  | v => ⟨some (.literal v), none, false⟩

/-- The conditions that an array's items describe. -/
def Condition.ofItems : List Value → List Condition
  | [] => []
  | v :: vs => Condition.ofJson v :: Condition.ofItems vs

end

/-! The two functions that look under a key are lookups followed by a reading. -/

theorem PropExpr.ofMember?_eq_map (key : String) (ms : List (String × Value)) :
    PropExpr.ofMember? key ms = (ms.lookup key).map PropExpr.ofJson := by
  induction ms with
  | nil => rfl
  | cons m ms ih =>
    obtain ⟨k, v⟩ := m
    rw [PropExpr.ofMember?, List.lookup_cons, ih]
    cases key == k <;> rfl

theorem Visibility.ofMember?_eq_map (key : String) (ms : List (String × Value)) :
    Visibility.ofMember? key ms = (ms.lookup key).map Visibility.ofJson := by
  induction ms with
  | nil => rfl
  | cons m ms ih =>
    obtain ⟨k, v⟩ := m
    rw [Visibility.ofMember?, List.lookup_cons, ih]
    cases key == k <;> rfl

theorem PropExpr.ofMembers_eq_map (ms : List (String × Value)) :
    ofMembers ms = ms.map fun m => (m.1, ofJson m.2) := by
  induction ms with
  | nil => rfl
  | cons m ms ih => rw [ofMembers, ih, List.map_cons]

theorem PropExpr.lookup_ofMembers (key : String) (ms : List (String × Value)) :
    (PropExpr.ofMembers ms).lookup key = (ms.lookup key).map PropExpr.ofJson := by
  rw [ofMembers_eq_map, KeyMap.lookup_map]

/-! ## Writing -/

/-- The member that names the subject of a condition. Only a pointer into the state, a field of the
repeat item and its position have one. -/
def Condition.subjectToMembers : Option PropExpr → List (String × Value)
  | some (.ref (.state path)) => [("$state", .str path)]
  | some (.ref (.item field)) => [("$item", .str field)]
  | some (.ref .index) => [("$index", .bool true)]
  | _ => []

mutual

/-- The prop on the wire. -/
def PropExpr.toJson : PropExpr → Value
  | .literal v => v
  | .ref source => source.toJson
  | .cond test whenTrue whenFalse =>
    .ofFields [("$cond", some test.toJson), ("$else", PropExpr.optionToJson whenFalse),
      ("$then", PropExpr.optionToJson whenTrue)]
  | .object props => .obj (PropExpr.membersToJson props)
  | .array items => .arr (PropExpr.itemsToJson items)

/-- A prop that may be absent. -/
def PropExpr.optionToJson : Option PropExpr → Option Value
  | none => none
  | some e => some e.toJson

/-- Named props. -/
def PropExpr.membersToJson : List (String × PropExpr) → List (String × Value)
  | [] => []
  | (k, e) :: props => (k, e.toJson) :: PropExpr.membersToJson props

/-- Props in an array. -/
def PropExpr.itemsToJson : List PropExpr → List Value
  | [] => []
  | e :: items => e.toJson :: PropExpr.itemsToJson items

/-- The visibility on the wire. -/
def Visibility.toJson : Visibility → Value
  | .one c => c.toJson
  | .all cs => .arr (Condition.itemsToJson cs)

/-- The condition on the wire. A literal subject is the value itself and is left out of a
condition that says more; other subjects without a member are left out always. -/
def Condition.toJson : Condition → Value
  | ⟨some (.literal v), none, false⟩ => v
  | ⟨subject, comparison, negate⟩ =>
    .obj (Condition.subjectToMembers subject ++ Condition.comparisonToMembers comparison
      ++ if negate then [("not", .bool true)] else [])

/-- Conditions in an array. -/
def Condition.itemsToJson : List Condition → List Value
  | [] => []
  | c :: cs => c.toJson :: Condition.itemsToJson cs

/-- A comparison as the member of a condition. -/
def Condition.comparisonToMembers : Option (Comparator × PropExpr) → List (String × Value)
  | none => []
  | some (c, e) => [(c.key, e.toJson)]

end

end ViewStream
