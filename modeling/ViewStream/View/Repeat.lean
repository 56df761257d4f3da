import ViewStream.Spec.Basic
import ViewStream.Text.Decimal
import ViewStream.View.Resolve

/-!
# Repeats

A repeat gives one scope for each item of the array its path leads to, and none where there is no
array. An item is known by its key: the text of its key field, or its position where it has none.
-/

namespace ViewStream

open Json (Value)

/-- One item of an expanded repeat. -/
structure RepeatItem extends Scope where
  /-- What the item is known by. -/
  key : String
deriving DecidableEq, Repr

namespace Repeat

/-- The text of an item's key field, if the item has one that is not null. -/
def fieldKey? (item : Value) (field : String) : Option String :=
  match item.member? field with
  | none => none
  | some .null => none
  | some v => some (String.ofList v.display)

/-- What an item is known by. -/
def itemKey (r : Repeat) (index : Nat) (item : Value) : String :=
  (r.key.bind (fieldKey? item)).getD (Text.decimal index)

/-- The item at a position of the array. -/
def itemAt (r : Repeat) (index : Nat) (item : Value) : RepeatItem where
  item := item
  index := index
  basePath := ((Pointer.parse r.statePath).join (Text.decimal index)).text
  key := r.itemKey index item

/-- All items of a repeat, in order. -/
def expand (r : Repeat) (state : Value) : List RepeatItem :=
  match Pointer.read? r.statePath state with
  | some (.arr xs) => xs.mapIdx r.itemAt
  | _ => []

end Repeat

/-- All items of an element's repeat; none where it has no repeat. -/
def Element.expand (e : Element) (state : Value) : List RepeatItem :=
  match e.repeated with
  | some r => r.expand state
  | none => []

/-- The same state with an item as its scope. An outer item is replaced. -/
def Context.withItem (c : Context) (item : RepeatItem) : Context :=
  { c with scope := some item.toScope }

end ViewStream
