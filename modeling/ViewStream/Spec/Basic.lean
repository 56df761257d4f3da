import ViewStream.Spec.Wire

/-!
# Specs

A spec is a document read as a view: the key of the root element, all elements in one flat map, and
perhaps the state the view starts from. **Reading never fails**: while a stream is arriving,
half-built elements are normal, and what cannot be used is left out.
-/

namespace ViewStream

open Json (Value)

/-- An element is shown once for each item of an array in the state. -/
structure Repeat where
  /-- The text of the pointer to the array. -/
  statePath : String
  /-- The field of an item that identifies it. -/
  key : Option String
deriving DecidableEq, Repr

/-- One element of a view. -/
structure Element where
  /-- What it is drawn as. -/
  type : String := ""
  /-- Its props. -/
  props : KeyMap PropExpr := []
  /-- The keys of its children. -/
  children : List String := []
  /-- When it is shown; without this, always. -/
  visible : Option Visibility := none
  /-- What its children are repeated for. -/
  repeated : Option Repeat := none
deriving DecidableEq, Inhabited

/-- A view: a root and a flat map of elements. -/
structure Spec where
  /-- The key of the root element. -/
  root : String := ""
  /-- The elements by key. -/
  elements : KeyMap Element := []
  /-- The state the view starts from. -/
  state : Option Value := none
deriving DecidableEq, Inhabited

/-! ## Reading -/

/-- The repeat that a value describes. -/
def Repeat.ofJson? : Value → Option Repeat
  | .obj ms => (Value.stringAt? "statePath" ms).map fun path => ⟨path, Value.stringAt? "key" ms⟩
  | _ => none

namespace Element

/-- The element that an object's members describe. -/
def ofMembers (ms : List (String × Value)) : Element where
  type := (Value.stringAt? "type" ms).getD ""
  props :=
    match ms.lookup "props" with
    | some (.obj props) => PropExpr.ofMembers props
    | _ => []
  children :=
    match ms.lookup "children" with
    | some (.arr children) => children.filterMap Value.str?
    | _ => []
  visible := ((ms.lookup "visible").bind Value.nonNull?).map Visibility.ofJson
  repeated := (ms.lookup "repeat").bind Repeat.ofJson?

/-- The element that a value describes; only an object does. -/
def ofJson? : Value → Option Element
  | .obj ms => some (ofMembers ms)
  | _ => none

end Element

namespace Spec

/-- The elements that an object's members describe. -/
def elementsOf (ms : List (String × Value)) : KeyMap Element :=
  ms.filterMap fun m => (Element.ofJson? m.2).map (m.1, ·)

/-- The view that a document describes. -/
def ofDocument : Value → Spec
  | .obj ms => {
      root := (Value.stringAt? "root" ms).getD ""
      elements :=
        match ms.lookup "elements" with
        | some (.obj elements) => elementsOf elements
        | _ => []
      state := (ms.lookup "state").bind Value.nonNull? }
  | _ => {}

end Spec

/-! ## Writing

The fields are listed once, in their declared order. As a value a view has them in key order, like
any other object; printed, it has them as declared. -/

namespace Repeat

/-- The fields of a repeat. -/
def fields (r : Repeat) : List (String × Option Value) :=
  [("statePath", some (.str r.statePath)), ("key", r.key.map .str)]

/-- The repeat as a value. -/
def toJson (r : Repeat) : Value := .ofRecord r.fields

/-- The repeat as it is printed. -/
def toPrinted (r : Repeat) : Value := .ofFields r.fields

end Repeat

namespace Element

/-- The fields of an element, whose repeat is written so. -/
def fields (write : Repeat → Value) (e : Element) : List (String × Option Value) :=
  [ ("type", some (.str e.type)),
    ("props", some (.obj (PropExpr.membersToJson e.props))),
    ("children", some (.arr (e.children.map .str))),
    ("visible", e.visible.map Visibility.toJson),
    ("repeat", e.repeated.map write)]

/-- The element as a value. -/
def toJson (e : Element) : Value := .ofRecord (e.fields Repeat.toJson)

/-- The element as it is printed. -/
def toPrinted (e : Element) : Value := .ofFields (e.fields Repeat.toPrinted)

end Element

namespace Spec

/-- The fields of a view, whose elements are written so. -/
def fields (write : Element → Value) (s : Spec) : List (String × Option Value) :=
  [ ("root", some (.str s.root)),
    ("elements", some (.obj (s.elements.map fun e => (e.1, write e.2)))),
    ("state", s.state)]

/-- The view as a document. -/
def toDocument (s : Spec) : Value := .ofRecord (s.fields Element.toJson)

/-- The view as it is printed. -/
def toPrinted (s : Spec) : Value := .ofFields (s.fields Element.toPrinted)

/-- The element with a key. -/
def element? (s : Spec) (key : String) : Option Element := s.elements.lookup key

/-- The root element, if there is one. -/
def rootElement? (s : Spec) : Option Element := s.element? s.root

/-- The state a view starts from: its own, or an empty object. -/
def initialState (s : Spec) : Value := s.state.getD (.obj [])

end Spec

end ViewStream
