import ViewStream.View.Walk

/-!
# The drawn tree

The tree builder is the visitor that makes a tree of what a walk shows: a stack of the nodes that
are open, and the tree that was finished last. A node that is left goes to the end of the children
of the node below it on the stack.

A child of an element with a repeat carries the key of its item. The builder knows such a child by
the height of the stack: it is the height at which the innermost item was entered.
-/

namespace ViewStream

open Json (Value)

/-- An element as it is drawn. -/
structure Node where
  /-- The key of the element. -/
  key : String
  /-- What it is drawn as. -/
  type : String
  /-- Its props, resolved. -/
  props : List (String × Value)
  /-- The pointers that its props write to. -/
  bindings : KeyMap String
  /-- The key of the repeat item it is drawn for. -/
  itemKey : Option String
  /-- What is drawn inside it. -/
  children : List Node

namespace Node

mutual

/-- The node as a value; no bindings and no item key are left out. -/
def toJson : Node → Value
  | ⟨key, type, props, bindings, itemKey, children⟩ =>
    .ofFields [
      ("key", some (.str key)),
      ("type", some (.str type)),
      ("props", some (.obj props)),
      ("bindings",
        if bindings.isEmpty then none else some (.obj (bindings.map fun b => (b.1, .str b.2)))),
      ("itemKey", itemKey.map .str),
      ("children", some (.arr (listToJson children)))]

/-- Nodes as values. -/
def listToJson : List Node → List Value
  | [] => []
  | n :: ns => n.toJson :: listToJson ns

end

/-- A node for a shown element, with no children yet. -/
def ofShown (e : ShownElement) (itemKey : Option String) : Node :=
  ⟨e.key, e.type, e.props, e.bindings, itemKey, []⟩

/-- The node with one child more. -/
def addChild (n child : Node) : Node :=
  { n with children := n.children ++ [child] }

end Node

/-- A tree in the making. -/
structure TreeBuilder where
  /-- The open nodes, innermost first. -/
  stack : List Node := []
  /-- The open items, innermost first, each with the height of the stack when it was entered. -/
  items : List (String × Nat) := []
  /-- The tree that was finished last. -/
  root : Option Node := none

namespace TreeBuilder

/-- The key of the item that a new node is drawn for. -/
def itemKey? (b : TreeBuilder) : Option String :=
  match b.items with
  | (key, height) :: _ => if height = b.stack.length then some key else none
  | [] => none

/-- Open a node. -/
def push (b : TreeBuilder) (e : ShownElement) : TreeBuilder :=
  { b with stack := .ofShown e b.itemKey? :: b.stack }

/-- Close the innermost node. -/
def pop (b : TreeBuilder) : TreeBuilder :=
  match b.stack with
  | [] => b
  | [done] => { b with stack := [], root := some done }
  | done :: parent :: stack => { b with stack := parent.addChild done :: stack }

/-- Open an item. -/
def pushItem (b : TreeBuilder) (item : RepeatItem) : TreeBuilder :=
  { b with items := (item.key, b.stack.length) :: b.items }

/-- Close the innermost item. -/
def popItem (b : TreeBuilder) : TreeBuilder :=
  { b with items := b.items.tail }

/-- The visitor that builds the tree. -/
def visitor : Visitor TreeBuilder where
  enter b e := (true, b.push e)
  leave b _ := b.pop
  enterItem b item := b.pushItem item
  leaveItem b _ := b.popItem

end TreeBuilder

/-- The tree that a view shows in a state, if it shows anything. -/
def Spec.render (spec : Spec) (state : Value) : Option Node :=
  (spec.walk TreeBuilder.visitor state {}).root

end ViewStream
