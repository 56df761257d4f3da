import ViewStream.Spec.Basic

/-!
# What a finished view lacks

A view is complete when its root is an element, every element has a type and every child is an
element. `Spec.issues` lists what is missing: first the root's issue, then element by element in
key order, the type before the children.
-/

namespace ViewStream

/-- One thing that a view lacks. -/
inductive Issue where
  /-- No root is named. -/
  | missingRoot
  /-- The root is no element. -/
  | danglingRoot (root : String)
  /-- A child is no element. -/
  | danglingChild (parent child : String)
  /-- An element has no type. -/
  | missingType (key : String)
deriving DecidableEq, Repr

/-- The wording of an issue. -/
def Issue.message : Issue → String
  | .missingRoot => "spec has no root"
  | .danglingRoot root => "root \"" ++ root ++ "\" is not an element"
  | .danglingChild parent child =>
    "element \"" ++ parent ++ "\" references missing child \"" ++ child ++ "\""
  | .missingType key => "element \"" ++ key ++ "\" has no type"

namespace Spec

/-- Whether a key names an element. -/
def hasElement (s : Spec) (key : String) : Bool := KeyMap.contains key s.elements

/-- The issue of the root, if it has one. -/
def rootIssues (s : Spec) : List Issue :=
  if s.root = "" then [.missingRoot]
  else if s.hasElement s.root then []
  else [.danglingRoot s.root]

/-- The issues of one element. -/
def elementIssues (s : Spec) (key : String) (e : Element) : List Issue :=
  (if e.type = "" then [.missingType key] else [])
    ++ (e.children.filter fun c => !s.hasElement c).map (.danglingChild key)

/-- All issues of a view, in order. -/
def issues (s : Spec) : List Issue :=
  s.rootIssues ++ s.elements.flatMap fun e => s.elementIssues e.1 e.2

end Spec

end ViewStream
