import ViewStream.View.Repeat

/-!
# Walking the visible tree

A walk goes through the elements that are shown, parents first, and tells a visitor of each: on
entering an element, with its props resolved, and on leaving it. The children of an element with a
repeat are walked once for each item, between the entering and the leaving of the item. **A visitor
that answers `false` on entering an element is not told of anything below it.**

Child keys come from an untrusted producer, so two guards bound the walk: an element within itself
is passed over, and so is one with `maxDepth` elements around it. A walk that may go `room` levels
further down recurses on `room`.
-/

namespace ViewStream

open Json (Value)

/-- How many elements may be open at once. -/
def maxDepth : Nat := 256

/-- An element as it is shown in a context. -/
structure ShownElement where
  /-- The key of the element. -/
  key : String
  /-- What it is drawn as. -/
  type : String
  /-- Its props, resolved. -/
  props : List (String × Value)
  /-- The pointers that its props write to. -/
  bindings : KeyMap String
  /-- How many elements are around it. -/
  depth : Nat
deriving DecidableEq, Repr

namespace Element

/-- The pointers that an element's props write to. -/
def bindings (e : Element) (c : Context) : KeyMap String :=
  e.props.filterMap fun p => (p.2.bindingPath? c).map (p.1, ·)

/-- Whether an element is shown. -/
def shows (e : Element) (c : Context) : Bool :=
  match e.visible with
  | none => true
  | some v => v.holds c

/-- An element as it is shown. -/
def shown (e : Element) (key : String) (depth : Nat) (c : Context) : ShownElement where
  key := key
  type := e.type
  props := PropExpr.resolveMembers c e.props
  bindings := e.bindings c
  depth := depth

end Element

/-- What a walk tells of, with a state of type `σ` that goes from one call to the next. -/
structure Visitor (σ : Type) where
  /-- An element is entered. The answer says whether to go further down. -/
  enter : σ → ShownElement → Bool × σ
  /-- An element is left. -/
  leave : σ → ShownElement → σ
  /-- The children of an element begin for one item. -/
  enterItem : σ → RepeatItem → σ
  /-- The children of an element end for one item. -/
  leaveItem : σ → RepeatItem → σ

namespace Spec

variable {σ : Type}

/-- Walk the element `key`, with the elements `around` it open and room for `room` levels more. -/
def visitWithin (spec : Spec) (v : Visitor σ) :
    (room : Nat) → (around : List String) → Context → (key : String) → σ → σ
  | 0, _, _, _, s => s
  | room + 1, around, c, key, s =>
    match spec.element? key with
    | none => s
    | some e =>
      if around.contains key || !e.shows c then s
      else
        let shown := e.shown key around.length c
        let children := fun (c : Context) (s : σ) =>
          e.children.foldl (fun s child => visitWithin spec v room (key :: around) c child s) s
        match v.enter s shown with
        | (false, s) => v.leave s shown
        | (true, s) =>
          match e.repeated with
          | none => v.leave (children c s) shown
          | some r =>
            v.leave ((r.expand c.state).foldl (fun s item =>
              v.leaveItem (children (c.withItem item) (v.enterItem s item)) item) s) shown

/-- Walk from the element `key` in a context. -/
def visit (spec : Spec) (v : Visitor σ) (c : Context) (key : String) (s : σ) : σ :=
  spec.visitWithin v maxDepth [] c key s

/-- Walk from the root in a state; without a root there is nothing to walk. -/
def walk (spec : Spec) (v : Visitor σ) (state : Value) (s : σ) : σ :=
  if spec.root = "" then s else spec.visit v { state } spec.root s

end Spec

end ViewStream
