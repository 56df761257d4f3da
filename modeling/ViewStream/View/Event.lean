import ViewStream.View.Walk

/-!
# What a walk tells, written down

The recorder is the visitor that writes down every call. Its state is the list of events so far.
-/

namespace ViewStream

/-- One call of a visitor. -/
inductive Event where
  /-- An element was entered. -/
  | enter (element : ShownElement)
  /-- An element was left. -/
  | leave (element : ShownElement)
  /-- The children began for an item. -/
  | enterItem (item : RepeatItem)
  /-- The children ended for an item. -/
  | leaveItem (item : RepeatItem)
deriving DecidableEq, Repr

/-- The visitor that records every call and goes below an element where `descend` says so. -/
def Visitor.recorder (descend : ShownElement → Bool) : Visitor (Array Event) where
  enter events e := (descend e, events.push (.enter e))
  leave events e := events.push (.leave e)
  enterItem events i := events.push (.enterItem i)
  leaveItem events i := events.push (.leaveItem i)

namespace Spec

/-- The events of a walk from the root. -/
def events (spec : Spec) (descend : ShownElement → Bool) (state : Json.Value) : List Event :=
  (spec.walk (.recorder descend) state #[]).toList

/-- The events of a walk from an element in a context. -/
def eventsAt (spec : Spec) (descend : ShownElement → Bool) (c : Context) (key : String) :
    List Event :=
  (spec.visit (.recorder descend) c key #[]).toList

end Spec

end ViewStream
