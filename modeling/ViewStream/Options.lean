import ViewStream.Document.Obstacle

/-!
# Options as JSON

The options of a compilation are one field, `mode`, which is `lenient` unless it is given. They
are an object with that field or an array of fields in their order; a mode is its name, or an
object with the name as its one member.
-/

namespace ViewStream

open Json (Value)

namespace Mode

/-- The name of a mode. -/
def name : Mode → String
  | .lenient => "lenient"
  | .strict => "strict"

/-- The mode with a name. -/
def ofName? (s : String) : Option Mode :=
  if s = "lenient" then some .lenient
  else if s = "strict" then some .strict
  else none

/-- The mode that a value names. -/
def ofJson? : Value → Option Mode
  | .str s => ofName? s
  | .obj [(name, .null)] => ofName? name
  | _ => none

end Mode

/-- How to compile. -/
structure Options where
  /-- How forgiving to be. -/
  mode : Mode := .lenient
deriving DecidableEq, Repr, Inhabited

/-- The options that a value describes. Other members are ignored. -/
def Options.ofJson? : Value → Option Options
  | .obj ms =>
    match ms.lookup "mode" with
    | none => some {}
    | some v => (Mode.ofJson? v).map fun m => { mode := m }
  | .arr [] => some {}
  | .arr [v] => (Mode.ofJson? v).map fun m => { mode := m }
  | _ => none

end ViewStream
