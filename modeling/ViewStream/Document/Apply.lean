import ViewStream.Document.Edit

/-!
# Applying patches

| operation | missing parent | missing target | array parent |
|---|---|---|---|
| `add` | made | inserted | appended |
| `set` | made | inserted | overwritten, or appended at the end or `-` |
| `replace` | nothing | inserted | overwritten in range, else nothing |
| `remove` | nothing | nothing | removed in range, else nothing |

That is the lenient table; a strict application reports an obstacle wherever this one makes
something or does nothing, and for a `replace` that would insert. At the root the first three
put their value in place of the document and `remove` an empty object.

`Patch.apply` returns the document with the error, if there is one.
-/

namespace ViewStream

open Json (Value)

namespace Document

/-- The outcome of an edit whose obstacles a lenient application passes over. -/
def recover (mode : Mode) (v : Value) : Except Obstacle Value → Value × Option Obstacle
  | .ok v' => (v', none)
  | .error o =>
    match mode with
    | .strict => (v, some o)
    | .lenient => (v, none)

/-- Insert or append at a path. -/
def add (mode : Mode) (path : Pointer) (value v : Value) : Value × Option Obstacle :=
  match path.segments with
  | [] => (value, none)
  | s :: rest => write mode (addLeaf value) s rest v

/-- Write at a path. -/
def set (mode : Mode) (path : Pointer) (value v : Value) : Value × Option Obstacle :=
  match path.segments with
  | [] => (value, none)
  | s :: rest => write mode (setLeaf mode value) s rest v

/-- Overwrite at a path. -/
def replace (mode : Mode) (path : Pointer) (value v : Value) : Value × Option Obstacle :=
  match path.segments with
  | [] => (value, none)
  | s :: rest => recover mode v (amend .missingParent (replaceLeaf mode value) s rest v)

/-- Delete at a path. -/
def remove (mode : Mode) (path : Pointer) (v : Value) : Value × Option Obstacle :=
  match path.segments with
  | [] => (.obj [], none)
  | s :: rest => recover mode v (amend .missingTarget removeLeaf s rest v)

end Document

namespace Patch

/-- What an operation with its value does to a document; `none` is an operation that lacks its
value. -/
def edit (mode : Mode) (p : Patch) (v : Value) : Option (Value × Option Obstacle) :=
  let path := Pointer.parse p.path
  match p.op, p.value with
  | .remove, _ => some (Document.remove mode path v)
  | .add, some value => some (Document.add mode path value v)
  | .set, some value => some (Document.set mode path value v)
  | .replace, some value => some (Document.replace mode path value v)
  | _, none => none

/-- Apply a patch: the document afterwards, and the error that stopped the patch. -/
def apply (mode : Mode) (p : Patch) (v : Value) : Value × Option ApplyError :=
  match edit mode p v with
  | none => (v, some (.missingValue p.op))
  | some (v', stop) => (v', stop.map (.blocked p.op p.path))

/-- Apply patches in order up to the first one that fails. -/
def applyAll (mode : Mode) : List Patch → Value → Value × Option ApplyError
  | [], v => (v, none)
  | p :: ps, v =>
    match apply mode p v with
    | (v', none) => applyAll mode ps v'
    | (v', some e) => (v', some e)

end Patch

end ViewStream
