import ViewStream.Json.Printer
import ViewStream.Json.Reader

/-!
# Patches

A patch is one change to a document: what to do, where, and with which value. Two readers take a
patch from a JSON value, and **they disagree about a value that is null**:

* `ofJson` names the first defect it meets; a null value is a value like any other;
* `decode?` gives no reasons; for it a null value is no value, and no operation needs one. It also
  takes the fields as an array in their order, and an operation as an object with that one member.

`toLine` writes a patch on one line.
-/

namespace ViewStream

open Json (Value)

/-- What a patch does at its path. -/
inductive Op where
  /-- Insert; append where the target or its parent is an array. -/
  | add
  /-- Write, making the containers that are missing. -/
  | set
  /-- Overwrite where the parent exists. -/
  | replace
  /-- Delete. -/
  | remove
deriving DecidableEq, Repr

namespace Op

/-- The name of an operation on the wire. -/
def name : Op → String
  | .add => "add"
  | .set => "set"
  | .replace => "replace"
  | .remove => "remove"

/-- The operation with a name. -/
def ofName? (s : String) : Option Op :=
  if s = "add" then some .add
  else if s = "set" then some .set
  else if s = "replace" then some .replace
  else if s = "remove" then some .remove
  else none

/-- Whether the operation needs a value. -/
def takesValue : Op → Bool
  | .remove => false
  | _ => true

/-- **Every operation is found by its name.** -/
theorem ofName?_name (op : Op) : ofName? op.name = some op := by
  cases op <;> decide

end Op

/-- One change to a document. -/
structure Patch where
  /-- What to do. -/
  op : Op
  /-- The text of a pointer: where to do it. -/
  path : String
  /-- What to write there. -/
  value : Option Value
deriving DecidableEq, Repr

namespace Patch

/-- Why a text is not a patch. -/
inductive Defect where
  /-- The text is no JSON value. Where it stops to be one is for the JSON reader to say; that is
  settled by the text. -/
  | invalidJson (text : String)
  /-- The value is no object. -/
  | notAnObject
  /-- There is no string under `op`. -/
  | missingOp
  /-- No operation has this name. -/
  | unknownOp (name : String)
  /-- There is no string under `path`. -/
  | missingPath
  /-- The operation needs a value and has none. -/
  | missingValue (op : Op)
deriving DecidableEq, Repr

/-- The wording of a defect, for a text that is no JSON value without what the JSON reader has to
say of it. -/
def Defect.message : Defect → String
  | .invalidJson _ => "invalid JSON"
  | .notAnObject => "expected a JSON object"
  | .missingOp => "missing or non-string \"op\""
  | .unknownOp name => "unknown op \"" ++ name ++ "\""
  | .missingPath => "missing or non-string \"path\""
  | .missingValue op => "op \"" ++ op.name ++ "\" requires a \"value\""

/-- The patch that the members of an object describe, or the first defect in the order operation,
path, value. Other members are ignored. -/
def ofMembers (ms : List (String × Value)) : Except Defect Patch :=
  match Value.stringAt? "op" ms with
  | none => .error .missingOp
  | some name =>
    match Op.ofName? name with
    | none => .error (.unknownOp name)
    | some op =>
      match Value.stringAt? "path" ms with
      | none => .error .missingPath
      | some path =>
        if op.takesValue ∧ ms.lookup "value" = none then .error (.missingValue op)
        else .ok ⟨op, path, ms.lookup "value"⟩

/-- The patch that a value describes, or its first defect. -/
def ofJson : Value → Except Defect Patch
  | .obj ms => ofMembers ms
  | _ => .error .notAnObject

/-! ## The reader without reasons -/

/-- An operation by its name, or as an object with the name as its one member. -/
def decodeOp? : Value → Option Op
  | .str s => Op.ofName? s
  | .obj [(name, .null)] => Op.ofName? name
  | _ => none

/-- A value that may be absent; null counts as absent. -/
def decodeValue : Option Value → Option Value
  | some .null => none
  | v => v

/-- A patch from its three fields. -/
def decodeFields? (op path : Value) (value : Option Value) : Option Patch :=
  match decodeOp? op, path with
  | some op, .str path => some ⟨op, path, decodeValue value⟩
  | _, _ => none

/-- The patch that a value describes, as an object or as an array of its fields. -/
def decode? : Value → Option Patch
  | .obj ms =>
    match ms.lookup "op", ms.lookup "path" with
    | some op, some path => decodeFields? op path (ms.lookup "value")
    | _, _ => none
  | .arr [op, path] => decodeFields? op path none
  | .arr [op, path, value] => decodeFields? op path (some value)
  | _ => none

/-! ## Writing -/

/-- The patch as a value. -/
def toJson (p : Patch) : Value :=
  Value.ofFields [("op", some (.str p.op.name)), ("path", some (.str p.path)), ("value", p.value)]

/-- The patch on one line, without the line break. -/
def toLine (p : Patch) : String := p.toJson.compact

end Patch

end ViewStream
