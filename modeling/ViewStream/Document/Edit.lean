import ViewStream.Document.Obstacle
import ViewStream.Pointer

/-!
# Edits along a path

An edit walks down a document by the segments of a path and changes the container it arrives at
under the last segment. There are two walks.

* `write` may make containers on the way. It returns **the document as the walk leaves it even when
  an obstacle stops it**, so that what a failed edit leaves behind is something one can ask about.
* `amend` enters only what is there.

What kind of container a walk makes is decided by the segment that will be looked up in it: an
array for a position or `-`, an object for any other name.
-/

namespace ViewStream.Document

open Json (Value)

/-- An empty container in which `segment` can be written. -/
def containerFor (segment : String) : Value :=
  if Pointer.isIndexLike segment then .arr [] else .obj []

/-- The place a segment names in an array of `length` items: a position, or the end for `-`. A
position beyond the end counts as the end unless the mode is strict. -/
def slot (mode : Mode) (length : Nat) (segment : String) : Except Obstacle Nat :=
  if segment = "-" then .ok length
  else
    match Pointer.index? segment with
    | none => .error (.badIndex segment)
    | some i =>
      if i ≤ length then .ok i
      else
        match mode with
        | .strict => .error (.indexOutOfRange i length)
        | .lenient => .ok length

/-- Write item `i`, or append where there is none. -/
def putItem (i : Nat) (v : Value) (xs : List Value) : List Value :=
  if i < xs.length then xs.set i v else xs ++ [v]

/-- The child to go on with, where `found` is what stands in its place and `next` is the segment
that will be looked up in it. A lenient walk makes a child that is missing or null. -/
def enter (mode : Mode) (next : String) (found : Option Value) : Except Obstacle Value :=
  match found, mode with
  | none, .strict => .error .missingParent
  | some .null, .strict => .error (.notAContainer .null)
  | none, .lenient => .ok (containerFor next)
  | some .null, .lenient => .ok (containerFor next)
  | some child, _ => .ok child

/-- Walk down by the segments `first :: rest`, making what is missing, and apply `leaf` to the
container in which the last one is looked up. -/
def write (mode : Mode) (leaf : String → Value → Value × Option Obstacle) :
    (first : String) → (rest : List String) → Value → Value × Option Obstacle
  | last, [], v => leaf last v
  | s, next :: rest, .obj ms =>
    match enter mode next (ms.lookup s) with
    | .error o => (.obj ms, some o)
    | .ok child =>
      let (child, stop) := write mode leaf next rest child
      (.obj (KeyMap.insert s child ms), stop)
  | s, next :: rest, .arr xs =>
    match slot mode xs.length s with
    | .error o => (.arr xs, some o)
    | .ok i =>
      match enter mode next xs[i]? with
      | .error o => (.arr xs, some o)
      | .ok child =>
        let (child, stop) := write mode leaf next rest child
        (.arr (putItem i child xs), stop)
  | _, _ :: _, v => (v, some (.notAContainer v.kind))

/-- Put a child back in its place. -/
def setChild (v : Value) (segment : String) (child : Value) : Value :=
  match v with
  | .obj ms => .obj (KeyMap.insert segment child ms)
  | .arr xs =>
    match Pointer.index? segment with
    | some i => .arr (xs.set i child)
    | none => .arr xs
  | v => v

/-- Walk down by the segments `first :: rest` through what is there and apply `leaf` to the
container in which the last one is looked up; `missing` is the obstacle of a walk that ends before
that. -/
def amend (missing : Obstacle) (leaf : String → Value → Except Obstacle Value) :
    (first : String) → (rest : List String) → Value → Except Obstacle Value
  | last, [], v => leaf last v
  | s, next :: rest, v =>
    match Pointer.child? v s with
    | none => .error missing
    | some child =>
      match amend missing leaf next rest child with
      | .error o => .error o
      | .ok child => .ok (setChild v s child)

/-! ## What happens at the last segment -/

/-- Insert a member, or append to an array: to the parent, or to the array that is already there
unless the value is an array itself. -/
def addLeaf (value : Value) (last : String) : Value → Value × Option Obstacle
  | .obj ms =>
    match ms.lookup last, value with
    | some (.arr _), .arr _ => (.obj (KeyMap.insert last value ms), none)
    | some (.arr xs), _ => (.obj (KeyMap.insert last (.arr (xs ++ [value])) ms), none)
    | _, _ => (.obj (KeyMap.insert last value ms), none)
  | .arr xs => (.arr (xs ++ [value]), none)
  | v => (v, some (.notAContainer v.kind))

/-- Write a member, or the item at a place of an array. -/
def setLeaf (mode : Mode) (value : Value) (last : String) : Value → Value × Option Obstacle
  | .obj ms => (.obj (KeyMap.insert last value ms), none)
  | .arr xs =>
    match slot mode xs.length last with
    | .error o => (.arr xs, some o)
    | .ok i => (.arr (putItem i value xs), none)
  | v => (v, some (.notAContainer v.kind))

/-- Overwrite a member or an item. A lenient edit also inserts a member that is missing. -/
def replaceLeaf (mode : Mode) (value : Value) (last : String) : Value → Except Obstacle Value
  | .obj ms =>
    if mode = .strict ∧ KeyMap.contains last ms = false then .error .missingTarget
    else .ok (.obj (KeyMap.insert last value ms))
  | .arr xs =>
    match Pointer.index? last with
    | none => .error .missingTarget
    | some i => if i < xs.length then .ok (.arr (xs.set i value)) else .error .missingTarget
  | _ => .error .missingTarget

/-- Delete a member or an item. -/
def removeLeaf (last : String) : Value → Except Obstacle Value
  | .obj ms =>
    if KeyMap.contains last ms then .ok (.obj (KeyMap.erase last ms)) else .error .missingTarget
  | .arr xs =>
    match Pointer.index? last with
    | none => .error .missingTarget
    | some i => if i < xs.length then .ok (.arr (xs.eraseIdx i)) else .error .missingTarget
  | _ => .error .missingTarget

end ViewStream.Document
