import ViewStream.Patch.Line
import ViewStream.Patch.LineBuffer
import ViewStream.Text.Decimal

/-!
# Patches out of chunks

The reader is a line buffer whose lines are read as patches. Every line counts, blank or not, and
every line that is not blank yields one entry under its number, counted from 1.
-/

namespace ViewStream

/-- What is wrong on which line. -/
structure LineError where
  /-- The number of the line, from 1. -/
  line : Nat
  /-- Why it holds no patch. -/
  defect : Patch.Defect
deriving DecidableEq, Repr

/-- The wording of a line's error. -/
def LineError.message (e : LineError) : String :=
  "Patch error at line " ++ Text.decimal e.line ++ ": " ++ e.defect.message

/-- What a line that is not blank holds. -/
abbrev Entry := Except LineError Patch

/-- The entry of line number `line`; a blank line has none. -/
def Entry.ofLine? (line : Nat) (text : String) : Option Entry :=
  match Patch.parseLine text with
  | .ok none => none
  | .ok (some p) => some (.ok p)
  | .error d => some (.error ⟨line, d⟩)

/-- Reads patches off a stream of chunks. -/
structure PatchReader where
  /-- The lines still incomplete. -/
  buffer : LineBuffer := {}
deriving DecidableEq, Repr, Inhabited

namespace PatchReader

/-- The entries of lines of which the first has number `first`. -/
def entriesFrom : (first : Nat) → List String → List (Nat × Entry)
  | _, [] => []
  | n, text :: rest =>
    match Entry.ofLine? n text with
    | none => entriesFrom (n + 1) rest
    | some e => (n, e) :: entriesFrom (n + 1) rest

/-- Take in a chunk: the entries of the lines it completes, each with its line number. -/
def push (r : PatchReader) (chunk : List UInt8) : List (Nat × Entry) × PatchReader :=
  let (lines, buffer) := r.buffer.push chunk
  (entriesFrom (r.buffer.emitted + 1) lines, ⟨buffer⟩)

/-- Read the waiting bytes as a last line. -/
def flush (r : PatchReader) : Option (Nat × Entry) × PatchReader :=
  match r.buffer.flush with
  | (none, buffer) => (none, ⟨buffer⟩)
  | (some text, buffer) =>
    ((Entry.ofLine? buffer.emitted text).map (buffer.emitted, ·), ⟨buffer⟩)

/-- How many lines have been read. -/
def linesSeen (r : PatchReader) : Nat := r.buffer.emitted

/-- Whether part of a line is waiting. -/
def hasPending (r : PatchReader) : Bool := !r.buffer.pending.isEmpty

/-- Numbering goes on from one run of lines to the next. -/
theorem entriesFrom_append (n : Nat) (xs ys : List String) :
    entriesFrom n (xs ++ ys) = entriesFrom n xs ++ entriesFrom (n + xs.length) ys := by
  induction xs generalizing n with
  | nil => simp [entriesFrom]
  | cons x xs ih =>
    simp only [List.cons_append, entriesFrom, ih, List.length_cons]
    rw [show n + 1 + xs.length = n + (xs.length + 1) by omega]
    split <;> simp

end PatchReader

end ViewStream
