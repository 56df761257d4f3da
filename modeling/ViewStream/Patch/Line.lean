import ViewStream.Patch.Basic
import ViewStream.Text.Blank
import ViewStream.Text.Pieces

/-!
# Patches on lines

A line holds one patch as JSON, or nothing but white space. `parseAll` reads a whole text and
keeps the patches of the lines that hold one.
-/

namespace ViewStream.Patch

/-- The patch on a line; a blank line has none. -/
def parseLine (line : String) : Except Defect (Option Patch) :=
  match Text.trim line.toList with
  | [] => .ok none
  | text =>
    match Json.read? (String.ofList text) with
    | none => .error (.invalidJson (String.ofList text))
    | some v => (ofJson v).map some

/-- The patch on a line, whatever else may be wrong with it. -/
def onLine? (line : String) : Option Patch :=
  match parseLine line with
  | .ok p => p
  | .error _ => none

/-- The lines of a text. A line break ends a line, as does a carriage return with a line break;
after the last line break there is a line only if there is text. -/
def lines (text : String) : List String :=
  let (done, rest) := Text.cut '\n' text.toList
  (done.map fun l => String.ofList (Text.dropFinal '\r' l))
    ++ (if rest = [] then [] else [String.ofList rest])

/-- The patches in a text; lines without a patch are passed over. -/
def parseAll (text : String) : List Patch :=
  (lines text).filterMap onLine?

end ViewStream.Patch
