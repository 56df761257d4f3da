import ViewStream.Session
import ViewStream.Spec.Issue

/-!
# All problems of a stream

A check applies a stream strictly and goes on after every failure, so that it finds all lines and
patches that cannot be used, in order, and then what the view lacks that the others build.
-/

namespace ViewStream

open Json (Value)

/-- One problem of a stream. -/
inductive Problem where
  /-- A line is no patch. -/
  | line (error : LineError)
  /-- The patch on a line could not be applied. -/
  | apply (line : Nat) (error : ApplyError)
  /-- The view lacks something. -/
  | issue (issue : Issue)
deriving DecidableEq, Repr

/-- The wording of a problem. -/
def Problem.message : Problem → String
  | .line e => e.message
  | .apply n e => "Apply error at line " ++ Text.decimal n ++ ": " ++ e.message
  | .issue i => "Spec issue: " ++ i.message

namespace Check

/-- All entries of a whole text, each with its line number. -/
def entries (text : String) : List (Nat × Entry) :=
  let (complete, reader) := PatchReader.push {} (Text.Utf8.bytesOf text)
  complete ++ reader.flush.1.toList

/-- Apply entries strictly, going on after each failure: the problems, and the document. -/
def apply : List (Nat × Entry) → Value → List Problem × Value
  | [], v => ([], v)
  | (_, .error e) :: rest, v =>
    let (problems, v) := apply rest v
    (.line e :: problems, v)
  | (n, .ok p) :: rest, v =>
    match p.apply .strict v with
    | (v, none) => apply rest v
    | (v, some e) =>
      let (problems, v) := apply rest v
      (.apply n e :: problems, v)

end Check

/-- All problems of a stream, those of the view last. -/
def check (text : String) : List Problem :=
  let (problems, v) := Check.apply (Check.entries text) (.obj [])
  problems ++ (Spec.ofDocument v).issues.map .issue

end ViewStream
