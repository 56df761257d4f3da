import ViewStream.Document.Apply
import ViewStream.Options
import ViewStream.Patch.Reader
import ViewStream.Spec.Basic

/-!
# One generation of a view

A session takes a stream in chunks and applies its patches to a document as they arrive. The view
that the document describes can be had after every chunk; it is read anew only when a patch may
have touched the document since.

* A **lenient** session drops what it cannot use and goes on.
* A **strict** session is finished by the first line or patch it cannot use.

The last line of a stream may lack its line break: `result` reads it and finishes the session.
A finished session takes no more chunks.
-/

namespace ViewStream

open Json (Value)

/-- Why a compilation failed. -/
inductive CompileError where
  /-- A line is no patch. -/
  | line (error : LineError)
  /-- A patch could not be applied. -/
  | apply (error : ApplyError)
  /-- The session takes no more chunks. -/
  | finished
deriving DecidableEq, Repr

/-- The wording of an error. -/
def CompileError.message : CompileError → String
  | .line e => e.message
  | .apply e => "Apply error: " ++ e.message
  | .finished => "Session already finished; start a new session for the next generation"

/-- What a session has counted. -/
structure Stats where
  /-- Lines read. -/
  lines : Nat := 0
  /-- Patches applied. -/
  applied : Nat := 0
  /-- Lines and patches that could not be used. -/
  dropped : Nat := 0
deriving DecidableEq, Repr, Inhabited

/-- A generation in progress. -/
structure Session where
  /-- The document so far. -/
  document : Value := .obj []
  /-- The view as it was last read. -/
  snapshot : Spec := {}
  /-- Whether the document may have changed since. -/
  dirty : Bool := false
  /-- What has arrived of the next line. -/
  reader : PatchReader := {}
  /-- How to compile. -/
  options : Options := {}
  /-- The counters. -/
  stats : Stats := {}
  /-- Whether the session takes no more chunks. -/
  finished : Bool := false

namespace Session

/-- A session over an empty document. -/
def start (options : Options) : Session := { options }

/-- A session that edits an earlier document. -/
def startFrom (document : Value) (options : Options) : Session :=
  { document, snapshot := Spec.ofDocument document, options }

/-- A session that goes on from the document of this one, with the same options. -/
def reseed (s : Session) : Session := startFrom s.document s.options

/-- Read the view anew if the document may have changed. -/
def refresh (s : Session) : Session :=
  if s.dirty then { s with snapshot := Spec.ofDocument s.document, dirty := false } else s

/-- Deal with an entry that cannot be used. -/
def reject (s : Session) (e : CompileError) : Session × Except CompileError (Option Patch) :=
  match s.options.mode with
  | .strict => ({ s with finished := true }, .error e)
  | .lenient =>
    ({ s with stats := { s.stats with dropped := s.stats.dropped + 1 } }, .ok none)

/-- Use one entry: the patch, if it could be applied. -/
def take (s : Session) : Entry → Session × Except CompileError (Option Patch)
  | .error e => s.reject (.line e)
  | .ok p =>
    let (document, error) := p.apply s.options.mode s.document
    let s := { s with document, dirty := true }
    match error with
    | some e => s.reject (.apply e)
    | none =>
      ({ s with stats := { s.stats with applied := s.stats.applied + 1 } }, .ok (some p))

/-- Use entries in order up to one that finishes the session: the patches applied. -/
def takeAll (s : Session) : List Entry → Session × Except CompileError (List Patch)
  | [] => (s, .ok [])
  | e :: es =>
    match s.take e with
    | (s, .error err) => (s, .error err)
    | (s, .ok p) =>
      match s.takeAll es with
      | (s, .error err) => (s, .error err)
      | (s, .ok ps) => (s, .ok (p.toList ++ ps))

/-- Take in a chunk without reading the view anew. -/
def ingest (s : Session) (chunk : List UInt8) : Session × Except CompileError (List Patch) :=
  if s.finished then (s, .error .finished)
  else
    let (entries, reader) := s.reader.push chunk
    let s := { s with reader, stats := { s.stats with lines := reader.linesSeen } }
    s.takeAll (entries.map Prod.snd)

/-- Take in a chunk: the view and the patches applied. -/
def push (s : Session) (chunk : List UInt8) :
    Session × Except CompileError (Spec × List Patch) :=
  match s.ingest chunk with
  | (s, .error e) => (s, .error e)
  | (s, .ok patches) =>
    let s := s.refresh
    (s, .ok (s.snapshot, patches))

/-- Read the last line and finish the session: the view. -/
def result (s : Session) : Session × Except CompileError Spec :=
  if s.finished then
    let s := s.refresh
    (s, .ok s.snapshot)
  else
    match s.reader.flush with
    | (none, reader) =>
      let s := { s with finished := true, reader }.refresh
      (s, .ok s.snapshot)
    | (some (_, entry), reader) =>
      let s := { s with finished := true, reader,
                        stats := { s.stats with lines := reader.linesSeen } }
      match s.take entry with
      | (s, .error e) => (s, .error e)
      | (s, .ok _) =>
        let s := s.refresh
        (s, .ok s.snapshot)

end Session

/-- The view that a whole text builds. -/
def compile (text : String) (options : Options) : Except CompileError Spec :=
  match (Session.start options).ingest (Text.Utf8.bytesOf text) with
  | (_, .error e) => .error e
  | (s, .ok _) => s.result.2

/-- The view that a whole text builds, whatever is wrong with it. -/
def compileLenient (text : String) : Spec :=
  match compile text {} with
  | .ok spec => spec
  | .error _ => {}

end ViewStream
