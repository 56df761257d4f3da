import ViewStream.Text.Utf8

/-!
# Where input comes from

The command reads files and standard input. Reading is described by what stands at each path; a
path that leads to a directory exists but cannot be read as text.
-/

namespace ViewStream.Command

/-- What stands at a path. -/
inductive PathContent where
  /-- A file with these bytes. -/
  | file (bytes : List UInt8)
  /-- A directory. -/
  | directory
  /-- Nothing. -/
  | absent
deriving DecidableEq, Repr

/-- All that the command can read. -/
structure Host where
  /-- What stands at each path. -/
  place : String → PathContent
  /-- Standard input. -/
  stdin : List UInt8

/-- Why bytes could not be read as text. -/
inductive ReadError where
  | absent | directory | notUtf8
deriving DecidableEq, Repr

/-- The wording of a read error. -/
def ReadError.message : ReadError → String
  | .absent => "No such file or directory (os error 2)"
  | .directory => "Is a directory (os error 21)"
  | .notUtf8 => "stream did not contain valid UTF-8"

/-- Bytes as text. -/
def textOf (bytes : List UInt8) : Except ReadError String :=
  match Text.Utf8.decode? bytes with
  | some cs => .ok (String.ofList cs)
  | none => .error .notUtf8

/-- What stands at a place, as text. -/
def PathContent.text : PathContent → Except ReadError String
  | .file bytes => textOf bytes
  | .directory => .error .directory
  | .absent => .error .absent

/-! ## A folder in memory -/

/-- Files by name: the whole working directory. -/
abbrev Folder := List (String × List UInt8)

namespace Folder

/-- A path without the steps that stay where they are. -/
def normal : List Char → List Char
  | '.' :: '/' :: cs => normal cs
  | cs => cs

/-- What stands at a path. A directory exists if it is one of those every folder has, or if a file
lies in it. -/
def place (files : Folder) (path : String) : PathContent :=
  let cs := normal path.toList
  match files.lookup (String.ofList cs) with
  | some bytes => .file bytes
  | none =>
    let known := [['.'], ['.', '.'], ['.', '.', '/'], ['/']]
    let holds := cs ≠ [] && files.any fun f => (cs ++ ['/']).isPrefixOf f.1.toList
    if known.contains cs || holds || (cs = [] && path ≠ "") then .directory else .absent

end Folder

end ViewStream.Command
