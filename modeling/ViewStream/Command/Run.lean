import ViewStream.Check
import ViewStream.Command.Help
import ViewStream.Command.Host
import ViewStream.Config
import ViewStream.View.Tree

/-!
# Running the command

The outcome of a run is an exit code and two texts. **Trouble comes in a fixed order**: the command
line, the configuration, the input, and last the state; so a stream that does not compile is
reported even if the state file is missing.

A configuration file that is asked for must exist; the default one need not. Standard input can be
read once; whoever reads it again finds it empty.
-/

namespace ViewStream.Command

open Json (Value)

/-- What a run leaves behind. -/
structure Exit where
  /-- The exit code. -/
  code : Nat
  /-- What was written to standard output. -/
  stdout : String := ""
  /-- What was written to standard error. -/
  stderr : String := ""
deriving DecidableEq, Repr

/-- A run that fails with a message. -/
def fail (message : String) : Exit := { code := 1, stderr := message ++ "\n" }

/-- A run that prints a value. -/
def printed (v : Value) : Exit := { code := 0, stdout := v.pretty ++ "\n" }

/-- The configuration file that is read when none is asked for. -/
def defaultConfigFile : String := "specstream.toml"

/-- The configuration in a file. -/
def configIn (h : Host) (path : String) : Except String Config :=
  match (h.place path).text with
  | .error e => .error ("Error: Failed to read config file '" ++ path ++ "': " ++ e.message)
  | .ok text =>
    match Config.parse? text with
    | some c => .ok c
    | none => .error ("Error: Failed to parse config file '" ++ path ++ "'")

/-- The configuration in force. -/
def loadConfig (h : Host) (asked : Option String) : Except String Config :=
  match asked with
  | some path => configIn h path
  | none =>
    if h.place defaultConfigFile = .absent then .ok {} else configIn h defaultConfigFile

/-- The text of an input, and what standard input holds afterwards. -/
def readSource (h : Host) (path : String) : Except String (String × Host) :=
  if path = "-" then
    match textOf h.stdin with
    | .ok text => .ok (text, { h with stdin := [] })
    | .error e => .error ("Error reading stdin: " ++ e.message)
  else
    match (h.place path).text with
    | .ok text => .ok (text, h)
    | .error .absent => .error ("Error: file not found: " ++ path)
    | .error e => .error ("Error reading " ++ path ++ ": " ++ e.message)

/-- The view in an input. -/
def readSpec (h : Host) (path : String) (options : Options) : Except String (Spec × Host) := do
  let (text, h) ← readSource h path
  match compile text options with
  | .ok spec => .ok (spec, h)
  | .error e => .error ("Compile error: " ++ e.message)

/-- The state to draw a view against. -/
def readState (h : Host) (path : Option String) (spec : Spec) : Except String Value :=
  match path with
  | none => .ok spec.initialState
  | some path => do
    let (text, _) ← readSource h path
    match Json.read? text with
    | some v => .ok v
    | none => .error ("Invalid state JSON in " ++ path)

/-- The report of a check. -/
def report (path : String) (problems : List Problem) : Exit :=
  match problems with
  | [] => { code := 0, stderr := "OK: " ++ path ++ "\n" }
  | _ => {
      code := 1
      stderr := unlines (problems.map Problem.message
        ++ [Text.decimal problems.length ++ " problem(s) in " ++ path]) }

/-- Carry out a task. -/
def perform (h : Host) (i : Invocation) : Except String Exit := do
  let config ← loadConfig h i.config
  let options := if i.strict then { config.compiler with mode := .strict } else config.compiler
  match i.verb with
  | .compile =>
    let (spec, _) ← readSpec h i.path options
    return printed spec.toPrinted
  | .check =>
    let (text, _) ← readSource h i.path
    return report i.path (check text)
  | .render =>
    let (spec, h) ← readSpec h i.path options
    let state ← readState h i.state spec
    return printed (match spec.render state with
      | some tree => tree.toJson
      | none => .null)

/-- Run the command. -/
def run (args : List String) (h : Host) : Exit :=
  match Invocation.ofArguments args with
  | .error (.help level) => { code := 0, stdout := helpText level }
  | .error .helpOnHelp => { code := 0, stdout := helpOnHelpText }
  | .error .version => { code := 0, stdout := versionText }
  | .error .misuse => { code := 2, stderr := usageText }
  | .ok i =>
    match perform h i with
    | .ok outcome => outcome
    | .error message => fail message

end ViewStream.Command
