/-!
# The command line

The command has three tasks, and two options that may stand before the task or after it. What
stands after it wins. **Reading goes from left to right and stops at the first thing that settles
the matter**: a request for help, or a mistake.

An option is given at most once on each side of the task. Its value follows in the same word after
an equals sign, or is the next word, which then may not look like an option. After a lone `--`
every word is a path.
-/

namespace ViewStream.Command

/-- What the command can do. -/
inductive Verb where
  | compile | check | render
deriving DecidableEq, Repr

/-- The word for a task. -/
def Verb.name : Verb → String
  | .compile => "compile"
  | .check => "check"
  | .render => "render"

/-- The task that a word asks for. -/
def Verb.ofName? (s : String) : Option Verb :=
  [Verb.compile, .check, .render].find? fun v => v.name == s

/-- Which part of the command line is being read. -/
inductive Level where
  /-- Before the task. -/
  | top
  /-- After it. -/
  | below (verb : Verb)
deriving DecidableEq, Repr

/-- What has been given at one level. -/
structure Flags where
  /-- Whether to be strict. -/
  strict : Bool := false
  /-- The configuration file. -/
  config : Option String := none
  /-- The state file. -/
  state : Option String := none
  /-- The input. -/
  path : Option String := none
deriving DecidableEq, Repr

/-- Why reading stopped early. -/
inductive Halt where
  /-- Help on the level was asked for. -/
  | help (level : Level)
  /-- Help on asking for help was asked for. -/
  | helpOnHelp
  /-- The version was asked for. -/
  | version
  /-- The command line makes no sense. -/
  | misuse
deriving DecidableEq, Repr

/-- What one word looks like. -/
inductive Word where
  /-- Two dashes alone. -/
  | escape
  /-- A name after two dashes, perhaps with a value. -/
  | long (name : String) (value : Option String)
  /-- Letters after one dash, of which the first one counts. -/
  | short (letter : Char)
  /-- Anything else, a lone dash too. -/
  | plain
deriving DecidableEq, Repr

/-- What a word looks like. -/
def Word.ofText (s : String) : Word :=
  match s.toList with
  | ['-', '-'] => .escape
  | '-' :: '-' :: cs =>
    let name := String.ofList (cs.takeWhile (· ≠ '='))
    match cs.dropWhile (· ≠ '=') with
    | [] => .long name none
    | _ :: value => .long name (some (String.ofList value))
  | '-' :: c :: _ => .short c
  | _ => .plain

namespace Flags

/-- Ask to be strict, once. -/
def addStrict (f : Flags) : Option Flags :=
  if f.strict then none else some { f with strict := true }

/-- Give an option its value, once; a file name is not empty. -/
def addValue (f : Flags) (level : Level) (name value : String) : Option Flags :=
  if value = "" then none
  else if name = "config" then
    if f.config.isSome then none else some { f with config := some value }
  else if name = "state" ∧ level = .below .render then
    if f.state.isSome then none else some { f with state := some value }
  else none

/-- Give the input, once. -/
def addPath (f : Flags) (path : String) : Option Flags :=
  if f.path.isSome then none else some { f with path := some path }

/-- Words that are all paths. -/
def readPaths : Flags → List String → Except Halt Flags
  | f, [] => .ok f
  | f, s :: rest =>
    match f.addPath s with
    | some f => readPaths f rest
    | none => .error .misuse

/-- Read words at a level. Before the task this ends at the first word that is no option; the words
from there on are returned. -/
def read (level : Level) : Flags → List String → Except Halt (Flags × List String)
  | f, [] => .ok (f, [])
  | f, s :: rest =>
    match Word.ofText s with
    | .escape =>
      if level = .top then .error .misuse else (f.readPaths rest).map (·, [])
    | .short c =>
      if c = 'h' then .error (.help level)
      else if c = 'V' ∧ level = .top then .error .version
      else .error .misuse
    | .long name none =>
      if name = "help" then .error (.help level)
      else if name = "version" ∧ level = .top then .error .version
      else if name = "strict" then
        match f.addStrict with
        | some f => read level f rest
        | none => .error .misuse
      else
        match rest with
        | [] => .error .misuse
        | value :: rest =>
          if Word.ofText value = .plain then
            match f.addValue level name value with
            | some f => read level f rest
            | none => .error .misuse
          else .error .misuse
    | .long name (some value) =>
      match f.addValue level name value with
      | some f => read level f rest
      | none => .error .misuse
    | .plain =>
      if level = .top then .ok (f, s :: rest)
      else
        match f.addPath s with
        | some f => read level f rest
        | none => .error .misuse

end Flags

/-- What the command was asked to do. -/
structure Invocation where
  /-- The task. -/
  verb : Verb
  /-- The input: a file, or `-` for standard input. -/
  path : String
  /-- The state file, or `-`. -/
  state : Option String
  /-- Whether to be strict whatever the configuration says. -/
  strict : Bool
  /-- The configuration file. -/
  config : Option String
deriving DecidableEq, Repr

/-- The help that the words after `help` ask for. -/
def helpOn : List String → Halt
  | [] => .help .top
  | [s] =>
    if s = "help" then .helpOnHelp
    else
      match Verb.ofName? s with
      | some v => .help (.below v)
      | none => .misuse
  | _ => .misuse

/-- Read a whole command line. -/
def Invocation.ofArguments (args : List String) : Except Halt Invocation := do
  let (top, rest) ← Flags.read .top {} args
  match rest with
  | [] => .error .misuse
  | s :: rest =>
    if s = "help" then .error (helpOn rest)
    else
      match Verb.ofName? s with
      | none => .error .misuse
      | some verb =>
        let (below, _) ← Flags.read (.below verb) {} rest
        match below.path with
        | none => .error .misuse
        | some path =>
          .ok {
            verb, path, state := below.state
            strict := top.strict || below.strict
            config := below.config <|> top.config }

end ViewStream.Command
