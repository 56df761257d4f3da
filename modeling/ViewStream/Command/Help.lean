import ViewStream.Command.Arguments

/-!
# Help texts

What the command prints when it is asked for help or for its version.
-/

namespace ViewStream.Command

/-- Lines, each with its line break. -/
def unlines (lines : List String) : String :=
  String.join (lines.map (· ++ "\n"))

/-- The name and version of the command. -/
def versionText : String := "specstream 0.7.0\n"

/-- The options that may stand on both sides of the task. -/
def sharedOptions : List String := [
  "      --strict         Fail on the first malformed line or failed patch",
  "      --config <FILE>  Config file (defaults to ./specstream.toml when present)"]

/-- The option that asks for help. -/
def helpOption : String := "  -h, --help           Print help"

/-- What a task does, in one line. -/
def Verb.about : Verb → String
  | .compile => "Compile a SpecStream file and print the spec as JSON"
  | .check => "Report every patch error and structural issue in a SpecStream file"
  | .render => "Compile, resolve against state and print the render tree as JSON"

/-- The options of a task alone. -/
def Verb.ownOptions : Verb → List String
  | .render => ["      --state <FILE>   State JSON file (defaults to the spec's own state)"]
  | _ => []

/-- The help on a level. -/
def helpText : Level → String
  | .top => unlines <| [
      "SpecStream: streaming UI spec compiler and renderer",
      "",
      "Usage: specstream [OPTIONS] <COMMAND>",
      "",
      "Commands:",
      "  compile  " ++ Verb.compile.about,
      "  check    " ++ Verb.check.about,
      "  render   " ++ Verb.render.about,
      "  help     Print this message or the help of the given subcommand(s)",
      "",
      "Options:"] ++ sharedOptions ++ [helpOption, "  -V, --version        Print version"]
  | .below verb => unlines <| [
      verb.about,
      "",
      "Usage: specstream " ++ verb.name ++ " [OPTIONS] <PATH>",
      "",
      "Arguments:",
      "  <PATH>  Input file, or - for stdin",
      "",
      "Options:"] ++ verb.ownOptions ++ sharedOptions ++ [helpOption]

/-- The help on asking for help. -/
def helpOnHelpText : String := unlines [
  "Print this message or the help of the given subcommand(s)",
  "",
  "Usage: specstream help [COMMAND]...",
  "",
  "Arguments:",
  "  [COMMAND]...  Print help for the subcommand(s)"]

/-- What is said about a command line that makes no sense. -/
def usageText : String := unlines [
  "Usage: specstream [OPTIONS] <COMMAND>",
  "",
  "For more information, try '--help'."]

end ViewStream.Command
