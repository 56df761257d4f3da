import ViewStream.Command.Run

/-!
# The program

Collects what the command may read, runs it and writes what it leaves behind.
-/

namespace ViewStream.Command

/-- The files that an invocation may read. -/
def Invocation.files (i : Invocation) : List String :=
  (i.config.getD defaultConfigFile :: i.path :: i.state.toList).filter (· ≠ "-")
    ++ (if i.config = some "-" then ["-"] else [])

/-- Whether an invocation reads standard input. -/
def Invocation.readsInput (i : Invocation) : Bool :=
  i.path = "-" || i.state = some "-"

/-- Look at what stands at a path. -/
def look (path : String) : IO (String × PathContent) := do
  try
    let bytes ← IO.FS.readBinFile path
    return (path, .file bytes.toList)
  catch
    | .noFileOrDirectory .. => return (path, .absent)
    | _ => return (path, .directory)

/-- Read standard input to its end. -/
partial def readAll (stream : IO.FS.Stream) (seen : ByteArray) : IO ByteArray := do
  let chunk ← stream.read 65536
  if chunk.isEmpty then return seen else readAll stream (seen ++ chunk)

/-- All that an invocation reads. -/
def Invocation.host (i : Invocation) : IO Host := do
  let places ← i.files.mapM look
  let input ← if i.readsInput then readAll (← IO.getStdin) .empty else pure .empty
  return { place := fun p => (places.lookup p).getD .absent, stdin := input.toList }

end ViewStream.Command

open ViewStream.Command in
/-- Run the command on its arguments. -/
def main (args : List String) : IO UInt32 := do
  let host ← match Invocation.ofArguments args with
    | .ok i => i.host
    | .error _ => pure { place := fun _ => .absent, stdin := [] }
  let outcome := run args host
  (← IO.getStdout).putStr outcome.stdout
  (← IO.getStderr).putStr outcome.stderr
  return UInt32.ofNat outcome.code
