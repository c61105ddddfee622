import StackScript.Cli

/-!
# The command line program

The program's outer layer: it reads the arguments, the environment, the script file, standard
input and the history file, hands them to the pure command line (`Cli.request`, `Cli.runText`,
`Repl.handleLine`) and writes what that answers.  The session reads standard input line by line,
so a prompt appears before each line is typed.
-/

open StackScript

/-- The reason a file could not be read, in the words of the operating system. -/
def ioReason : IO.Error → String
  | .noFileOrDirectory _ _ _ => ReadError.notFound.message
  | .inappropriateType _ 21 _ => ReadError.isDirectory.message
  | .inappropriateType _ 20 _ => ReadError.notDirectory.message
  | .invalidArgument _ 36 _ => ReadError.nameTooLong.message
  | .permissionDenied _ _ _ => "Permission denied (os error 13)"
  | e => toString e

/-- Write an ending's text and answer its exit code. -/
def finish (e : Cli.Ending) : IO UInt32 := do
  IO.print e.stdout
  IO.eprint e.stderr
  return e.code.toUInt32

/-- Write what a session step wrote. -/
def writeEvents (evs : List Event) : IO Unit := do
  let (out, err) := Event.streams evs
  IO.print out
  IO.eprint err

/-- Run a session on standard input until it ends or the input does. -/
partial def sessionLoop (stdin : IO.FS.Stream) (stdout : IO.FS.Stream) (r : Repl) : IO Repl := do
  stdout.putStr (if r.isMultiline then "... " else "> ")
  stdout.flush
  let line ← stdin.getLine
  if line.isEmpty then
    stdout.putStr "\n"
    return r
  let (action, r, evs) := r.handleLine (Text.trimBlankEnd line)
  writeEvents evs
  match action with
  | .exit => return r
  | .continue => sessionLoop stdin stdout r

/-- The path of the history file: in the home directory, or here without one. -/
def historyPath : IO String := do
  match ← IO.getEnv "HOME" with
  | some home => return home ++ "/" ++ historyName
  | none => return historyName

/-- Run an interactive session with the history file. -/
def interactive (opts : Options) : IO UInt32 := do
  let path ← historyPath
  let saved : HistoryFile ←
    try pure (HistoryFile.present (← IO.FS.readFile path)) catch _ => pure HistoryFile.absent
  IO.print bannerText
  let r := { Repl.start Machine.fresh opts with history := saved.entries }
  let r ← sessionLoop (← IO.getStdin) (← IO.getStdout) r
  try IO.FS.writeFile path ("\n".intercalate r.history.toList) catch _ => pure ()
  return 0

/-- The command line. -/
def main (args : List String) : IO UInt32 := do
  let trace ← IO.getEnv traceVariable
  let budget ← IO.getEnv budgetVariable
  let opts := Options.ofEnv fun k =>
    if k = traceVariable then trace else if k = budgetVariable then budget else none
  match Cli.request opts args with
  | .error e => finish e
  | .ok req =>
    match req.mode with
    | .eval code => finish (Cli.runText req "<eval>" code)
    | .script path =>
      let source? : Except String String ←
        try pure (.ok (← IO.FS.readFile path)) catch e => pure (.error (ioReason e))
      match source? with
      | .ok source => finish (Cli.runText req path source)
      | .error reason => finish (Cli.unreadable path reason)
    | .interactive => interactive req.options
