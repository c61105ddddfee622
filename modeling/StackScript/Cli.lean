import StackScript.Repl
import StackScript.Options
import StackScript.Syntax.Printer
import StackScript.Directory

/-!
# The command line

`ferrule [options] [script]` runs a script file, evaluates code given with `-e`, or, with
neither, starts an interactive session on standard input.  The arguments are read left to
right: `-h`/`--help` and `-V`/`--version` answer at once, a later `-e` wins over an earlier one
and over a script, and a second script, an unknown option or a bad budget is a usage error.

Everything here is pure.  The command line's world is a `World` value (arguments, standard
input, environment, readable files and the history file), and `World.run` answers the exit code,
the text written to standard output and to standard error, and the history file afterwards.

Exit codes: `0`, `64` for usage errors, `65` for errors found before the run, `70` for runtime
errors and `74` for a script that cannot be read.
-/

namespace StackScript

namespace Cli

/-- The version the command line reports. -/
def version : String := "0.1.0"

/-- The usage text, written to standard error. -/
def usageText : String :=
  "Ferrule " ++ version ++ " - bytecode scripting language\n\n" ++
  "Usage: ferrule [options] [script]\n\n" ++
  "Options:\n" ++
  "  -e <code>              Evaluate code\n" ++
  "  --disassemble          Print the compiled bytecode before running\n" ++
  "  --ast                  Print the parsed program before running\n" ++
  "  --trace                Trace every executed instruction (needs FERRULE_LOG=trace)\n" ++
  "  --max-instructions N   Stop after N instructions\n" ++
  "  --help, -h             Show this help message\n" ++
  "  --version, -V          Show the version\n\n" ++
  "Environment:\n" ++
  "  FERRULE_LOG             Log filter, e.g. debug or ferrule=trace\n" ++
  "  FERRULE_TRACE           Same as --trace when set to 1\n" ++
  "  FERRULE_MAX_INSTRUCTIONS Default for --max-instructions\n\n" ++
  "Examples:\n" ++
  "  ferrule                       Start interactive REPL\n" ++
  "  ferrule script.fe             Run a script file\n" ++
  "  ferrule --disassemble a.fe    Show bytecode, then run\n" ++
  "  ferrule -e 'print 1 + 1;'     Evaluate code directly\n"

/-- The exit code of a usage error. -/
def exitUsage : Nat := 64

/-- The exit code of errors found before a run. -/
def exitCompile : Nat := 65

/-- The exit code of a runtime error. -/
def exitRuntime : Nat := 70

/-- The exit code of a script that cannot be read. -/
def exitIo : Nat := 74

/-- What the command line was asked to do. -/
inductive Mode where
  | script (path : String)
  | eval (code : String)
  | interactive
deriving Repr, DecidableEq, Inhabited

/-- The command line's request: what to do, what to show first, and how to run. -/
structure Request where
  mode : Mode
  showTree : Bool
  showListing : Bool
  options : Options
deriving Repr, Inhabited

/-- How a run of the command line ended: its exit code and the text it wrote. -/
structure Ending where
  code : Nat
  stdout : String
  stderr : String
deriving Repr, Inhabited

/-- A usage error: the message, then the usage text, both to standard error. -/
def usageError (message : String) : Ending := ⟨exitUsage, "", message ++ "\n" ++ usageText⟩

/-- Read the arguments into a request, or into an
ending that comes before any work. -/
def parseArgs : List String → Request → Except Ending Request
  | [], req => .ok req
  | arg :: rest, req =>
    if arg = "-h" ∨ arg = "--help" then .error ⟨0, "", usageText⟩
    else if arg = "-V" ∨ arg = "--version" then .error ⟨0, "ferrule " ++ version ++ "\n", ""⟩
    else if arg = "-e" then
      match rest with
      | code :: rest => parseArgs rest { req with mode := .eval code }
      | [] => .error (usageError "-e requires code to evaluate")
    else if arg = "--disassemble" then parseArgs rest { req with showListing := true }
    else if arg = "--ast" then parseArgs rest { req with showTree := true }
    else if arg = "--trace" then parseArgs rest { req with options := { req.options with trace := true } }
    else if arg = "--max-instructions" then
      match rest with
      | value :: rest =>
        match readWord? value with
        | some n => parseArgs rest { req with options := { req.options with maxInstructions := some n } }
        | none => .error (usageError ("Invalid instruction limit: " ++ value))
      | [] => .error (usageError "--max-instructions requires a number")
    else if arg.startsWith "--max-instructions=" then
      let value := String.ofList (arg.toList.drop "--max-instructions=".length)
      match readWord? value with
      | some n => parseArgs rest { req with options := { req.options with maxInstructions := some n } }
      | none => .error (usageError ("Invalid instruction limit: " ++ value))
    else if arg.startsWith "-" then .error (usageError ("Unknown option: " ++ arg))
    else
      match req.mode with
      | .interactive => parseArgs rest { req with mode := .script arg }
      | _ => .error (usageError ("Unexpected argument: " ++ arg))

/-- The request of some arguments under some environment options. -/
def request (opts : Options) (args : List String) : Except Ending Request :=
  parseArgs args ⟨.interactive, false, false, opts⟩

/-- A diagnostic as the command line writes it to standard error. -/
def diagnosticLine (d : Diagnostic) : String := "[line " ++ toString d.1 ++ "] Error: " ++ d.2 ++ "\n"

/-- Errors found before a run, written as diagnostics, and the exit code for them. -/
def failedBefore (out : String) (fs : List Failure) : Ending :=
  ⟨exitCompile, out, String.join (fs.map fun f => diagnosticLine (f.line?.getD 0, f.report))⟩

/-- Run a source under a name: the program first when asked, the listing when asked, then the
run.  Printed lines go to standard output, errors to standard error. -/
def runText (req : Request) (name : String) (source : String) : Ending :=
  match checkSource source with
  | .error fs => failedBefore "" fs
  | .ok p =>
    let tree := if req.showTree then p.render ++ "\n" else ""
    match Chunk.ofProgram p with
    | .error e => failedBefore tree [.compile e]
    | .ok c =>
      let listed := if req.showListing then tree ++ c.listing name else tree
      let (r, m) := Machine.fresh.execute req.options c
      let out := listed ++ String.join (m.printed.toList.map (· ++ "\n"))
      match r with
      | .ok () => ⟨0, out, ""⟩
      | .error e => ⟨exitRuntime, out, diagnosticLine (e.line, e.message)⟩

/-- A script that cannot be read. -/
def unreadable (path : String) (reason : String) : Ending :=
  ⟨exitIo, "", "Error: could not read '" ++ path ++ "': " ++ (Failure.io reason).report ++ "\n"⟩

end Cli

/-- What a session step wrote to standard output and to standard error. -/
def Event.streams : List Event → String × String
  | [] => ("", "")
  | e :: rest =>
    let (o, r) := Event.streams rest
    match e with
    | .say t => (t ++ o, r)
    | .printed l => (l ++ "\n" ++ o, r)
    | .diagnostic d => (o, Cli.diagnosticLine d ++ r)

/-- The lines of a text.  A line feed ends a line, together with a carriage return just before
it; the last line keeps a carriage return it ends with, having no line feed, and nothing after
the last line feed is no line. -/
def textLines (text : String) : List String :=
  match (text.splitOn "\n").reverse with
  | [] => []
  | last :: earlier =>
    let ended := earlier.reverse.map fun l =>
      if l.endsWith "\r" then String.ofList l.toList.dropLast else l
    if last.isEmpty then ended else ended ++ [last]

/-- The history file of a session: where `HOME` cannot be reached, absent, or present with its
text. -/
inductive HistoryFile where
  | unreachable
  | absent
  | present (text : String)
deriving Repr, DecidableEq, Inhabited

namespace HistoryFile

/-- The history a session starts with: the file's lines that are not blank. -/
def entries : HistoryFile → Array String
  | present text => ((textLines text).filter fun l => !(Text.trimBlank l).isEmpty).toArray
  | _ => #[]

/-- The file after a session saved its history: the entries joined by line feeds. -/
def save (h : HistoryFile) (history : Array String) : HistoryFile :=
  match h with
  | unreachable => unreachable
  | _ => present ("\n".intercalate history.toList)

end HistoryFile

/-- The lines a reader takes from standard input: each line without its line feed, the last one
even without a line feed. -/
def inputLines (stdin : String) : List String :=
  let parts := stdin.splitOn "\n"
  match parts.getLast? with
  | some "" => parts.dropLast
  | _ => parts

/-- Run an interactive session over the lines of standard input: the banner, then before each
line a prompt (`> `, or `... ` inside an entry of several lines), and a line break at the end of
input.  Answers what was written to standard output and standard error, and the history. -/
def Repl.session (r : Repl) : List String → String × String × Repl
  | [] => ((if r.isMultiline then "... " else "> ") ++ "\n", "", r)
  | line :: rest =>
    let prompt := if r.isMultiline then "... " else "> "
    let (action, r, evs) := r.handleLine (Text.trimBlankEnd line)
    let (o, e) := Event.streams evs
    match action with
    | .exit => (prompt ++ o, e, r)
    | .continue =>
      let (o2, e2, r) := r.session rest
      (prompt ++ o ++ o2, e ++ e2, r)

/-- The world the command line runs in. -/
structure World where
  args : List String
  stdin : String
  /-- The environment variables that set the machine's options. -/
  env : List (String × String)
  /-- The files of the working directory, by their paths. -/
  files : List (String × String)
  history : HistoryFile

/-- The name of the history file in the home directory. -/
def historyName : String := ".ferrule_history"

/-- The working directory: the readable files, and the history file where the home directory is
the working directory, that is wherever the history file can be reached.  A readable file of the
history file's name is the history file. -/
def World.directory (w : World) : Directory :=
  match w.history with
  | .present text => ⟨w.files ++ [(historyName, text)]⟩
  | _ => ⟨w.files⟩

/-- Run the command line in a world: how it ended, and the history file afterwards. -/
def World.run (w : World) : Cli.Ending × HistoryFile :=
  let opts := Options.ofEnv fun k => w.env.lookup k
  match Cli.request opts w.args with
  | .error ending => (ending, w.history)
  | .ok req =>
    match req.mode with
    | .eval code => (Cli.runText req "<eval>" code, w.history)
    | .script path =>
      match w.directory.read path with
      | .ok source => (Cli.runText req path source, w.history)
      | .error e => (Cli.unreadable path e.message, w.history)
    | .interactive =>
      let r := { Repl.start Machine.fresh req.options with history := w.history.entries }
      let (out, err, r) := r.session (inputLines w.stdin)
      (⟨0, bannerText ++ out, err⟩, w.history.save r.history)

end StackScript
