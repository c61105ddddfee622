import StackScript.Pipeline
import StackScript.Bytecode.Listing
import StackScript.Text.Blank

/-!
# The interactive session

A session reads lines and runs each entry on one machine, so globals carry over from entry to
entry while locals never do.  `Repl.handleLine` is one step: it answers whether the session goes
on, the session afterwards, and what the step wrote, in order (`Event`).

* A line is trimmed of blanks; a blank line does nothing, and every other line goes into the
  history.
* `exit` and `quit` end the session, and so do the commands `.exit` and `.quit`.  The other
  commands are `.help`, `.vars`, `.clear`, `.history`, `.bytecode` (a listing of each entry's
  chunk before it runs) and `.trace`.
* A line that opens more braces than it closes starts an entry of several lines.  Further lines
  are added to it untrimmed, and not to the history, until the braces balance; then it runs.
  `.break` drops it.  Braces are counted per line, outside string literals and before a `//`.
-/

namespace StackScript

/-- What a step of a session wrote. -/
inductive Event where
  /-- Text the session itself wrote to standard output. -/
  | say (text : String)
  /-- A line the program printed. -/
  | printed (line : String)
  /-- A diagnostic of a failed entry. -/
  | diagnostic (d : Diagnostic)
deriving Repr, Inhabited

/-- Whether the session goes on after a line. -/
inductive Action where
  | continue
  | exit
deriving Repr, DecidableEq, Inhabited

/-- The state of a session. -/
structure Repl where
  machine : Machine
  options : Options
  history : Array String
  /-- The entry of several lines read so far; empty when there is none. -/
  pending : String
  /-- Braces opened and not yet closed in the pending entry. -/
  balance : Int
  /-- Whether each entry's chunk is listed before it runs. -/
  listing : Bool
deriving Inhabited

/-- The help text of the session's commands. -/
def helpText : String :=
  "\nFerrule REPL Commands\n\n" ++
  ".help       - Show this help message\n" ++
  ".vars       - List global variables\n" ++
  ".clear      - Forget all globals\n" ++
  ".history    - Show input history\n" ++
  ".bytecode   - Toggle bytecode listing before each run\n" ++
  ".trace      - Toggle per-instruction tracing\n" ++
  ".break      - Cancel multi-line input\n" ++
  "exit        - Leave the REPL (or Ctrl+D)\n\n"

/-- The banner a session opens with on a terminal. -/
def bannerText : String := "Ferrule REPL\nType .help for available commands.\n\n"

/-- Braces opened minus braces closed in a line, outside string literals and before a `//`
that is outside a string literal. -/
def braceBalance : List Char → Bool → Int
  | [], _ => 0
  | '"' :: rest, inString => braceBalance rest (!inString)
  | '/' :: '/' :: _, false => 0
  | '{' :: rest, false => braceBalance rest false + 1
  | '}' :: rest, false => braceBalance rest false - 1
  | _ :: rest, inString => braceBalance rest inString

/-- The brace balance of a line. -/
def countBraces (line : String) : Int := braceBalance line.toList false

namespace Repl

/-- A session on a machine, with no history and nothing pending. -/
def start (m : Machine) (opts : Options) : Repl := ⟨m, opts, #[], "", 0, false⟩

/-- Whether an entry of several lines is being read. -/
def isMultiline (r : Repl) : Bool := !r.pending.isEmpty

/-- Run an entry: its listing first when listings are on, then its printed lines and
diagnostics. -/
def execute (r : Repl) (source : String) : Repl × List Event :=
  let shown : List Event :=
    if r.listing then
      match compileSource source with
      | .ok c => [.say (c.listing "repl")]
      | .error _ => []
    else []
  let (_, ds, m) := Machine.interpret r.options source { r.machine with printed := #[] }
  ({ r with machine := m },
    shown ++ m.printed.toList.map Event.printed ++ ds.map Event.diagnostic)

/-- The lines `.vars` writes: each global as `name = value`, in order of names. -/
def varsText (m : Machine) : String :=
  match m.globals.toList with
  | [] => "No variables defined.\n"
  | gs => String.join (gs.map fun (n, v) => "  " ++ n ++ " = " ++ v.render ++ "\n")

/-- The lines `.history` writes: each entry numbered from one in a field of four. -/
def historyText (h : Array String) : String :=
  String.join ((h.toList.zipIdx).map fun (e, i) =>
    String.ofList (List.replicate (4 - (toString (i + 1)).length) ' ') ++ toString (i + 1) ++
      "  " ++ e ++ "\n")

/-- Carry out a command line (one that starts with a dot). -/
def command (r : Repl) (cmd : String) : Action × Repl × List Event :=
  if cmd = ".exit" ∨ cmd = ".quit" then (.exit, r, [])
  else if cmd = ".help" then (.continue, r, [.say helpText])
  else if cmd = ".vars" then (.continue, r, [.say (varsText r.machine)])
  else if cmd = ".clear" then
    (.continue, { r with machine := { r.machine with globals := {} } }, [.say "Environment reset.\n"])
  else if cmd = ".history" then (.continue, r, [.say (historyText r.history)])
  else if cmd = ".bytecode" then
    let on := !r.listing
    (.continue, { r with listing := on },
      [.say ("Bytecode listing " ++ (if on then "on" else "off") ++ ".\n")])
  else if cmd = ".trace" then
    let on := !r.options.trace
    (.continue, { r with options := { r.options with trace := on } },
      [.say ("Execution tracing " ++ (if on then "on" else "off") ++
        " (visible with FERRULE_LOG=trace).\n")])
  else (.continue, r, [.say ("Unknown command: " ++ cmd ++ ". Type .help for available commands.\n")])

/-- Handle one line of input. -/
def handleLine (r : Repl) (line : String) : Action × Repl × List Event :=
  if r.isMultiline then
    if line = ".break" then (.continue, { r with pending := "", balance := 0 }, [.say "(cancelled)\n"])
    else
      let pending := r.pending ++ "\n" ++ line
      let balance := r.balance + countBraces line
      if balance ≤ 0 then
        let (r, evs) := { r with pending := "", balance := 0 }.execute pending
        (.continue, r, evs)
      else (.continue, { r with pending := pending, balance := balance }, [])
  else
    let trimmed := Text.trimBlank line
    if trimmed.isEmpty then (.continue, r, [])
    else
      let r := { r with history := r.history.push trimmed }
      if trimmed = "exit" ∨ trimmed = "quit" then (.exit, r, [])
      else if trimmed.startsWith "." then r.command trimmed
      else
        let balance := countBraces trimmed
        if 0 < balance then (.continue, { r with pending := trimmed, balance := balance }, [])
        else
          let (r, evs) := r.execute trimmed
          (.continue, r, evs)

end Repl

end StackScript
