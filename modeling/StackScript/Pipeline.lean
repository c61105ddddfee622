import StackScript.Syntax.Parser
import StackScript.Syntax.Scope
import StackScript.Bytecode.Compiler
import StackScript.Machine.Run

/-!
# From source to a run

A source goes through four phases before it runs: tokens, the program, the scope checks and the
chunk.  A lexer error stops everything at once; the parser answers all its errors; the scope
checks run only on a program that parsed, and answer all theirs; a compile error comes alone.

`Failure` names the phase of an error, and its report is the error's text after the phase's
name (`Parser error: …`).  `Machine.interpret` runs a source on a machine that keeps its globals
from run to run, and answers diagnostics (a line and a text) instead of failing.
-/

namespace StackScript

/-- An error of some phase, or an input/output error of the command line. -/
inductive Failure where
  | lex (e : LexError)
  | parse (e : ParseError)
  | scope (e : ScopeError)
  | compile (e : CompileError)
  | runtime (e : RuntimeError)
  | io (message : String)
deriving Inhabited

namespace Failure

/-- The error's text after the name of its phase. -/
def report : Failure → String
  | lex e => "Lexer error: " ++ e.message
  | parse e => "Parser error: " ++ e.message
  | scope e => "Resolve error: " ++ e.message
  | compile e => "Compile error: " ++ e.message
  | runtime e => "Runtime error: " ++ e.message
  | io m => "IO error: " ++ m

/-- The source line the error belongs to, if it has one. -/
def line? : Failure → Option Nat
  | lex e => some e.span.line
  | parse e => some e.span.line
  | scope e => some e.span.line
  | compile e => some e.line
  | runtime e => some e.line
  | io _ => none

end Failure

/-- Read and check a source: its program, or the errors of the first phase that failed. -/
def checkSource (source : String) : Except (List Failure) Program :=
  match tokenize source with
  | .error e => .error [.lex e]
  | .ok ts =>
    match Program.ofTokens ts with
    | .error es => .error (es.map .parse)
    | .ok p =>
      match p.scopeErrors with
      | [] => .ok p
      | es => .error (es.map .scope)

/-- Read, check and compile a source. -/
def compileSource (source : String) : Except (List Failure) Chunk := do
  let p ← checkSource source
  match Chunk.ofProgram p with
  | .ok c => pure c
  | .error e => throw [.compile e]

/-- How a run of a source on a machine ended. -/
inductive Verdict where
  | ok
  | compileError
  | runtimeError
deriving Repr, DecidableEq, Inhabited

/-- A diagnostic: a source line and a text. -/
abbrev Diagnostic := Nat × String

/-- Compile a source and run it on a machine that keeps its globals.  Compile errors become
diagnostics (line `0` when an error has none) and nothing runs; a runtime error becomes one
diagnostic with its line. -/
def Machine.interpret (opts : Options) (source : String) (m : Machine) :
    Verdict × List Diagnostic × Machine :=
  match compileSource source with
  | .error fs => (.compileError, fs.map fun f => (f.line?.getD 0, f.report), m)
  | .ok c =>
    match m.execute opts c with
    | (.ok (), m) => (.ok, [], m)
    | (.error e, m) => (.runtimeError, [(e.line, e.message)], m)

/-- Compile a source and run it once on a fresh machine: the first error, if any, and the
machine afterwards, whose printed lines are the run's output. -/
def runSource (opts : Options) (source : String) : Except Failure Unit × Machine :=
  match compileSource source with
  | .error fs =>
    match fs with
    | f :: _ => (.error f, Machine.fresh)
    | [] => (.ok (), Machine.fresh)
  | .ok c =>
    match Machine.fresh.execute opts c with
    | (.ok (), m) => (.ok (), m)
    | (.error e, m) => (.error (.runtime e), m)

end StackScript
