import StackScript.Text.Letter
import StackScript.Decimal.Shortest
import StackScript.Decimal.Positional
import StackScript.Decimal.Nearest
import StackScript.Span
import StackScript.Token.Basic
import StackScript.Token.Lexer
import StackScript.Syntax.Tree
import StackScript.Syntax.Printer
import StackScript.Syntax.Parser
import StackScript.Syntax.Scope
import StackScript.Value
import StackScript.Bytecode.Op
import StackScript.Bytecode.Chunk
import StackScript.Bytecode.Compiler
import StackScript.Bytecode.Listing
import StackScript.Machine.Basic
import StackScript.Machine.Run
import StackScript.Text.Blank
import StackScript.Options
import StackScript.Pipeline
import StackScript.Repl
import StackScript.Directory
import StackScript.Cli
import StackScript.Main
import StackScript.Proofs.Stepping
import StackScript.Proofs.Placement
import StackScript.Proofs.Emitting
import StackScript.Proofs.Meaning
import StackScript.Proofs.Simulation
import StackScript.Proofs.Statements
import StackScript.Proofs.Agreement
import StackScript.Proofs.Budget
import StackScript.Proofs.Reading
import StackScript.Proofs.Height
import StackScript.Proofs.Balance
import StackScript.Proofs.Limits
import StackScript.Proofs.Decoding
import StackScript.Proofs.Jumps
import StackScript.Proofs.Outcomes
import StackScript.Proofs.Termination
import StackScript.Proofs.Nesting
import StackScript.Proofs.Scoping
import StackScript.Proofs.Spans
import StackScript.Proofs.Lexemes
import StackScript.Proofs.Writing
import StackScript.Proofs.WrittenForm
import StackScript.Proofs.Rereading
import StackScript.Proofs.FirstEnd
import StackScript.Proofs.Braces
