import Std.Data.TreeMap
import StackScript.Value

/-!
# The stack machine's state and errors

A machine holds a stack of values, the global variables, the offset of the next byte to read and
the lines printed so far.  Globals are kept sorted by name, the order in which they are listed.
The stack holds at most `stackMax` values.

Runtime errors are the program's own (a type error, an undefined variable, an exhausted
instruction budget) or faults of the code itself (stack overflow or underflow, malformed
bytecode), which compiled programs only meet through overflow.
-/

namespace StackScript

/-- The most values the stack holds. -/
def stackMax : Nat := 256

/-- Global variables by name, listed in order of their names. -/
abbrev Globals := Std.TreeMap String Value

/-- The state of the machine. -/
structure Machine where
  stack : Array Value
  globals : Globals
  ip : Nat
  printed : Array String
deriving Inhabited

/-- A fresh machine: nothing on the stack, no globals, nothing printed. -/
def Machine.fresh : Machine := ⟨#[], {}, 0, #[]⟩

/-- What is wrong with code that no compiled program contains. -/
inductive Malformed where
  | readPastEnd (offset : Nat)
  | unknownOpcode (byte : Nat) (offset : Nat)
  | constantOutOfRange (index : Nat)
  | localNotOnStack (slot : Nat)
  | nameNotString
  | truncatedJump (offset : Nat)
  | loopBeforeStart (offset : Nat)
deriving Repr, DecidableEq, Inhabited

/-- The text of a malformation. -/
def Malformed.detail : Malformed → String
  | readPastEnd o => "read past end of chunk at offset " ++ toString o
  | unknownOpcode b o => "unknown opcode " ++ toString b ++ " at offset " ++ toString o
  | constantOutOfRange i => "constant " ++ toString i ++ " out of range"
  | localNotOnStack s => "local slot " ++ toString s ++ " is not on the stack"
  | nameNotString => "global name constant is not a string"
  | truncatedJump o => "truncated jump operand at offset " ++ toString o
  | loopBeforeStart o => "loop before chunk start at offset " ++ toString o

/-- Why a run stopped early; each carries the line of the instruction that failed. -/
inductive RuntimeError where
  /-- An arithmetic or comparison operand that is no number; the types of both operands. -/
  | operandsNotNumbers (left right : String) (line : Nat)
  /-- Negation of something that is no number; its type. -/
  | cannotNegate (type : String) (line : Nat)
  | undefinedVariable (name : String) (line : Nat)
  | budgetExhausted (limit : Nat) (line : Nat)
  | stackOverflow (line : Nat)
  | stackUnderflow (line : Nat)
  | malformed (what : Malformed) (line : Nat)
deriving Repr, DecidableEq, Inhabited

namespace RuntimeError

/-- The line of the instruction that failed. -/
def line : RuntimeError → Nat
  | operandsNotNumbers _ _ l | cannotNegate _ l | undefinedVariable _ l | budgetExhausted _ l
  | stackOverflow l | stackUnderflow l | malformed _ l => l

/-- Whether the error is a fault of the code rather than of the program it came from. -/
def isFault : RuntimeError → Bool
  | stackOverflow _ | stackUnderflow _ | malformed _ _ => true
  | _ => false

/-- The error's text. -/
def message : RuntimeError → String
  | operandsNotNumbers a b _ => "Type error: Operands must be numbers, got " ++ a ++ " and " ++ b
  | cannotNegate t _ => "Type error: Cannot negate " ++ t
  | undefinedVariable n _ => "Undefined variable '" ++ n ++ "'"
  | budgetExhausted n _ => "Instruction budget of " ++ toString n ++ " exhausted"
  | stackOverflow _ => "Internal error: stack overflow"
  | stackUnderflow _ => "Internal error: stack underflow"
  | malformed m _ => "Internal error: " ++ m.detail

end RuntimeError

/-- How a machine is run: whether each instruction is traced (to a log that this library does
not keep) and how many instructions one run may execute. -/
structure Options where
  trace : Bool := false
  maxInstructions : Option Nat := none
deriving Repr, DecidableEq, Inhabited

end StackScript
