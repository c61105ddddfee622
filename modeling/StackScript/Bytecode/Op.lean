/-!
# Instructions

The instruction set of the stack machine.  Each instruction is one byte, its number, followed by
its operand bytes: one for a constant index or a local slot, two (high byte first) for a jump
distance.  Numbers run from `0` (`CONSTANT`) to `23` (`RETURN`) in the order of the constructors;
every other byte is no instruction.
-/

namespace StackScript

/-- The instructions of the machine. -/
inductive Op where
  /-- Push constant `k`. -/
  | constant
  | pushNil
  | pushTrue
  | pushFalse
  | pop
  /-- Push the value of local slot `k`. -/
  | getLocal
  /-- Store the top into local slot `k`, keeping it on the stack. -/
  | setLocal
  /-- Push the global named by constant `k`. -/
  | getGlobal
  /-- Pop the top into the global named by constant `k`, new or not. -/
  | defineGlobal
  /-- Store the top into the existing global named by constant `k`. -/
  | setGlobal
  | add
  | subtract
  | multiply
  | divide
  | negate
  | equal
  | greater
  | less
  | not
  /-- Jump forward by the operand. -/
  | jump
  /-- Jump forward by the operand when the top is false, leaving it on the stack. -/
  | jumpIfFalse
  /-- Jump backward by the operand. -/
  | loop
  /-- Pop the top and print it. -/
  | print
  /-- Pop the result and stop. -/
  | ret
deriving Repr, DecidableEq, Inhabited

namespace Op

/-- The byte of an instruction. -/
def byte : Op → Nat
  | constant => 0
  | pushNil => 1
  | pushTrue => 2
  | pushFalse => 3
  | pop => 4
  | getLocal => 5
  | setLocal => 6
  | getGlobal => 7
  | defineGlobal => 8
  | setGlobal => 9
  | add => 10
  | subtract => 11
  | multiply => 12
  | divide => 13
  | negate => 14
  | equal => 15
  | greater => 16
  | less => 17
  | not => 18
  | jump => 19
  | jumpIfFalse => 20
  | loop => 21
  | print => 22
  | ret => 23

/-- The instruction a byte stands for, if any. -/
def ofByte? : Nat → Option Op
  | 0 => some constant
  | 1 => some pushNil
  | 2 => some pushTrue
  | 3 => some pushFalse
  | 4 => some pop
  | 5 => some getLocal
  | 6 => some setLocal
  | 7 => some getGlobal
  | 8 => some defineGlobal
  | 9 => some setGlobal
  | 10 => some add
  | 11 => some subtract
  | 12 => some multiply
  | 13 => some divide
  | 14 => some negate
  | 15 => some equal
  | 16 => some greater
  | 17 => some less
  | 18 => some not
  | 19 => some jump
  | 20 => some jumpIfFalse
  | 21 => some loop
  | 22 => some print
  | 23 => some ret
  | _ => none

/-- The number of operand bytes after the instruction. -/
def operandSize : Op → Nat
  | constant | getLocal | setLocal | getGlobal | defineGlobal | setGlobal => 1
  | jump | jumpIfFalse | loop => 2
  | _ => 0

/-- The mnemonic of an instruction in listings. -/
def mnemonic : Op → String
  | constant => "CONSTANT"
  | pushNil => "NIL"
  | pushTrue => "TRUE"
  | pushFalse => "FALSE"
  | pop => "POP"
  | getLocal => "GET_LOCAL"
  | setLocal => "SET_LOCAL"
  | getGlobal => "GET_GLOBAL"
  | defineGlobal => "DEFINE_GLOBAL"
  | setGlobal => "SET_GLOBAL"
  | add => "ADD"
  | subtract => "SUBTRACT"
  | multiply => "MULTIPLY"
  | divide => "DIVIDE"
  | negate => "NEGATE"
  | equal => "EQUAL"
  | greater => "GREATER"
  | less => "LESS"
  | not => "NOT"
  | jump => "JUMP"
  | jumpIfFalse => "JUMP_IF_FALSE"
  | loop => "LOOP"
  | print => "PRINT"
  | ret => "RETURN"

/-- All instructions, in the order of their bytes. -/
def all : List Op :=
  [constant, pushNil, pushTrue, pushFalse, pop, getLocal, setLocal, getGlobal, defineGlobal,
    setGlobal, add, subtract, multiply, divide, negate, equal, greater, less, not, jump,
    jumpIfFalse, loop, print, ret]

/-- The instruction with a mnemonic, if any. -/
def ofMnemonic? (name : String) : Option Op := all.find? (·.mnemonic == name)

end Op

end StackScript
