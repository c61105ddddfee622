import StackScript.Machine.Basic
import StackScript.Bytecode.Chunk

/-!
# Running chunks

`Machine.step` executes one instruction: it reads the byte at the instruction offset, decodes it,
and `Machine.perform` reads the operands and acts on the stack, the globals and the printed
lines.  `Machine.run` takes steps until `RETURN`, an error, or the number of steps it was given
runs out.

`Machine.execute` starts a chunk from its first byte on an empty stack, keeping the globals.
With a budget of `n` instructions it fails before the instruction number `n + 1`, at the line of
the byte about to be read (`0` past the end).  Without a budget it may take `unboundedSteps`
steps, more than any run can take.

A failed instruction keeps what it did before it failed: a binary operator has popped both
operands when it finds one that is no number.
-/

namespace StackScript

/-- Execution steps: they change the machine and may fail, keeping the changes. -/
abbrev Exec := ExceptT RuntimeError (StateM Machine)

namespace Exec

/-- Push a value, unless the stack is full. -/
def push (v : Value) (line : Nat) : Exec Unit := do
  let m ← get
  if stackMax ≤ m.stack.size then throw (.stackOverflow line)
  set { m with stack := m.stack.push v }

/-- Pop the top value. -/
def pop (line : Nat) : Exec Value := do
  let m ← get
  match m.stack.back? with
  | some v =>
    set { m with stack := m.stack.pop }
    return v
  | none => throw (.stackUnderflow line)

/-- The top value, left in place. -/
def top (line : Nat) : Exec Value := do
  match (← get).stack.back? with
  | some v => return v
  | none => throw (.stackUnderflow line)

/-- Read the byte at the instruction offset and move past it. -/
def readByte (c : Chunk) (line : Nat) : Exec Nat := do
  let m ← get
  match c.byteAt? m.ip with
  | some b =>
    set { m with ip := m.ip + 1 }
    return b
  | none => throw (.malformed (.readPastEnd m.ip) line)

/-- Read a two-byte operand and move past it. -/
def readU16 (c : Chunk) (line : Nat) : Exec Nat := do
  let m ← get
  match c.readU16? m.ip with
  | some d =>
    set { m with ip := m.ip + 2 }
    return d
  | none => throw (.malformed (.truncatedJump m.ip) line)

/-- Read a constant index and answer the constant. -/
def readConstant (c : Chunk) (line : Nat) : Exec Value := do
  let k ← readByte c line
  match c.constants[k]? with
  | some v => return v
  | none => throw (.malformed (.constantOutOfRange k) line)

/-- Read a constant index and answer the global name it holds. -/
def readName (c : Chunk) (line : Nat) : Exec String := do
  match ← readConstant c line with
  | .string s => return s
  | _ => throw (.malformed .nameNotString line)

/-- Pop two numbers and push what `f` makes of them. -/
def arith (f : Float → Float → Value) (line : Nat) : Exec Unit := do
  let b ← pop line
  let a ← pop line
  match a, b with
  | .number x, .number y => push (f x y) line
  | _, _ => throw (.operandsNotNumbers a.typeName b.typeName line)

/-- Move the instruction offset. -/
def setIp (ip : Nat) : Exec Unit := modify fun m => { m with ip := ip }

end Exec

open Exec in
/-- Execute the instruction `op`, whose byte stood at `offset` and whose operands follow at the
instruction offset; errors carry `line`.  Answer whether it was `RETURN`. -/
def Machine.perform (c : Chunk) (offset line : Nat) : Op → Exec Bool
  | .constant => do push (← readConstant c line) line; return false
  | .pushNil => do push .nil line; return false
  | .pushTrue => do push (.bool true) line; return false
  | .pushFalse => do push (.bool false) line; return false
  | .pop => do let _ ← pop line; return false
  | .getLocal => do
    let slot ← readByte c line
    match (← get).stack[slot]? with
    | some v => push v line
    | none => throw (.malformed (.localNotOnStack slot) line)
    return false
  | .setLocal => do
    let slot ← readByte c line
    let v ← top line
    let m ← get
    if slot < m.stack.size then set { m with stack := m.stack.setIfInBounds slot v }
    else throw (.malformed (.localNotOnStack slot) line)
    return false
  | .getGlobal => do
    let name ← readName c line
    match (← get).globals[name]? with
    | some v => push v line
    | none => throw (.undefinedVariable name line)
    return false
  | .defineGlobal => do
    let name ← readName c line
    let v ← pop line
    modify fun m => { m with globals := m.globals.insert name v }
    return false
  | .setGlobal => do
    let name ← readName c line
    let v ← top line
    let m ← get
    if m.globals.contains name then set { m with globals := m.globals.insert name v }
    else throw (.undefinedVariable name line)
    return false
  | .add => do arith (fun x y => .number (x + y)) line; return false
  | .subtract => do arith (fun x y => .number (x - y)) line; return false
  | .multiply => do arith (fun x y => .number (x * y)) line; return false
  | .divide => do arith (fun x y => .number (x / y)) line; return false
  | .negate => do
    match ← pop line with
    | .number x => push (.number (-x)) line
    | v => throw (.cannotNegate v.typeName line)
    return false
  | .equal => do
    let b ← pop line
    let a ← pop line
    push (.bool (a.equal b)) line
    return false
  | .greater => do arith (fun x y => .bool (y < x)) line; return false
  | .less => do arith (fun x y => .bool (x < y)) line; return false
  | .not => do
    let v ← pop line
    push (.bool v.isFalsy) line
    return false
  | .jump => do
    let d ← readU16 c line
    setIp ((← get).ip + d)
    return false
  | .jumpIfFalse => do
    let d ← readU16 c line
    if (← top line).isFalsy then setIp ((← get).ip + d)
    return false
  | .loop => do
    let d ← readU16 c line
    let ip := (← get).ip
    if ip < d then throw (.malformed (.loopBeforeStart offset) line)
    setIp (ip - d)
    return false
  | .print => do
    let v ← pop line
    modify fun m => { m with printed := m.printed.push v.render }
    return false
  | .ret => do
    let _ ← pop line
    return true

open Exec in
/-- Execute one instruction; answer whether it was `RETURN`. -/
def Machine.step (c : Chunk) : Exec Bool := do
  let offset := (← get).ip
  let line := c.lineAt offset
  let b ← readByte c line
  match Op.ofByte? b with
  | none => throw (.malformed (.unknownOpcode b offset) line)
  | some op => Machine.perform c offset line op

/-- How a run of a chunk ended. -/
inductive Outcome where
  /-- `RETURN` was executed. -/
  | finished
  | failed (e : RuntimeError)
  /-- The steps given ran out before the run ended. -/
  | outOfSteps
deriving Repr, Inhabited

/-- Take at most `n` steps from machine `m`; answer how the run ended and the machine then. -/
def Machine.run (c : Chunk) : Nat → Machine → Outcome × Machine
  | 0, m => (.outOfSteps, m)
  | n + 1, m =>
    match ((Machine.step c).run).run m with
    | (.ok true, m) => (.finished, m)
    | (.ok false, m) => Machine.run c n m
    | (.error e, m) => (.failed e, m)

/-- The steps a run without a budget may take: more than any run can take. -/
def unboundedSteps : Nat := Nat.pow 2 64

/-- Run a chunk from its first byte on an empty stack, keeping the globals.  A budget of `n`
instructions stops the run before instruction `n + 1` with `budgetExhausted`. -/
def Machine.execute (opts : Options) (c : Chunk) (m : Machine) : Except RuntimeError Unit × Machine :=
  let limit := opts.maxInstructions.getD unboundedSteps
  match Machine.run c limit { m with stack := #[], ip := 0 } with
  | (.finished, m) => (.ok (), m)
  | (.failed e, m) => (.error e, m)
  | (.outOfSteps, m) => (.error (.budgetExhausted limit (c.lineAt m.ip)), m)

end StackScript
