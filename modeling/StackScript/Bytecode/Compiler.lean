import StackScript.Bytecode.Chunk
import StackScript.Syntax.Tree

/-!
# Compiling programs to chunks

`Chunk.ofProgram` compiles a program in one pass over its tree.  Every expression leaves exactly
one value on the stack.  Variables of blocks live in stack slots: a local's slot is its place in
the list of locals, found newest first so that inner declarations shadow outer ones, and a block
pops its locals when it ends.  Every other name is a global, reached through a string constant
that holds its name; each name gets one such constant, shared by all its uses.

`for i in limit body` keeps two hidden locals, the limit (under a name no source can write) and
the counter `i`, counts from `0` while `i < limit`, and adds `1` after each round.  `a != b`,
`a >= b` and `a <= b` compile as the negations of `==`, `<` and `>`.  The chunk ends with
`NIL RETURN` on the line of the last statement.

Three limits can fail a compilation, and the first one met is the error: 256 constants,
256 locals alive at once, and jump distances of 65535 bytes.
-/

namespace StackScript

/-- Why a program cannot be compiled; each carries the line of the node being compiled. -/
inductive CompileError where
  | tooManyConstants (line : Nat)
  | tooManyLocals (line : Nat)
  | jumpTooFar (distance : Nat) (line : Nat)
deriving Repr, DecidableEq, Inhabited

namespace CompileError

/-- The line of the node that hit the limit. -/
def line : CompileError → Nat
  | tooManyConstants l | tooManyLocals l | jumpTooFar _ l => l

/-- The error's text. -/
def message : CompileError → String
  | tooManyConstants _ => "Too many constants in one chunk"
  | tooManyLocals _ => "Too many local variables in scope"
  | jumpTooFar d _ => "Jump distance " ++ toString d ++ " exceeds 65535 bytes"

end CompileError

/-- The most constants one chunk can hold: indices are one byte. -/
def maxConstants : Nat := 256

/-- The most locals alive at once: slots are one byte. -/
def maxLocals : Nat := 256

/-- The longest jump a two-byte operand can encode. -/
def maxJump : Nat := 65535

/-- The name of the hidden local that keeps a `for` loop's limit; no identifier can spell it. -/
def limitSlotName : String := "$limit"

/-- A local variable known to the compiler: its name and the depth of the block it belongs to. -/
structure Local where
  name : String
  depth : Nat
deriving Repr, DecidableEq, Inhabited

/-- The compiler's state: the chunk so far, the locals alive (oldest first), the block depth and
the constant index of every global name already in the pool. -/
structure Emitter where
  chunk : Chunk
  locals : Array Local
  depth : Nat
  names : List (String × Nat)
deriving Inhabited

/-- Compilation steps: they change the emitter's state and may fail. -/
abbrev Emit := StateT Emitter (Except CompileError)

namespace Emit

/-- Append a byte. -/
def byte (b : Nat) (line : Nat) : Emit Unit :=
  modify fun e => { e with chunk := e.chunk.write b line }

/-- Append an instruction. -/
def op (o : Op) (line : Nat) : Emit Unit := byte o.byte line

/-- Append an instruction with a one-byte operand. -/
def opWith (o : Op) (operand : Nat) (line : Nat) : Emit Unit := do
  op o line
  byte operand line

/-- The current end of the code. -/
def offset : Emit Nat := do return (← get).chunk.size

/-- Add a constant to the pool and answer its index, unless the pool is full. -/
def constant (v : Value) (line : Nat) : Emit Nat := do
  let e ← get
  if maxConstants ≤ e.chunk.constants.size then throw (.tooManyConstants line)
  set { e with chunk := e.chunk.addConstant v }
  return e.chunk.constants.size

/-- Load a constant. -/
def loadConstant (v : Value) (line : Nat) : Emit Unit := do
  let k ← constant v line
  opWith .constant k line

/-- The index of the constant holding a global's name, added on first use. -/
def nameConstant (name : String) (line : Nat) : Emit Nat := do
  match (← get).names.lookup name with
  | some k => return k
  | none =>
    let k ← constant (.string name) line
    modify fun e => { e with names := (name, k) :: e.names }
    return k

/-- Append a jump with a placeholder operand; answer the operand's offset. -/
def jump (o : Op) (line : Nat) : Emit Nat := do
  op o line
  byte 0xFF line
  byte 0xFF line
  return (← offset) - 2

/-- Point the jump whose operand is at `operandAt` to the current end of the code. -/
def patch (operandAt : Nat) (line : Nat) : Emit Unit := do
  let distance := (← offset) - operandAt - 2
  if maxJump < distance then throw (.jumpTooFar distance line)
  modify fun e => { e with chunk := e.chunk.patchU16 operandAt distance }

/-- Append a jump back to `start`. -/
def loopBack (start : Nat) (line : Nat) : Emit Unit := do
  op .loop line
  let distance := (← offset) - start + 2
  if maxJump < distance then throw (.jumpTooFar distance line)
  byte (distance / 256) line
  byte (distance % 256) line

/-- Enter a block. -/
def beginScope : Emit Unit := modify fun e => { e with depth := e.depth + 1 }

/-- The number of newest locals deeper than `depth`. -/
def deeperCount (locals : List Local) (depth : Nat) : Nat :=
  (locals.reverse.takeWhile (depth < ·.depth)).length

/-- Append `n` pops. -/
def pops : Nat → Nat → Emit Unit
  | 0, _ => pure ()
  | n + 1, line => do
    op .pop line
    pops n line

/-- Leave a block: pop every local declared in it. -/
def endScope (line : Nat) : Emit Unit := do
  let e ← get
  let depth := e.depth - 1
  let n := deeperCount e.locals.toList depth
  set { e with depth := depth, locals := e.locals.extract 0 (e.locals.size - n) }
  pops n line

/-- Give the value on top of the stack a local slot, unless all slots are taken. -/
def addLocal (name : String) (line : Nat) : Emit Nat := do
  let e ← get
  if maxLocals ≤ e.locals.size then throw (.tooManyLocals line)
  set { e with locals := e.locals.push ⟨name, e.depth⟩ }
  return e.locals.size

/-- The slot of the newest local with a name, if any. -/
def slotOf? (locals : Array Local) (name : String) : Option Nat :=
  (locals.toList.reverse.findIdx? (·.name == name)).map (locals.size - 1 - ·)

/-- Read or write a variable: a local slot, or else a global through its name constant. -/
def access (name : String) (getOp : Op × Op) (line : Nat) : Emit Unit := do
  match slotOf? (← get).locals name with
  | some slot => opWith getOp.1 slot line
  | none =>
    let k ← nameConstant name line
    opWith getOp.2 k line

end Emit

open Emit in
/-- Compile an expression: its code leaves its value on the stack. -/
def Expr.emit : Expr → Emit Unit
  | .number x s => loadConstant (.number x) s.line
  | .string v s => loadConstant (.string v) s.line
  | .bool true s => op .pushTrue s.line
  | .bool false s => op .pushFalse s.line
  | .nil s => op .pushNil s.line
  | .var n s => access n (.getLocal, .getGlobal) s.line
  | .assign n v s => do
    v.emit
    access n (.setLocal, .setGlobal) s.line
  | .binary o l r s => do
    l.emit
    r.emit
    match o with
    | .add => op .add s.line
    | .sub => op .subtract s.line
    | .mul => op .multiply s.line
    | .div => op .divide s.line
    | .eq => op .equal s.line
    | .ne => do op .equal s.line; op .not s.line
    | .lt => op .less s.line
    | .le => do op .greater s.line; op .not s.line
    | .gt => op .greater s.line
    | .ge => do op .less s.line; op .not s.line
  | .unary o e s => do
    e.emit
    match o with
    | .neg => op .negate s.line
    | .not => op .not s.line
  | .and l r s => do
    l.emit
    let toEnd ← jump .jumpIfFalse s.line
    op .pop s.line
    r.emit
    patch toEnd s.line
  | .or l r s => do
    l.emit
    let toElse ← jump .jumpIfFalse s.line
    let toEnd ← jump .jump s.line
    patch toElse s.line
    op .pop s.line
    r.emit
    patch toEnd s.line
  | .group e _ => e.emit

namespace Emit

/-- A declaration: the code of its initial value (`nil` without one), then a new local slot for
it inside a block, or a global definition at the top. -/
def declare (name : String) (init : Option (Emit Unit)) (line : Nat) : Emit Unit := do
  init.getD (op .pushNil line)
  if 0 < (← get).depth then
    let _ ← addLocal name line
  else
    let k ← nameConstant name line
    opWith .defineGlobal k line

/-- A block: its items one level deeper, then the pops of the locals they declared. -/
def block (body : Emit Unit) (line : Nat) : Emit Unit := do
  beginScope
  body
  endScope line

/-- `if`: the condition, a jump past the first branch when it is false, the first branch and a
jump past the second; each branch starts by popping the condition. -/
def ifElse (cond yes no : Emit Unit) (line : Nat) : Emit Unit := do
  cond
  let toElse ← jump .jumpIfFalse line
  op .pop line
  yes
  let toEnd ← jump .jump line
  patch toElse line
  op .pop line
  no
  patch toEnd line

/-- `while`: the condition, a jump out when it is false, the body and a jump back; the condition
is popped in the body and after the loop. -/
def whileLoop (cond body : Emit Unit) (line : Nat) : Emit Unit := do
  let start ← offset
  cond
  let toExit ← jump .jumpIfFalse line
  op .pop line
  body
  loopBack start line
  patch toExit line
  op .pop line

/-- `for name in limit body`: a block with the limit and the counter as its first two locals;
each round compares them, runs the body and adds `1` to the counter. -/
def forLoop (name : String) (limit body : Emit Unit) (line : Nat) : Emit Unit := do
  beginScope
  limit
  let limitSlot ← addLocal limitSlotName line
  loadConstant (.number 0) line
  let counter ← addLocal name line
  let start ← offset
  opWith .getLocal counter line
  opWith .getLocal limitSlot line
  op .less line
  let toExit ← jump .jumpIfFalse line
  op .pop line
  body
  opWith .getLocal counter line
  loadConstant (.number 1) line
  op .add line
  opWith .setLocal counter line
  op .pop line
  loopBack start line
  patch toExit line
  op .pop line
  endScope line

end Emit

open Emit in
mutual

/-- Compile a statement: apart from a new local, the stack is as high afterwards as before. -/
def Stmt.emit : Stmt → Emit Unit
  | .expression e s => do
    e.emit
    op .pop s.line
  | .print e s => do
    e.emit
    op .print s.line
  | .declare n _ init s => Emit.declare n (init.map Expr.emit) s.line
  | .block body s => Emit.block (Stmt.emitAll body) s.line
  | .ifElse c yes no s => Emit.ifElse c.emit yes.emit (Stmt.emitElse no) s.line
  | .whileLoop c body s => Emit.whileLoop c.emit body.emit s.line
  | .forLoop n limit body s => Emit.forLoop n limit.emit body.emit s.line

/-- Compile the `else` branch of an `if`, if there is one. -/
def Stmt.emitElse : Option Stmt → Emit Unit
  | some s => s.emit
  | none => pure ()

/-- Compile statements in order. -/
def Stmt.emitAll : List Stmt → Emit Unit
  | [] => pure ()
  | s :: rest => do
    s.emit
    Stmt.emitAll rest

end

/-- Compile a program to a chunk that ends with `NIL RETURN`, or fail at the first limit. -/
def Chunk.ofProgram (p : Program) : Except CompileError Chunk := do
  let line := match p.body.getLast? with
    | some s => s.span.line
    | none => 0
  let prog : Emit Unit := do
    Stmt.emitAll p.body
    Emit.op .pushNil line
    Emit.op .ret line
  let ((), e) ← prog.run ⟨Chunk.empty, #[], 0, []⟩
  return e.chunk

end StackScript
