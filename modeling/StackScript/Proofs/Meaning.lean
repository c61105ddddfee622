import StackScript.Bytecode.Compiler
import StackScript.Machine.Basic

/-!
# What programs mean

A big-step interpreter of programs, written from the language's rules:

* variables of blocks are locals, found newest first, so that an inner declaration shadows an
  outer one; a local's initial value is computed before its name is bound, and a block's locals
  go when it ends;
* every other variable is a global; a declaration at the top defines or overwrites one, reading
  or assigning one that does not exist fails, an assignment after its value is computed;
* operands are computed left to right, `and` and `or` stop at the operand that decides and
  answer it, and `a != b`, `a <= b`, `a >= b` are the negations of `a == b`, `a > b`, `a < b`;
* `for name in limit body` keeps the limit and the counter as the first two locals of a block of
  its own (the limit under a name no source can write), runs `body` while the counter is below
  the limit, and adds `1` to the counter after each round;
* errors carry the line of the expression that failed, or of the `for` statement for its test
  and its step.

Loops run for at most `fuel` rounds each: `Stmt.exec` answers `none` when that is not enough.
-/

namespace StackScript

/-- Where a program's variables live while it runs: the locals of the blocks around (oldest
first, each with its name), the globals, and the lines printed so far. -/
structure Env where
  locals : List (String × Value)
  globals : Globals
  printed : Array String

/-- How statements ended: normally or with an error, and the environment then. -/
abbrev Ending := Except RuntimeError Unit × Env

namespace Env

/-- The place of the newest local with a name, counted from the oldest. -/
def newest? : List (String × Value) → String → Option Nat
  | [], _ => none
  | (n, _) :: rest, name =>
    match newest? rest name with
    | some i => some (i + 1)
    | none => if n = name then some 0 else none

/-- The value of the local at a place (`nil` past the end). -/
def localAt (E : Env) (i : Nat) : Value := ((E.locals[i]?).map Prod.snd).getD .nil

/-- The environment with a new value for the local at a place. -/
def setLocalAt (E : Env) (i : Nat) (v : Value) : Env :=
  { E with locals := E.locals.modify i fun (n, _) => (n, v) }

/-- The value of a variable: its newest local, else its global. -/
def read (E : Env) (name : String) (line : Nat) : Except RuntimeError Value :=
  match newest? E.locals name with
  | some i => .ok (E.localAt i)
  | none =>
    match E.globals[name]? with
    | some v => .ok v
    | none => .error (.undefinedVariable name line)

/-- Assign a variable: its newest local, else its global if there is one. -/
def write (E : Env) (name : String) (v : Value) (line : Nat) : Except RuntimeError Value × Env :=
  match newest? E.locals name with
  | some i => (.ok v, E.setLocalAt i v)
  | none =>
    if E.globals.contains name then (.ok v, { E with globals := E.globals.insert name v })
    else (.error (.undefinedVariable name line), E)

/-- Declare a variable: a local inside a block, a global at the top. -/
def declare (E : Env) (depth : Nat) (name : String) (v : Value) : Env :=
  if 0 < depth then { E with locals := E.locals ++ [(name, v)] }
  else { E with globals := E.globals.insert name v }

/-- Drop the locals past the first `n`: the end of a block. -/
def restore (E : Env) (n : Nat) : Env := { E with locals := E.locals.take n }

end Env

/-- What a binary operator makes of two values; errors name both types. -/
def BinOp.apply (o : BinOp) (a b : Value) (line : Nat) : Except RuntimeError Value :=
  match o with
  | .add => numeric fun x y => .number (x + y)
  | .sub => numeric fun x y => .number (x - y)
  | .mul => numeric fun x y => .number (x * y)
  | .div => numeric fun x y => .number (x / y)
  | .eq => .ok (.bool (a.equal b))
  | .ne => .ok (.bool !(a.equal b))
  | .lt => numeric fun x y => .bool (x < y)
  | .gt => numeric fun x y => .bool (y < x)
  | .le => numeric fun x y => .bool !(y < x)
  | .ge => numeric fun x y => .bool !(x < y)
where
  /-- An operation on two numbers. -/
  numeric (f : Float → Float → Value) : Except RuntimeError Value :=
    match a, b with
    | .number x, .number y => .ok (f x y)
    | _, _ => .error (.operandsNotNumbers a.typeName b.typeName line)

/-- What a unary operator makes of a value. -/
def UnOp.apply (o : UnOp) (v : Value) (line : Nat) : Except RuntimeError Value :=
  match o, v with
  | .neg, .number x => .ok (.number (-x))
  | .neg, _ => .error (.cannotNegate v.typeName line)
  | .not, _ => .ok (.bool v.isFalsy)

/-- The value of an expression and the environment after its assignments, or the error that
stopped it. -/
def Expr.eval : Expr → Env → Except RuntimeError Value × Env
  | .number x _, E => (.ok (.number x), E)
  | .string v _, E => (.ok (.string v), E)
  | .bool b _, E => (.ok (.bool b), E)
  | .nil _, E => (.ok .nil, E)
  | .var n s, E => (E.read n s.line, E)
  | .assign n e s, E =>
    match e.eval E with
    | (.ok v, E') => E'.write n v s.line
    | (.error x, E') => (.error x, E')
  | .binary o l r s, E =>
    match l.eval E with
    | (.ok a, E₁) =>
      match r.eval E₁ with
      | (.ok b, E₂) => (o.apply a b s.line, E₂)
      | (.error x, E₂) => (.error x, E₂)
    | (.error x, E₁) => (.error x, E₁)
  | .unary o e s, E =>
    match e.eval E with
    | (.ok v, E') => (o.apply v s.line, E')
    | (.error x, E') => (.error x, E')
  | .and l r _, E =>
    match l.eval E with
    | (.ok a, E') => if a.isFalsy then (.ok a, E') else r.eval E'
    | (.error x, E') => (.error x, E')
  | .or l r _, E =>
    match l.eval E with
    | (.ok a, E') => if a.isFalsy then r.eval E' else (.ok a, E')
    | (.error x, E') => (.error x, E')
  | .group e _, E => e.eval E

/-- The value a declaration starts with: its initial value's, or `nil`. -/
def Expr.evalInit : Option Expr → Env → Except RuntimeError Value × Env
  | some e, E => e.eval E
  | none, E => (.ok .nil, E)

/-- At most `rounds` rounds of `while`: the condition, and the body while it holds. -/
def Stmt.whileRounds (cond : Expr) (body : Env → Option Ending) : Nat → Env → Option Ending
  | 0, _ => none
  | rounds + 1, E =>
    match cond.eval E with
    | (.ok v, E') =>
      if v.isFalsy then some (.ok (), E')
      else
        match body E' with
        | some (.ok (), E'') => Stmt.whileRounds cond body rounds E''
        | r => r
    | (.error x, E') => some (.error x, E')

/-- At most `rounds` rounds of `for`, whose limit and counter are the locals at `base` and
`base + 1`: the test, and while it holds the body and the step. -/
def Stmt.forRounds (base line : Nat) (body : Env → Option Ending) : Nat → Env → Option Ending
  | 0, _ => none
  | rounds + 1, E =>
    match BinOp.lt.apply (E.localAt (base + 1)) (E.localAt base) line with
    | .error x => some (.error x, E)
    | .ok test =>
      if test.isFalsy then some (.ok (), E)
      else
        match body E with
        | some (.ok (), E') =>
          match BinOp.add.apply (E'.localAt (base + 1)) (.number 1) line with
          | .ok next => Stmt.forRounds base line body rounds (E'.setLocalAt (base + 1) next)
          | .error x => some (.error x, E')
        | r => r

mutual

/-- Run a statement at block depth `depth`, each loop for at most `fuel` rounds. -/
def Stmt.exec (fuel depth : Nat) : Stmt → Env → Option Ending
  | .expression e _, E =>
    match e.eval E with
    | (.ok _, E') => some (.ok (), E')
    | (.error x, E') => some (.error x, E')
  | .print e _, E =>
    match e.eval E with
    | (.ok v, E') => some (.ok (), { E' with printed := E'.printed.push v.render })
    | (.error x, E') => some (.error x, E')
  | .declare n _ init _, E =>
    match Expr.evalInit init E with
    | (.ok v, E') => some (.ok (), E'.declare depth n v)
    | (.error x, E') => some (.error x, E')
  | .block body _, E =>
    match Stmt.execAll fuel (depth + 1) body E with
    | some (.ok (), E') => some (.ok (), E'.restore E.locals.length)
    | r => r
  | .ifElse c yes no _, E =>
    match c.eval E with
    | (.ok v, E') =>
      if v.isFalsy then Stmt.execElse fuel depth no E' else yes.exec fuel depth E'
    | (.error x, E') => some (.error x, E')
  | .whileLoop c body _, E => Stmt.whileRounds c (fun E => body.exec fuel depth E) fuel E
  | .forLoop n limit body s, E =>
    match limit.eval E with
    | (.ok l, E') =>
      let base := E'.locals.length
      match Stmt.forRounds base s.line (fun E => body.exec fuel (depth + 1) E) fuel
          { E' with locals := E'.locals ++ [(limitSlotName, l), (n, .number 0)] } with
      | some (.ok (), E'') => some (.ok (), E''.restore base)
      | r => r
    | (.error x, E') => some (.error x, E')

/-- Run the `else` branch of an `if`, if there is one. -/
def Stmt.execElse (fuel depth : Nat) : Option Stmt → Env → Option Ending
  | some s, E => s.exec fuel depth E
  | none, E => some (.ok (), E)

/-- Run statements in order, up to the first error. -/
def Stmt.execAll (fuel depth : Nat) : List Stmt → Env → Option Ending
  | [], E => some (.ok (), E)
  | s :: rest, E =>
    match s.exec fuel depth E with
    | some (.ok (), E') => Stmt.execAll fuel depth rest E'
    | r => r

end

/-- Run a program from an environment with no locals, each loop for at most `fuel` rounds. -/
def Program.exec (fuel : Nat) (p : Program) (E : Env) : Option Ending :=
  Stmt.execAll fuel 0 p.body E

end StackScript
