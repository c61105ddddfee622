import StackScript.Span

/-!
# Syntax trees

Programs are lists of statements; statements and expressions carry the span of the source they
were read from.  Expressions are literals, variables, assignments to a name, binary and unary
operators, the short-circuit `and` and `or`, and parenthesised groups.  Statements are expression
statements, `print`, `var` declarations with an optional type word and initialiser, blocks,
`if` with an optional `else`, `while`, and `for name in limit body`, which counts `name` from
zero up to below `limit`.
-/

namespace StackScript

/-- Operators with two operands. -/
inductive BinOp where
  | add | sub | mul | div | eq | ne | lt | le | gt | ge
deriving Repr, DecidableEq, Inhabited

/-- Operators with one operand: arithmetic negation and logical not. -/
inductive UnOp where
  | neg | not
deriving Repr, DecidableEq, Inhabited

/-- The type words of a declaration; they are read and printed, never checked. -/
inductive TypeName where
  | int | float | bool
deriving Repr, DecidableEq, Inhabited

/-- The written symbol of a binary operator. -/
def BinOp.symbol : BinOp → String
  | add => "+"
  | sub => "-"
  | mul => "*"
  | div => "/"
  | eq => "=="
  | ne => "!="
  | lt => "<"
  | le => "<="
  | gt => ">"
  | ge => ">="

/-- The written symbol of a unary operator. -/
def UnOp.symbol : UnOp → String
  | neg => "-"
  | not => "!"

/-- The word of a type. -/
def TypeName.word : TypeName → String
  | int => "int"
  | float => "float"
  | bool => "bool"

/-- A type word with its place. -/
structure TypeTag where
  name : TypeName
  span : Span
deriving Repr, DecidableEq, Inhabited

/-- Expressions, each with its span. -/
inductive Expr where
  | number (value : Float) (span : Span)
  | string (value : String) (span : Span)
  | bool (value : Bool) (span : Span)
  | nil (span : Span)
  | var (name : String) (span : Span)
  | assign (name : String) (value : Expr) (span : Span)
  | binary (op : BinOp) (left right : Expr) (span : Span)
  | unary (op : UnOp) (operand : Expr) (span : Span)
  | and (left right : Expr) (span : Span)
  | or (left right : Expr) (span : Span)
  | group (inner : Expr) (span : Span)
deriving Repr, Inhabited

/-- The span of an expression. -/
def Expr.span : Expr → Span
  | number _ s | string _ s | bool _ s | nil s | var _ s | assign _ _ s | binary _ _ _ s
  | unary _ _ s | and _ _ s | or _ _ s | group _ s => s

/-- Statements, each with its span. -/
inductive Stmt where
  | expression (e : Expr) (span : Span)
  | print (e : Expr) (span : Span)
  | declare (name : String) (type : Option TypeTag) (init : Option Expr) (span : Span)
  | block (body : List Stmt) (span : Span)
  | ifElse (cond : Expr) (yes : Stmt) (no : Option Stmt) (span : Span)
  | whileLoop (cond : Expr) (body : Stmt) (span : Span)
  | forLoop (name : String) (limit : Expr) (body : Stmt) (span : Span)
deriving Repr, Inhabited

/-- The span of a statement. -/
def Stmt.span : Stmt → Span
  | expression _ s | print _ s | declare _ _ _ s | block _ s | ifElse _ _ _ s | whileLoop _ _ s
  | forLoop _ _ _ s => s

/-- A program: its statements in order. -/
structure Program where
  body : List Stmt
deriving Repr, Inhabited

end StackScript
