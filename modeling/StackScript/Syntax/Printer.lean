import StackScript.Syntax.Tree
import StackScript.Decimal.Positional

/-!
# Printing syntax trees

Trees print as parenthesised prefix forms, one top-level statement per line: `(+ 1 2)`,
`(= x 1)`, `(group e)`, `(; e)` for an expression statement, `(print e)`,
`(var int x = e)`, `(block s …)`, `(if c s)` or `(if c s t)`, `(while c s)` and
`(for i limit s)`.  Numbers print as the language prints them and strings in double quotes.
-/

namespace StackScript

/-- The prefix form of an expression. -/
def Expr.render : Expr → String
  | number x _ => Decimal.render x
  | string s _ => "\"" ++ s ++ "\""
  | bool b _ => toString b
  | nil _ => "nil"
  | var n _ => n
  | assign n v _ => "(= " ++ n ++ " " ++ v.render ++ ")"
  | binary op l r _ => "(" ++ op.symbol ++ " " ++ l.render ++ " " ++ r.render ++ ")"
  | unary op e _ => "(" ++ op.symbol ++ " " ++ e.render ++ ")"
  | and l r _ => "(and " ++ l.render ++ " " ++ r.render ++ ")"
  | or l r _ => "(or " ++ l.render ++ " " ++ r.render ++ ")"
  | group e _ => "(group " ++ e.render ++ ")"

/-- The prefix form of a statement. -/
def Stmt.render : Stmt → String
  | expression e _ => "(; " ++ e.render ++ ")"
  | print e _ => "(print " ++ e.render ++ ")"
  | declare n ty init _ =>
    let tyText := match ty with
      | some t => t.name.word ++ " "
      | none => ""
    let initText := match init with
      | some e => " = " ++ e.render
      | none => ""
    "(var " ++ tyText ++ n ++ initText ++ ")"
  | block body _ => "(block" ++ String.join (body.map fun s => " " ++ s.render) ++ ")"
  | ifElse c yes none _ => "(if " ++ c.render ++ " " ++ yes.render ++ ")"
  | ifElse c yes (some no) _ =>
    "(if " ++ c.render ++ " " ++ yes.render ++ " " ++ no.render ++ ")"
  | whileLoop c body _ => "(while " ++ c.render ++ " " ++ body.render ++ ")"
  | forLoop n limit body _ => "(for " ++ n ++ " " ++ limit.render ++ " " ++ body.render ++ ")"

/-- A program, one top-level statement per line. -/
def Program.render (p : Program) : String :=
  "\n".intercalate (p.body.map Stmt.render)

end StackScript
