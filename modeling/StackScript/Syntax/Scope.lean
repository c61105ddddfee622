import StackScript.Syntax.Tree

/-!
# Scope checks

Before a program is compiled, its block scopes are checked for two mistakes:

* reading a local variable inside its own initialiser (`{ var a = a; }`): a read of a name that
  the innermost scope has declared but whose initialiser is not done yet;
* declaring a name twice in one block.

Top-level names are globals, bound late, and never checked.  A block opens an empty scope; a
`for` loop opens a scope holding its variable, already initialised, around its body, so the body
may declare the same name again.  A second declaration of a name leaves the first one's state as
it was, so reads in the second initialiser are not reported.  Errors are answered in the order
of a left-to-right walk of the program.
-/

namespace StackScript

/-- A mistake found by the scope checks. -/
inductive ScopeError where
  /-- A read of a local inside its own initialiser. -/
  | selfReference (name : String) (span : Span)
  /-- A second declaration of a name in one block; the span is the declaration's. -/
  | redeclared (name : String) (span : Span)
deriving Repr, Inhabited

namespace ScopeError

/-- Where the mistake was found. -/
def span : ScopeError → Span
  | selfReference _ s | redeclared _ s => s

/-- The mistake's text, ending with its place. -/
def message : ScopeError → String
  | selfReference n s =>
    "Cannot read local variable '" ++ n ++ "' in its own initializer at " ++ s.render
  | redeclared n s => "Variable '" ++ n ++ "' is already declared in this scope at " ++ s.render

end ScopeError

/-- The names of one block scope, newest first, each with whether its initialiser is done. -/
abbrev Scope := List (String × Bool)

/-- The state of a name in a scope, if the scope declares it. -/
def Scope.lookup? (sc : Scope) (name : String) : Option Bool :=
  (sc.find? (·.1 == name)).map (·.2)

/-- The reads of an expression that refer to a name the innermost scope has declared and not
yet initialised, in order. -/
def Expr.selfReads (innermost : Option Scope) : Expr → List ScopeError
  | .number _ _ | .string _ _ | .bool _ _ | .nil _ => []
  | .var n s =>
    match innermost with
    | some sc => if sc.lookup? n = some false then [.selfReference n s] else []
    | none => []
  | .assign _ v _ => v.selfReads innermost
  | .binary _ l r _ | .and l r _ | .or l r _ => l.selfReads innermost ++ r.selfReads innermost
  | .unary _ e _ | .group e _ => e.selfReads innermost

mutual

/-- Check a statement under the open scopes (innermost first); answer the scopes afterwards and
the mistakes found. -/
def Stmt.checkScopes (scopes : List Scope) : Stmt → List Scope × List ScopeError
  | .expression e _ | .print e _ => (scopes, e.selfReads scopes.head?)
  | .declare n _ init span =>
    match scopes with
    | [] => ([], [])
    | sc :: outer =>
      let (sc, declared) :=
        if (sc.lookup? n).isSome then (sc, [ScopeError.redeclared n span]) else ((n, false) :: sc, [])
      let reads := match init with
        | some e => e.selfReads (some sc)
        | none => []
      (((n, true) :: sc) :: outer, declared ++ reads)
  | .block body _ => (scopes, (Stmt.checkAll ([] :: scopes) body).2)
  | .ifElse c yes no _ =>
    let (scopes, e1) := (scopes, c.selfReads scopes.head?)
    let (scopes, e2) := yes.checkScopes scopes
    match no with
    | some s =>
      let (scopes, e3) := s.checkScopes scopes
      (scopes, e1 ++ e2 ++ e3)
    | none => (scopes, e1 ++ e2)
  | .whileLoop c body _ =>
    let e1 := c.selfReads scopes.head?
    let (scopes, e2) := body.checkScopes scopes
    (scopes, e1 ++ e2)
  | .forLoop n limit body _ =>
    let e1 := limit.selfReads scopes.head?
    let e2 := (body.checkScopes ([(n, true)] :: scopes)).2
    (scopes, e1 ++ e2)

/-- Check statements in order, threading the scopes. -/
def Stmt.checkAll (scopes : List Scope) : List Stmt → List Scope × List ScopeError
  | [] => (scopes, [])
  | s :: rest =>
    let (scopes, e1) := s.checkScopes scopes
    let (scopes, e2) := Stmt.checkAll scopes rest
    (scopes, e1 ++ e2)

end

/-- The scope mistakes of a program, in order. -/
def Program.scopeErrors (p : Program) : List ScopeError := (Stmt.checkAll [] p.body).2

end StackScript
