import StackScript.Token.Lexer
import StackScript.Syntax.Tree

/-!
# Reading programs from tokens

`Program.ofTokens` reads a program by recursive descent, with operator precedence climbing for
expressions.  It does not stop at the first error: after an error it skips to a statement
boundary (just after a `;`, or before a word that begins a statement or a `}`) and goes on, and
answers every error it met, in order.  An assignment to something other than a name is recorded
and its value kept, without unwinding.

Statements and expressions may nest at most `maxNesting` levels deep; one level more is an
error at the token where it happens.  At the end of input, taking a token answers the last one
again without moving, so a trailing `(` or `-` is read over and over until the nesting limit
stops it.

The reader carries fuel, one unit per call, and answers `none` if it runs out; the fuel given by
`Program.ofTokens` is far above the number of calls any input needs.
-/

namespace StackScript

/-- How deep statements and expressions may nest while they are read. -/
def maxNesting : Nat := 256

/-- What the parser looked for where it found something else. -/
inductive Expected where
  | expression
  | identifier
  | token (kind : TokenKind)
deriving Repr, Inhabited

/-- The text of what was expected: a category, or a token's text in single quotes. -/
def Expected.render : Expected → String
  | expression => "expression"
  | identifier => "identifier"
  | token k => "'" ++ k.render ++ "'"

/-- The two productions whose nesting is counted. -/
inductive Production where
  | expression
  | statement
deriving Repr, DecidableEq, Inhabited

/-- The name of a production in messages. -/
def Production.name : Production → String
  | expression => "Expression"
  | statement => "Statement"

/-- Why a program cannot be read. -/
inductive ParseError where
  /-- A token of the wrong kind. -/
  | unexpectedToken (expected : Expected) (found : TokenKind) (span : Span)
  /-- An assignment whose target is not a name; the span is that of the `=`. -/
  | invalidAssignmentTarget (span : Span)
  /-- One nesting level more than `maxNesting`. -/
  | nestingTooDeep (what : Production) (span : Span)
  /-- A word kept for later. -/
  | reserved (word : TokenKind) (span : Span)
  /-- An error of the lexer, passed on as a parse error. -/
  | lexical (error : LexError)
deriving Repr, Inhabited

namespace ParseError

/-- Where the error was found. -/
def span : ParseError → Span
  | unexpectedToken _ _ s | invalidAssignmentTarget s | nestingTooDeep _ s | reserved _ s => s
  | lexical e => e.span

/-- The error's text, ending with its place. -/
def message : ParseError → String
  | unexpectedToken ex found s =>
    "Unexpected token '" ++ found.render ++ "', expected " ++ ex.render ++ " at " ++ s.render
  | invalidAssignmentTarget s => "Invalid assignment target at " ++ s.render
  | nestingTooDeep what s => what.name ++ " nesting too deep at " ++ s.render
  | reserved k s => "'" ++ k.render ++ "' is reserved and cannot be used yet at " ++ s.render
  | lexical e => e.message ++ " at " ++ e.span.render

end ParseError

/-- Binding strength of operators, loosest first. -/
inductive Prec where
  | assignment | or | and | equality | comparison | term | factor | unary | primary
deriving Repr, DecidableEq, Inhabited

namespace Prec

/-- The place of a level in the order, loosest first. -/
def rank : Prec → Nat
  | assignment => 1
  | or => 2
  | and => 3
  | equality => 4
  | comparison => 5
  | term => 6
  | factor => 7
  | unary => 8
  | primary => 9

/-- The next tighter level: right operands of left-associative operators are read there. -/
def tighter : Prec → Prec
  | assignment => or
  | or => and
  | and => equality
  | equality => comparison
  | comparison => term
  | term => factor
  | factor => unary
  | unary => primary
  | primary => primary

end Prec

/-- Operators that stand between two operands: binary operators, the short-circuit words and
assignment. -/
inductive Connective where
  | binary (op : BinOp)
  | and
  | or
  | assign
deriving Repr, Inhabited

/-- The infix operator a token stands for, with its level. -/
def Connective.of? : TokenKind → Option (Connective × Prec)
  | .equal => some (.assign, .assignment)
  | .kwOr => some (.or, .or)
  | .kwAnd => some (.and, .and)
  | .equalEqual => some (.binary .eq, .equality)
  | .bangEqual => some (.binary .ne, .equality)
  | .less => some (.binary .lt, .comparison)
  | .lessEqual => some (.binary .le, .comparison)
  | .greater => some (.binary .gt, .comparison)
  | .greaterEqual => some (.binary .ge, .comparison)
  | .plus => some (.binary .add, .term)
  | .minus => some (.binary .sub, .term)
  | .star => some (.binary .mul, .factor)
  | .slash => some (.binary .div, .factor)
  | _ => none

namespace Parser

/-- Where the reader stands and the errors recorded so far. -/
structure State where
  pos : Nat
  errors : Array ParseError
deriving Inhabited

/-- Why a production stopped: an error, or the fuel ran out. -/
inductive Stop where
  | error (e : ParseError)
  | exhausted
deriving Inhabited

/-- Productions: they may stop, and the state they reached survives a stop. -/
abbrev M := ExceptT Stop (StateM State)

/-- The end-of-input token that stands past the end of a token list. -/
def endToken : Token := ⟨.eof, ⟨0, 0, 1, 0⟩⟩

/-- The token at an index. -/
def tokenAt (ts : Array Token) (i : Nat) : Token := ts.getD i endToken

/-- Whether a token ends the input. -/
def isEnd (t : Token) : Bool :=
  match t.kind with
  | .eof => true
  | _ => false

/-- The token under the reader. -/
def peek (ts : Array Token) : M Token := do return tokenAt ts (← get).pos

/-- The span of the token under the reader. -/
def currentSpan (ts : Array Token) : M Span := do return (← peek ts).span

/-- The span of the token before the reader, or of the first token at the start. -/
def previousSpan (ts : Array Token) : M Span := do return (tokenAt ts ((← get).pos - 1)).span

/-- Whether the reader stands on the end of input. -/
def atEnd (ts : Array Token) : M Bool := do return isEnd (← peek ts)

/-- Take a token: move on unless at the end, and answer the token before the reader. -/
def advance (ts : Array Token) : M Token := do
  let s ← get
  let pos := if isEnd (tokenAt ts s.pos) then s.pos else s.pos + 1
  set { s with pos := pos }
  return tokenAt ts (pos - 1)

/-- Whether the token under the reader is of kind `k`; never at the end. -/
def check (ts : Array Token) (k : TokenKind) : M Bool := do
  let t ← peek ts
  return !isEnd t && t.kind.alike k

/-- Take a token of kind `k` if it is next. -/
def accept (ts : Array Token) (k : TokenKind) : M Bool := do
  if ← check ts k then
    let _ ← advance ts
    return true
  else return false

/-- Fail with an error. -/
def fail {α : Type} (e : ParseError) : M α := throw (.error e)

/-- Take a token of kind `k`, or fail. -/
def expect (ts : Array Token) (k : TokenKind) : M Token := do
  if ← check ts k then advance ts
  else
    let t ← peek ts
    fail (.unexpectedToken (.token k) t.kind t.span)

/-- Take an identifier and answer its name, or fail. -/
def expectIdentifier (ts : Array Token) : M String := do
  let t ← peek ts
  match t.kind with
  | .identifier name =>
    let _ ← advance ts
    return name
  | k => fail (.unexpectedToken .identifier k t.span)

/-- Record an error and go on. -/
def record (e : ParseError) : M Unit :=
  modify fun s => { s with errors := s.errors.push e }

/-- Fail when one more nesting level would pass the limit. -/
def enter (ts : Array Token) (what : Production) (depth : Nat) : M Unit := do
  if maxNesting ≤ depth then fail (.nestingTooDeep what (← currentSpan ts))

/-- The place to resume after an error: just after a `;`, or before a word that begins a
statement or a `}`, or the end of input. -/
def resumeFrom (ts : Array Token) (pos : Nat) : Nat :=
  if h : pos < ts.size then
    let t := tokenAt ts pos
    if isEnd t then pos
    else if 0 < pos ∧ (tokenAt ts (pos - 1)).kind.alike .semicolon then pos
    else if t.kind.startsStatement || t.kind.alike .rightBrace then pos
    else resumeFrom ts (pos + 1)
  else pos
termination_by ts.size - pos

/-- An optional type word. -/
def typeTag (ts : Array Token) : M (Option TypeTag) := do
  let t ← peek ts
  let name? : Option TypeName := match t.kind with
    | .kwInt => some .int
    | .kwFloat => some .float
    | .kwBool => some .bool
    | _ => none
  match name? with
  | some name =>
    let tok ← advance ts
    return some ⟨name, tok.span⟩
  | none => return none

mutual

/-- An expression whose operators bind at least as tightly as `min`, read one nesting level
below `depth`. -/
def expr (ts : Array Token) : Nat → Nat → Prec → M Expr
  | 0, _, _ => throw .exhausted
  | n + 1, depth, min => do
    enter ts .expression depth
    let left ← operand ts n (depth + 1)
    infixChain ts n (depth + 1) min left

/-- The operand that starts an expression: a literal, a name, a group or a unary operator. -/
def operand (ts : Array Token) : Nat → Nat → M Expr
  | 0, _ => throw .exhausted
  | n + 1, depth => do
    let tok ← advance ts
    match tok.kind with
    | .number x => return .number x tok.span
    | .string s => return .string s tok.span
    | .bool b => return .bool b tok.span
    | .kwNil => return .nil tok.span
    | .identifier name => return .var name tok.span
    | .leftParen =>
      let e ← expr ts n depth .assignment
      let _ ← expect ts .rightParen
      return .group e (tok.span.merge (← previousSpan ts))
    | .minus =>
      let e ← expr ts n depth .unary
      return .unary .neg e (tok.span.merge e.span)
    | .bang =>
      let e ← expr ts n depth .unary
      return .unary .not e (tok.span.merge e.span)
    | k =>
      if k.isReserved then fail (.reserved k tok.span)
      else fail (.unexpectedToken .expression k tok.span)

/-- Extend `left` with infix operators of level `min` or tighter. -/
def infixChain (ts : Array Token) : Nat → Nat → Prec → Expr → M Expr
  | 0, _, _, _ => throw .exhausted
  | n + 1, depth, min, left => do
    if ← atEnd ts then return left
    match Connective.of? (← peek ts).kind with
    | none => return left
    | some (op, level) =>
      if level.rank < min.rank then return left
      let tok ← advance ts
      let e ← match op with
        | .binary b => do
          let right ← expr ts n depth level.tighter
          pure (Expr.binary b left right (left.span.merge right.span))
        | .and => do
          let right ← expr ts n depth level.tighter
          pure (Expr.and left right (left.span.merge right.span))
        | .or => do
          let right ← expr ts n depth level.tighter
          pure (Expr.or left right (left.span.merge right.span))
        | .assign => do
          let value ← expr ts n depth .assignment
          match left with
          | .var name _ => pure (Expr.assign name value (left.span.merge value.span))
          | _ =>
            record (.invalidAssignmentTarget tok.span)
            pure value
      infixChain ts n depth min e

/-- A declaration: a `var` declaration or a statement. -/
def declaration (ts : Array Token) : Nat → Nat → M Stmt
  | 0, _ => throw .exhausted
  | n + 1, depth => do
    if ← check ts .kwVar then
      let start ← currentSpan ts
      let _ ← expect ts .kwVar
      let ty ← typeTag ts
      let name ← expectIdentifier ts
      let init ← if ← accept ts .equal then some <$> expr ts n depth .assignment else pure none
      let _ ← expect ts .semicolon
      return .declare name ty init (start.merge (← previousSpan ts))
    else statement ts n depth

/-- A statement, read one nesting level below `depth`. -/
def statement (ts : Array Token) : Nat → Nat → M Stmt
  | 0, _ => throw .exhausted
  | n + 1, depth => do
    enter ts .statement depth
    let inner := depth + 1
    let start ← currentSpan ts
    if ← check ts .kwPrint then
      let _ ← advance ts
      let e ← expr ts n inner .assignment
      let _ ← expect ts .semicolon
      return .print e (start.merge (← previousSpan ts))
    else if ← check ts .kwIf then
      let _ ← advance ts
      let _ ← expect ts .leftParen
      let c ← expr ts n inner .assignment
      let _ ← expect ts .rightParen
      let yes ← statement ts n inner
      let no ← if ← accept ts .kwElse then some <$> statement ts n inner else pure none
      return .ifElse c yes no (start.merge (← previousSpan ts))
    else if ← check ts .kwWhile then
      let _ ← advance ts
      let _ ← expect ts .leftParen
      let c ← expr ts n inner .assignment
      let _ ← expect ts .rightParen
      let body ← statement ts n inner
      return .whileLoop c body (start.merge (← previousSpan ts))
    else if ← check ts .kwFor then
      let _ ← advance ts
      let name ← expectIdentifier ts
      let _ ← expect ts .kwIn
      let limit ← expr ts n inner .assignment
      let body ← statement ts n inner
      return .forLoop name limit body (start.merge (← previousSpan ts))
    else if ← check ts .leftBrace then
      let _ ← advance ts
      let body ← blockItems ts n inner #[]
      let _ ← expect ts .rightBrace
      return .block body.toList (start.merge (← previousSpan ts))
    else
      let e ← expr ts n inner .assignment
      let _ ← expect ts .semicolon
      return .expression e (start.merge (← previousSpan ts))

/-- The declarations of a block up to its `}` or the end of input. -/
def blockItems (ts : Array Token) : Nat → Nat → Array Stmt → M (Array Stmt)
  | 0, _, _ => throw .exhausted
  | n + 1, depth, acc => do
    if (← check ts .rightBrace) || (← atEnd ts) then return acc
    let s? ← recovering ts n depth
    blockItems ts n depth (match s? with | some s => acc.push s | none => acc)

/-- A declaration, or after an error: the error recorded, at least one token taken, and the
reader moved on to where a statement may resume. -/
def recovering (ts : Array Token) : Nat → Nat → M (Option Stmt)
  | 0, _ => throw .exhausted
  | n + 1, depth => do
    let start := (← get).pos
    tryCatch (some <$> declaration ts n depth) fun
      | .exhausted => throw .exhausted
      | .error e => do
        record e
        if (← get).pos = start then
          let _ ← advance ts
        modify fun s => { s with pos := resumeFrom ts s.pos }
        return none

/-- The declarations of a program up to the end of input. -/
def topItems (ts : Array Token) : Nat → Array Stmt → M (Array Stmt)
  | 0, _ => throw .exhausted
  | n + 1, acc => do
    if ← atEnd ts then return acc
    let s? ← recovering ts n 0
    topItems ts n (match s? with | some s => acc.push s | none => acc)

end

/-- A token list ending with an end-of-input token: one is added at the end of the last token
(line of the last token, column 0), or at offset 0 of line 1 for an empty list. -/
def terminate (tokens : List Token) : Array Token :=
  match tokens.getLast? with
  | some t => if isEnd t then tokens.toArray else tokens.toArray.push ⟨.eof, ⟨t.span.stop, t.span.stop, t.span.line, 0⟩⟩
  | none => #[⟨.eof, ⟨0, 0, 1, 0⟩⟩]

/-- Read a program with the given fuel: `none` when the fuel runs out, else the program or every
error met, in order. -/
def run (fuel : Nat) (ts : Array Token) : Option (Except (List ParseError) Program) :=
  match (topItems ts fuel #[]).run.run ⟨0, #[]⟩ with
  | (.error .exhausted, _) => none
  | (.error (.error e), s) => some (.error (s.errors.push e).toList)
  | (.ok body, s) => some (if s.errors.isEmpty then .ok ⟨body.toList⟩ else .error s.errors.toList)

/-- Fuel enough for any token list of the given length: every call takes a token or goes one
nesting level deeper. -/
def fuelFor (size : Nat) : Nat := 8 * (size + 1) * (maxNesting + 2)

end Parser

/-- Read a program from tokens, up to the first end-of-input token. -/
def Program.ofTokens (tokens : List Token) : Except (List ParseError) Program :=
  let ts := Parser.terminate tokens
  (Parser.run (Parser.fuelFor ts.size) ts).getD (.error [])

end StackScript
