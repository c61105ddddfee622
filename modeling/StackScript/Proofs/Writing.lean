import StackScript.Proofs.Reading

/-!
# Writing trees as tokens

The reader turns tokens into trees.  This module says how a tree is written back as the kinds of
its tokens (`Expr.tokens`, `Stmt.tokens`, `Program.tokens`): literals and names as their tokens,
infix operators between their operands, unary operators before theirs, a group in parentheses,
and statements with their words, type word, parentheses, braces and `;`.

Not every tree is read back from its tokens.  A tree is canonical (`Expr.canonical`,
`Stmt.canonical`) when it is the one the reader builds: the left operand of an infix operator
binds at least as tightly as the operator and the right operand strictly more tightly
(`Prec.joins`, on the levels `Expr.prec`), a unary operand is unary or primary, no `if` whose
first branch ends with an `if` without `else` has an `else` of its own (the inner `if` would take
it), and no `for` body begins with `-` (the limit would take it).  An assignment, at the loosest
level, is then only a whole expression, the value of an assignment, or inside a group.

`Expr.levels` and `Stmt.levels` count the nesting levels the reader enters to read a tree: one
per statement and per expression, where an infix chain is read by a loop, so that a left operand
costs no more than the chain it begins.  `Expr.unspan` and `Stmt.unspan` forget spans, so that
trees compare by shape.

On the reader's side, `Parser.Kinds ts p l` says that the tokens from index `p` on are of the
kinds `l`, and `Parser.Stops min k` that a token of kind `k` ends an expression read at level
`min`: it is no infix operator of that level or a tighter one.
-/

namespace StackScript

/-! ## Operators and their tokens -/

/-- The token of a binary operator. -/
def BinOp.token : BinOp → TokenKind
  | .add => .plus
  | .sub => .minus
  | .mul => .star
  | .div => .slash
  | .eq => .equalEqual
  | .ne => .bangEqual
  | .lt => .less
  | .le => .lessEqual
  | .gt => .greater
  | .ge => .greaterEqual

/-- The level of a binary operator. -/
def BinOp.prec : BinOp → Prec
  | .add | .sub => .term
  | .mul | .div => .factor
  | .eq | .ne => .equality
  | .lt | .le | .gt | .ge => .comparison

/-- The token of a unary operator. -/
def UnOp.token : UnOp → TokenKind
  | .neg => .minus
  | .not => .bang

/-- The token of a type word. -/
def TypeName.token : TypeName → TokenKind
  | .int => .kwInt
  | .float => .kwFloat
  | .bool => .kwBool

namespace Connective

/-- The token of an infix operator. -/
def token : Connective → TokenKind
  | binary op => op.token
  | and => .kwAnd
  | or => .kwOr
  | assign => .equal

/-- The level of an infix operator. -/
def level : Connective → Prec
  | binary op => op.prec
  | and => .and
  | or => .or
  | assign => .assignment

theorem of?_token (c : Connective) : of? c.token = some (c, c.level) := by
  cases c with
  | binary op => cases op <;> rfl
  | _ => rfl

theorem of?_eq_some {k : TokenKind} {c : Connective} {level : Prec}
    (h : of? k = some (c, level)) : k = c.token ∧ level = c.level := by
  cases k <;> simp only [of?, Option.some.injEq, Prod.mk.injEq, reduceCtorEq] at h <;>
    obtain ⟨rfl, rfl⟩ := h <;> exact ⟨rfl, rfl⟩

theorem level_rank (c : Connective) : 1 ≤ c.level.rank ∧ c.level.rank ≤ 7 := by
  cases c with
  | binary op => cases op <;> decide
  | _ => decide

end Connective

namespace Prec

theorem rank_tighter {p : Prec} (h : p.rank ≤ 8) : p.tighter.rank = p.rank + 1 := by
  cases p <;> simp_all [rank, tighter]

theorem rank_tighter_le (p : Prec) : p.tighter.rank ≤ p.rank + 1 := by
  cases p <;> decide

theorem rank_le_rank_tighter (p : Prec) : p.rank ≤ p.tighter.rank := by
  cases p <;> decide

theorem lt_rank_tighter {p q : Prec} (hq : q.rank ≤ 7) (h : q.rank ≤ p.rank) :
    q.rank < p.tighter.rank := by
  by_cases hp : p.rank ≤ 8
  · rw [rank_tighter hp]
    omega
  · have := rank_le_rank_tighter p
    omega

theorem assignment_rank_le (p : Prec) : Prec.assignment.rank ≤ p.rank := by
  cases p <;> decide

end Prec

/-! ## Kinds of tokens -/

namespace TokenKind

/-- The kind without a value at a place of the order of kinds (`ordinal`), and `eof` past the
last place. -/
def bare : Nat → TokenKind
  | 4 => kwAnd
  | 5 => kwOr
  | 6 => kwVar
  | 7 => kwPrint
  | 8 => kwIf
  | 9 => kwElse
  | 10 => kwWhile
  | 11 => kwFor
  | 12 => kwIn
  | 13 => kwNil
  | 14 => kwClass
  | 15 => kwFun
  | 16 => kwReturn
  | 17 => kwSuper
  | 18 => kwThis
  | 19 => kwInt
  | 20 => kwFloat
  | 21 => kwBool
  | 22 => plus
  | 23 => minus
  | 24 => star
  | 25 => slash
  | 26 => equal
  | 27 => equalEqual
  | 28 => bang
  | 29 => bangEqual
  | 30 => less
  | 31 => lessEqual
  | 32 => greater
  | 33 => greaterEqual
  | 34 => leftParen
  | 35 => rightParen
  | 36 => leftBrace
  | 37 => rightBrace
  | 38 => comma
  | 39 => dot
  | 40 => semicolon
  | _ => eof

theorem bare_ordinal {k : TokenKind} (h : 4 ≤ k.ordinal) : bare k.ordinal = k := by
  cases k <;> first | rfl | simp [ordinal] at h

theorem eq_of_alike {k w : TokenKind} (h : k.alike w = true) (hw : 4 ≤ w.ordinal) : k = w := by
  have hord : k.ordinal = w.ordinal := by simpa [alike] using h
  calc k = bare k.ordinal := (bare_ordinal (hord ▸ hw)).symm
    _ = bare w.ordinal := by rw [hord]
    _ = w := bare_ordinal hw

/-- The kinds an operand begins with: a literal, a name, `(`, `-` or `!`. -/
def startsOperand : TokenKind → Bool
  | number _ | string _ | bool _ | kwNil | identifier _ | leftParen | minus | bang => true
  | _ => false

theorem startsOperand_eq_contains (k : TokenKind) :
    k.startsOperand = [0, 1, 2, 3, 13, 23, 28, 34].contains k.ordinal := by
  cases k <;> rfl

theorem alike_eq_false_of_startsOperand {k w : TokenKind} (hk : k.startsOperand = true)
    (hw : w.startsOperand = false) : k.alike w = false := by
  rw [Bool.eq_false_iff]
  intro h
  have hord : k.ordinal = w.ordinal := by simpa [alike] using h
  rw [startsOperand_eq_contains, hord, ← startsOperand_eq_contains, hw] at hk
  cases hk

theorem alike_minus_of_none {k : TokenKind} (h : Connective.of? k = none) :
    k.alike .minus = false := by
  rw [Bool.eq_false_iff]
  intro hk
  rw [eq_of_alike hk (by decide)] at h
  cases h

theorem of?_of_startsOperand {k : TokenKind} (h : k.startsOperand = true) :
    Connective.of? k = none ∨ k = .minus := by
  cases k <;> simp_all [startsOperand, Connective.of?]

end TokenKind

/-- The end of input is the kind `eof`. -/
theorem Parser.isEnd_eq_alike (t : Token) : Parser.isEnd t = t.kind.alike .eof := by
  rcases t with ⟨k, _⟩
  cases k <;> rfl

/-! ## Expressions -/

/-- How tightly an expression binds: the level of its outermost operator, `unary` for a unary
operator, and `primary` for a literal, a name or a group. -/
def Expr.prec : Expr → Prec
  | .assign .. => .assignment
  | .or .. => .or
  | .and .. => .and
  | .binary op .. => op.prec
  | .unary .. => .unary
  | .number .. | .string .. | .bool .. | .nil _ | .var .. | .group .. => .primary

/-- The level at which the reader reads the last operand on the right of an expression: the
value of an assignment at the loosest level, the right operand of another infix operator one
level tighter than the operator. -/
def Expr.rightLevel : Expr → Prec
  | .assign .. => .assignment
  | e => e.prec.tighter

/-- The kinds of the tokens an expression is written with. -/
def Expr.tokens : Expr → List TokenKind
  | .number x _ => [.number x]
  | .string s _ => [.string s]
  | .bool b _ => [.bool b]
  | .nil _ => [.kwNil]
  | .var x _ => [.identifier x]
  | .assign x v _ => .identifier x :: .equal :: v.tokens
  | .binary op l r _ => l.tokens ++ op.token :: r.tokens
  | .unary op e _ => op.token :: e.tokens
  | .and l r _ => l.tokens ++ .kwAnd :: r.tokens
  | .or l r _ => l.tokens ++ .kwOr :: r.tokens
  | .group e _ => .leftParen :: e.tokens ++ [.rightParen]

/-- The kind of the first token an expression is written with. -/
def Expr.first : Expr → TokenKind
  | .number x _ => .number x
  | .string s _ => .string s
  | .bool b _ => .bool b
  | .nil _ => .kwNil
  | .var x _ | .assign x _ _ => .identifier x
  | .binary _ l _ _ | .and l _ _ | .or l _ _ => l.first
  | .unary op _ _ => op.token
  | .group _ _ => .leftParen

/-- The operand an expression's infix chain begins with: the leftmost operand under its infix
operators, and the name an assignment assigns to. -/
def Expr.base : Expr → Expr
  | .binary _ l _ _ | .and l _ _ | .or l _ _ => l.base
  | .assign x _ sp => .var x sp
  | e => e

/-- An infix operator of level `level` between `l` and `r` stands where the reader puts it: `l`
binds at least as tightly as the operator, and `r` more tightly. -/
def Prec.joins (level : Prec) (l r : Expr) : Bool :=
  level.rank ≤ l.prec.rank && level.rank < r.prec.rank

/-- Whether an expression is the tree the reader builds from its tokens: every infix operator
stands where its level and left associativity put it, and every unary operand is unary or
primary. -/
def Expr.canonical : Expr → Bool
  | .number .. | .string .. | .bool .. | .nil _ | .var .. => true
  | .assign _ v _ => v.canonical
  | .binary op l r _ => op.prec.joins l r && l.canonical && r.canonical
  | .and l r _ => Prec.and.joins l r && l.canonical && r.canonical
  | .or l r _ => Prec.or.joins l r && l.canonical && r.canonical
  | .unary _ e _ => Prec.unary.rank ≤ e.prec.rank && e.canonical
  | .group e _ => e.canonical

/-- The nesting levels the reader enters to read an expression: one for the expression, and one
more than a group, a unary operand, an assigned value or a right operand needs; a left operand
is read by the loop of its chain, on the same level. -/
def Expr.levels : Expr → Nat
  | .number .. | .string .. | .bool .. | .nil _ | .var .. => 1
  | .assign _ v _ => v.levels + 1
  | .binary _ l r _ | .and l r _ | .or l r _ => max l.levels (r.levels + 1)
  | .unary _ e _ | .group e _ => e.levels + 1

/-- An expression with every span set to the default one: its shape. -/
def Expr.unspan : Expr → Expr
  | .number x _ => .number x default
  | .string s _ => .string s default
  | .bool b _ => .bool b default
  | .nil _ => .nil default
  | .var x _ => .var x default
  | .assign x v _ => .assign x v.unspan default
  | .binary op l r _ => .binary op l.unspan r.unspan default
  | .unary op e _ => .unary op e.unspan default
  | .and l r _ => .and l.unspan r.unspan default
  | .or l r _ => .or l.unspan r.unspan default
  | .group e _ => .group e.unspan default

/-- The kinds of a declaration's optional initialiser, with its `=`. -/
def Expr.initTokens : Option Expr → List TokenKind
  | some e => .equal :: e.tokens
  | none => []

/-- The nesting levels of a declaration's optional initialiser. -/
def Expr.initLevels : Option Expr → Nat
  | some e => e.levels
  | none => 0

/-- The kind of a declaration's optional type word. -/
def TypeTag.tokens : Option TypeTag → List TokenKind
  | some t => [t.name.token]
  | none => []

/-! ## Statements and programs -/

/-- The kind of the first token a statement is written with. -/
def Stmt.first : Stmt → TokenKind
  | .expression e _ => e.first
  | .print .. => .kwPrint
  | .declare .. => .kwVar
  | .block .. => .leftBrace
  | .ifElse .. => .kwIf
  | .whileLoop .. => .kwWhile
  | .forLoop .. => .kwFor

/-- Whether a statement ends with an `if` that has no `else`, which an `else` written after the
statement would join. -/
def Stmt.endsOpen : Stmt → Bool
  | .ifElse _ _ none _ => true
  | .ifElse _ _ (some no) _ => no.endsOpen
  | .whileLoop _ body _ | .forLoop _ _ body _ => body.endsOpen
  | _ => false

mutual

/-- The kinds of the tokens a statement is written with. -/
def Stmt.tokens : Stmt → List TokenKind
  | .expression e _ => e.tokens ++ [.semicolon]
  | .print e _ => .kwPrint :: e.tokens ++ [.semicolon]
  | .declare x ty init _ =>
    .kwVar :: TypeTag.tokens ty ++ .identifier x :: Expr.initTokens init ++ [.semicolon]
  | .block body _ => .leftBrace :: Stmt.tokensAll body ++ [.rightBrace]
  | .ifElse c yes no _ =>
    .kwIf :: .leftParen :: c.tokens ++ .rightParen :: yes.tokens ++ Stmt.elseTokens no
  | .whileLoop c body _ => .kwWhile :: .leftParen :: c.tokens ++ .rightParen :: body.tokens
  | .forLoop x limit body _ => .kwFor :: .identifier x :: .kwIn :: limit.tokens ++ body.tokens

/-- The kinds of an `if`'s optional `else` branch, with its `else`. -/
def Stmt.elseTokens : Option Stmt → List TokenKind
  | some s => .kwElse :: s.tokens
  | none => []

/-- The kinds of statements written one after the other. -/
def Stmt.tokensAll : List Stmt → List TokenKind
  | [] => []
  | s :: rest => s.tokens ++ Stmt.tokensAll rest

end

mutual

/-- Whether a statement is the tree the reader builds from its tokens: its expressions are
canonical, no `if` whose first branch ends with an `if` without `else` has an `else`, and no
`for` body begins with `-`. -/
def Stmt.canonical : Stmt → Bool
  | .expression e _ | .print e _ => e.canonical
  | .declare _ _ init _ => init.all Expr.canonical
  | .block body _ => Stmt.canonicalAll body
  | .ifElse c yes no _ =>
    c.canonical && yes.canonical && (no.isNone || !yes.endsOpen) && Stmt.elseCanonical no
  | .whileLoop c body _ => c.canonical && body.canonical
  | .forLoop _ limit body _ => limit.canonical && !body.first.alike .minus && body.canonical

/-- Whether an `if`'s optional `else` branch is canonical. -/
def Stmt.elseCanonical : Option Stmt → Bool
  | some s => s.canonical
  | none => true

/-- Whether every statement of a list is canonical. -/
def Stmt.canonicalAll : List Stmt → Bool
  | [] => true
  | s :: rest => s.canonical && Stmt.canonicalAll rest

end

mutual

/-- The nesting levels the reader enters to read a statement: one for the statement and what
its parts need one level down.  A declaration has no level of its own: its value is read on the
level of the block or program that lists it. -/
def Stmt.levels : Stmt → Nat
  | .expression e _ | .print e _ => e.levels + 1
  | .declare _ _ init _ => Expr.initLevels init
  | .block body _ => Stmt.levelsAll body + 1
  | .ifElse c yes no _ => max c.levels (max yes.levels (Stmt.elseLevels no)) + 1
  | .whileLoop c body _ => max c.levels body.levels + 1
  | .forLoop _ limit body _ => max limit.levels body.levels + 1

/-- The nesting levels of an `if`'s optional `else` branch. -/
def Stmt.elseLevels : Option Stmt → Nat
  | some s => s.levels
  | none => 0

/-- The nesting levels of the deepest of some statements. -/
def Stmt.levelsAll : List Stmt → Nat
  | [] => 0
  | s :: rest => max s.levels (Stmt.levelsAll rest)

end

mutual

/-- A statement with every span set to the default one: its shape. -/
def Stmt.unspan : Stmt → Stmt
  | .expression e _ => .expression e.unspan default
  | .print e _ => .print e.unspan default
  | .declare x ty init _ =>
    .declare x (ty.map fun t => { t with span := default }) (init.map Expr.unspan) default
  | .block body _ => .block (Stmt.unspanAll body) default
  | .ifElse c yes no _ => .ifElse c.unspan yes.unspan (Stmt.unspanElse no) default
  | .whileLoop c body _ => .whileLoop c.unspan body.unspan default
  | .forLoop x limit body _ => .forLoop x limit.unspan body.unspan default

/-- An `if`'s optional `else` branch without spans. -/
def Stmt.unspanElse : Option Stmt → Option Stmt
  | some s => some s.unspan
  | none => none

/-- Statements without spans. -/
def Stmt.unspanAll : List Stmt → List Stmt
  | [] => []
  | s :: rest => s.unspan :: Stmt.unspanAll rest

end

/-! ## Shapes of written trees -/

/-- An expression is written with its first kind and then the rest. -/
theorem Expr.tokens_eq_first : ∀ e : Expr, ∃ rest, e.tokens = e.first :: rest
  | .binary _ l _ _ | .and l _ _ | .or l _ _ => by
    obtain ⟨rest, h⟩ := l.tokens_eq_first
    exact ⟨_, by rw [Expr.tokens, Expr.first, h]; rfl⟩
  | .number .. | .string .. | .bool .. | .nil _ | .var .. | .assign .. | .unary .. | .group .. =>
    ⟨_, rfl⟩

theorem Expr.startsOperand_first : ∀ e : Expr, e.first.startsOperand = true
  | .binary _ l _ _ | .and l _ _ | .or l _ _ => l.startsOperand_first
  | .unary op _ _ => by cases op <;> rfl
  | .number .. | .string .. | .bool .. | .nil _ | .var .. | .assign .. | .group .. => rfl

theorem Expr.tokens_base : ∀ e : Expr, ∃ rest, e.tokens = e.base.tokens ++ rest
  | .binary _ l _ _ | .and l _ _ | .or l _ _ => by
    obtain ⟨rest, h⟩ := l.tokens_base
    exact ⟨_, by rw [Expr.tokens, Expr.base, h, List.append_assoc]⟩
  | .assign .. => ⟨_, rfl⟩
  | .number .. | .string .. | .bool .. | .nil _ | .var .. | .unary .. | .group .. =>
    ⟨[], (List.append_nil _).symm⟩

theorem Expr.levels_pos (e : Expr) : 0 < e.levels := by
  cases e <;> simp only [Expr.levels] <;> omega

theorem Expr.length_tokens_pos (e : Expr) : 0 < e.tokens.length := by
  obtain ⟨rest, h⟩ := e.tokens_eq_first
  simp [h]

theorem Stmt.tokens_eq_first (st : Stmt) : ∃ rest, st.tokens = st.first :: rest := by
  cases st with
  | expression e _ =>
    obtain ⟨rest, h⟩ := e.tokens_eq_first
    exact ⟨_, by rw [Stmt.tokens, Stmt.first, h]; rfl⟩
  | _ => exact ⟨_, rfl⟩

theorem Stmt.length_tokens_pos (st : Stmt) : 0 < st.tokens.length := by
  obtain ⟨rest, h⟩ := st.tokens_eq_first
  simp [h]

theorem Stmt.first_alike_eq_false (st : Stmt) {w : TokenKind} (hw : w.startsOperand = false)
    (hwords : ∀ k ∈ [TokenKind.kwPrint, .kwVar, .leftBrace, .kwIf, .kwWhile, .kwFor],
      k.alike w = false) : st.first.alike w = false := by
  cases st with
  | expression e _ => exact TokenKind.alike_eq_false_of_startsOperand e.startsOperand_first hw
  | _ => exact hwords _ (by simp [Stmt.first])

theorem Expr.unspan_eq_var {e : Expr} {x : String} (h : e.unspan = .var x default) :
    ∃ sp, e = .var x sp := by
  cases e <;> simp only [Expr.unspan, Expr.var.injEq, reduceCtorEq, and_true] at h
  exact ⟨_, by rw [h]⟩

theorem Expr.rank_prec_le_rightLevel (e : Expr) : e.prec.rank ≤ e.rightLevel.rank := by
  cases e with
  | assign => exact Nat.le_refl _
  | _ => exact Prec.rank_le_rank_tighter _

/-- Statements written one after the other, without spans. -/
theorem Stmt.unspanAll_append (l₁ l₂ : List Stmt) :
    Stmt.unspanAll (l₁ ++ l₂) = Stmt.unspanAll l₁ ++ Stmt.unspanAll l₂ := by
  induction l₁ with
  | nil => rfl
  | cons st rest ih => simp only [List.cons_append, Stmt.unspanAll, ih]

namespace Program

/-- The kinds of the tokens a program is written with. -/
def tokens (p : Program) : List TokenKind := Stmt.tokensAll p.body

/-- Whether a program is the one the reader builds from its tokens. -/
def canonical (p : Program) : Bool := Stmt.canonicalAll p.body

/-- The nesting levels the reader enters to read a program. -/
def levels (p : Program) : Nat := Stmt.levelsAll p.body

/-- A program with every span set to the default one. -/
def unspan (p : Program) : Program := ⟨Stmt.unspanAll p.body⟩

end Program

/-! ## The tokens the reader meets -/

namespace Parser

variable {ts : Array Token} {p : Nat}

/-- The tokens of `ts` from index `p` on are of the kinds `l`, in order. -/
def Kinds (ts : Array Token) (p : Nat) (l : List TokenKind) : Prop :=
  ∀ i (h : i < l.length), (tokenAt ts (p + i)).kind = l[i]

namespace Kinds

variable {k : TokenKind} {l l₁ l₂ : List TokenKind}

@[simp] theorem nil : Kinds ts p [] := fun _ h => absurd h (Nat.not_lt_zero _)

@[simp] theorem cons_iff : Kinds ts p (k :: l) ↔ (tokenAt ts p).kind = k ∧ Kinds ts (p + 1) l :=
  ReadsAt.cons_iff (f := fun i => (tokenAt ts i).kind)

@[simp] theorem append_iff :
    Kinds ts p (l₁ ++ l₂) ↔ Kinds ts p l₁ ∧ Kinds ts (p + l₁.length) l₂ :=
  ReadsAt.append_iff (f := fun i => (tokenAt ts i).kind)

theorem cons_of {q : Nat} (hk : (tokenAt ts p).kind = k) (h : Kinds ts q l) (hq : q = p + 1) :
    Kinds ts p (k :: l) :=
  cons_iff.mpr ⟨hk, hq ▸ h⟩

theorem append_of {q : Nat} (h₁ : Kinds ts p l₁) (h₂ : Kinds ts q l₂) (hq : q = p + l₁.length) :
    Kinds ts p (l₁ ++ l₂) :=
  append_iff.mpr ⟨h₁, hq ▸ h₂⟩

end Kinds

/-- A token of kind `k` ends an expression read at level `min`: it is no infix operator of that
level or a tighter one. -/
def Stops (min : Prec) (k : TokenKind) : Prop :=
  ∀ c level, Connective.of? k = some (c, level) → level.rank < min.rank

namespace Stops

variable {min min' : Prec} {k : TokenKind}

theorem mono (h : Stops min k) (hle : min.rank ≤ min'.rank) : Stops min' k :=
  fun c level hc => Nat.lt_of_lt_of_le (h c level hc) hle

theorem of_none (h : Connective.of? k = none) : Stops min k := fun c level hc => by
  rw [h] at hc
  cases hc

/-- Every infix operator is looser than a unary one. -/
theorem unary (k : TokenKind) : Stops .unary k := fun c level hc => by
  obtain ⟨-, rfl⟩ := Connective.of?_eq_some hc
  have := c.level_rank
  show c.level.rank < 8
  omega

theorem eq_none (h : Stops .assignment k) : Connective.of? k = none := by
  rcases hk : Connective.of? k with _ | ⟨c, level⟩
  · rfl
  · obtain ⟨-, rfl⟩ := Connective.of?_eq_some hk
    have hlt : c.level.rank < 1 := h c _ hk
    have := c.level_rank
    omega

theorem of_unary_le {e : Expr} (h : Prec.unary.rank ≤ e.prec.rank) (k : TokenKind) :
    Stops e.rightLevel k :=
  (Stops.unary k).mono (Nat.le_trans h e.rank_prec_le_rightLevel)

theorem rank_le {e : Expr} {c : Connective} {level : Prec} (h : Stops e.rightLevel k)
    (hk : Connective.of? k = some (c, level)) : level.rank ≤ e.prec.rank := by
  have hlt := h c level hk
  cases e with
  | assign =>
    rw [eq_none h] at hk
    cases hk
  | _ =>
    simp only [Expr.rightLevel] at hlt
    exact Nat.lt_succ_iff.mp (Nat.lt_of_lt_of_le hlt (Prec.rank_tighter_le _))

end Stops

end Parser

end StackScript
