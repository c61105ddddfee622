import StackScript.Proofs.Placement

/-!
# The reader, one production at a time

Equations for what the reader's steps answer from a given state, when the tokens there are
known: taking a token, the operand of an expression, one turn of the infix loop, a statement, a
declaration, one item of a block or of a program.  Each production is stated with any fuel left
above what it uses itself, and the equations chain: a run of the reader over a concrete token
list is a sequence of rewrites, with no evaluation of the reader as a whole.

`Parser.Spells ts p l` says that the tokens of `ts` from index `p` on begin with `l`; the
token list the reader is given spells the program's tokens from index `0`, with an end token
after them (`Parser.spells_terminate`, `Parser.isEnd_terminate`).
-/

namespace StackScript

/-- A span merged with itself is itself. -/
@[simp] theorem Span.merge_self (s : Span) : s.merge s = s := by
  simp [Span.merge]

namespace Parser

open Yields (run_bind)

variable {ts : Array Token} {s s₁ : State} {n d : Nat} {p : Nat}

/-! ## Tokens at given places -/

theorem length_flatMap_range {α : Type} {f : Nat → List α} {w : Nat}
    (hw : ∀ i, (f i).length = w) (k : Nat) : ((List.range k).flatMap f).length = w * k := by
  induction k with
  | zero => simp
  | succ k ih => simp [List.range_succ, ih, hw, Nat.mul_succ]

/-- The values of `f` at the places from `p` on begin with `l`. -/
def ReadsAt {α : Type} (f : Nat → α) (p : Nat) (l : List α) : Prop :=
  ∀ i (h : i < l.length), f (p + i) = l[i]

namespace ReadsAt

variable {α : Type} {f : Nat → α} {a : α} {l l₁ l₂ : List α}

theorem cons_iff : ReadsAt f p (a :: l) ↔ f p = a ∧ ReadsAt f (p + 1) l := by
  constructor
  · intro h
    refine ⟨h 0 (by simp), fun i hi => ?_⟩
    have := h (i + 1) (by simp; omega)
    simpa [Nat.add_assoc, Nat.add_comm 1 i] using this
  · rintro ⟨h₀, h⟩ i hi
    cases i with
    | zero => simpa using h₀
    | succ i =>
      have := h i (by simp at hi; omega)
      simpa [Nat.add_assoc, Nat.add_comm 1 i] using this

theorem append_iff :
    ReadsAt f p (l₁ ++ l₂) ↔ ReadsAt f p l₁ ∧ ReadsAt f (p + l₁.length) l₂ := by
  induction l₁ generalizing p with
  | nil => simp [ReadsAt]
  | cons t l₁ ih =>
    simp only [List.cons_append, cons_iff, ih, List.length_cons, and_assoc]
    simp [Nat.add_assoc, Nat.add_comm 1 l₁.length]

end ReadsAt

/-- The tokens of `ts` from index `p` on begin with `l`. -/
def Spells (ts : Array Token) (p : Nat) (l : List Token) : Prop :=
  ∀ i (h : i < l.length), tokenAt ts (p + i) = l[i]

namespace Spells

variable {t : Token} {l l₁ l₂ : List Token}

theorem cons_iff : Spells ts p (t :: l) ↔ tokenAt ts p = t ∧ Spells ts (p + 1) l :=
  ReadsAt.cons_iff

theorem append_iff :
    Spells ts p (l₁ ++ l₂) ↔ Spells ts p l₁ ∧ Spells ts (p + l₁.length) l₂ :=
  ReadsAt.append_iff

theorem flatMap_range {f : Nat → List Token} {w k : Nat} (hw : ∀ i, (f i).length = w)
    (h : Spells ts p ((List.range k).flatMap f)) {i : Nat} (hi : i < k) :
    Spells ts (p + w * i) (f i) := by
  induction k with
  | zero => omega
  | succ k ih =>
    rw [List.range_succ, List.flatMap_append, append_iff] at h
    rcases Nat.lt_succ_iff_lt_or_eq.mp hi with hi | rfl
    · exact ih h.1 hi
    · rw [length_flatMap_range hw] at h
      simpa using h.2

end Spells

theorem tokenAt_terminate {tokens : List Token} {i : Nat} (h : i < tokens.length) :
    tokenAt (terminate tokens) i = tokens[i] := by
  unfold terminate
  rcases hl : tokens.getLast? with _ | t
  · simp [List.getLast?_eq_none_iff.mp hl] at h
  · dsimp only
    split
    · simp [tokenAt, h]
    · simp [tokenAt, Array.getD_eq_getD_getElem?, List.getElem?_append_left h,
        List.getElem?_eq_getElem h]

/-- The reader's token list spells the program's tokens. -/
theorem spells_terminate (tokens : List Token) : Spells (terminate tokens) 0 tokens :=
  fun i h => by simpa using tokenAt_terminate h

theorem length_le_size_terminate (tokens : List Token) :
    tokens.length ≤ (terminate tokens).size := by
  unfold terminate
  rcases hl : tokens.getLast? with _ | t
  · simp [List.getLast?_eq_none_iff.mp hl]
  · dsimp only
    split <;> simp

/-- After the program's tokens the reader finds the end of input. -/
theorem isEnd_terminate (tokens : List Token) :
    isEnd (tokenAt (terminate tokens) tokens.length) = true := by
  unfold terminate
  rcases hl : tokens.getLast? with _ | t
  · simp [List.getLast?_eq_none_iff.mp hl, tokenAt, isEnd]
  · dsimp only
    split
    · simp [tokenAt, Array.getD, endToken, isEnd]
    · simp [tokenAt, Array.getD, isEnd]

/-! ## Taking tokens -/

theorem get_run : (get : M State).run.run s = (.ok s, s) := rfl

theorem pure_run {α : Type} (a : α) : (pure a : M α).run.run s = (.ok a, s) := rfl

theorem peek_run : (peek ts).run.run s = (.ok (tokenAt ts s.pos), s) := rfl

theorem atEnd_run : (atEnd ts).run.run s = (.ok (isEnd (tokenAt ts s.pos)), s) := rfl

theorem currentSpan_run : (currentSpan ts).run.run s = (.ok (tokenAt ts s.pos).span, s) := rfl

theorem previousSpan_run :
    (previousSpan ts).run.run s = (.ok (tokenAt ts (s.pos - 1)).span, s) := rfl

theorem check_run (k : TokenKind) : (check ts k).run.run s =
    (.ok (!isEnd (tokenAt ts s.pos) && (tokenAt ts s.pos).kind.alike k), s) := rfl

theorem advance_run_eq : (advance ts).run.run s =
    (.ok (tokenAt ts ((if isEnd (tokenAt ts s.pos) then s.pos else s.pos + 1) - 1)),
      { s with pos := if isEnd (tokenAt ts s.pos) then s.pos else s.pos + 1 }) := rfl

theorem advance_run (h : isEnd (tokenAt ts s.pos) = false) :
    (advance ts).run.run s = (.ok (tokenAt ts s.pos), { s with pos := s.pos + 1 }) := by
  rw [advance_run_eq, h]
  simp

theorem expect_run {k : TokenKind} (hend : isEnd (tokenAt ts s.pos) = false)
    (hk : (tokenAt ts s.pos).kind.alike k = true) :
    (expect ts k).run.run s = (.ok (tokenAt ts s.pos), { s with pos := s.pos + 1 }) := by
  simp only [expect, run_bind, check_run, hend, hk, Bool.not_false, Bool.and_self, ↓reduceIte,
    advance_run hend]

theorem enter_run {what : Production} (h : d < maxNesting) :
    (enter ts what d).run.run s = (.ok (), s) := by
  simp only [enter, Nat.not_le.mpr h, ↓reduceIte]
  rfl

/-! ## Expressions -/

theorem expr_run {min : Prec} (h : d < maxNesting) :
    (expr ts (n + 1) d min).run.run s =
      (do let left ← operand ts n (d + 1); infixChain ts n (d + 1) min left).run.run s := by
  rw [expr]
  simp only [run_bind, enter_run h]

theorem operand_var {x : String} {sp : Span} (h : tokenAt ts s.pos = ⟨.identifier x, sp⟩) :
    (operand ts (n + 1) d).run.run s = (.ok (.var x sp), { s with pos := s.pos + 1 }) := by
  have hend : isEnd (tokenAt ts s.pos) = false := by simp [h, isEnd]
  rw [operand]
  simp only [run_bind, advance_run hend, h]
  rfl

theorem operand_nil {sp : Span} (h : tokenAt ts s.pos = ⟨.kwNil, sp⟩) :
    (operand ts (n + 1) d).run.run s = (.ok (.nil sp), { s with pos := s.pos + 1 }) := by
  have hend : isEnd (tokenAt ts s.pos) = false := by simp [h, isEnd]
  rw [operand]
  simp only [run_bind, advance_run hend, h]
  rfl

theorem infixChain_none {min : Prec} {left : Expr}
    (hc : Connective.of? (tokenAt ts s.pos).kind = none) :
    (infixChain ts (n + 1) d min left).run.run s = (.ok left, s) := by
  rw [infixChain]
  cases hend : isEnd (tokenAt ts s.pos)
  · simp only [run_bind, atEnd_run, hend, peek_run, hc, Bool.false_eq_true, ↓reduceIte]
    rfl
  · simp only [run_bind, atEnd_run, hend, ↓reduceIte]
    rfl

theorem infixChain_looser {min level : Prec} {op : Connective} {left : Expr}
    (hc : Connective.of? (tokenAt ts s.pos).kind = some (op, level))
    (hlt : level.rank < min.rank) :
    (infixChain ts (n + 1) d min left).run.run s = (.ok left, s) := by
  rw [infixChain]
  cases hend : isEnd (tokenAt ts s.pos)
  · simp only [run_bind, atEnd_run, hend, peek_run, hc, Bool.false_eq_true, ↓reduceIte, hlt]
    rfl
  · simp only [run_bind, atEnd_run, hend, ↓reduceIte]
    rfl

theorem infixChain_binary {min level : Prec} {b : BinOp} {left right : Expr}
    (hend : isEnd (tokenAt ts s.pos) = false)
    (hc : Connective.of? (tokenAt ts s.pos).kind = some (.binary b, level))
    (hmin : min.rank ≤ level.rank)
    (hr : (expr ts n d level.tighter).run.run { s with pos := s.pos + 1 } = (.ok right, s₁)) :
    (infixChain ts (n + 1) d min left).run.run s =
      (infixChain ts n d min (.binary b left right (left.span.merge right.span))).run.run s₁ := by
  rw [infixChain]
  simp only [run_bind, atEnd_run, hend, peek_run, hc, Bool.false_eq_true, ↓reduceIte,
    Nat.not_lt.mpr hmin, advance_run hend, hr]
  rfl

/-! ## Statements and declarations -/

theorem statement_print {e : Expr} {sp sp' : Span} (hd : d < maxNesting)
    (hp : tokenAt ts s.pos = ⟨.kwPrint, sp⟩)
    (he : (expr ts n (d + 1) .assignment).run.run { s with pos := s.pos + 1 } = (.ok e, s₁))
    (hsemi : tokenAt ts s₁.pos = ⟨.semicolon, sp'⟩) :
    (statement ts (n + 1) d).run.run s =
      (.ok (.print e (sp.merge sp')), { s₁ with pos := s₁.pos + 1 }) := by
  have hend : isEnd (tokenAt ts s.pos) = false := by simp [hp, isEnd]
  have hprint : (tokenAt ts s.pos).kind.alike .kwPrint = true := by rw [hp]; rfl
  have hend₁ : isEnd (tokenAt ts s₁.pos) = false := by simp [hsemi, isEnd]
  have hk : (tokenAt ts s₁.pos).kind.alike .semicolon = true := by rw [hsemi]; rfl
  rw [statement]
  simp only [run_bind, enter_run hd, currentSpan_run, check_run, hend, hprint, advance_run hend,
    Bool.not_false, Bool.true_and, ↓reduceIte, he, expect_run hend₁ hk, previousSpan_run,
    Nat.add_sub_cancel]
  simp only [hp, hsemi]
  rfl

theorem statement_block {items : Array Stmt} {sp sp' : Span} (hd : d < maxNesting)
    (hb : tokenAt ts s.pos = ⟨.leftBrace, sp⟩)
    (hi : (blockItems ts n (d + 1) #[]).run.run { s with pos := s.pos + 1 } = (.ok items, s₁))
    (hclose : tokenAt ts s₁.pos = ⟨.rightBrace, sp'⟩) :
    (statement ts (n + 1) d).run.run s =
      (.ok (.block items.toList (sp.merge sp')), { s₁ with pos := s₁.pos + 1 }) := by
  have hend : isEnd (tokenAt ts s.pos) = false := by simp [hb, isEnd]
  have hp : (tokenAt ts s.pos).kind.alike .kwPrint = false := by rw [hb]; rfl
  have hif : (tokenAt ts s.pos).kind.alike .kwIf = false := by rw [hb]; rfl
  have hw : (tokenAt ts s.pos).kind.alike .kwWhile = false := by rw [hb]; rfl
  have hf : (tokenAt ts s.pos).kind.alike .kwFor = false := by rw [hb]; rfl
  have hbrace : (tokenAt ts s.pos).kind.alike .leftBrace = true := by rw [hb]; rfl
  have hend₁ : isEnd (tokenAt ts s₁.pos) = false := by simp [hclose, isEnd]
  have hk : (tokenAt ts s₁.pos).kind.alike .rightBrace = true := by rw [hclose]; rfl
  rw [statement]
  simp only [run_bind, enter_run hd, currentSpan_run, check_run, hend, hp, hif, hw, hf, hbrace,
    Bool.not_false, Bool.true_and, Bool.false_eq_true, ↓reduceIte, advance_run hend, hi,
    expect_run hend₁ hk, previousSpan_run, Nat.add_sub_cancel]
  simp only [hb, hclose]
  rfl

theorem typeTag_identifier {x : String} {sp : Span} (h : tokenAt ts s.pos = ⟨.identifier x, sp⟩) :
    (typeTag ts).run.run s = (.ok none, s) := by
  simp only [typeTag, run_bind, peek_run, h]
  rfl

theorem expectIdentifier_run {x : String} {sp : Span}
    (h : tokenAt ts s.pos = ⟨.identifier x, sp⟩) :
    (expectIdentifier ts).run.run s = (.ok x, { s with pos := s.pos + 1 }) := by
  have hend : isEnd (tokenAt ts s.pos) = false := by simp [h, isEnd]
  simp only [expectIdentifier, run_bind, peek_run, h]
  simp only [advance_run hend]
  rfl

theorem accept_other {k : TokenKind} (h : (tokenAt ts s.pos).kind.alike k = false) :
    (accept ts k).run.run s = (.ok false, s) := by
  simp only [accept, run_bind, check_run, h, Bool.and_false, Bool.false_eq_true, ↓reduceIte]
  rfl

theorem declaration_var {x : String} {sp sp₁ sp' : Span}
    (hv : tokenAt ts s.pos = ⟨.kwVar, sp⟩) (hx : tokenAt ts (s.pos + 1) = ⟨.identifier x, sp₁⟩)
    (hsemi : tokenAt ts (s.pos + 2) = ⟨.semicolon, sp'⟩) :
    (declaration ts (n + 1) d).run.run s =
      (.ok (.declare x none none (sp.merge sp')), { s with pos := s.pos + 3 }) := by
  have hend : isEnd (tokenAt ts s.pos) = false := by simp [hv, isEnd]
  have hk : (tokenAt ts s.pos).kind.alike .kwVar = true := by rw [hv]; rfl
  have hx' : tokenAt ts { s with pos := s.pos + 1 }.pos = ⟨.identifier x, sp₁⟩ := hx
  have hsemi' : tokenAt ts { s with pos := s.pos + 1 + 1 }.pos = ⟨.semicolon, sp'⟩ := hsemi
  have hend₂ : isEnd (tokenAt ts { s with pos := s.pos + 1 + 1 }.pos) = false := by
    simp [hsemi', isEnd]
  have heq : (tokenAt ts { s with pos := s.pos + 1 + 1 }.pos).kind.alike .equal = false := by
    rw [hsemi']; rfl
  have hsk : (tokenAt ts { s with pos := s.pos + 1 + 1 }.pos).kind.alike .semicolon = true := by
    rw [hsemi']; rfl
  rw [declaration]
  simp only [run_bind, check_run, hend, hk, Bool.not_false, Bool.true_and, ↓reduceIte,
    currentSpan_run, expect_run hend hk, typeTag_identifier hx', expectIdentifier_run hx',
    accept_other heq, Bool.false_eq_true]
  simp only [pure_run, expect_run hend₂ hsk, previousSpan_run]
  simp only [hv, Nat.add_sub_cancel, hsemi']

theorem declaration_statement (hv : (tokenAt ts s.pos).kind.alike .kwVar = false) :
    (declaration ts (n + 1) d).run.run s = (statement ts n d).run.run s := by
  rw [declaration]
  simp only [run_bind, check_run, hv, Bool.and_false, Bool.false_eq_true, ↓reduceIte]

theorem recovering_ok {a : Stmt} (h : (declaration ts n d).run.run s = (.ok a, s₁)) :
    (recovering ts (n + 1) d).run.run s = (.ok (some a), s₁) := by
  rw [recovering]
  simp only [run_bind, get_run]
  rw [Yields.run_tryCatch]
  simp only [ExceptT.run_map, StateT.run_map, h]
  rfl

/-! ## Items of blocks and programs -/

theorem blockItems_close {acc : Array Stmt} (hclose : (tokenAt ts s.pos).kind = .rightBrace) :
    (blockItems ts (n + 1) d acc).run.run s = (.ok acc, s) := by
  rw [blockItems]
  simp only [run_bind, check_run, atEnd_run, hclose, isEnd]
  rfl

theorem blockItems_item {acc : Array Stmt} {a : Stmt}
    (hnb : (tokenAt ts s.pos).kind.alike .rightBrace = false)
    (hend : isEnd (tokenAt ts s.pos) = false)
    (h : (recovering ts n d).run.run s = (.ok (some a), s₁)) :
    (blockItems ts (n + 1) d acc).run.run s = (blockItems ts n d (acc.push a)).run.run s₁ := by
  rw [blockItems]
  simp only [run_bind, check_run, atEnd_run, hnb, hend, Bool.and_false, Bool.or_false,
    Bool.false_eq_true, ↓reduceIte, h]

theorem topItems_end {acc : Array Stmt} (hend : isEnd (tokenAt ts s.pos) = true) :
    (topItems ts (n + 1) acc).run.run s = (.ok acc, s) := by
  rw [topItems]
  simp only [run_bind, atEnd_run, hend, ↓reduceIte]
  rfl

theorem topItems_item {acc : Array Stmt} {a : Stmt} (hend : isEnd (tokenAt ts s.pos) = false)
    (h : (recovering ts n 0).run.run s = (.ok (some a), s₁)) :
    (topItems ts (n + 1) acc).run.run s = (topItems ts n (acc.push a)).run.run s₁ := by
  rw [topItems]
  simp only [run_bind, atEnd_run, hend, Bool.false_eq_true, ↓reduceIte, h]

/-- Items read from the start with no error recorded are the program. -/
theorem run_ok {fuel : Nat} {body : Array Stmt}
    (h : (topItems ts fuel #[]).run.run ⟨0, #[]⟩ = (.ok body, s₁)) (he : s₁.errors = #[]) :
    run fuel ts = some (.ok ⟨body.toList⟩) := by
  simp only [run, h, he]
  rfl

end Parser

end StackScript
