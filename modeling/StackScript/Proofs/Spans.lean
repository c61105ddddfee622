import StackScript.Proofs.Height
import StackScript.Proofs.Nesting

/-!
# The spans of a program read

Every statement and expression the reader builds carries a span, merged from the spans of its
tokens: `Span.merge` keeps the least start, the greatest end, and the line and column of its
first argument.  When the tokens' spans come in order, each one a range that ends no later than
the next begins, every node's span runs from the start of its first token to the end of its
last, at its first token's line and column.

The tokens of a node are found from its shape alone: `Expr.width` and `Stmt.width` count the
tokens a node is written with, and `Expr.Laid` and `Stmt.Laid` say that a node read from the
token at `p` on spans `Parser.cover ts p (p + width)`, and so does each node inside it, at its
own place.  `Program.ofTokens_spans_exact` proves that a program read without error is laid out
so, its statements one after the other from the first token to the first end token.

The proof follows the reader's productions, as `Parser.FuelBound` does, with outcomes that say
where a production left the reader and what it built (`Parser.LayoutBound`).  An expression read
at the end of input may read the last token again without moving; a program read without error
never does, as every expression is followed by a token of its statement, so the outcomes only
speak of expressions that stop before the end.
-/

namespace StackScript

/-! ## How many tokens a node is written with -/

/-- The number of tokens an expression is written with. -/
def Expr.width : Expr → Nat
  | .number _ _ | .string _ _ | .bool _ _ | .nil _ | .var _ _ => 1
  | .assign _ v _ => v.width + 2
  | .binary _ l r _ | .and l r _ | .or l r _ => l.width + r.width + 1
  | .unary _ e _ => e.width + 1
  | .group e _ => e.width + 2

/-- The number of tokens of a declaration's optional type word. -/
def TypeTag.width : Option TypeTag → Nat
  | some _ => 1
  | none => 0

/-- The number of tokens of a declaration's optional initialiser, with its `=`. -/
def Expr.initWidth : Option Expr → Nat
  | some e => e.width + 1
  | none => 0

mutual

/-- The number of tokens a statement is written with. -/
def Stmt.width : Stmt → Nat
  | .expression e _ => e.width + 1
  | .print e _ => e.width + 2
  | .declare _ ty init _ => TypeTag.width ty + Expr.initWidth init + 3
  | .block body _ => Stmt.widthAll body + 2
  | .ifElse c yes no _ => c.width + yes.width + 3 + Stmt.elseWidth no
  | .whileLoop c body _ => c.width + body.width + 3
  | .forLoop _ limit body _ => limit.width + body.width + 3

/-- The number of tokens of an `if`'s optional `else` branch, with its `else`. -/
def Stmt.elseWidth : Option Stmt → Nat
  | some s => s.width + 1
  | none => 0

/-- The number of tokens statements are written with. -/
def Stmt.widthAll : List Stmt → Nat
  | [] => 0
  | s :: rest => s.width + Stmt.widthAll rest

end

theorem Expr.width_pos (e : Expr) : 0 < e.width := by
  cases e <;> simp only [Expr.width] <;> omega

theorem Stmt.width_pos (s : Stmt) : 0 < s.width := by
  cases s <;> simp only [Stmt.width] <;> omega

/-! ## The span of a run of tokens -/

namespace Parser

/-- The span of the tokens from index `p` up to, not including, `q`: from where the first begins
to where the last ends, at the first one's line and column. -/
def cover (ts : Array Token) (p q : Nat) : Span :=
  ⟨(tokenAt ts p).span.start, (tokenAt ts (q - 1)).span.stop, (tokenAt ts p).span.line,
    (tokenAt ts p).span.column⟩

/-- Before the first end token, spans begin and end in the order of their tokens. -/
def Ordered (ts : Array Token) : Prop :=
  ∀ i j, i ≤ j → j < endIdx ts →
    (tokenAt ts i).span.start ≤ (tokenAt ts j).span.start ∧
      (tokenAt ts i).span.stop ≤ (tokenAt ts j).span.stop

variable {ts : Array Token}

theorem cover_one (p : Nat) : cover ts p (p + 1) = (tokenAt ts p).span := rfl

theorem merge_cover (hord : Ordered ts) {p q q' r : Nat} (hpq : p < q) (hq : q ≤ q' + 1)
    (hqr : q' < r) (hr : r ≤ endIdx ts) : (cover ts p q).merge (cover ts q' r) = cover ts p r := by
  have hstart := (hord p q' (by omega) (by omega)).1
  have hstop := (hord (q - 1) (r - 1) (by omega) (by omega)).2
  simp only [cover, Span.merge, Nat.min_eq_left hstart, Nat.max_eq_right hstop]

end Parser

/-! ## Nodes laid out on their tokens -/

/-- An expression read from the token at `p` on: it and each node inside it span their own
tokens. -/
def Expr.Laid (ts : Array Token) (p : Nat) : Expr → Prop
  | .number _ sp | .string _ sp | .bool _ sp | .nil sp | .var _ sp => sp = Parser.cover ts p (p + 1)
  | .assign _ v sp => sp = Parser.cover ts p (p + v.width + 2) ∧ v.Laid ts (p + 2)
  | .binary _ l r sp | .and l r sp | .or l r sp =>
    sp = Parser.cover ts p (p + l.width + r.width + 1) ∧ l.Laid ts p ∧ r.Laid ts (p + l.width + 1)
  | .unary _ e sp => sp = Parser.cover ts p (p + e.width + 1) ∧ e.Laid ts (p + 1)
  | .group e sp => sp = Parser.cover ts p (p + e.width + 2) ∧ e.Laid ts (p + 1)

/-- A declaration's optional initialiser, read from the token at `p` on, is laid out. -/
def Expr.InitLaid (ts : Array Token) (p : Nat) : Option Expr → Prop
  | some e => e.Laid ts p
  | none => True

mutual

/-- A statement read from the token at `p` on: it and each node inside it span their own
tokens. -/
def Stmt.Laid (ts : Array Token) (p : Nat) : Stmt → Prop
  | .expression e sp => sp = Parser.cover ts p (p + e.width + 1) ∧ e.Laid ts p
  | .print e sp => sp = Parser.cover ts p (p + e.width + 2) ∧ e.Laid ts (p + 1)
  | .declare _ ty init sp =>
    sp = Parser.cover ts p (p + TypeTag.width ty + Expr.initWidth init + 3) ∧
      Expr.InitLaid ts (p + TypeTag.width ty + 3) init
  | .block body sp => sp = Parser.cover ts p (p + Stmt.widthAll body + 2) ∧ Stmt.LaidAll ts (p + 1) body
  | .ifElse c yes no sp =>
    sp = Parser.cover ts p (p + c.width + yes.width + 3 + Stmt.elseWidth no) ∧ c.Laid ts (p + 2) ∧
      yes.Laid ts (p + c.width + 3) ∧ Stmt.ElseLaid ts (p + c.width + yes.width + 3) no
  | .whileLoop c body sp =>
    sp = Parser.cover ts p (p + c.width + body.width + 3) ∧ c.Laid ts (p + 2) ∧
      body.Laid ts (p + c.width + 3)
  | .forLoop _ limit body sp =>
    sp = Parser.cover ts p (p + limit.width + body.width + 3) ∧ limit.Laid ts (p + 3) ∧
      body.Laid ts (p + limit.width + 3)

/-- An `if`'s optional `else` branch, read from its `else` at `p` on, is laid out. -/
def Stmt.ElseLaid (ts : Array Token) (p : Nat) : Option Stmt → Prop
  | some s => s.Laid ts (p + 1)
  | none => True

/-- Statements read one after the other from the token at `p` on are laid out. -/
def Stmt.LaidAll (ts : Array Token) (p : Nat) : List Stmt → Prop
  | [] => True
  | s :: rest => s.Laid ts p ∧ Stmt.LaidAll ts (p + s.width) rest

end

/-- A laid out expression spans its tokens. -/
theorem Expr.Laid.span {ts : Array Token} {p : Nat} {e : Expr} (h : e.Laid ts p) :
    e.span = Parser.cover ts p (p + e.width) := by
  cases e <;> simp only [Expr.Laid, Expr.span, Expr.width, ← Nat.add_assoc] at h ⊢ <;>
    first | exact h | exact h.1

/-- A laid out statement spans its tokens. -/
theorem Stmt.Laid.span {ts : Array Token} {p : Nat} {s : Stmt} (h : s.Laid ts p) :
    s.span = Parser.cover ts p (p + s.width) := by
  cases s <;> simp only [Stmt.Laid, Stmt.span, Stmt.width, ← Nat.add_assoc] at h ⊢ <;> exact h.1

/-! ## What a production reads -/

namespace Parser

open Ends

variable {ts : Array Token} {n : Nat}

theorem Onward.errors_eq_empty {s s' : State} (h : Onward ts s s') (he : s'.errors = #[]) :
    s.errors = #[] := by
  have hle := h.errors_le
  rw [he] at hle
  rw [← Array.size_eq_zero_iff]
  simpa using hle

/-- An expression read from `s` to `s'`, written from the token at `p` on: the reader went
onward, and if no error was recorded and it stopped before the end, it stands just past the
expression's tokens, and the expression is laid out on them. -/
def ExprRead (ts : Array Token) (p : Nat) (s : State) (e : Expr) (s' : State) : Prop :=
  Onward ts s s' ∧
    (s'.errors = #[] → s'.pos < endIdx ts → s'.pos = p + e.width ∧ e.Laid ts p)

/-- A statement read from `s` to `s'`: the reader went onward, and if no error was recorded it
stands just past the statement's tokens, and the statement is laid out on them. -/
def StmtRead (ts : Array Token) (s : State) (st : Stmt) (s' : State) : Prop :=
  Onward ts s s' ∧ (s'.errors = #[] → s'.pos = s.pos + st.width ∧ st.Laid ts s.pos)

/-- Items read from `s` to `s'` after `acc`: the reader went onward, and if no error was
recorded the new items stand one after the other from `s` on, and the reader just past them. -/
def ItemsRead (ts : Array Token) (s : State) (acc acc' : Array Stmt) (s' : State) : Prop :=
  Onward ts s s' ∧ (s'.errors = #[] → ∃ items, acc'.toList = acc.toList ++ items ∧
    s'.pos = s.pos + Stmt.widthAll items ∧ Stmt.LaidAll ts s.pos items)

theorem Ends.within {α : Type} {x : M α} {Q ok : α → State → Prop} {s s₂ : State}
    (hx : Ends x s₂ Q (fun _ => Onward ts s₂) True) (h : Onward ts s s₂)
    (hk : ∀ a s₃, Q a s₃ → ok a s₃) : Ends x s₂ ok (fun _ => Onward ts s) True :=
  hx.mono hk (fun _ _ h₂ => h.trans h₂) id

theorem advance_layout {s : State} {ok : Token → State → Prop} {err : ParseError → State → Prop}
    {cut : Prop} (hp : s.pos ≤ endIdx ts)
    (hk : ∀ tok s₁, Onward ts s s₁ → (s₁.pos < endIdx ts → s₁.pos = s.pos + 1 ∧
      tok = tokenAt ts s.pos) → ok tok s₁) : Ends (advance ts) s ok err cut := by
  refine advance_of (fun hend => ?_) (fun hend => ?_)
  · exact hk _ _ (Onward.next (lt_endIdx hp hend)) fun _ => ⟨rfl, rfl⟩
  · refine hk _ _ (Onward.refl hp) fun hlt => ?_
    rw [isEnd_of_lt_endIdx hlt] at hend
    cases hend

theorem merge_tokens (hord : Ordered ts) {p q : Nat} (hpq : p < q) (hq : q < endIdx ts) :
    (tokenAt ts p).span.merge (tokenAt ts q).span = cover ts p (q + 1) := by
  rw [← cover_one, ← cover_one]
  exact merge_cover hord (by omega) (by omega) (by omega) (by omega)

theorem unary_read (hord : Ordered ts) {s s₁ s₂ : State} {tok : Token} {e : Expr} (op : UnOp)
    (h₁ : Onward ts s s₁)
    (hreal : s₁.pos < endIdx ts → s₁.pos = s.pos + 1 ∧ tok = tokenAt ts s.pos)
    (h₂ : ExprRead ts s₁.pos s₁ e s₂) :
    ExprRead ts s.pos s (.unary op e (tok.span.merge e.span)) s₂ := by
  refine ⟨h₁.trans h₂.1, fun he hlt => ?_⟩
  obtain ⟨hs₁, rfl⟩ := hreal (Nat.lt_of_le_of_lt h₂.1.pos_le hlt)
  obtain ⟨hw, hlaid⟩ := h₂.2 he hlt
  have hwidth := e.width_pos
  refine ⟨by simp only [Expr.width]; omega, ?_, by rw [← hs₁]; exact hlaid⟩
  rw [← cover_one, hlaid.span, hs₁, merge_cover hord (by omega) (by omega) (by omega) (by omega)]
  congr 1
  omega

theorem infix_read (hord : Ordered ts) {s s₂ : State} {p : Nat} {left right : Expr}
    (hleft : s.errors = #[] → s.pos < endIdx ts → s.pos = p + left.width ∧ left.Laid ts p)
    (h₂ : ExprRead ts (s.pos + 1) { s with pos := s.pos + 1 } right s₂)
    (he : s₂.errors = #[]) (hlt : s₂.pos < endIdx ts) :
    s₂.pos = p + left.width + right.width + 1 ∧
      left.span.merge right.span = cover ts p (p + left.width + right.width + 1) ∧
      left.Laid ts p ∧ right.Laid ts (p + left.width + 1) := by
  have hpos₂ := h₂.1.pos_le
  dsimp only at hpos₂
  obtain ⟨hs, hlaidl⟩ := hleft (h₂.1.errors_eq_empty he) (by omega)
  obtain ⟨hw, hlaidr⟩ := h₂.2 he hlt
  have hwl := left.width_pos
  have hwr := right.width_pos
  refine ⟨by omega, ?_, hlaidl, by rw [← hs]; exact hlaidr⟩
  rw [hlaidl.span, hlaidr.span, merge_cover hord (by omega) (by omega) (by omega) (by omega)]
  congr 1
  omega

theorem stmt_span (hord : Ordered ts) {p q : Nat} (hpq : p + 2 ≤ q) (hq : q ≤ endIdx ts) :
    (tokenAt ts p).span.merge (tokenAt ts (q - 1)).span = cover ts p q := by
  rw [merge_tokens hord (by omega) (by omega), Nat.sub_add_cancel (by omega)]

theorem eq_endIdx_of_isEnd {p : Nat} (hp : p ≤ endIdx ts) (h : isEnd (tokenAt ts p) = true) :
    p = endIdx ts := by
  refine Nat.le_antisymm hp (Nat.not_lt.mp fun hlt => ?_)
  rw [isEnd_of_lt_endIdx hlt] at h
  cases h

section Steps

variable {s₀ s : State} {err : ParseError → State → Prop} {cut : Prop}

theorem advance_step {ok : Token → State → Prop} (hp : s.pos ≤ endIdx ts)
    (hend : isEnd (tokenAt ts s.pos) = false)
    (hk : ∀ s', Onward ts s s' → s'.pos = s.pos + 1 → ok (tokenAt ts s.pos) s') :
    Ends (advance ts) s ok err cut := by
  rw [advance_iff hend]
  exact hk _ (Onward.next (lt_endIdx hp hend)) rfl

theorem expect_step {k : TokenKind} {ok : Token → State → Prop} (hs : Onward ts s₀ s)
    (hk : ∀ s', Onward ts s s' → s'.pos = s.pos + 1 → ok (tokenAt ts s.pos) s') :
    Ends (expect ts k) s ok (fun _ => Onward ts s₀) cut :=
  expect_of (fun hend _ => hk _ (Onward.next (lt_endIdx hs.le_endIdx hend)) rfl) hs

theorem accept_step {k : TokenKind} {ok : Bool → State → Prop} (hs : Onward ts s₀ s)
    (htake : ∀ s', Onward ts s s' → s'.pos = s.pos + 1 → ok true s') (hleave : ok false s) :
    Ends (accept ts k) s ok err cut :=
  accept_of (fun hend _ => htake _ (Onward.next (lt_endIdx hs.le_endIdx hend)) rfl) hleave

theorem expectIdentifier_step {ok : String → State → Prop} (hs : Onward ts s₀ s)
    (hk : ∀ name s', Onward ts s s' → s'.pos = s.pos + 1 → ok name s') :
    Ends (expectIdentifier ts) s ok (fun _ => Onward ts s₀) cut :=
  expectIdentifier_of
    (fun name h => hk name _ (Onward.next (lt_endIdx hs.le_endIdx (by simp [isEnd, h]))) rfl)
    (fun _ => hs)

theorem typeTag_step {ok : Option TypeTag → State → Prop} (hs : Onward ts s₀ s)
    (hk : ∀ ty s', Onward ts s s' → s'.pos = s.pos + TypeTag.width ty → ok ty s') :
    Ends (typeTag ts) s ok err cut :=
  typeTag_of (fun _ hend => hk _ _ (Onward.next (lt_endIdx hs.le_endIdx hend)) rfl)
    (hk none s (Onward.refl hs.le_endIdx) rfl)

end Steps

/-- With fuel `n`, each production reads what its node is written with, and lays it out. -/
structure LayoutBound (ts : Array Token) (n : Nat) : Prop where
  expr : ∀ d min s, s.pos ≤ endIdx ts →
    Ends (Parser.expr ts n d min) s (ExprRead ts s.pos s) (fun _ => Onward ts s) True
  operand : ∀ d s, s.pos ≤ endIdx ts →
    Ends (Parser.operand ts n d) s (ExprRead ts s.pos s) (fun _ => Onward ts s) True
  infixChain : ∀ d min p left s, s.pos ≤ endIdx ts →
    (s.errors = #[] → s.pos < endIdx ts → s.pos = p + left.width ∧ left.Laid ts p) →
    Ends (Parser.infixChain ts n d min left) s (ExprRead ts p s) (fun _ => Onward ts s) True
  statement : ∀ d s, s.pos ≤ endIdx ts →
    Ends (Parser.statement ts n d) s (StmtRead ts s) (fun _ => Onward ts s) True
  declaration : ∀ d s, s.pos ≤ endIdx ts →
    Ends (Parser.declaration ts n d) s (StmtRead ts s) (fun _ => Onward ts s) True
  recovering : ∀ d s, s.pos ≤ endIdx ts →
    Ends (Parser.recovering ts n d) s
      (fun r s' => Onward ts s s' ∧ (s'.errors = #[] → ∃ st, r = some st ∧ StmtRead ts s st s'))
      (fun _ => Onward ts s) True
  blockItems : ∀ d acc s, s.pos ≤ endIdx ts →
    Ends (Parser.blockItems ts n d acc) s (ItemsRead ts s acc) (fun _ => Onward ts s) True
  topItems : ∀ acc s, s.pos ≤ endIdx ts →
    Ends (Parser.topItems ts n acc) s (fun acc' s' => ItemsRead ts s acc acc' s' ∧
      s'.pos = endIdx ts) (fun _ => Onward ts s) True

namespace LayoutBound

theorem expr_succ (ih : LayoutBound ts n) (d : Nat) (min : Prec) (s : State)
    (hp : s.pos ≤ endIdx ts) :
    Ends (Parser.expr ts (n + 1) d min) s (ExprRead ts s.pos s) (fun _ => Onward ts s) True := by
  rw [Parser.expr, bind_iff, enter_iff]
  split_ifs
  · exact Onward.refl hp
  rw [bind_iff]
  refine (ih.operand (d + 1) s hp).within (Onward.refl hp) fun left s₁ h₁ => ?_
  exact (ih.infixChain (d + 1) min s.pos left s₁ h₁.1.le_endIdx h₁.2).within h₁.1
    fun e s₂ h₂ => ⟨h₁.1.trans h₂.1, h₂.2⟩

theorem operand_succ (hord : Ordered ts) (ih : LayoutBound ts n) (d : Nat) (s : State)
    (hp : s.pos ≤ endIdx ts) :
    Ends (Parser.operand ts (n + 1) d) s (ExprRead ts s.pos s) (fun _ => Onward ts s) True := by
  rw [Parser.operand, bind_iff]
  refine advance_layout hp fun tok s₁ h₁ hreal => ?_
  have hleaf : ∀ e : Expr, e.width = 1 → (s₁.pos < endIdx ts → e.Laid ts s.pos) →
      ExprRead ts s.pos s e s₁ := fun e hw hlaid =>
    ⟨h₁, fun _ hlt => ⟨by rw [(hreal hlt).1, hw], hlaid hlt⟩⟩
  split
  · exact hleaf _ rfl fun hlt => by rw [(hreal hlt).2]; rfl
  · exact hleaf _ rfl fun hlt => by rw [(hreal hlt).2]; rfl
  · exact hleaf _ rfl fun hlt => by rw [(hreal hlt).2]; rfl
  · exact hleaf _ rfl fun hlt => by rw [(hreal hlt).2]; rfl
  · exact hleaf _ rfl fun hlt => by rw [(hreal hlt).2]; rfl
  · -- a group: an expression and `)`
    rw [bind_iff]
    refine (ih.expr d .assignment s₁ h₁.le_endIdx).within h₁ fun e s₂ h₂ => ?_
    rw [bind_iff]
    refine expect_of (fun hend _ => ?_) (h₁.trans h₂.1)
    simp only [bind_iff, previousSpan_iff, pure_iff]
    have hlt₂ := lt_endIdx h₂.1.le_endIdx hend
    refine ⟨h₁.trans (h₂.1.trans (Onward.next hlt₂)), fun he hlt => ?_⟩
    have hpos₂ := h₂.1.pos_le
    dsimp only at he hlt ⊢
    obtain ⟨hs₁, rfl⟩ := hreal (by omega)
    obtain ⟨hw, hlaid⟩ := h₂.2 he hlt₂
    have hwidth := e.width_pos
    refine ⟨by simp only [Expr.width]; omega, ?_, by rw [← hs₁]; exact hlaid⟩
    rw [Nat.add_sub_cancel, merge_tokens hord (by omega) hlt₂]
    congr 1
    omega
  · -- a negation: a unary expression after `-`
    rw [bind_iff]
    exact (ih.expr d .unary s₁ h₁.le_endIdx).within h₁ fun e s₂ h₂ =>
      unary_read hord .neg h₁ hreal h₂
  · -- a logical not: a unary expression after `!`
    rw [bind_iff]
    exact (ih.expr d .unary s₁ h₁.le_endIdx).within h₁ fun e s₂ h₂ =>
      unary_read hord .not h₁ hreal h₂
  · split <;> exact h₁

theorem infixChain_succ (hord : Ordered ts) (ih : LayoutBound ts n) (d : Nat) (min : Prec)
    (p : Nat) (left : Expr) (s : State) (hp : s.pos ≤ endIdx ts)
    (hleft : s.errors = #[] → s.pos < endIdx ts → s.pos = p + left.width ∧ left.Laid ts p) :
    Ends (Parser.infixChain ts (n + 1) d min left) s (ExprRead ts p s) (fun _ => Onward ts s)
      True := by
  rw [Parser.infixChain]
  simp only [bind_iff, atEnd_iff, peek_iff, ite_iff]
  split_ifs with hend
  · exact ⟨Onward.refl hp, hleft⟩
  split
  · exact ⟨Onward.refl hp, hleft⟩
  rename_i op level _
  simp only [ite_iff]
  split_ifs
  · exact ⟨Onward.refl hp, hleft⟩
  simp only [Bool.not_eq_true] at hend
  have hlt := lt_endIdx hp hend
  have hnext : Onward ts s { s with pos := s.pos + 1 } := Onward.next hlt
  rw [bind_iff, advance_iff hend]
  have hrest : ∀ e s₂, Onward ts { s with pos := s.pos + 1 } s₂ →
      (s₂.errors = #[] → s₂.pos < endIdx ts → s₂.pos = p + e.width ∧ e.Laid ts p) →
      Ends (Parser.infixChain ts n d min e) s₂ (ExprRead ts p s) (fun _ => Onward ts s) True :=
    fun e s₂ h₂ he => (ih.infixChain d min p e s₂ h₂.le_endIdx he).within (hnext.trans h₂)
      fun _ _ h₃ => ⟨hnext.trans (h₂.trans h₃.1), h₃.2⟩
  cases op with
  | assign =>
    rw [bind_iff]
    refine (ih.expr d .assignment { s with pos := s.pos + 1 } hlt).within hnext fun value s₂ h₂ => ?_
    split
    · -- an assignment to a name: the name, `=` and the value
      rename_i name sp
      simp only [bind_iff, pure_iff]
      refine hrest _ s₂ h₂.1 fun he hlt₂ => ?_
      obtain ⟨hw, hspan, hl, hr⟩ := infix_read hord hleft h₂ he hlt₂
      simp only [Expr.width] at hw hspan hr
      refine ⟨by simp only [Expr.width]; omega, ?_⟩
      simp only [Expr.Laid]
      exact ⟨by rw [hspan]; congr 1; omega, by rw [show p + 2 = p + 1 + 1 by omega]; exact hr⟩
    · -- an assignment to something else: recorded, so nothing more is claimed
      simp only [bind_iff, record_iff, pure_iff]
      refine hrest _ _ (h₂.1.trans (Onward.record h₂.1.le_endIdx _)) fun he _ => ?_
      simp at he
  | _ =>
    simp only [bind_iff, pure_iff]
    refine (ih.expr d level.tighter { s with pos := s.pos + 1 } hlt).within hnext
      fun right s₂ h₂ => ?_
    refine hrest _ s₂ h₂.1 fun he hlt₂ => ?_
    obtain ⟨hw, hspan, hl, hr⟩ := infix_read hord hleft h₂ he hlt₂
    exact ⟨by simp only [Expr.width]; omega, by simp only [Expr.Laid]; exact ⟨hspan, hl, hr⟩⟩

theorem statement_succ (hord : Ordered ts) (ih : LayoutBound ts n) (d : Nat) (s : State)
    (hp : s.pos ≤ endIdx ts) :
    Ends (Parser.statement ts (n + 1) d) s (StmtRead ts s) (fun _ => Onward ts s) True := by
  rw [Parser.statement, bind_iff, enter_iff]
  split_ifs
  · exact Onward.refl hp
  simp only [bind_iff, currentSpan_iff, check_iff, ite_iff, previousSpan_iff, pure_iff, map_iff]
  split_ifs with hprint hif hwhile hfor hbrace
  · -- `print`, an expression and `;`
    refine advance_step hp (isEnd_eq_false_of_check hprint) fun s₁ h₁ hp₁ => ?_
    refine (ih.expr (d + 1) .assignment s₁ h₁.le_endIdx).within h₁ fun e s₂ h₂ => ?_
    refine expect_step (h₁.trans h₂.1) fun s₃ h₃ hp₃ => ?_
    refine ⟨h₁.trans (h₂.1.trans h₃), fun he => ?_⟩
    obtain ⟨hw, hlaid⟩ := h₂.2 (h₃.errors_eq_empty he) (by have := h₃.le_endIdx; omega)
    refine ⟨by simp only [Stmt.width]; omega, ?_, by rw [← hp₁]; exact hlaid⟩
    rw [stmt_span hord (by omega) h₃.le_endIdx]
    congr 1
    omega
  · -- `if`: `(`, a condition, `)`, a branch, and perhaps `else` and a branch
    refine advance_step hp (isEnd_eq_false_of_check hif) fun s₁ h₁ hp₁ => ?_
    refine expect_step h₁ fun s₂ h₂ hp₂ => ?_
    have h₀₂ := h₁.trans h₂
    refine (ih.expr (d + 1) .assignment s₂ h₂.le_endIdx).within h₀₂ fun c s₃ h₃ => ?_
    refine expect_step (h₀₂.trans h₃.1) fun s₄ h₄ hp₄ => ?_
    have h₀₄ := h₀₂.trans (h₃.1.trans h₄)
    refine (ih.statement (d + 1) s₄ h₄.le_endIdx).within h₀₄ fun yes s₅ h₅ => ?_
    have hfirst : s₅.errors = #[] → s₅.pos = s.pos + c.width + yes.width + 3 ∧
        c.Laid ts (s.pos + 2) ∧ yes.Laid ts (s.pos + c.width + 3) := fun he => by
      obtain ⟨hw₅, hyes⟩ := h₅.2 he
      obtain ⟨hw₃, hc⟩ := h₃.2 (h₄.errors_eq_empty (h₅.1.errors_eq_empty he))
        (by have := h₄.le_endIdx; omega)
      refine ⟨by omega, by rw [show s.pos + 2 = s₂.pos by omega]; exact hc, ?_⟩
      rw [show s.pos + c.width + 3 = s₄.pos by omega]
      exact hyes
    refine accept_step (h₀₄.trans h₅.1) (fun s₆ h₆ hp₆ => ?_) ?_
    · rw [if_pos rfl]
      refine (ih.statement (d + 1) s₆ h₆.le_endIdx).within (h₀₄.trans (h₅.1.trans h₆))
        fun no s₇ h₇ => ?_
      refine ⟨h₀₄.trans (h₅.1.trans (h₆.trans h₇.1)), fun he => ?_⟩
      obtain ⟨hw₇, hno⟩ := h₇.2 he
      obtain ⟨hw₅, hc, hyes⟩ := hfirst (h₆.errors_eq_empty (h₇.1.errors_eq_empty he))
      have := no.width_pos
      refine ⟨by simp only [Stmt.width, Stmt.elseWidth]; omega, ?_, hc, hyes, ?_⟩
      · rw [stmt_span hord (by omega) h₇.1.le_endIdx]
        congr 1
        simp only [Stmt.elseWidth]
        omega
      · simp only [Stmt.ElseLaid]
        rw [show s.pos + c.width + yes.width + 3 + 1 = s₆.pos by omega]
        exact hno
    · rw [if_neg (by simp)]
      refine ⟨h₀₄.trans h₅.1, fun he => ?_⟩
      obtain ⟨hw₅, hc, hyes⟩ := hfirst he
      have := yes.width_pos
      refine ⟨by simp only [Stmt.width, Stmt.elseWidth]; omega, ?_, hc, hyes, trivial⟩
      rw [stmt_span hord (by omega) h₅.1.le_endIdx, hw₅]
      rfl
  · -- `while`: `(`, a condition, `)` and a body
    refine advance_step hp (isEnd_eq_false_of_check hwhile) fun s₁ h₁ hp₁ => ?_
    refine expect_step h₁ fun s₂ h₂ hp₂ => ?_
    have h₀₂ := h₁.trans h₂
    refine (ih.expr (d + 1) .assignment s₂ h₂.le_endIdx).within h₀₂ fun c s₃ h₃ => ?_
    refine expect_step (h₀₂.trans h₃.1) fun s₄ h₄ hp₄ => ?_
    have h₀₄ := h₀₂.trans (h₃.1.trans h₄)
    refine (ih.statement (d + 1) s₄ h₄.le_endIdx).within h₀₄ fun body s₅ h₅ => ?_
    refine ⟨h₀₄.trans h₅.1, fun he => ?_⟩
    obtain ⟨hw₅, hbody⟩ := h₅.2 he
    obtain ⟨hw₃, hc⟩ := h₃.2 (h₄.errors_eq_empty (h₅.1.errors_eq_empty he))
      (by have := h₄.le_endIdx; omega)
    have := body.width_pos
    refine ⟨by simp only [Stmt.width]; omega, ?_, by rw [show s.pos + 2 = s₂.pos by omega]; exact hc,
      by rw [show s.pos + c.width + 3 = s₄.pos by omega]; exact hbody⟩
    rw [stmt_span hord (by omega) h₅.1.le_endIdx]
    congr 1
    omega
  · -- `for`: a name, `in`, a limit and a body
    refine advance_step hp (isEnd_eq_false_of_check hfor) fun s₁ h₁ hp₁ => ?_
    refine expectIdentifier_step h₁ fun name s₂ h₂ hp₂ => ?_
    have h₀₂ := h₁.trans h₂
    refine expect_step h₀₂ fun s₃ h₃ hp₃ => ?_
    have h₀₃ := h₀₂.trans h₃
    refine (ih.expr (d + 1) .assignment s₃ h₃.le_endIdx).within h₀₃ fun limit s₄ h₄ => ?_
    refine (ih.statement (d + 1) s₄ h₄.1.le_endIdx).within (h₀₃.trans h₄.1) fun body s₅ h₅ => ?_
    refine ⟨h₀₃.trans (h₄.1.trans h₅.1), fun he => ?_⟩
    obtain ⟨hw₅, hbody⟩ := h₅.2 he
    -- the body takes a token, so the limit stops before the end
    have := body.width_pos
    obtain ⟨hw₄, hlimit⟩ := h₄.2 (h₅.1.errors_eq_empty he) (by have := h₅.1.le_endIdx; omega)
    refine ⟨by simp only [Stmt.width]; omega, ?_,
      by rw [show s.pos + 3 = s₃.pos by omega]; exact hlimit,
      by rw [show s.pos + limit.width + 3 = s₄.pos by omega]; exact hbody⟩
    rw [stmt_span hord (by omega) h₅.1.le_endIdx]
    congr 1
    omega
  · -- a block: its items and `}`
    refine advance_step hp (isEnd_eq_false_of_check hbrace) fun s₁ h₁ hp₁ => ?_
    refine (ih.blockItems (d + 1) #[] s₁ h₁.le_endIdx).within h₁ fun items s₂ h₂ => ?_
    refine expect_step (h₁.trans h₂.1) fun s₃ h₃ hp₃ => ?_
    refine ⟨h₁.trans (h₂.1.trans h₃), fun he => ?_⟩
    obtain ⟨body, hbody, hw₂, hlaid⟩ := h₂.2 (h₃.errors_eq_empty he)
    simp only [List.nil_append] at hbody
    rw [hbody]
    refine ⟨by simp only [Stmt.width]; omega, ?_, by rw [← hp₁]; exact hlaid⟩
    rw [stmt_span hord (by omega) h₃.le_endIdx]
    congr 1
    omega
  · -- an expression and `;`
    refine (ih.expr (d + 1) .assignment s hp).within (Onward.refl hp) fun e s₁ h₁ => ?_
    refine expect_step h₁.1 fun s₂ h₂ hp₂ => ?_
    refine ⟨h₁.1.trans h₂, fun he => ?_⟩
    obtain ⟨hw, hlaid⟩ := h₁.2 (h₂.errors_eq_empty he) (by have := h₂.le_endIdx; omega)
    have := e.width_pos
    refine ⟨by simp only [Stmt.width]; omega, ?_, hlaid⟩
    rw [stmt_span hord (by omega) h₂.le_endIdx]
    congr 1
    omega

theorem declaration_succ (hord : Ordered ts) (ih : LayoutBound ts n) (d : Nat) (s : State)
    (hp : s.pos ≤ endIdx ts) :
    Ends (Parser.declaration ts (n + 1) d) s (StmtRead ts s) (fun _ => Onward ts s) True := by
  rw [Parser.declaration]
  simp only [bind_iff, check_iff, ite_iff, currentSpan_iff, previousSpan_iff, pure_iff, map_iff]
  split_ifs with hvar
  · -- `var`, perhaps a type word, a name, perhaps `=` and a value, and `;`
    refine expect_step (Onward.refl hp) fun s₁ h₁ hp₁ => ?_
    refine typeTag_step h₁ fun ty s₂ h₂ hp₂ => ?_
    refine expectIdentifier_step (h₁.trans h₂) fun name s₃ h₃ hp₃ => ?_
    have h₀₃ := h₁.trans (h₂.trans h₃)
    have hfinish : ∀ init s₄, Onward ts s₃ s₄ → (s₄.errors = #[] → s₄.pos < endIdx ts →
        s₄.pos = s₃.pos + Expr.initWidth init ∧ Expr.InitLaid ts (s₃.pos + 1) init) →
        Ends (expect ts .semicolon) s₄ (fun _ s₅ => StmtRead ts s (.declare name ty init
          ((tokenAt ts s.pos).span.merge (tokenAt ts (s₅.pos - 1)).span)) s₅)
          (fun _ => Onward ts s) True := fun init s₄ h₄ hinit => by
      refine expect_step (h₀₃.trans h₄) fun s₅ h₅ hp₅ => ?_
      refine ⟨h₀₃.trans (h₄.trans h₅), fun he => ?_⟩
      obtain ⟨hw₄, hlaid⟩ := hinit (h₅.errors_eq_empty he) (by have := h₅.le_endIdx; omega)
      refine ⟨by simp only [Stmt.width]; omega, ?_, ?_⟩
      · rw [stmt_span hord (by omega) h₅.le_endIdx]
        congr 1
        omega
      · rw [show s.pos + TypeTag.width ty + 3 = s₃.pos + 1 by omega]
        exact hlaid
    refine accept_step h₃ (fun s₄ h₄ hp₄ => ?_) ?_
    · rw [if_pos rfl]
      refine (ih.expr d .assignment s₄ h₄.le_endIdx).within (h₀₃.trans h₄) fun e s₅ h₅ => ?_
      refine hfinish (some e) s₅ (h₄.trans h₅.1) fun he hlt => ?_
      obtain ⟨hw, hlaid⟩ := h₅.2 he hlt
      refine ⟨by simp only [Expr.initWidth]; omega, ?_⟩
      simp only [Expr.InitLaid]
      rw [← hp₄]
      exact hlaid
    · rw [if_neg (by simp)]
      exact hfinish none s₃ (Onward.refl h₃.le_endIdx) fun _ _ => ⟨rfl, trivial⟩
  · exact ih.statement d s hp

theorem recovering_succ (ih : LayoutBound ts n) (d : Nat) (s : State) (hp : s.pos ≤ endIdx ts) :
    Ends (Parser.recovering ts (n + 1) d) s
      (fun r s' => Onward ts s s' ∧ (s'.errors = #[] → ∃ st, r = some st ∧ StmtRead ts s st s'))
      (fun _ => Onward ts s) True := by
  rw [Parser.recovering]
  simp only [bind_iff, get_iff]
  rw [tryCatch_iff (by rfl), map_iff]
  refine (ih.declaration d s hp).mono (fun st s' h => ⟨h.1, fun _ => ⟨st, rfl, h⟩⟩)
    (fun e s₁ h₁ => ?_) id
  have h₂ := h₁.trans (Onward.record h₁.le_endIdx e)
  have hrecorded : ∀ s₃ : State, Onward ts { s₁ with errors := s₁.errors.push e } s₃ →
      s₃.errors ≠ #[] := fun s₃ h₃ he => by
    have hle := h₃.errors_le
    rw [he] at hle
    simp at hle
  simp only [bind_iff, record_iff, get_iff, ite_iff, modify_iff, pure_iff]
  have hdone : ∀ s₃ : State, Onward ts { s₁ with errors := s₁.errors.push e } s₃ →
      ∀ P : Prop, Onward ts s { s₃ with pos := resumeFrom ts s₃.pos } ∧ (s₃.errors = #[] → P) :=
    fun s₃ h₃ _ =>
      ⟨⟨Nat.le_trans (h₂.trans h₃).pos_le (le_resumeFrom _), resumeFrom_le_endIdx h₃.le_endIdx,
        (h₂.trans h₃).errors_le⟩, fun he => absurd he (hrecorded s₃ h₃)⟩
  split_ifs
  · exact advance_onward h₂.le_endIdx fun _ s₃ h₃ => hdone s₃ h₃ _
  · exact hdone _ (Onward.refl h₂.le_endIdx) _

theorem blockItems_succ (ih : LayoutBound ts n) (d : Nat) (acc : Array Stmt) (s : State)
    (hp : s.pos ≤ endIdx ts) :
    Ends (Parser.blockItems ts (n + 1) d acc) s (ItemsRead ts s acc) (fun _ => Onward ts s)
      True := by
  rw [Parser.blockItems]
  simp only [bind_iff, check_iff, atEnd_iff, ite_iff, pure_iff]
  split_ifs
  · exact ⟨Onward.refl hp, fun _ => ⟨[], by simp, by simp [Stmt.widthAll], trivial⟩⟩
  refine (ih.recovering d s hp).within (Onward.refl hp) fun r s₁ h₁ => ?_
  refine (ih.blockItems d _ s₁ h₁.1.le_endIdx).within h₁.1 fun acc' s₂ h₂ => ?_
  refine ⟨h₁.1.trans h₂.1, fun he => ?_⟩
  obtain ⟨st, rfl, hst⟩ := h₁.2 (h₂.1.errors_eq_empty he)
  obtain ⟨hw, hlaid⟩ := hst.2 (h₂.1.errors_eq_empty he)
  obtain ⟨items, hacc, hw₂, hlaid₂⟩ := h₂.2 he
  refine ⟨st :: items, by simp [hacc], by simp only [Stmt.widthAll]; omega, hlaid, ?_⟩
  rw [← hw]
  exact hlaid₂

theorem topItems_succ (ih : LayoutBound ts n) (acc : Array Stmt) (s : State)
    (hp : s.pos ≤ endIdx ts) :
    Ends (Parser.topItems ts (n + 1) acc) s
      (fun acc' s' => ItemsRead ts s acc acc' s' ∧ s'.pos = endIdx ts) (fun _ => Onward ts s)
      True := by
  rw [Parser.topItems]
  simp only [bind_iff, atEnd_iff, ite_iff, pure_iff]
  split_ifs with hend
  · exact ⟨⟨Onward.refl hp, fun _ => ⟨[], by simp, by simp [Stmt.widthAll], trivial⟩⟩,
      eq_endIdx_of_isEnd hp hend⟩
  refine (ih.recovering 0 s hp).within (Onward.refl hp) fun r s₁ h₁ => ?_
  refine (ih.topItems _ s₁ h₁.1.le_endIdx).within h₁.1 fun acc' s₂ h₂ => ?_
  refine ⟨⟨h₁.1.trans h₂.1.1, fun he => ?_⟩, h₂.2⟩
  obtain ⟨st, rfl, hst⟩ := h₁.2 (h₂.1.1.errors_eq_empty he)
  obtain ⟨hw, hlaid⟩ := hst.2 (h₂.1.1.errors_eq_empty he)
  obtain ⟨items, hacc, hw₂, hlaid₂⟩ := h₂.1.2 he
  refine ⟨st :: items, by simp [hacc], by simp only [Stmt.widthAll]; omega, hlaid, ?_⟩
  rw [← hw]
  exact hlaid₂

theorem zero : LayoutBound ts 0 where
  expr _ _ _ _ := by rw [Parser.expr]; exact exhausted_iff.mpr trivial
  operand _ _ _ := by rw [Parser.operand]; exact exhausted_iff.mpr trivial
  infixChain _ _ _ _ _ _ _ := by rw [Parser.infixChain]; exact exhausted_iff.mpr trivial
  statement _ _ _ := by rw [Parser.statement]; exact exhausted_iff.mpr trivial
  declaration _ _ _ := by rw [Parser.declaration]; exact exhausted_iff.mpr trivial
  recovering _ _ _ := by rw [Parser.recovering]; exact exhausted_iff.mpr trivial
  blockItems _ _ _ _ := by rw [Parser.blockItems]; exact exhausted_iff.mpr trivial
  topItems _ _ _ := by rw [Parser.topItems]; exact exhausted_iff.mpr trivial

theorem succ (hord : Ordered ts) (ih : LayoutBound ts n) : LayoutBound ts (n + 1) where
  expr := ih.expr_succ
  operand := operand_succ hord ih
  infixChain := infixChain_succ hord ih
  statement := statement_succ hord ih
  declaration := declaration_succ hord ih
  recovering := ih.recovering_succ
  blockItems := ih.blockItems_succ
  topItems := ih.topItems_succ

end LayoutBound

/-- When spans come in order, every fuel lays out what the reader reads. -/
theorem layoutBound (hord : Ordered ts) (n : Nat) : LayoutBound ts n := by
  induction n with
  | zero => exact LayoutBound.zero
  | succ n ih => exact ih.succ hord

/-- A run that reads a program without error lays out its statements one after the other, from
the first token to the first end token. -/
theorem run_laid (hord : Ordered ts) {fuel : Nat} {p : Program}
    (h : run fuel ts = some (.ok p)) :
    Stmt.LaidAll ts 0 p.body ∧ Stmt.widthAll p.body = endIdx ts := by
  have hends := (layoutBound hord fuel).topItems #[] ⟨0, #[]⟩ (Nat.zero_le _)
  unfold run at h
  unfold Ends at hends
  rcases hr : (topItems ts fuel #[]).run.run ⟨0, #[]⟩ with ⟨(e | _) | body, s'⟩ <;>
    rw [hr] at h hends
  · cases h
  · cases h
  · simp only [Option.some.injEq] at h
    split at h
    · rename_i hempty
      simp only [Except.ok.injEq] at h
      subst h
      obtain ⟨items, hbody, hw, hlaid⟩ := hends.1.2 (Array.isEmpty_iff.mp hempty)
      simp only [List.nil_append] at hbody
      rw [hbody]
      exact ⟨hlaid, by rw [← hends.2, hw, Nat.zero_add]⟩
    · cases h

/-- Tokens whose spans are ranges, each ending no later than the next begins, begin and end in
their order. -/
theorem spans_mono {tokens : List Token} (hwf : ∀ t ∈ tokens, t.span.start ≤ t.span.stop)
    (hchain : tokens.IsChain fun a b => a.span.stop ≤ b.span.start) {i j : Nat} (hij : i ≤ j)
    (hj : j < tokens.length) :
    tokens[i].span.start ≤ tokens[j].span.start ∧ tokens[i].span.stop ≤ tokens[j].span.stop := by
  induction j, hij using Nat.le_induction with
  | base => exact ⟨Nat.le_refl _, Nat.le_refl _⟩
  | succ j hij ih =>
    have hstep := hchain.getElem j hj
    have hw := hwf _ (List.getElem_mem (Nat.lt_of_succ_lt hj))
    have hw' := hwf _ (List.getElem_mem hj)
    obtain ⟨h₁, h₂⟩ := ih (Nat.lt_of_succ_lt hj)
    exact ⟨by omega, by omega⟩

theorem ordered_terminate {tokens : List Token} (hwf : ∀ t ∈ tokens, t.span.start ≤ t.span.stop)
    (hchain : tokens.IsChain fun a b => a.span.stop ≤ b.span.start) :
    Ordered (terminate tokens) := by
  intro i j hij hj
  have hlen : endIdx (terminate tokens) ≤ tokens.length := by
    rw [endIdx_terminate]
    exact List.findIdx_le_length
  rw [tokenAt_terminate (by omega), tokenAt_terminate (by omega)]
  exact spans_mono hwf hchain hij (by omega)

end Parser

/-- Spans read are exact: when the tokens' spans are ranges, each ending no later than the next
begins, a program read without error lays out its statements one after the other from the first
token up to the first end token, and every statement and expression in it spans from the start
of its first token to the end of its last, at its first token's line and column. -/
theorem Program.ofTokens_spans_exact {tokens : List Token} {p : Program}
    (hwf : ∀ t ∈ tokens, t.span.start ≤ t.span.stop)
    (hchain : tokens.IsChain fun a b => a.span.stop ≤ b.span.start)
    (h : Program.ofTokens tokens = .ok p) :
    Stmt.LaidAll (Parser.terminate tokens) 0 p.body ∧
      Stmt.widthAll p.body = (tokens.takeWhile fun t => !Parser.isEnd t).length := by
  dsimp only [Program.ofTokens] at h
  rcases hr : Parser.run (Parser.fuelFor (Parser.terminate tokens).size)
      (Parser.terminate tokens) with _ | r <;> rw [hr] at h
  · cases h
  · rw [Option.getD_some] at h
    subst h
    obtain ⟨hlaid, hw⟩ := Parser.run_laid (Parser.ordered_terminate hwf hchain) hr
    refine ⟨hlaid, ?_⟩
    rw [hw, Parser.endIdx_terminate, Parser.takeWhile_not_isEnd,
      List.length_take_of_le List.findIdx_le_length]

/-- `loopsAndBranchesTokens`, each token a range of its own after the one before, read as a
program laid out over them. -/
theorem loopsAndBranches_spans_exact :
    ∃ p, Program.ofTokens loopsAndBranchesTokens = .ok p ∧
      Stmt.LaidAll (Parser.terminate loopsAndBranchesTokens) 0 p.body ∧
      Stmt.widthAll p.body =
        (loopsAndBranchesTokens.takeWhile fun t => !Parser.isEnd t).length := by
  have hok : (Program.ofTokens loopsAndBranchesTokens).toBool = true := by decide +kernel
  cases h : Program.ofTokens loopsAndBranchesTokens with
  | error e =>
    rw [h] at hok
    cases hok
  | ok p => exact ⟨p, rfl, Program.ofTokens_spans_exact (by decide +kernel) (by decide +kernel) h⟩

end StackScript
