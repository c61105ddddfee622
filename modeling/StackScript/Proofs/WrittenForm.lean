import StackScript.Proofs.Spans
import StackScript.Proofs.Writing

/-!
# What the reader returns is written by its tokens

A program read without error is canonical, within the nesting limit, and written exactly by the
tokens it was read from: the kinds of the tokens before the first end token are the program's
tokens (`Program.ofTokens_written`).

The proof follows the reader's productions, as `Parser.LayoutBound` does, with outcomes that say
what the node read is written with (`Parser.ExprWrites`, `Parser.StmtWrites`).  Three facts carry
it.  An expression read at level `min` stops before a token that is no infix operator of that
level or a tighter one (`Parser.Stops`), so the operator after a left operand is never looser
than the operand's last right operand was read at, which makes the left operand bind at least as
tightly as the operator.  An `if` without `else` leaves the reader on a token that is no `else`,
which is what forbids its enclosing `if` an `else` of its own.  A `for` limit is followed by a
token that is no infix operator at all, so its body does not begin with `-`.
-/

namespace StackScript

namespace Parser

open Ends

variable {ts : Array Token} {n : Nat}

/-! ## What a node read is written with -/

/-- An expression written in canonical form on the tokens from `p` up to `q`, binding at least
as tightly as `min`, whose nesting levels fit below the limit from depth `d`. -/
structure ExprWrites (ts : Array Token) (d : Nat) (min : Prec) (p : Nat) (e : Expr) (q : Nat) :
    Prop where
  kinds : Kinds ts p e.tokens
  stop : q = p + e.tokens.length
  canonical : e.canonical = true
  binds : min.rank ≤ e.prec.rank
  levels : d + e.levels ≤ maxNesting

theorem ExprWrites.loosen {d p q : Nat} {min min' : Prec} {e : Expr}
    (h : ExprWrites ts d min p e q) (hle : min'.rank ≤ min.rank) : ExprWrites ts d min' p e q :=
  { h with binds := Nat.le_trans hle h.binds }

/-- An expression read from `s` to `s'`: the reader went onward, and if no error was recorded
and it stopped before the end, the expression is written from `p` up to the reader, which stands
on a token that ends the level `min`. -/
def ExprShape (ts : Array Token) (d : Nat) (min : Prec) (p : Nat) (s : State) (e : Expr)
    (s' : State) : Prop :=
  Onward ts s s' ∧ (s'.errors = #[] → s'.pos < endIdx ts →
    ExprWrites ts d min p e s'.pos ∧ Stops min (tokenAt ts s'.pos).kind)

/-- The token at `q` is no `else` that the reader would take. -/
def NoElse (ts : Array Token) (q : Nat) : Prop :=
  (!isEnd (tokenAt ts q) && (tokenAt ts q).kind.alike .kwElse) = false

/-- A statement written in canonical form on the tokens from `p` up to `q`, whose nesting levels
fit below the limit from depth `d`, and which is followed by no `else` if it ends with an `if`
without one. -/
structure StmtWrites (ts : Array Token) (d p : Nat) (st : Stmt) (q : Nat) : Prop where
  kinds : Kinds ts p st.tokens
  stop : q = p + st.tokens.length
  canonical : st.canonical = true
  levels : d + st.levels ≤ maxNesting
  closed : st.endsOpen = true → NoElse ts q

/-- A statement read from `s` to `s'`: the reader went onward, and if no error was recorded the
statement is written from `s` up to `s'`. -/
def StmtShape (ts : Array Token) (d : Nat) (s : State) (st : Stmt) (s' : State) : Prop :=
  Onward ts s s' ∧ (s'.errors = #[] → StmtWrites ts d s.pos st s'.pos)

/-- Items read from `s` to `s'` after `acc`: the reader went onward, and if no error was
recorded the new items are written one after the other from `s` up to `s'`. -/
def ItemsShape (ts : Array Token) (d : Nat) (s : State) (acc acc' : Array Stmt) (s' : State) :
    Prop :=
  Onward ts s s' ∧ (s'.errors = #[] → ∃ items, acc'.toList = acc.toList ++ items ∧
    Kinds ts s.pos (Stmt.tokensAll items) ∧ s'.pos = s.pos + (Stmt.tokensAll items).length ∧
    Stmt.canonicalAll items = true ∧ d + Stmt.levelsAll items ≤ maxNesting)

/-! ## Steps that read a token of a known kind -/

section Steps

variable {s₀ s : State} {err : ParseError → State → Prop} {cut : Prop}

theorem kind_of_check {t : Token} {k : TokenKind} (h : (!isEnd t && t.kind.alike k) = true)
    (hk : 4 ≤ k.ordinal) : isEnd t = false ∧ t.kind = k := by
  simp only [Bool.and_eq_true, Bool.not_eq_eq_eq_not, Bool.not_true] at h
  exact ⟨h.1, TokenKind.eq_of_alike h.2 hk⟩

theorem expect_written {k : TokenKind} (hk : 4 ≤ k.ordinal) {ok : Token → State → Prop}
    (hs : Onward ts s₀ s)
    (hok : ∀ s', Onward ts s s' → s'.pos = s.pos + 1 → (tokenAt ts s.pos).kind = k →
      ok (tokenAt ts s.pos) s') :
    Ends (expect ts k) s ok (fun _ => Onward ts s₀) cut :=
  expect_of (fun hend halike => hok _ (Onward.next (lt_endIdx hs.le_endIdx hend)) rfl
    (TokenKind.eq_of_alike halike hk)) hs

theorem accept_written {k : TokenKind} (hk : 4 ≤ k.ordinal) {ok : Bool → State → Prop}
    (hs : Onward ts s₀ s)
    (htake : ∀ s', Onward ts s s' → s'.pos = s.pos + 1 → (tokenAt ts s.pos).kind = k → ok true s')
    (hleave : (!isEnd (tokenAt ts s.pos) && (tokenAt ts s.pos).kind.alike k) = false →
      ok false s) :
    Ends (accept ts k) s ok err cut := by
  rw [accept_iff]
  split
  · rename_i h
    obtain ⟨hend, hkind⟩ := kind_of_check h hk
    exact htake _ (Onward.next (lt_endIdx hs.le_endIdx hend)) rfl hkind
  · rename_i h
    exact hleave (by simpa using h)

theorem expectIdentifier_written {ok : String → State → Prop} (hs : Onward ts s₀ s)
    (hk : ∀ name s', Onward ts s s' → s'.pos = s.pos + 1 →
      (tokenAt ts s.pos).kind = .identifier name → ok name s') :
    Ends (expectIdentifier ts) s ok (fun _ => Onward ts s₀) cut :=
  expectIdentifier_of
    (fun name h => hk name _ (Onward.next (lt_endIdx hs.le_endIdx (by simp [isEnd, h]))) rfl h)
    (fun _ => hs)

theorem typeTag_written {ok : Option TypeTag → State → Prop} (hs : Onward ts s₀ s)
    (hk : ∀ ty s', Onward ts s s' → Kinds ts s.pos (TypeTag.tokens ty) →
      s'.pos = s.pos + (TypeTag.tokens ty).length → ok ty s') :
    Ends (typeTag ts) s ok err cut := by
  unfold typeTag
  rw [bind_iff, peek_iff]
  dsimp only
  split
  · rename_i name h
    have hkind : (tokenAt ts s.pos).kind = name.token := by
      revert h
      cases (tokenAt ts s.pos).kind <;> intro h <;> simp at h <;> (subst h; rfl)
    have hend : isEnd (tokenAt ts s.pos) = false := by
      rw [isEnd_eq_alike, hkind]
      cases name <;> rfl
    rw [bind_iff, advance_iff hend]
    exact hk _ _ (Onward.next (lt_endIdx hs.le_endIdx hend)) (by simp [TypeTag.tokens, hkind]) rfl
  · exact hk none s (Onward.refl hs.le_endIdx) (by simp [TypeTag.tokens]) (by simp [TypeTag.tokens])

end Steps

/-! ## One infix operator -/

section Infix

variable {d p : Nat} {min level : Prec} {c : Connective} {s s₂ : State} {left right e : Expr}

theorem infix_writes (hc : Connective.of? (tokenAt ts s.pos).kind = some (c, level))
    (hmin : min.rank ≤ level.rank) (hleft : ExprWrites ts d min p left s.pos)
    (hstop : Stops left.rightLevel (tokenAt ts s.pos).kind)
    (hright : ExprWrites ts (d + 1) level.tighter (s.pos + 1) right s₂.pos)
    (hnext : Stops level.tighter (tokenAt ts s₂.pos).kind)
    (htokens : e.tokens = left.tokens ++ c.token :: right.tokens)
    (hcanonical : e.canonical = (c.level.joins left right && left.canonical && right.canonical))
    (hprec : e.prec = c.level) (hlevels : e.levels = max left.levels (right.levels + 1))
    (hrightLevel : e.rightLevel = c.level.tighter) :
    ExprWrites ts d min p e s₂.pos ∧ Stops e.rightLevel (tokenAt ts s₂.pos).kind := by
  have hle := hstop.rank_le hc
  obtain ⟨hkind, rfl⟩ := Connective.of?_eq_some hc
  have hrank := c.level_rank
  have htighter : c.level.tighter.rank = c.level.rank + 1 := Prec.rank_tighter (by omega)
  have hlt : c.level.rank < right.prec.rank := by
    have := hright.binds
    omega
  have hpos := hleft.stop
  have hpos₂ := hright.stop
  have hlev := hleft.levels
  have hlev₂ := hright.levels
  refine ⟨⟨?_, ?_, ?_, ?_, ?_⟩, by rw [hrightLevel]; exact hnext⟩
  · rw [htokens, Kinds.append_iff, Kinds.cons_iff, ← hpos]
    exact ⟨hleft.kinds, hkind, hright.kinds⟩
  · rw [htokens]
    simp only [List.length_append, List.length_cons]
    omega
  · simp [hcanonical, Prec.joins, hle, hlt, hleft.canonical, hright.canonical]
  · rw [hprec]
    exact hmin
  · rw [hlevels]
    omega

theorem assign_writes {name : String} {sp sp' : Span}
    (hc : Connective.of? (tokenAt ts s.pos).kind = some (.assign, level))
    (hmin : min.rank ≤ level.rank) (hleft : ExprWrites ts d min p (.var name sp) s.pos)
    (hvalue : ExprWrites ts (d + 1) .assignment (s.pos + 1) right s₂.pos)
    (hnext : Stops .assignment (tokenAt ts s₂.pos).kind) :
    ExprWrites ts d min p (.assign name right sp') s₂.pos ∧
      Stops (Expr.assign name right sp').rightLevel (tokenAt ts s₂.pos).kind := by
  obtain ⟨hkind, rfl⟩ := Connective.of?_eq_some hc
  have hpos := hleft.stop
  have hpos₂ := hvalue.stop
  have hlev := hvalue.levels
  have hname := hleft.kinds
  simp only [Expr.tokens, List.length_singleton, Kinds.cons_iff, Kinds.nil, and_true] at hpos hname
  refine ⟨⟨?_, ?_, hvalue.canonical, hmin, ?_⟩, hnext⟩
  · simp only [Expr.tokens, Kinds.cons_iff]
    refine ⟨hname, ?_, ?_⟩
    · rw [← hpos]
      exact hkind
    · rw [show p + 1 + 1 = s.pos + 1 by omega]
      exact hvalue.kinds
  · simp only [Expr.tokens, List.length_cons]
    omega
  · simp only [Expr.levels]
    omega

theorem rank_tighter_le_unary {k : TokenKind} (hc : Connective.of? k = some (c, level)) :
    level.tighter.rank ≤ Prec.unary.rank := by
  obtain ⟨-, rfl⟩ := Connective.of?_eq_some hc
  have := c.level_rank
  rw [Prec.rank_tighter (by omega)]
  show _ ≤ 8
  omega

end Infix

theorem unary_writes {d : Nat} {s s₁ s₂ : State} {tok : Token} {e : Expr} {sp : Span} (op : UnOp)
    (heq : tok.kind = op.token) (h₁ : Onward ts s s₁)
    (hreal : s₁.pos < endIdx ts → s₁.pos = s.pos + 1 ∧ tok = tokenAt ts s.pos)
    (h₂ : ExprShape ts (d + 1) .unary s₁.pos s₁ e s₂) :
    Onward ts s s₂ ∧ (s₂.errors = #[] → s₂.pos < endIdx ts →
      ExprWrites ts d .unary s.pos (.unary op e sp) s₂.pos) := by
  refine ⟨h₁.trans h₂.1, fun he hlt => ?_⟩
  obtain ⟨hs₁, rfl⟩ := hreal (Nat.lt_of_le_of_lt h₂.1.pos_le hlt)
  obtain ⟨hw, -⟩ := h₂.2 he hlt
  have hstop := hw.stop
  have hlev := hw.levels
  refine ⟨?_, ?_, ?_, Nat.le_refl _, ?_⟩
  · simp only [Expr.tokens, Kinds.cons_iff]
    exact ⟨heq, by rw [← hs₁]; exact hw.kinds⟩
  · simp only [Expr.tokens, List.length_cons]
    omega
  · simp [Expr.canonical, hw.binds, hw.canonical]
  · simp only [Expr.levels]
    omega

theorem items_cons {d : Nat} {s s₁ s₂ : State} {r : Option Stmt} {acc acc₁ acc' : Array Stmt}
    (h₁ : Onward ts s s₁ ∧ (s₁.errors = #[] → ∃ st, r = some st ∧ StmtShape ts d s st s₁))
    (h₂ : ItemsShape ts d s₁ acc₁ acc' s₂) (hpush : ∀ st, r = some st → acc₁ = acc.push st) :
    s₂.errors = #[] → ∃ items, acc'.toList = acc.toList ++ items ∧
      Kinds ts s.pos (Stmt.tokensAll items) ∧ s₂.pos = s.pos + (Stmt.tokensAll items).length ∧
      Stmt.canonicalAll items = true ∧ d + Stmt.levelsAll items ≤ maxNesting := fun he => by
  obtain ⟨st, rfl, hst⟩ := h₁.2 (h₂.1.errors_eq_empty he)
  have hw := hst.2 (h₂.1.errors_eq_empty he)
  obtain ⟨items, hacc, hkinds, hpos, hc, hlev⟩ := h₂.2 he
  rw [hpush st rfl] at hacc
  have hstop := hw.stop
  have hlev₁ := hw.levels
  refine ⟨st :: items, by simp [hacc], ?_, ?_, ?_, ?_⟩
  · exact Kinds.append_of hw.kinds hkinds hstop
  · simp only [Stmt.tokensAll, List.length_append]
    omega
  · simp [Stmt.canonicalAll, hw.canonical, hc]
  · simp only [Stmt.levelsAll]
    omega

/-! ## The walk over the productions -/

/-- With fuel `n`, each production reads a node written by the tokens it took, in canonical
form and within the nesting limit. -/
structure WrittenBound (ts : Array Token) (n : Nat) : Prop where
  expr : ∀ d min s, min.rank ≤ Prec.unary.rank → s.pos ≤ endIdx ts →
    Ends (Parser.expr ts n d min) s (ExprShape ts d min s.pos s) (fun _ => Onward ts s) True
  operand : ∀ d s, d < maxNesting → s.pos ≤ endIdx ts →
    Ends (Parser.operand ts n (d + 1)) s
      (fun b s' => Onward ts s s' ∧
        (s'.errors = #[] → s'.pos < endIdx ts → ExprWrites ts d .unary s.pos b s'.pos))
      (fun _ => Onward ts s) True
  infixChain : ∀ d min p left s, s.pos ≤ endIdx ts →
    (s.errors = #[] → s.pos < endIdx ts →
      ExprWrites ts d min p left s.pos ∧ Stops left.rightLevel (tokenAt ts s.pos).kind) →
    Ends (Parser.infixChain ts n (d + 1) min left) s (ExprShape ts d min p s)
      (fun _ => Onward ts s) True
  statement : ∀ d s, s.pos ≤ endIdx ts →
    Ends (Parser.statement ts n d) s (StmtShape ts d s) (fun _ => Onward ts s) True
  declaration : ∀ d s, d ≤ maxNesting → s.pos ≤ endIdx ts →
    Ends (Parser.declaration ts n d) s (StmtShape ts d s) (fun _ => Onward ts s) True
  recovering : ∀ d s, d ≤ maxNesting → s.pos ≤ endIdx ts →
    Ends (Parser.recovering ts n d) s
      (fun r s' => Onward ts s s' ∧ (s'.errors = #[] → ∃ st, r = some st ∧ StmtShape ts d s st s'))
      (fun _ => Onward ts s) True
  blockItems : ∀ d acc s, d ≤ maxNesting → s.pos ≤ endIdx ts →
    Ends (Parser.blockItems ts n d acc) s (ItemsShape ts d s acc) (fun _ => Onward ts s) True
  topItems : ∀ acc s, s.pos ≤ endIdx ts →
    Ends (Parser.topItems ts n acc) s
      (fun acc' s' => ItemsShape ts 0 s acc acc' s' ∧ s'.pos = endIdx ts) (fun _ => Onward ts s)
      True

namespace WrittenBound

theorem expr_succ (ih : WrittenBound ts n) (d : Nat) (min : Prec) (s : State)
    (hmin : min.rank ≤ Prec.unary.rank) (hp : s.pos ≤ endIdx ts) :
    Ends (Parser.expr ts (n + 1) d min) s (ExprShape ts d min s.pos s) (fun _ => Onward ts s)
      True := by
  rw [Parser.expr, bind_iff, enter_iff]
  split_ifs with hd
  · exact Onward.refl hp
  rw [bind_iff]
  refine (ih.operand d s (Nat.lt_of_not_le hd) hp).within (Onward.refl hp) fun left s₁ h₁ => ?_
  refine (ih.infixChain d min s.pos left s₁ h₁.1.le_endIdx fun he hlt => ?_).within h₁.1
    fun e s₂ h₂ => ⟨h₁.1.trans h₂.1, h₂.2⟩
  have hw := h₁.2 he hlt
  exact ⟨hw.loosen hmin, Stops.of_unary_le hw.binds _⟩

theorem operand_succ (ih : WrittenBound ts n) (d : Nat) (s : State) (hd : d < maxNesting)
    (hp : s.pos ≤ endIdx ts) :
    Ends (Parser.operand ts (n + 1) (d + 1)) s
      (fun b s' => Onward ts s s' ∧
        (s'.errors = #[] → s'.pos < endIdx ts → ExprWrites ts d .unary s.pos b s'.pos))
      (fun _ => Onward ts s) True := by
  rw [Parser.operand, bind_iff]
  refine advance_layout hp fun tok s₁ h₁ hreal => ?_
  have hleaf : ∀ e : Expr, e.tokens = [tok.kind] → e.canonical = true → e.prec = .primary →
      e.levels = 1 → Onward ts s s₁ ∧
        (s₁.errors = #[] → s₁.pos < endIdx ts → ExprWrites ts d .unary s.pos e s₁.pos) :=
    fun e htok hc hprec hlev => ⟨h₁, fun _ hlt => by
      obtain ⟨hs₁, rfl⟩ := hreal hlt
      exact ⟨by simp [htok], by simp [htok, hs₁], hc, by rw [hprec]; decide, by omega⟩⟩
  split
  · rename_i heq
    exact hleaf _ (by simp [Expr.tokens, heq]) rfl rfl rfl
  · rename_i heq
    exact hleaf _ (by simp [Expr.tokens, heq]) rfl rfl rfl
  · rename_i heq
    exact hleaf _ (by simp [Expr.tokens, heq]) rfl rfl rfl
  · rename_i heq
    exact hleaf _ (by simp [Expr.tokens, heq]) rfl rfl rfl
  · rename_i heq
    exact hleaf _ (by simp [Expr.tokens, heq]) rfl rfl rfl
  · -- a group: an expression and `)`
    rename_i heq
    rw [bind_iff]
    refine (ih.expr (d + 1) .assignment s₁ (by decide) h₁.le_endIdx).within h₁ fun e s₂ h₂ => ?_
    rw [bind_iff]
    refine expect_written (by decide) (h₁.trans h₂.1) fun s₃ h₃ hp₃ hclose => ?_
    simp only [bind_iff, previousSpan_iff, pure_iff]
    refine ⟨h₁.trans (h₂.1.trans h₃), fun he hlt => ?_⟩
    have hpos₂ := h₂.1.pos_le
    obtain ⟨hs₁, rfl⟩ := hreal (by omega)
    obtain ⟨hw, -⟩ := h₂.2 (h₃.errors_eq_empty he) (by omega)
    have hstop := hw.stop
    have hlev := hw.levels
    refine ⟨?_, ?_, hw.canonical, (by decide : Prec.unary.rank ≤ Prec.primary.rank), ?_⟩
    · simp only [Expr.tokens, List.cons_append, Kinds.cons_iff, Kinds.append_iff, Kinds.nil,
        and_true]
      refine ⟨heq, by rw [← hs₁]; exact hw.kinds, ?_⟩
      rw [show s.pos + 1 + e.tokens.length = s₂.pos by omega]
      exact hclose
    · simp only [Expr.tokens, List.length_cons, List.length_append, List.length_nil]
      omega
    · simp only [Expr.levels]
      omega
  · -- a negation: a unary expression after `-`
    rename_i heq
    rw [bind_iff]
    refine (ih.expr (d + 1) .unary s₁ (Nat.le_refl _) h₁.le_endIdx).within h₁ fun e s₂ h₂ => ?_
    exact unary_writes .neg heq h₁ hreal h₂
  · -- a logical not: a unary expression after `!`
    rename_i heq
    rw [bind_iff]
    refine (ih.expr (d + 1) .unary s₁ (Nat.le_refl _) h₁.le_endIdx).within h₁ fun e s₂ h₂ => ?_
    exact unary_writes .not heq h₁ hreal h₂
  · split <;> exact h₁

theorem infixChain_succ (ih : WrittenBound ts n) (d : Nat) (min : Prec) (p : Nat) (left : Expr)
    (s : State) (hp : s.pos ≤ endIdx ts)
    (hleft : s.errors = #[] → s.pos < endIdx ts →
      ExprWrites ts d min p left s.pos ∧ Stops left.rightLevel (tokenAt ts s.pos).kind) :
    Ends (Parser.infixChain ts (n + 1) (d + 1) min left) s (ExprShape ts d min p s)
      (fun _ => Onward ts s) True := by
  rw [Parser.infixChain]
  simp only [bind_iff, atEnd_iff, peek_iff, ite_iff]
  split_ifs with hend
  · -- at the end: nothing is claimed
    refine ⟨Onward.refl hp, fun _ hlt => ?_⟩
    rw [isEnd_of_lt_endIdx hlt] at hend
    cases hend
  split
  · -- no infix operator: it ends the expression
    rename_i hnone
    exact ⟨Onward.refl hp, fun he hlt => ⟨(hleft he hlt).1, Stops.of_none hnone⟩⟩
  rename_i op level hc
  simp only [ite_iff]
  split_ifs with hlooser
  · -- a looser operator ends the expression
    refine ⟨Onward.refl hp, fun he hlt => ⟨(hleft he hlt).1, fun c' level' hc' => ?_⟩⟩
    rw [hc, Option.some.injEq, Prod.mk.injEq] at hc'
    rw [← hc'.2]
    exact hlooser
  simp only [Bool.not_eq_true] at hend
  have hlt := lt_endIdx hp hend
  have hnext : Onward ts s { s with pos := s.pos + 1 } := Onward.next hlt
  have hmin : min.rank ≤ level.rank := Nat.not_lt.mp hlooser
  rw [bind_iff, advance_iff hend]
  have hrest : ∀ e s₂, Onward ts { s with pos := s.pos + 1 } s₂ →
      (s₂.errors = #[] → s₂.pos < endIdx ts →
        ExprWrites ts d min p e s₂.pos ∧ Stops e.rightLevel (tokenAt ts s₂.pos).kind) →
      Ends (Parser.infixChain ts n (d + 1) min e) s₂ (ExprShape ts d min p s)
        (fun _ => Onward ts s) True :=
    fun e s₂ h₂ he => (ih.infixChain d min p e s₂ h₂.le_endIdx he).within (hnext.trans h₂)
      fun _ _ h₃ => ⟨hnext.trans (h₂.trans h₃.1), h₃.2⟩
  have hleft' : ∀ s₂ : State, Onward ts { s with pos := s.pos + 1 } s₂ → s₂.errors = #[] →
      ExprWrites ts d min p left s.pos ∧ Stops left.rightLevel (tokenAt ts s.pos).kind :=
    fun s₂ h₂ he => hleft (h₂.errors_eq_empty he) hlt
  cases op with
  | assign =>
    rw [bind_iff]
    refine (ih.expr (d + 1) .assignment { s with pos := s.pos + 1 } (by decide) hlt).within hnext
      fun value s₂ h₂ => ?_
    split
    · -- an assignment to a name
      simp only [bind_iff, pure_iff]
      refine hrest _ s₂ h₂.1 fun he hlt₂ => ?_
      obtain ⟨hw, -⟩ := hleft' s₂ h₂.1 he
      obtain ⟨hvalue, hstop⟩ := h₂.2 he hlt₂
      exact assign_writes hc hmin hw hvalue hstop
    · -- an assignment to something else is recorded, so nothing more is claimed
      simp only [bind_iff, record_iff, pure_iff]
      refine hrest _ _ (h₂.1.trans (Onward.record h₂.1.le_endIdx _)) fun he _ => ?_
      simp at he
  | _ =>
    simp only [bind_iff, pure_iff]
    refine (ih.expr (d + 1) level.tighter { s with pos := s.pos + 1 } (rank_tighter_le_unary hc)
      hlt).within hnext fun right s₂ h₂ => ?_
    refine hrest _ s₂ h₂.1 fun he hlt₂ => ?_
    obtain ⟨hw, hstop⟩ := hleft' s₂ h₂.1 he
    obtain ⟨hright, hnext₂⟩ := h₂.2 he hlt₂
    exact infix_writes hc hmin hw hstop hright hnext₂ rfl rfl rfl rfl rfl

theorem statement_succ (ih : WrittenBound ts n) (d : Nat) (s : State) (hp : s.pos ≤ endIdx ts) :
    Ends (Parser.statement ts (n + 1) d) s (StmtShape ts d s) (fun _ => Onward ts s) True := by
  rw [Parser.statement, bind_iff, enter_iff]
  split_ifs with hd
  · exact Onward.refl hp
  have hd' : d < maxNesting := Nat.lt_of_not_le hd
  simp only [bind_iff, currentSpan_iff, check_iff, ite_iff, previousSpan_iff, pure_iff, map_iff]
  split_ifs with hprint hif hwhile hfor hbrace
  · -- `print`, an expression and `;`
    obtain ⟨hend, hkind⟩ := kind_of_check hprint (by decide)
    refine advance_step hp hend fun s₁ h₁ hp₁ => ?_
    refine (ih.expr (d + 1) .assignment s₁ (by decide) h₁.le_endIdx).within h₁ fun e s₂ h₂ => ?_
    refine expect_written (by decide) (h₁.trans h₂.1) fun s₃ h₃ hp₃ hsemi => ?_
    refine ⟨h₁.trans (h₂.1.trans h₃), fun he => ?_⟩
    obtain ⟨hw, -⟩ := h₂.2 (h₃.errors_eq_empty he) (by have := h₃.le_endIdx; omega)
    have hstop := hw.stop
    have hlev := hw.levels
    refine ⟨?_, ?_, hw.canonical, by simp only [Stmt.levels]; omega,
      fun h => by simp [Stmt.endsOpen] at h⟩
    · exact Kinds.append_of (Kinds.cons_of hkind hw.kinds hp₁)
        (Kinds.cons_of hsemi Kinds.nil rfl) (by simp; omega)
    · simp [Stmt.tokens]
      omega
  · -- `if`: `(`, a condition, `)`, a branch, and perhaps `else` and a branch
    obtain ⟨hend, hkind⟩ := kind_of_check hif (by decide)
    refine advance_step hp hend fun s₁ h₁ hp₁ => ?_
    refine expect_written (by decide) h₁ fun s₂ h₂ hp₂ hopen => ?_
    have h₀₂ := h₁.trans h₂
    refine (ih.expr (d + 1) .assignment s₂ (by decide) h₂.le_endIdx).within h₀₂ fun c s₃ h₃ => ?_
    refine expect_written (by decide) (h₀₂.trans h₃.1) fun s₄ h₄ hp₄ hclose => ?_
    have h₀₄ := h₀₂.trans (h₃.1.trans h₄)
    refine (ih.statement (d + 1) s₄ h₄.le_endIdx).within h₀₄ fun yes s₅ h₅ => ?_
    have hfirst : s₅.errors = #[] → ExprWrites ts (d + 1) .assignment s₂.pos c s₃.pos ∧
        StmtWrites ts (d + 1) s₄.pos yes s₅.pos ∧
        Kinds ts s.pos (.kwIf :: .leftParen :: c.tokens ++ .rightParen :: yes.tokens) ∧
        s₅.pos = s.pos + (c.tokens.length + yes.tokens.length + 3) := fun he => by
      have hyes := h₅.2 he
      obtain ⟨hc, -⟩ := h₃.2 (h₄.errors_eq_empty (h₅.1.errors_eq_empty he))
        (by have := h₄.le_endIdx; omega)
      have hstop := hc.stop
      have hstop₅ := hyes.stop
      refine ⟨hc, hyes, ?_, by omega⟩
      exact Kinds.append_of (Kinds.cons_of hkind (Kinds.cons_of hopen hc.kinds hp₂) hp₁)
        (Kinds.cons_of hclose hyes.kinds hp₄) (by simp; omega)
    refine accept_written (by decide) (h₀₄.trans h₅.1) (fun s₆ h₆ hp₆ helse => ?_) fun hno => ?_
    · rw [if_pos rfl]
      refine (ih.statement (d + 1) s₆ h₆.le_endIdx).within (h₀₄.trans (h₅.1.trans h₆))
        fun no s₇ h₇ => ?_
      refine ⟨h₀₄.trans (h₅.1.trans (h₆.trans h₇.1)), fun he => ?_⟩
      have hno := h₇.2 he
      obtain ⟨hc, hyes, hhead, hpos⟩ := hfirst (h₆.errors_eq_empty (h₇.1.errors_eq_empty he))
      -- the first branch ends with no open `if`: the reader took an `else` right after it
      have hshut : yes.endsOpen = false := by
        rw [Bool.eq_false_iff]
        intro hy
        have hnot := hyes.closed hy
        simp [NoElse, isEnd_eq_alike, helse, TokenKind.alike, TokenKind.ordinal] at hnot
      have hstop := hno.stop
      have hlev₃ := hc.levels
      have hlev₅ := hyes.levels
      have hlev₇ := hno.levels
      refine ⟨?_, ?_, ?_, ?_, hno.closed⟩
      · exact Kinds.append_of hhead (Kinds.cons_of helse hno.kinds hp₆) (by simp; omega)
      · simp [Stmt.tokens, Stmt.elseTokens]
        omega
      · simp [Stmt.canonical, Stmt.elseCanonical, hc.canonical, hyes.canonical, hshut,
          hno.canonical]
      · simp only [Stmt.levels, Stmt.elseLevels]
        omega
    · rw [if_neg (by simp)]
      refine ⟨h₀₄.trans h₅.1, fun he => ?_⟩
      obtain ⟨hc, hyes, hhead, hpos⟩ := hfirst he
      have hlev₃ := hc.levels
      have hlev₅ := hyes.levels
      refine ⟨?_, ?_, ?_, ?_, fun _ => hno⟩
      · exact Kinds.append_of hhead Kinds.nil (by simp; omega)
      · simp [Stmt.tokens, Stmt.elseTokens]
        omega
      · simp [Stmt.canonical, Stmt.elseCanonical, hc.canonical, hyes.canonical]
      · simp only [Stmt.levels, Stmt.elseLevels]
        omega
  · -- `while`: `(`, a condition, `)` and a body
    obtain ⟨hend, hkind⟩ := kind_of_check hwhile (by decide)
    refine advance_step hp hend fun s₁ h₁ hp₁ => ?_
    refine expect_written (by decide) h₁ fun s₂ h₂ hp₂ hopen => ?_
    have h₀₂ := h₁.trans h₂
    refine (ih.expr (d + 1) .assignment s₂ (by decide) h₂.le_endIdx).within h₀₂ fun c s₃ h₃ => ?_
    refine expect_written (by decide) (h₀₂.trans h₃.1) fun s₄ h₄ hp₄ hclose => ?_
    have h₀₄ := h₀₂.trans (h₃.1.trans h₄)
    refine (ih.statement (d + 1) s₄ h₄.le_endIdx).within h₀₄ fun body s₅ h₅ => ?_
    refine ⟨h₀₄.trans h₅.1, fun he => ?_⟩
    have hbody := h₅.2 he
    obtain ⟨hc, -⟩ := h₃.2 (h₄.errors_eq_empty (h₅.1.errors_eq_empty he))
      (by have := h₄.le_endIdx; omega)
    have hstop := hc.stop
    have hstop₅ := hbody.stop
    have hlev₃ := hc.levels
    have hlev₅ := hbody.levels
    refine ⟨?_, ?_, by simp [Stmt.canonical, hc.canonical, hbody.canonical], ?_, hbody.closed⟩
    · exact Kinds.append_of (Kinds.cons_of hkind (Kinds.cons_of hopen hc.kinds hp₂) hp₁)
        (Kinds.cons_of hclose hbody.kinds hp₄) (by simp; omega)
    · simp [Stmt.tokens]
      omega
    · simp only [Stmt.levels]
      omega
  · -- `for`: a name, `in`, a limit and a body
    obtain ⟨hend, hkind⟩ := kind_of_check hfor (by decide)
    refine advance_step hp hend fun s₁ h₁ hp₁ => ?_
    refine expectIdentifier_written h₁ fun name s₂ h₂ hp₂ hname => ?_
    have h₀₂ := h₁.trans h₂
    refine expect_written (by decide) h₀₂ fun s₃ h₃ hp₃ hin => ?_
    have h₀₃ := h₀₂.trans h₃
    refine (ih.expr (d + 1) .assignment s₃ (by decide) h₃.le_endIdx).within h₀₃
      fun limit s₄ h₄ => ?_
    refine (ih.statement (d + 1) s₄ h₄.1.le_endIdx).within (h₀₃.trans h₄.1) fun body s₅ h₅ => ?_
    refine ⟨h₀₃.trans (h₄.1.trans h₅.1), fun he => ?_⟩
    have hbody := h₅.2 he
    have hlen := body.length_tokens_pos
    have hstop₅ := hbody.stop
    obtain ⟨hlimit, hafter⟩ := h₄.2 (h₅.1.errors_eq_empty he)
      (by have := h₅.1.le_endIdx; omega)
    have hstop := hlimit.stop
    have hlev₄ := hlimit.levels
    have hlev₅ := hbody.levels
    -- the limit ends at a token that is no infix operator: the first of the body, no `-`
    have hfirst : (tokenAt ts s₄.pos).kind = body.first := by
      obtain ⟨rest, hrest⟩ := body.tokens_eq_first
      have hk := hbody.kinds
      rw [hrest, Kinds.cons_iff] at hk
      exact hk.1
    have hminus : body.first.alike .minus = false :=
      TokenKind.alike_minus_of_none (hfirst ▸ Stops.eq_none hafter)
    refine ⟨?_, ?_, by simp [Stmt.canonical, hlimit.canonical, hminus, hbody.canonical], ?_,
      hbody.closed⟩
    · exact Kinds.append_of (Kinds.cons_of hkind (Kinds.cons_of hname
        (Kinds.cons_of hin hlimit.kinds hp₃) hp₂) hp₁) hbody.kinds (by simp; omega)
    · simp [Stmt.tokens]
      omega
    · simp only [Stmt.levels]
      omega
  · -- a block: its items and `}`
    obtain ⟨hend, hkind⟩ := kind_of_check hbrace (by decide)
    refine advance_step hp hend fun s₁ h₁ hp₁ => ?_
    refine (ih.blockItems (d + 1) #[] s₁ hd' h₁.le_endIdx).within h₁ fun items s₂ h₂ => ?_
    refine expect_written (by decide) (h₁.trans h₂.1) fun s₃ h₃ hp₃ hclose => ?_
    refine ⟨h₁.trans (h₂.1.trans h₃), fun he => ?_⟩
    obtain ⟨body, hbody, hkinds, hpos, hc, hlev⟩ := h₂.2 (h₃.errors_eq_empty he)
    simp only [List.nil_append] at hbody
    rw [hbody]
    refine ⟨?_, ?_, hc, by simp only [Stmt.levels]; omega, fun h => by simp [Stmt.endsOpen] at h⟩
    · exact Kinds.append_of (Kinds.cons_of hkind hkinds hp₁) (Kinds.cons_of hclose Kinds.nil rfl)
        (by simp; omega)
    · simp [Stmt.tokens]
      omega
  · -- an expression and `;`
    refine (ih.expr (d + 1) .assignment s (by decide) hp).within (Onward.refl hp)
      fun e s₁ h₁ => ?_
    refine expect_written (by decide) h₁.1 fun s₂ h₂ hp₂ hsemi => ?_
    refine ⟨h₁.1.trans h₂, fun he => ?_⟩
    obtain ⟨hw, -⟩ := h₁.2 (h₂.errors_eq_empty he) (by have := h₂.le_endIdx; omega)
    have hstop := hw.stop
    have hlev := hw.levels
    refine ⟨?_, ?_, hw.canonical, by simp only [Stmt.levels]; omega,
      fun h => by simp [Stmt.endsOpen] at h⟩
    · exact Kinds.append_of hw.kinds (Kinds.cons_of hsemi Kinds.nil rfl) (by omega)
    · simp [Stmt.tokens]
      omega

theorem declaration_succ (ih : WrittenBound ts n) (d : Nat) (s : State) (hd : d ≤ maxNesting)
    (hp : s.pos ≤ endIdx ts) :
    Ends (Parser.declaration ts (n + 1) d) s (StmtShape ts d s) (fun _ => Onward ts s) True := by
  rw [Parser.declaration]
  simp only [bind_iff, check_iff, ite_iff, currentSpan_iff, previousSpan_iff, pure_iff, map_iff]
  split_ifs with hvar
  · -- `var`, perhaps a type word, a name, perhaps `=` and a value, and `;`
    refine expect_written (by decide) (Onward.refl hp) fun s₁ h₁ hp₁ hkind => ?_
    refine typeTag_written h₁ fun ty s₂ h₂ hty hp₂ => ?_
    refine expectIdentifier_written (h₁.trans h₂) fun name s₃ h₃ hp₃ hname => ?_
    have h₀₃ := h₁.trans (h₂.trans h₃)
    have hfinish : ∀ init s₄, Onward ts s₃ s₄ → (s₄.errors = #[] → s₄.pos < endIdx ts →
        Kinds ts s₃.pos (Expr.initTokens init) ∧
          s₄.pos = s₃.pos + (Expr.initTokens init).length ∧ init.all Expr.canonical = true ∧
          d + Expr.initLevels init ≤ maxNesting) →
        Ends (expect ts .semicolon) s₄ (fun _ s₅ => StmtShape ts d s (.declare name ty init
          ((tokenAt ts s.pos).span.merge (tokenAt ts (s₅.pos - 1)).span)) s₅)
          (fun _ => Onward ts s) True := fun init s₄ h₄ hinit => by
      refine expect_written (by decide) (h₀₃.trans h₄) fun s₅ h₅ hp₅ hsemi => ?_
      refine ⟨h₀₃.trans (h₄.trans h₅), fun he => ?_⟩
      obtain ⟨hk₄, hp₄, hc, hlev⟩ := hinit (h₅.errors_eq_empty he)
        (by have := h₅.le_endIdx; omega)
      refine ⟨?_, ?_, hc, hlev, fun h => by simp [Stmt.endsOpen] at h⟩
      · exact Kinds.append_of (Kinds.append_of (Kinds.cons_of hkind hty hp₁)
          (Kinds.cons_of hname hk₄ hp₃) (by simp; omega)) (Kinds.cons_of hsemi Kinds.nil rfl)
          (by simp; omega)
      · simp [Stmt.tokens]
        omega
    refine accept_written (by decide) h₃ (fun s₄ h₄ hp₄ hequal => ?_) fun _ => ?_
    · rw [if_pos rfl]
      refine (ih.expr d .assignment s₄ (by decide) h₄.le_endIdx).within (h₀₃.trans h₄)
        fun e s₅ h₅ => ?_
      refine hfinish (some e) s₅ (h₄.trans h₅.1) fun he hlt => ?_
      obtain ⟨hw, -⟩ := h₅.2 he hlt
      have hstop := hw.stop
      exact ⟨Kinds.cons_of hequal hw.kinds hp₄, by simp [Expr.initTokens]; omega, hw.canonical,
        hw.levels⟩
    · rw [if_neg (by simp)]
      exact hfinish none s₃ (Onward.refl h₃.le_endIdx) fun _ _ =>
        ⟨Kinds.nil, rfl, rfl, by simpa [Expr.initLevels] using hd⟩
  · exact ih.statement d s hp

theorem recovering_succ (ih : WrittenBound ts n) (d : Nat) (s : State) (hd : d ≤ maxNesting)
    (hp : s.pos ≤ endIdx ts) :
    Ends (Parser.recovering ts (n + 1) d) s
      (fun r s' => Onward ts s s' ∧ (s'.errors = #[] → ∃ st, r = some st ∧ StmtShape ts d s st s'))
      (fun _ => Onward ts s) True := by
  rw [Parser.recovering]
  simp only [bind_iff, get_iff]
  rw [tryCatch_iff (by rfl), map_iff]
  refine (ih.declaration d s hd hp).mono (fun st s' h => ⟨h.1, fun _ => ⟨st, rfl, h⟩⟩)
    (fun e s₁ h₁ => ?_) id
  have h₂ := h₁.trans (Onward.record h₁.le_endIdx e)
  have hrecorded : ∀ s₃ : State, Onward ts { s₁ with errors := s₁.errors.push e } s₃ →
      s₃.errors ≠ #[] := fun s₃ h₃ he => by
    have hle := h₃.errors_le
    rw [he] at hle
    simp at hle
  simp only [bind_iff, record_iff, get_iff, ite_iff, modify_iff, pure_iff]
  have hdone : ∀ s₃ : State, Onward ts { s₁ with errors := s₁.errors.push e } s₃ →
      ∀ P : Prop, Onward ts s { s₃ with pos := resumeFrom ts s₃.pos } ∧ (s₃.errors = #[] → P) :=
    fun s₃ h₃ _ =>
      ⟨⟨Nat.le_trans (h₂.trans h₃).pos_le (le_resumeFrom _), resumeFrom_le_endIdx h₃.le_endIdx,
        (h₂.trans h₃).errors_le⟩, fun he => absurd he (hrecorded s₃ h₃)⟩
  split_ifs
  · exact advance_onward h₂.le_endIdx fun _ s₃ h₃ => hdone s₃ h₃ _
  · exact hdone _ (Onward.refl h₂.le_endIdx) _

theorem blockItems_succ (ih : WrittenBound ts n) (d : Nat) (acc : Array Stmt) (s : State)
    (hd : d ≤ maxNesting) (hp : s.pos ≤ endIdx ts) :
    Ends (Parser.blockItems ts (n + 1) d acc) s (ItemsShape ts d s acc) (fun _ => Onward ts s)
      True := by
  rw [Parser.blockItems]
  simp only [bind_iff, check_iff, atEnd_iff, ite_iff, pure_iff]
  split_ifs
  · exact ⟨Onward.refl hp, fun _ => ⟨[], by simp, Kinds.nil, by simp [Stmt.tokensAll], rfl,
      by simpa [Stmt.levelsAll] using hd⟩⟩
  refine (ih.recovering d s hd hp).within (Onward.refl hp) fun r s₁ h₁ => ?_
  refine (ih.blockItems d _ s₁ hd h₁.1.le_endIdx).within h₁.1 fun acc' s₂ h₂ => ?_
  exact ⟨h₁.1.trans h₂.1, items_cons h₁ h₂ fun _ h => by subst h; rfl⟩

theorem topItems_succ (ih : WrittenBound ts n) (acc : Array Stmt) (s : State)
    (hp : s.pos ≤ endIdx ts) :
    Ends (Parser.topItems ts (n + 1) acc) s
      (fun acc' s' => ItemsShape ts 0 s acc acc' s' ∧ s'.pos = endIdx ts) (fun _ => Onward ts s)
      True := by
  rw [Parser.topItems]
  simp only [bind_iff, atEnd_iff, ite_iff, pure_iff]
  split_ifs with hend
  · exact ⟨⟨Onward.refl hp, fun _ => ⟨[], by simp, Kinds.nil, by simp [Stmt.tokensAll], rfl,
      by simp [Stmt.levelsAll]⟩⟩, eq_endIdx_of_isEnd hp hend⟩
  refine (ih.recovering 0 s (Nat.zero_le _) hp).within (Onward.refl hp) fun r s₁ h₁ => ?_
  refine (ih.topItems _ s₁ h₁.1.le_endIdx).within h₁.1 fun acc' s₂ h₂ => ?_
  exact ⟨⟨h₁.1.trans h₂.1.1, items_cons h₁ h₂.1 fun _ h => by subst h; rfl⟩, h₂.2⟩

theorem zero : WrittenBound ts 0 where
  expr _ _ _ _ _ := by rw [Parser.expr]; exact exhausted_iff.mpr trivial
  operand _ _ _ _ := by rw [Parser.operand]; exact exhausted_iff.mpr trivial
  infixChain _ _ _ _ _ _ _ := by rw [Parser.infixChain]; exact exhausted_iff.mpr trivial
  statement _ _ _ := by rw [Parser.statement]; exact exhausted_iff.mpr trivial
  declaration _ _ _ _ := by rw [Parser.declaration]; exact exhausted_iff.mpr trivial
  recovering _ _ _ _ := by rw [Parser.recovering]; exact exhausted_iff.mpr trivial
  blockItems _ _ _ _ _ := by rw [Parser.blockItems]; exact exhausted_iff.mpr trivial
  topItems _ _ _ := by rw [Parser.topItems]; exact exhausted_iff.mpr trivial

theorem succ (ih : WrittenBound ts n) : WrittenBound ts (n + 1) where
  expr := ih.expr_succ
  operand := ih.operand_succ
  infixChain := ih.infixChain_succ
  statement := ih.statement_succ
  declaration := ih.declaration_succ
  recovering := ih.recovering_succ
  blockItems := ih.blockItems_succ
  topItems := ih.topItems_succ

end WrittenBound

/-- Every fuel reads nodes written by the tokens they were read from. -/
theorem writtenBound (n : Nat) : WrittenBound ts n := by
  induction n with
  | zero => exact WrittenBound.zero
  | succ n ih => exact ih.succ

/-- A run that reads a program without error reads it from the tokens that write it, up to the
first end token; the program is canonical and within the nesting limit. -/
theorem run_written {fuel : Nat} {p : Program} (h : run fuel ts = some (.ok p)) :
    Kinds ts 0 p.tokens ∧ p.tokens.length = endIdx ts ∧ p.canonical = true ∧
      p.levels ≤ maxNesting := by
  have hends := (writtenBound fuel : WrittenBound ts fuel).topItems #[] ⟨0, #[]⟩ (Nat.zero_le _)
  unfold run at h
  unfold Ends at hends
  rcases hr : (topItems ts fuel #[]).run.run ⟨0, #[]⟩ with ⟨(e | _) | body, s'⟩ <;>
    rw [hr] at h hends
  · cases h
  · cases h
  · simp only [Option.some.injEq] at h
    split at h
    · rename_i hempty
      simp only [Except.ok.injEq] at h
      subst h
      obtain ⟨items, hbody, hkinds, hpos, hc, hlev⟩ := hends.1.2 (Array.isEmpty_iff.mp hempty)
      simp only [List.nil_append] at hbody
      simp only [Program.tokens, Program.canonical, Program.levels, hbody]
      exact ⟨hkinds, by rw [← hends.2, hpos, Nat.zero_add], hc, by simpa using hlev⟩
    · cases h

end Parser

/-- A program read without error is canonical, within the nesting limit, and written by the
tokens it was read from: their kinds up to the first end token are the program's tokens. -/
theorem Program.ofTokens_written {tokens : List Token} {p : Program}
    (h : Program.ofTokens tokens = .ok p) :
    p.canonical = true ∧ p.levels ≤ maxNesting ∧
      (tokens.takeWhile fun t => !Parser.isEnd t).map Token.kind = p.tokens := by
  dsimp only [Program.ofTokens] at h
  rcases hr : Parser.run (Parser.fuelFor (Parser.terminate tokens).size)
      (Parser.terminate tokens) with _ | r <;> rw [hr] at h
  · cases h
  · rw [Option.getD_some] at h
    subst h
    obtain ⟨hkinds, hlen, hc, hlev⟩ := Parser.run_written hr
    refine ⟨hc, hlev, ?_⟩
    have hle : tokens.findIdx Parser.isEnd ≤ tokens.length := List.findIdx_le_length
    rw [Parser.endIdx_terminate] at hlen
    rw [Parser.takeWhile_not_isEnd]
    refine List.ext_getElem (by simp [hlen, hle]) fun i h₁ h₂ => ?_
    have hi : i < tokens.length := by simp at h₁; omega
    rw [List.getElem_map, List.getElem_take, ← hkinds i h₂, Nat.zero_add,
      Parser.tokenAt_terminate hi]

end StackScript
