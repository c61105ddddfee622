import StackScript.Proofs.WrittenForm

/-!
# Reading back what is written

The converse of `Program.ofTokens_written`: every canonical tree within the nesting limit is
read back, up to spans, from the tokens it is written with.

Expressions are read back by recursion on the tree (`Parser.rereads`).  The reader builds an
infix chain from the left, so it meets a tree's infix operators from the operand its chain
begins with (`Expr.base`) outwards.  `Parser.Rereads.chain` says, in continuation style, that
after that operand the loop reads the rest of the tree and then goes on from a node of the
tree's shape; a binary, `and` or `or` node is read by its left operand's chain followed by one
turn of the loop for its operator and right operand (`Parser.infixChain_turn`).
-/

namespace StackScript

/-- The node the reader makes of an infix operator and its two operands; an assignment to
anything but a name is refused, and its value stands for it. -/
def Connective.node : Connective → Expr → Expr → Span → Expr
  | .binary op, l, r, sp => .binary op l r sp
  | .and, l, r, sp => .and l r sp
  | .or, l, r, sp => .or l r sp
  | .assign, .var x _, r, sp => .assign x r sp
  | .assign, _, r, _ => r

/-- The level at which the reader reads an infix operator's right operand: the loosest for an
assignment, which groups to the right, and one level tighter than the operator otherwise. -/
def Connective.rightLevel : Connective → Prec
  | .assign => .assignment
  | c => c.level.tighter

namespace Connective

variable {c : Connective}

theorem two_le_rank (hc : c ≠ .assign) : 2 ≤ c.level.rank := by
  cases c with
  | binary op => cases op <;> decide
  | and | or => decide
  | assign => exact absurd rfl hc

theorem node_shape (hc : c ≠ .assign) (l r : Expr) (sp : Span) :
    (c.node l r sp).base = l.base ∧ (c.node l r sp).tokens = l.tokens ++ c.token :: r.tokens ∧
      (c.node l r sp).prec = c.level ∧ (c.node l r sp).rightLevel = c.rightLevel ∧
      (c.node l r sp).canonical = (c.level.joins l r && l.canonical && r.canonical) ∧
      (c.node l r sp).levels = max l.levels (r.levels + 1) := by
  cases c with
  | assign => exact absurd rfl hc
  | _ => exact ⟨rfl, rfl, rfl, rfl, rfl, rfl⟩

theorem unspan_node (hc : c ≠ .assign) {l l' r r' : Expr} (sp sp' : Span)
    (hl : l'.unspan = l.unspan) (hr : r'.unspan = r.unspan) :
    (c.node l' r' sp').unspan = (c.node l r sp).unspan := by
  cases c with
  | assign => exact absurd rfl hc
  | _ => simp only [node, Expr.unspan, hl, hr]

end Connective

theorem Stmt.of?_first {st : Stmt} (h : st.first.alike .minus = false) :
    Connective.of? st.first = none := by
  cases st with
  | expression e _ =>
    rcases TokenKind.of?_of_startsOperand e.startsOperand_first with hnone | hminus
    · exact hnone
    · simp only [Stmt.first, hminus] at h
      exact absurd h (by decide)
  | _ => rfl

theorem Stmt.first_alike_var {st : Stmt} (h : st.placed false = true) :
    st.first.alike .kwVar = false := by
  cases st with
  | expression e _ => exact TokenKind.alike_eq_false_of_startsOperand e.startsOperand_first rfl
  | declare => simp [Stmt.placed] at h
  | _ => rfl

theorem Stmt.first_alike_eof (st : Stmt) : st.first.alike .eof = false :=
  st.first_alike_eq_false rfl (by decide)

namespace Parser

open Ends

variable {ts : Array Token} {n : Nat}

theorem Stops.connective {c : Connective} {e : Expr} (hc : c ≠ .assign)
    (h : c.level.rank ≤ e.prec.rank) : Stops e.rightLevel c.token := by
  intro c' level hk
  rw [Connective.of?_token, Option.some.injEq, Prod.mk.injEq] at hk
  obtain ⟨-, rfl⟩ := hk
  have h₂ := Connective.two_le_rank hc
  have h₇ := (Connective.level_rank c).2
  cases e with
  | assign =>
    have h₁ : c.level.rank ≤ 1 := h
    omega
  | _ =>
    exact Prec.lt_rank_tighter h₇ h

/-! ## Steps that read a known token -/

section Steps

variable {s : State} {err : ParseError → State → Prop} {cut : Prop}

theorem takes_of_kind {t : Token} {k : TokenKind} (h : t.kind = k) (hk : k.alike .eof = false) :
    (!isEnd t && t.kind.alike k) = true := by
  rw [isEnd_eq_alike, h, hk]
  simp [TokenKind.alike]

theorem isEnd_of_kind {t : Token} {k : TokenKind} (h : t.kind = k) (hk : k.alike .eof = false) :
    isEnd t = false := by
  rw [isEnd_eq_alike, h, hk]

theorem expect_at {k : TokenKind} {ok : Token → State → Prop}
    (hk : (tokenAt ts s.pos).kind = k) (hend : k.alike .eof = false)
    (h : ok (tokenAt ts s.pos) { s with pos := s.pos + 1 }) : Ends (expect ts k) s ok err cut := by
  rw [expect_iff, if_pos (takes_of_kind hk hend)]
  exact h

theorem accept_at {k : TokenKind} {ok : Bool → State → Prop}
    (hk : (tokenAt ts s.pos).kind = k) (hend : k.alike .eof = false)
    (h : ok true { s with pos := s.pos + 1 }) : Ends (accept ts k) s ok err cut := by
  rw [accept_iff, if_pos (takes_of_kind hk hend)]
  exact h

theorem expectIdentifier_at {x : String} {ok : String → State → Prop}
    (hk : (tokenAt ts s.pos).kind = .identifier x) (h : ok x { s with pos := s.pos + 1 }) :
    Ends (expectIdentifier ts) s ok err cut := by
  unfold expectIdentifier
  rw [bind_iff, peek_iff]
  simp only [hk]
  rw [bind_iff, advance_iff (by simp [isEnd, hk])]
  exact h

theorem accept_not {k : TokenKind} {ok : Bool → State → Prop}
    (hk : (!isEnd (tokenAt ts s.pos) && (tokenAt ts s.pos).kind.alike k) = false)
    (h : ok false s) : Ends (accept ts k) s ok err cut := by
  rw [accept_iff, if_neg (by rw [hk]; exact Bool.false_ne_true)]
  exact h

end Steps

/-! ## Steps of the infix loop -/

theorem infixChain_stops {d : Nat} {min : Prec} {left : Expr} {s : State}
    {err : ParseError → State → Prop} (h : Stops min (tokenAt ts s.pos).kind) :
    Ends (infixChain ts n d min left) s (fun r s' => r = left ∧ s' = s) err True := by
  cases n with
  | zero => rw [infixChain]; exact exhausted_iff.mpr trivial
  | succ n =>
    rw [infixChain]
    simp only [bind_iff, atEnd_iff, peek_iff, ite_iff]
    split_ifs
    · exact ⟨rfl, rfl⟩
    split
    · exact ⟨rfl, rfl⟩
    rename_i c level hc
    simp only [ite_iff]
    rw [if_pos (h c level hc)]
    exact ⟨rfl, rfl⟩

/-- One turn of the infix loop at an operator no looser than `min`: the reader takes the
operator, reads its right operand, and goes on from the node they make. -/
theorem infixChain_turn {d : Nat} {min : Prec} {c : Connective} {level : Prec} {left : Expr}
    {s : State} {K : Expr → State → Prop} {err : ParseError → State → Prop}
    (hc : Connective.of? (tokenAt ts s.pos).kind = some (c, level)) (hmin : min.rank ≤ level.rank)
    (hname : c = .assign → ∃ x sp, left = .var x sp)
    (hright : Ends (expr ts n d c.rightLevel) { s with pos := s.pos + 1 }
      (fun right s' => Ends (infixChain ts n d min (c.node left right (left.span.merge right.span)))
        s' K err True) err True) :
    Ends (infixChain ts (n + 1) d min left) s K err True := by
  obtain ⟨hk, rfl⟩ := Connective.of?_eq_some hc
  have hend : isEnd (tokenAt ts s.pos) = false := by
    rw [isEnd_eq_alike, hk]
    cases c with
    | binary op => cases op <;> rfl
    | _ => rfl
  rw [infixChain]
  simp only [bind_iff, atEnd_iff, peek_iff, hend, hc, ite_iff, Bool.false_eq_true, ↓reduceIte,
    Nat.not_lt.mpr hmin]
  rw [advance_iff hend]
  cases c with
  | assign =>
    obtain ⟨x, sp, rfl⟩ := hname rfl
    simp only [bind_iff, pure_iff]
    exact hright
  | _ =>
    simp only [bind_iff, pure_iff]
    exact hright

/-! ## Reading an expression back -/

/-- `e` is read back from tokens that write it by the productions that read expressions: the
operand its chain begins with by `operand`, and the rest of it by the infix loop. -/
structure Rereads (ts : Array Token) (e : Expr) : Prop where
  /-- The operand the chain begins with is read back, one nesting level below `d`. -/
  operand : ∀ n d s, e.canonical = true → d + e.levels ≤ maxNesting →
    Kinds ts s.pos e.base.tokens →
    Ends (Parser.operand ts n (d + 1)) s
      (fun b s' => b.unspan = e.base.unspan ∧ s' = { s with pos := s.pos + e.base.tokens.length })
      (fun _ _ => False) True
  /-- From just after that operand, with `e` written from `p` and ended by the token after it,
  the infix loop reads the rest of `e` and goes on from a tree of `e`'s shape. -/
  chain : ∀ n d min p left s (K : Expr → State → Prop), e.canonical = true →
    min.rank ≤ e.prec.rank → d + e.levels ≤ maxNesting → Kinds ts p e.tokens →
    Stops e.rightLevel (tokenAt ts (p + e.tokens.length)).kind →
    s.pos = p + e.base.tokens.length → left.unspan = e.base.unspan →
    (∀ n' left', left'.unspan = e.unspan →
      Ends (infixChain ts n' (d + 1) min left') { s with pos := p + e.tokens.length } K
        (fun _ _ => False) True) →
    Ends (infixChain ts n (d + 1) min left) s K (fun _ _ => False) True

variable {e : Expr}

/-- A tree read back by its operand and its chain is read back by `expr`, at every level it
binds at and every depth it fits below, when the token after it ends that level. -/
theorem Rereads.expr (h : Rereads ts e) {d : Nat} {min : Prec} {s : State}
    (hc : e.canonical = true) (hmin : min.rank ≤ e.prec.rank) (hlev : d + e.levels ≤ maxNesting)
    (hk : Kinds ts s.pos e.tokens) (hstop : Stops min (tokenAt ts (s.pos + e.tokens.length)).kind) :
    Ends (Parser.expr ts n d min) s
      (fun r s' => r.unspan = e.unspan ∧ s' = { s with pos := s.pos + e.tokens.length })
      (fun _ _ => False) True := by
  cases n with
  | zero => rw [Parser.expr]; exact exhausted_iff.mpr trivial
  | succ n =>
    have hpos := e.levels_pos
    rw [Parser.expr, bind_iff, enter_iff, if_neg (by omega), bind_iff]
    obtain ⟨rest, hrest⟩ := e.tokens_base
    have hkb : Kinds ts s.pos e.base.tokens := (Kinds.append_iff.mp (hrest ▸ hk)).1
    refine (h.operand n d s hc hlev hkb).mono (fun b s₁ hb => ?_) (fun _ _ h => h) id
    obtain ⟨hb, rfl⟩ := hb
    have hstop' : Stops e.rightLevel (tokenAt ts (s.pos + e.tokens.length)).kind :=
      hstop.mono (Nat.le_trans hmin e.rank_prec_le_rightLevel)
    refine h.chain n d min s.pos b _ _ hc hmin hlev hk hstop' rfl hb fun n' left' hl' => ?_
    exact (infixChain_stops hstop).mono (fun r s' hr => ⟨hr.1 ▸ hl', hr.2⟩) (fun _ _ h => h) id

theorem Rereads.of_base (hbase : e.base = e)
    (hop : ∀ n d s, e.canonical = true → d + e.levels ≤ maxNesting → Kinds ts s.pos e.tokens →
      Ends (Parser.operand ts n (d + 1)) s
        (fun b s' => b.unspan = e.unspan ∧ s' = { s with pos := s.pos + e.tokens.length })
        (fun _ _ => False) True) :
    Rereads ts e where
  operand n d s hc hlev hk := by
    rw [hbase] at hk ⊢
    exact hop n d s hc hlev hk
  chain n d min p left s K _ _ _ _ _ hs hleft hK := by
    rw [hbase] at hs hleft
    obtain ⟨pos, errors⟩ := s
    simp only at hs
    subst hs
    exact hK n left hleft

theorem operand_leaf {d : Nat} {s : State} {err : ParseError → State → Prop}
    (hlen : e.tokens.length = 1) (hk : Kinds ts s.pos e.tokens) :
    Ends (Parser.operand ts n d) s
      (fun b s' => b.unspan = e.unspan ∧ s' = { s with pos := s.pos + e.tokens.length }) err
      True := by
  cases n with
  | zero => rw [Parser.operand]; exact exhausted_iff.mpr trivial
  | succ n =>
    obtain ⟨rest, htok⟩ := e.tokens_eq_first
    have hkind : (tokenAt ts s.pos).kind = e.first := by
      rw [htok, Kinds.cons_iff] at hk
      exact hk.1
    have hend : isEnd (tokenAt ts s.pos) = false := by
      rw [isEnd_eq_alike, hkind]
      exact TokenKind.alike_eq_false_of_startsOperand e.startsOperand_first rfl
    rw [Parser.operand, bind_iff, advance_iff hend]
    cases e
    case number | string | bool | nil | var =>
      simp only [Expr.first] at hkind
      simp only [hkind]
      exact ⟨rfl, rfl⟩
    case assign => simp [Expr.tokens] at hlen
    case unary _ e _ | group e _ =>
      have := e.length_tokens_pos
      simp only [Expr.tokens, List.length_cons, List.length_append, List.length_nil] at hlen
      omega
    case binary _ l _ _ | and l _ _ | or l _ _ =>
      have := l.length_tokens_pos
      simp only [Expr.tokens, List.length_cons, List.length_append] at hlen
      omega

theorem Rereads.leaf (hbase : e.base = e) (hlen : e.tokens.length = 1) : Rereads ts e :=
  Rereads.of_base hbase fun _ _ _ _ _ hk => operand_leaf hlen hk

theorem Rereads.group (h : Rereads ts e) (sp : Span) : Rereads ts (.group e sp) :=
  Rereads.of_base rfl fun n d s hc hlev hk => by
    cases n with
    | zero => rw [Parser.operand]; exact exhausted_iff.mpr trivial
    | succ n =>
      simp only [Expr.tokens, List.cons_append, Kinds.cons_iff, Kinds.append_iff, Kinds.nil,
        and_true] at hk
      obtain ⟨hopen, hinner, hclose⟩ := hk
      simp only [Expr.canonical] at hc
      simp only [Expr.levels] at hlev
      rw [Parser.operand, bind_iff, advance_iff (by rw [isEnd_eq_alike, hopen]; rfl)]
      simp only [hopen, bind_iff]
      refine (h.expr hc (Prec.assignment_rank_le _) (by omega) hinner
        (Stops.of_none (by rw [hclose]; rfl))).mono (fun e' s₁ he' => ?_) (fun _ _ h => h) id
      obtain ⟨he', rfl⟩ := he'
      refine expect_at hclose rfl ?_
      simp only [previousSpan_iff, pure_iff]
      refine ⟨by simp only [Expr.unspan, he'], ?_⟩
      simp only [Expr.tokens, List.length_cons, List.length_append, List.length_nil,
        State.mk.injEq, and_true]
      omega

theorem Rereads.unary (h : Rereads ts e) (op : UnOp) (sp : Span) : Rereads ts (.unary op e sp) :=
  Rereads.of_base rfl fun n d s hc hlev hk => by
    cases n with
    | zero => rw [Parser.operand]; exact exhausted_iff.mpr trivial
    | succ n =>
      simp only [Expr.tokens, Kinds.cons_iff] at hk
      obtain ⟨hop, hinner⟩ := hk
      simp only [Expr.canonical, Bool.and_eq_true, decide_eq_true_eq] at hc
      simp only [Expr.levels] at hlev
      have hread := h.expr (n := n) (d := d + 1) (s := { s with pos := s.pos + 1 }) hc.2 hc.1
        (by omega)
        hinner (Stops.unary _)
      have hend : isEnd (tokenAt ts s.pos) = false := by
        rw [isEnd_eq_alike, hop]
        cases op <;> rfl
      rw [Parser.operand, bind_iff, advance_iff hend]
      cases op <;> simp only [hop, UnOp.token, bind_iff] <;>
        refine hread.mono (fun e' s₁ he' => ?_) (fun _ _ h => h) id <;>
        obtain ⟨he', rfl⟩ := he' <;>
        exact ⟨by simp only [Expr.unspan, he'],
          by simp only [Expr.tokens, List.length_cons, State.mk.injEq, and_true]; omega⟩

theorem Rereads.node (c : Connective) (hc : c ≠ .assign) {l r : Expr} (hl : Rereads ts l)
    (hr : Rereads ts r) (sp : Span) : Rereads ts (c.node l r sp) := by
  obtain ⟨hbase, htokens, hprec, hright, hcanon, hlevels⟩ := Connective.node_shape hc l r sp
  refine ⟨fun n d s hcan hlev hk => ?_, fun n d min p left s K hcan hmin hlev hk hstop hs hleft hK => ?_⟩
  · -- the chain begins with the left operand's
    rw [hbase] at hk ⊢
    rw [hcanon, Bool.and_eq_true, Bool.and_eq_true] at hcan
    rw [hlevels] at hlev
    exact hl.operand n d s hcan.1.2 (by omega) hk
  · rw [hcanon, Bool.and_eq_true, Bool.and_eq_true] at hcan
    obtain ⟨⟨hjoin, hcl⟩, hcr⟩ := hcan
    simp only [Prec.joins, Bool.and_eq_true, decide_eq_true_eq] at hjoin
    rw [hlevels] at hlev
    rw [hprec] at hmin
    rw [hbase] at hs hleft
    rw [htokens, Kinds.append_iff, Kinds.cons_iff] at hk
    obtain ⟨hkl, hkc, hkr⟩ := hk
    have hlen : p + (c.node l r sp).tokens.length = p + l.tokens.length + 1 + r.tokens.length := by
      rw [htokens, List.length_append, List.length_cons]
      omega
    rw [hlen] at hstop hK
    rw [hright] at hstop
    refine hl.chain n d min p left s K hcl (Nat.le_trans hmin hjoin.1) (by omega) hkl
      (by rw [hkc]; exact Stops.connective hc hjoin.1) hs hleft fun n' left' hl' => ?_
    cases n' with
    | zero => rw [infixChain]; exact exhausted_iff.mpr trivial
    | succ m =>
      have hrank := (Connective.level_rank c).2
      refine infixChain_turn (by rw [hkc]; exact Connective.of?_token c) hmin
        (fun h => absurd h hc) ?_
      have hrl : c.rightLevel = c.level.tighter := by cases c <;> first | rfl | exact absurd rfl hc
      rw [hrl] at hstop ⊢
      refine (hr.expr hcr (by rw [Prec.rank_tighter (by omega)]; omega) (by omega) hkr hstop).mono
        (fun right s₂ hright' => ?_) (fun _ _ h => h) id
      obtain ⟨hr', rfl⟩ := hright'
      exact hK m _ (Connective.unspan_node hc _ _ hl' hr')

theorem Rereads.assign {v : Expr} (hv : Rereads ts v) (x : String) (sp : Span) :
    Rereads ts (.assign x v sp) := by
  refine ⟨fun n d s _ _ hk => operand_leaf rfl hk,
    fun n d min p left s K hcan hmin hlev hk hstop hs hleft hK => ?_⟩
  simp only [Expr.tokens, Kinds.cons_iff] at hk
  obtain ⟨-, heq, hkv⟩ := hk
  simp only [Expr.canonical] at hcan
  simp only [Expr.levels] at hlev
  simp only [Expr.base, Expr.tokens, List.length_cons, List.length_nil] at hs hleft
  obtain ⟨sp', rfl⟩ := Expr.unspan_eq_var hleft
  have hlen : p + (Expr.assign x v sp).tokens.length = p + 1 + 1 + v.tokens.length := by
    simp only [Expr.tokens, List.length_cons]
    omega
  rw [hlen] at hstop hK
  cases n with
  | zero => rw [infixChain]; exact exhausted_iff.mpr trivial
  | succ m =>
    refine infixChain_turn (c := .assign) (by rw [hs, heq]; rfl) hmin
      (fun _ => ⟨x, sp', rfl⟩) ?_
    rw [hs]
    refine (hv.expr (s := { s with pos := p + 1 + 1 }) hcan (Prec.assignment_rank_le _)
      (by omega) hkv hstop).mono
      (fun value s₂ hvalue => ?_) (fun _ _ h => h) id
    obtain ⟨hv', rfl⟩ := hvalue
    exact hK m _ (by simp only [Connective.node, Expr.unspan, hv'])

/-- Every tree is read back from tokens that write it, wherever it stands. -/
theorem rereads : ∀ e : Expr, Rereads ts e
  | .number .. | .string .. | .bool .. | .nil _ | .var .. => Rereads.leaf rfl rfl
  | .assign x v sp => (rereads v).assign x sp
  | .binary op l r sp => Rereads.node (.binary op) nofun (rereads l) (rereads r) sp
  | .and l r sp => Rereads.node .and nofun (rereads l) (rereads r) sp
  | .or l r sp => Rereads.node .or nofun (rereads l) (rereads r) sp
  | .unary op e sp => (rereads e).unary op sp
  | .group e sp => (rereads e).group sp

/-! ## Reading a statement back -/

theorem noElse_of_kind {q : Nat} (h : (tokenAt ts q).kind.alike .kwElse = false) : NoElse ts q := by
  simp [NoElse, h]

/-- `st` is read back by the production `read` (`statement` or `declaration`) from tokens that
write it, at every depth it fits below, when the token after it is no `else` in case it ends
with an `if` that has none. -/
def ReadsBack (ts : Array Token) (read : Nat → Nat → M Stmt) (st : Stmt) : Prop :=
  ∀ n d s, d + st.levels ≤ maxNesting → Kinds ts s.pos st.tokens →
    (st.endsOpen = true → NoElse ts (s.pos + st.tokens.length)) →
    Ends (read n d) s
      (fun r s' => r.unspan = st.unspan ∧ s' = { s with pos := s.pos + st.tokens.length })
      (fun _ _ => False) True

theorem readsBack_expression (e : Expr) (sp : Span) (hc : e.canonical = true) :
    ReadsBack ts (statement ts) (.expression e sp) := by
  intro n d s hlev hk _
  cases n with
  | zero => rw [statement]; exact exhausted_iff.mpr trivial
  | succ n =>
    simp only [Stmt.tokens, Kinds.append_iff, Kinds.cons_iff, Kinds.nil, and_true] at hk
    obtain ⟨hke, hsemi⟩ := hk
    have hword : (tokenAt ts s.pos).kind = e.first := by
      obtain ⟨rest, htok⟩ := e.tokens_eq_first
      exact (Kinds.cons_iff.mp (htok ▸ hke)).1
    have hnot : ∀ w : TokenKind, w.startsOperand = false → e.first.alike w = false :=
      fun _ hw => TokenKind.alike_eq_false_of_startsOperand e.startsOperand_first hw
    simp only [Stmt.levels] at hlev
    rw [statement, bind_iff, enter_iff, if_neg (by omega)]
    simp only [bind_iff, currentSpan_iff, check_iff, ite_iff, isEnd_eq_alike, hword,
      hnot .eof rfl, hnot .kwPrint rfl, hnot .kwIf rfl, hnot .kwWhile rfl, hnot .kwFor rfl,
      hnot .leftBrace rfl, Bool.not_false, Bool.true_and, Bool.false_eq_true, ↓reduceIte]
    refine ((rereads e).expr (d := d + 1) hc (Prec.assignment_rank_le _) (by omega) hke
      (Stops.of_none (by rw [hsemi]; rfl))).mono (fun e' s₁ he' => ?_) (fun _ _ h => h) id
    obtain ⟨he', rfl⟩ := he'
    refine expect_at hsemi rfl ?_
    refine ⟨by simp only [Stmt.unspan, he'], ?_⟩
    simp only [Stmt.tokens, List.length_append, List.length_cons, List.length_nil,
      State.mk.injEq, and_true]
    omega

theorem readsBack_print (e : Expr) (sp : Span) (hc : e.canonical = true) :
    ReadsBack ts (statement ts) (.print e sp) := by
  intro n d s hlev hk _
  cases n with
  | zero => rw [statement]; exact exhausted_iff.mpr trivial
  | succ n =>
    simp only [Stmt.tokens, List.cons_append, Kinds.cons_iff, Kinds.append_iff, Kinds.nil,
      and_true] at hk
    obtain ⟨hword, hke, hsemi⟩ := hk
    simp only [Stmt.levels] at hlev
    rw [statement, bind_iff, enter_iff, if_neg (by omega)]
    simp +decide only [bind_iff, currentSpan_iff, check_iff, ite_iff, isEnd_eq_alike, hword,
      ↓reduceIte]
    rw [advance_iff (isEnd_of_kind hword rfl)]
    refine ((rereads e).expr (d := d + 1) hc (Prec.assignment_rank_le _) (by omega) hke
      (Stops.of_none (by rw [hsemi]; rfl))).mono (fun e' s₁ he' => ?_) (fun _ _ h => h) id
    obtain ⟨he', rfl⟩ := he'
    refine expect_at hsemi rfl ?_
    refine ⟨by simp only [Stmt.unspan, he'], ?_⟩
    simp only [Stmt.tokens, List.length_cons, List.length_append, List.length_nil,
      State.mk.injEq, and_true]
    omega

theorem else_readsBack {d : Nat} {s : State} {no : Option Stmt} {K : Option Stmt → State → Prop}
    (hno : ∀ st, no = some st → ReadsBack ts (statement ts) st)
    (hlev : d + Stmt.elseLevels no ≤ maxNesting) (hk : Kinds ts s.pos (Stmt.elseTokens no))
    (hnone : no = none → NoElse ts s.pos)
    (hopen : ∀ st, no = some st → st.endsOpen = true →
      NoElse ts (s.pos + (Stmt.elseTokens no).length))
    (hK : ∀ no', Stmt.unspanElse no' = Stmt.unspanElse no →
      K no' { s with pos := s.pos + (Stmt.elseTokens no).length }) :
    Ends (accept ts .kwElse) s
      (fun b s₁ => if b = true then Ends (some <$> statement ts n d) s₁ K (fun _ _ => False) True
        else Ends (pure none) s₁ K (fun _ _ => False) True)
      (fun _ _ => False) True := by
  cases no with
  | none =>
    refine accept_not (hnone rfl) ?_
    simp only [Bool.false_eq_true, ↓reduceIte, pure_iff]
    exact hK none rfl
  | some st =>
    simp only [Stmt.elseTokens, Kinds.cons_iff] at hk
    obtain ⟨helse, hkst⟩ := hk
    have hlen : s.pos + (Stmt.elseTokens (some st)).length = s.pos + 1 + st.tokens.length := by
      simp only [Stmt.elseTokens, List.length_cons]
      omega
    rw [hlen] at hopen hK
    refine accept_at helse rfl ?_
    simp only [↓reduceIte, map_iff]
    refine (hno st rfl n d _ hlev ?_ ?_).mono (fun r s' hr => ?_) (fun _ _ h => h) id
    · exact hkst
    · exact hopen st rfl
    obtain ⟨hr, rfl⟩ := hr
    exact hK (some r) (by simp only [Stmt.unspanElse, hr])

theorem readsBack_ifElse {c : Expr} {yes : Stmt} {no : Option Stmt} (sp : Span)
    (hc : c.canonical = true) (hshut : (no.isNone || !yes.endsOpen) = true)
    (hyes : ReadsBack ts (statement ts) yes) (hno : ∀ st, no = some st → ReadsBack ts (statement ts) st) :
    ReadsBack ts (statement ts) (.ifElse c yes no sp) := by
  intro n d s hlev hk hclosed
  cases n with
  | zero => rw [statement]; exact exhausted_iff.mpr trivial
  | succ n =>
    simp only [Stmt.tokens, List.cons_append, List.append_assoc, Kinds.cons_iff,
      Kinds.append_iff] at hk
    obtain ⟨hword, hparen, hkc, hclose, hkyes, hkno⟩ := hk
    simp only [Stmt.levels] at hlev
    have hlen : s.pos + (Stmt.ifElse c yes no sp).tokens.length =
        s.pos + 1 + 1 + c.tokens.length + 1 + yes.tokens.length + (Stmt.elseTokens no).length := by
      simp only [Stmt.tokens, List.length_cons, List.length_append]
      omega
    rw [hlen] at hclosed
    -- an `else` right after the first branch belongs to this `if`, so the first branch is
    -- followed by no `else` it could take when it ends open
    have hyesOpen : yes.endsOpen = true →
        NoElse ts (s.pos + 1 + 1 + c.tokens.length + 1 + yes.tokens.length) := by
      intro hy
      cases no with
      | none => exact hclosed rfl
      | some => simp [hy] at hshut
    rw [statement, bind_iff, enter_iff, if_neg (by omega)]
    simp +decide only [bind_iff, currentSpan_iff, check_iff, ite_iff, isEnd_eq_alike, hword,
      ↓reduceIte]
    rw [advance_iff (isEnd_of_kind hword rfl)]
    refine expect_at hparen rfl ?_
    refine ((rereads c).expr (d := d + 1) hc (Prec.assignment_rank_le _) (by omega) hkc
      (Stops.of_none (by rw [hclose]; rfl))).mono (fun c' s₁ hc' => ?_) (fun _ _ h => h) id
    obtain ⟨hc', rfl⟩ := hc'
    refine expect_at hclose rfl ?_
    refine (hyes n (d + 1) _ (by omega) ?_ ?_).mono (fun yes' s₂ hyes' => ?_)
      (fun _ _ h => h) id
    · exact hkyes
    · exact hyesOpen
    obtain ⟨hyes', rfl⟩ := hyes'
    refine else_readsBack (d := d + 1) hno (by omega) ?_ (fun h => ?_) (fun st h hst => ?_)
      fun no' hno' => ?_
    · exact hkno
    · subst h
      exact hclosed rfl
    · subst h
      exact hclosed (by simpa [Stmt.endsOpen] using hst)
    · simp only [previousSpan_iff, pure_iff]
      exact ⟨by simp only [Stmt.unspan, hc', hyes', hno'], by rw [hlen]⟩

theorem readsBack_whileLoop {c : Expr} {body : Stmt} (sp : Span) (hc : c.canonical = true)
    (hbody : ReadsBack ts (statement ts) body) :
    ReadsBack ts (statement ts) (.whileLoop c body sp) := by
  intro n d s hlev hk hclosed
  cases n with
  | zero => rw [statement]; exact exhausted_iff.mpr trivial
  | succ n =>
    simp only [Stmt.tokens, List.cons_append, Kinds.cons_iff, Kinds.append_iff] at hk
    obtain ⟨hword, hparen, hkc, hclose, hkbody⟩ := hk
    simp only [Stmt.levels] at hlev
    have hlen : s.pos + (Stmt.whileLoop c body sp).tokens.length =
        s.pos + 1 + 1 + c.tokens.length + 1 + body.tokens.length := by
      simp only [Stmt.tokens, List.length_cons, List.length_append]
      omega
    rw [hlen] at hclosed
    rw [statement, bind_iff, enter_iff, if_neg (by omega)]
    simp +decide only [bind_iff, currentSpan_iff, check_iff, ite_iff, isEnd_eq_alike, hword,
      ↓reduceIte]
    rw [advance_iff (isEnd_of_kind hword rfl)]
    refine expect_at hparen rfl ?_
    refine ((rereads c).expr (d := d + 1) hc (Prec.assignment_rank_le _) (by omega) hkc
      (Stops.of_none (by rw [hclose]; rfl))).mono (fun c' s₁ hc' => ?_) (fun _ _ h => h) id
    obtain ⟨hc', rfl⟩ := hc'
    refine expect_at hclose rfl ?_
    refine (hbody n (d + 1) _ (by omega) ?_ ?_).mono (fun body' s₂ hbody' => ?_)
      (fun _ _ h => h) id
    · exact hkbody
    · exact fun h => hclosed h
    obtain ⟨hbody', rfl⟩ := hbody'
    simp only [previousSpan_iff, pure_iff]
    exact ⟨by simp only [Stmt.unspan, hc', hbody'], by rw [hlen]⟩

theorem readsBack_forLoop (x : String) {limit : Expr} {body : Stmt} (sp : Span)
    (hc : limit.canonical = true) (hminus : body.first.alike .minus = false)
    (hbody : ReadsBack ts (statement ts) body) :
    ReadsBack ts (statement ts) (.forLoop x limit body sp) := by
  intro n d s hlev hk hclosed
  cases n with
  | zero => rw [statement]; exact exhausted_iff.mpr trivial
  | succ n =>
    simp only [Stmt.tokens, List.cons_append, Kinds.cons_iff, Kinds.append_iff] at hk
    obtain ⟨hword, hname, hin, hklimit, hkbody⟩ := hk
    have hfirst : (tokenAt ts (s.pos + 1 + 1 + 1 + limit.tokens.length)).kind = body.first := by
      obtain ⟨rest, htok⟩ := body.tokens_eq_first
      exact (Kinds.cons_iff.mp (htok ▸ hkbody)).1
    simp only [Stmt.levels] at hlev
    have hlen : s.pos + (Stmt.forLoop x limit body sp).tokens.length =
        s.pos + 1 + 1 + 1 + limit.tokens.length + body.tokens.length := by
      simp only [Stmt.tokens, List.length_cons, List.length_append]
      omega
    rw [hlen] at hclosed
    rw [statement, bind_iff, enter_iff, if_neg (by omega)]
    simp +decide only [bind_iff, currentSpan_iff, check_iff, ite_iff, isEnd_eq_alike, hword,
      ↓reduceIte]
    rw [advance_iff (isEnd_of_kind hword rfl)]
    refine expectIdentifier_at hname ?_
    refine expect_at hin rfl ?_
    refine ((rereads limit).expr (d := d + 1) hc (Prec.assignment_rank_le _) (by omega) hklimit
      (Stops.of_none (by rw [hfirst]; exact Stmt.of?_first hminus))).mono
      (fun limit' s₁ hlimit' => ?_) (fun _ _ h => h) id
    obtain ⟨hlimit', rfl⟩ := hlimit'
    refine (hbody n (d + 1) _ (by omega) ?_ ?_).mono (fun body' s₂ hbody' => ?_)
      (fun _ _ h => h) id
    · exact hkbody
    · exact fun h => hclosed h
    obtain ⟨hbody', rfl⟩ := hbody'
    simp only [previousSpan_iff, pure_iff]
    exact ⟨by simp only [Stmt.unspan, hlimit', hbody'], by rw [hlen]⟩

/-! ## Reading items back -/

theorem typeTag_at {s : State} {err : ParseError → State → Prop} {cut : Prop}
    {ty : Option TypeTag} {x : String} {ok : Option TypeTag → State → Prop}
    (hk : Kinds ts s.pos (TypeTag.tokens ty))
    (hnext : (tokenAt ts (s.pos + (TypeTag.tokens ty).length)).kind = .identifier x)
    (h : ∀ ty', ty'.map (fun t => { t with span := default }) =
        ty.map (fun t => { t with span := default }) →
      ok ty' { s with pos := s.pos + (TypeTag.tokens ty).length }) :
    Ends (typeTag ts) s ok err cut := by
  unfold typeTag
  rw [bind_iff, peek_iff]
  cases ty with
  | none =>
    simp only [TypeTag.tokens, List.length_nil, Nat.add_zero] at hnext
    simp only [hnext]
    exact h none rfl
  | some t =>
    simp only [TypeTag.tokens, Kinds.cons_iff, Kinds.nil, and_true] at hk
    have hend : isEnd (tokenAt ts s.pos) = false := by
      rw [isEnd_eq_alike, hk]
      cases t.name <;> rfl
    obtain ⟨name, sp⟩ := t
    cases name <;> simp only [hk, TypeName.token, bind_iff] <;> rw [advance_iff hend] <;>
      exact h _ rfl

theorem init_readsBack {d : Nat} {s : State} {init : Option Expr} {K : Option Expr → State → Prop}
    (hc : init.all Expr.canonical = true) (hlev : d + Expr.initLevels init ≤ maxNesting)
    (hk : Kinds ts s.pos (Expr.initTokens init))
    (hsemi : (tokenAt ts (s.pos + (Expr.initTokens init).length)).kind = .semicolon)
    (hK : ∀ init', init'.map Expr.unspan = init.map Expr.unspan →
      K init' { s with pos := s.pos + (Expr.initTokens init).length }) :
    Ends (accept ts .equal) s
      (fun b s₁ => if b = true then Ends (some <$> expr ts n d .assignment) s₁ K (fun _ _ => False) True
        else Ends (pure none) s₁ K (fun _ _ => False) True)
      (fun _ _ => False) True := by
  cases init with
  | none =>
    simp only [Expr.initTokens, List.length_nil, Nat.add_zero] at hsemi
    refine accept_not (by rw [isEnd_eq_alike, hsemi]; rfl) ?_
    simp only [Bool.false_eq_true, ↓reduceIte, pure_iff]
    exact hK none rfl
  | some e =>
    simp only [Expr.initTokens, Kinds.cons_iff] at hk
    obtain ⟨hequal, hke⟩ := hk
    have hpos : s.pos + (Expr.initTokens (some e)).length = s.pos + 1 + e.tokens.length := by
      simp only [Expr.initTokens, List.length_cons]
      omega
    rw [hpos] at hsemi hK
    simp only [Option.all_some] at hc
    simp only [Expr.initLevels] at hlev
    refine accept_at hequal rfl ?_
    simp only [↓reduceIte, map_iff]
    refine ((rereads e).expr (d := d) hc (Prec.assignment_rank_le _) hlev ?_ ?_).mono
      (fun e' s' he' => ?_) (fun _ _ h => h) id
    · exact hke
    · exact Stops.of_none (by rw [hsemi]; rfl)
    obtain ⟨he', rfl⟩ := he'
    exact hK (some e') (by simp only [Option.map_some, he'])

theorem readsBack_declare (x : String) (ty : Option TypeTag) (init : Option Expr) (sp : Span)
    (hc : init.all Expr.canonical = true) :
    ReadsBack ts (declaration ts) (.declare x ty init sp) := by
  intro n d s hlev hk _
  cases n with
  | zero => rw [declaration]; exact exhausted_iff.mpr trivial
  | succ n =>
    simp only [Stmt.tokens, List.cons_append, List.append_assoc, Kinds.cons_iff,
      Kinds.append_iff, Kinds.nil, and_true] at hk
    obtain ⟨hvar, hkty, hname, hkinit, hsemi⟩ := hk
    simp only [Stmt.levels] at hlev
    rw [declaration]
    simp +decide only [bind_iff, check_iff, currentSpan_iff, ite_iff, isEnd_eq_alike, hvar,
      ↓reduceIte]
    refine expect_at hvar rfl ?_
    refine typeTag_at hkty hname fun ty' hty => ?_
    refine expectIdentifier_at hname ?_
    refine init_readsBack (d := d) hc hlev hkinit hsemi fun init' hinit => ?_
    refine expect_at hsemi rfl ?_
    simp only [previousSpan_iff, pure_iff]
    refine ⟨by simp only [Stmt.unspan, hty, hinit], ?_⟩
    simp only [Stmt.tokens, List.length_cons, List.length_append, List.length_nil,
      State.mk.injEq, and_true]
    omega

theorem ReadsBack.item {st : Stmt} (h : ReadsBack ts (statement ts) st)
    (hp : st.placed false = true) : ReadsBack ts (declaration ts) st := by
  intro n d s hlev hk hopen
  cases n with
  | zero => rw [declaration]; exact exhausted_iff.mpr trivial
  | succ n =>
    have hword : (tokenAt ts s.pos).kind = st.first := by
      obtain ⟨rest, htok⟩ := st.tokens_eq_first
      exact (Kinds.cons_iff.mp (htok ▸ hk)).1
    rw [declaration]
    simp only [bind_iff, check_iff, ite_iff, isEnd_eq_alike, hword, st.first_alike_eof,
      Stmt.first_alike_var hp, Bool.not_false, Bool.true_and, Bool.false_eq_true, ↓reduceIte]
    exact h n d s hlev hk hopen

theorem readsBack_item {st : Stmt} (hc : st.canonical = true) (hp : st.placed true = true)
    (hstmt : st.placed false = true → ReadsBack ts (statement ts) st) :
    ReadsBack ts (declaration ts) st := by
  cases st with
  | declare x ty init sp => exact readsBack_declare x ty init sp (by simpa [Stmt.canonical] using hc)
  | _ =>
    have hp' := Stmt.placed_of_item hp (fun _ _ _ _ h => by cases h)
    exact (hstmt hp').item hp'

theorem recovering_readsBack {d : Nat} {s : State} {st : Stmt} {K : Option Stmt → State → Prop}
    (h : ReadsBack ts (declaration ts) st) (hlev : d + st.levels ≤ maxNesting)
    (hk : Kinds ts s.pos st.tokens) (hnext : NoElse ts (s.pos + st.tokens.length))
    (hK : ∀ st', st'.unspan = st.unspan → K (some st') { s with pos := s.pos + st.tokens.length }) :
    Ends (recovering ts n d) s K (fun _ _ => False) True := by
  cases n with
  | zero => rw [recovering]; exact exhausted_iff.mpr trivial
  | succ n =>
    rw [recovering, bind_iff, get_iff]
    dsimp only
    rw [tryCatch_iff (by rfl), map_iff]
    refine (h n d s hlev hk fun _ => hnext).mono (fun st' s' hst => ?_) (fun _ _ h => h.elim) id
    obtain ⟨hst, rfl⟩ := hst
    exact hK st' hst

theorem noElse_next {q : Nat} {rest : List Stmt} (hk : Kinds ts q (Stmt.tokensAll rest))
    (hlast : rest = [] → NoElse ts q) : NoElse ts q := by
  cases rest with
  | nil => exact hlast rfl
  | cons st rest =>
    obtain ⟨more, htok⟩ := st.tokens_eq_first
    simp only [Stmt.tokensAll, htok, List.cons_append, Kinds.cons_iff] at hk
    exact noElse_of_kind (by rw [hk.1]; exact st.first_alike_eq_false rfl (by decide))

theorem unspanAll_push {acc acc' : Array Stmt} {st st' : Stmt} {rest : List Stmt}
    (hst : st'.unspan = st.unspan)
    (hacc : Stmt.unspanAll acc'.toList = Stmt.unspanAll (acc.push st').toList ++ Stmt.unspanAll rest) :
    Stmt.unspanAll acc'.toList = Stmt.unspanAll acc.toList ++ Stmt.unspanAll (st :: rest) := by
  simp only [hacc, Array.toList_push, Stmt.unspanAll_append, Stmt.unspanAll, hst,
    List.append_assoc, List.singleton_append]

theorem blockItems_readsBack : ∀ {items : List Stmt},
    (∀ st ∈ items, ReadsBack ts (declaration ts) st) →
    ∀ n d acc s, d + Stmt.levelsAll items ≤ maxNesting → Kinds ts s.pos (Stmt.tokensAll items) →
    (tokenAt ts (s.pos + (Stmt.tokensAll items).length)).kind = .rightBrace →
    Ends (blockItems ts n d acc) s
      (fun acc' s' => Stmt.unspanAll acc'.toList = Stmt.unspanAll acc.toList ++ Stmt.unspanAll items ∧
        s' = { s with pos := s.pos + (Stmt.tokensAll items).length })
      (fun _ _ => False) True
  | [], _, n, d, acc, s, _, _, hclose => by
    cases n with
    | zero => rw [blockItems]; exact exhausted_iff.mpr trivial
    | succ n =>
      simp only [Stmt.tokensAll, List.length_nil, Nat.add_zero] at hclose
      rw [blockItems]
      simp +decide only [bind_iff, check_iff, atEnd_iff, isEnd_eq_alike, hclose, ↓reduceIte,
        pure_iff]
      simp [Stmt.unspanAll, Stmt.tokensAll]
  | st :: rest, hitems, n, d, acc, s, hlev, hk, hclose => by
    cases n with
    | zero => rw [blockItems]; exact exhausted_iff.mpr trivial
    | succ n =>
      simp only [List.forall_mem_cons] at hitems
      simp only [Stmt.levelsAll] at hlev
      simp only [Stmt.tokensAll, Kinds.append_iff, List.length_append] at hk hclose
      obtain ⟨hkst, hkrest⟩ := hk
      have hword : (tokenAt ts s.pos).kind = st.first := by
        obtain ⟨more, htok⟩ := st.tokens_eq_first
        exact (Kinds.cons_iff.mp (htok ▸ hkst)).1
      have hbrace : st.first.alike .rightBrace = false := st.first_alike_eq_false rfl (by decide)
      rw [blockItems]
      simp only [bind_iff, check_iff, atEnd_iff, isEnd_eq_alike, hword, st.first_alike_eof,
        hbrace, Bool.not_false, Bool.true_and, Bool.false_or, Bool.false_eq_true, ↓reduceIte]
      refine recovering_readsBack hitems.1 (by omega) hkst
        (noElse_next hkrest fun h => noElse_of_kind ?_) fun st' hst => ?_
      · subst h
        simp only [Stmt.tokensAll, List.length_nil, Nat.add_zero] at hclose
        rw [hclose]
        rfl
      refine (blockItems_readsBack hitems.2 n d _ _ (by omega) hkrest
        (by rw [← Nat.add_assoc] at hclose; exact hclose)).mono (fun acc' s' h => ?_)
        (fun _ _ h => h) id
      obtain ⟨hacc, rfl⟩ := h
      exact ⟨unspanAll_push hst hacc,
        by simp only [State.mk.injEq, and_true, Stmt.tokensAll, List.length_append]; omega⟩

theorem topItems_readsBack : ∀ {items : List Stmt},
    (∀ st ∈ items, ReadsBack ts (declaration ts) st) →
    ∀ n acc s, Stmt.levelsAll items ≤ maxNesting → Kinds ts s.pos (Stmt.tokensAll items) →
    isEnd (tokenAt ts (s.pos + (Stmt.tokensAll items).length)) = true →
    Ends (topItems ts n acc) s
      (fun acc' s' => Stmt.unspanAll acc'.toList = Stmt.unspanAll acc.toList ++ Stmt.unspanAll items ∧
        s' = { s with pos := s.pos + (Stmt.tokensAll items).length })
      (fun _ _ => False) True
  | [], _, n, acc, s, _, _, hend => by
    cases n with
    | zero => rw [topItems]; exact exhausted_iff.mpr trivial
    | succ n =>
      simp only [Stmt.tokensAll, List.length_nil, Nat.add_zero] at hend
      rw [topItems]
      simp only [bind_iff, atEnd_iff, hend, ↓reduceIte, pure_iff]
      simp [Stmt.unspanAll, Stmt.tokensAll]
  | st :: rest, hitems, n, acc, s, hlev, hk, hend => by
    cases n with
    | zero => rw [topItems]; exact exhausted_iff.mpr trivial
    | succ n =>
      simp only [List.forall_mem_cons] at hitems
      simp only [Stmt.levelsAll] at hlev
      simp only [Stmt.tokensAll, Kinds.append_iff, List.length_append] at hk hend
      obtain ⟨hkst, hkrest⟩ := hk
      have hword : (tokenAt ts s.pos).kind = st.first := by
        obtain ⟨more, htok⟩ := st.tokens_eq_first
        exact (Kinds.cons_iff.mp (htok ▸ hkst)).1
      rw [topItems]
      simp only [bind_iff, atEnd_iff, isEnd_eq_alike, hword, st.first_alike_eof,
        Bool.false_eq_true, ↓reduceIte]
      refine recovering_readsBack hitems.1 (by omega) hkst
        (noElse_next hkrest fun h => ?_) fun st' hst => ?_
      · -- the end of input is no `else`
        subst h
        simp only [Stmt.tokensAll, List.length_nil, Nat.add_zero] at hend
        simp [NoElse, hend]
      refine (topItems_readsBack hitems.2 n _ _ (by omega) hkrest
        (by rw [← Nat.add_assoc] at hend; exact hend)).mono (fun acc' s' h => ?_)
        (fun _ _ h => h) id
      obtain ⟨hacc, rfl⟩ := h
      exact ⟨unspanAll_push hst hacc,
        by simp only [State.mk.injEq, and_true, Stmt.tokensAll, List.length_append]; omega⟩

theorem readsBack_block {body : List Stmt} (sp : Span)
    (hitems : ∀ st ∈ body, ReadsBack ts (declaration ts) st) :
    ReadsBack ts (statement ts) (.block body sp) := by
  intro n d s hlev hk _
  cases n with
  | zero => rw [statement]; exact exhausted_iff.mpr trivial
  | succ n =>
    simp only [Stmt.tokens, List.cons_append, Kinds.cons_iff, Kinds.append_iff, Kinds.nil,
      and_true] at hk
    obtain ⟨hword, hkbody, hclose⟩ := hk
    simp only [Stmt.levels] at hlev
    rw [statement, bind_iff, enter_iff, if_neg (by omega)]
    simp +decide only [bind_iff, currentSpan_iff, check_iff, ite_iff, isEnd_eq_alike, hword,
      ↓reduceIte]
    rw [advance_iff (isEnd_of_kind hword rfl)]
    refine (blockItems_readsBack hitems n (d + 1) #[] _ (by omega) ?_ ?_).mono
      (fun acc s₁ h => ?_) (fun _ _ h => h) id
    · exact hkbody
    · exact hclose
    obtain ⟨hacc, rfl⟩ := h
    refine expect_at hclose rfl ?_
    simp only [previousSpan_iff, pure_iff]
    refine ⟨by simpa [Stmt.unspan, Stmt.unspanAll] using hacc, ?_⟩
    simp only [Stmt.tokens, List.length_cons, List.length_append, List.length_nil,
      State.mk.injEq, and_true]
    omega

/-! ## Every canonical tree is read back -/

mutual

/-- Every canonical statement placed anywhere is read back by `statement`. -/
theorem Stmt.readsBack : ∀ st : Stmt, st.canonical = true → st.placed false = true →
    ReadsBack ts (statement ts) st
  | .expression e sp, hc, _ => readsBack_expression e sp hc
  | .print e sp, hc, _ => readsBack_print e sp hc
  | .declare .., _, hp => absurd hp (by simp [Stmt.placed])
  | .block body sp, hc, hp => readsBack_block sp (Stmt.readsBackAll body hc hp)
  | .ifElse c yes no sp, hc, hp => by
    simp only [Stmt.canonical, Stmt.placed, Bool.and_eq_true] at hc hp
    exact readsBack_ifElse sp hc.1.1.1 hc.1.2 (Stmt.readsBack yes hc.1.1.2 hp.1)
      (Stmt.readsBackElse no hc.2 hp.2)
  | .whileLoop c body sp, hc, hp => by
    simp only [Stmt.canonical, Stmt.placed, Bool.and_eq_true] at hc hp
    exact readsBack_whileLoop sp hc.1 (Stmt.readsBack body hc.2 hp)
  | .forLoop x limit body sp, hc, hp => by
    simp only [Stmt.canonical, Stmt.placed, Bool.and_eq_true, Bool.not_eq_eq_eq_not,
      Bool.not_true] at hc hp
    exact readsBack_forLoop x sp hc.1.1 hc.1.2 (Stmt.readsBack body hc.2 hp)

theorem Stmt.readsBackElse : ∀ no : Option Stmt, Stmt.elseCanonical no = true →
    Stmt.elsePlaced no = true → ∀ st, no = some st → ReadsBack ts (statement ts) st
  | some st, hc, hp => fun _ h => by
    cases h
    exact Stmt.readsBack st hc hp
  | none, _, _ => fun _ h => by cases h

theorem Stmt.readsBackAll : ∀ items : List Stmt, Stmt.canonicalAll items = true →
    Stmt.allPlaced items = true → ∀ st ∈ items, ReadsBack ts (declaration ts) st
  | [], _, _ => fun _ h => absurd h List.not_mem_nil
  | st :: rest, hc, hp => by
    simp only [Stmt.canonicalAll, Stmt.allPlaced, Bool.and_eq_true] at hc hp
    exact List.forall_mem_cons.mpr ⟨readsBack_item hc.1 hp.1 (Stmt.readsBack st hc.1),
      Stmt.readsBackAll rest hc.2 hp.2⟩

end

/-- A canonical program placed and within the nesting limit, written by the tokens before the
first end token, is read back by `run` whenever the fuel lasts. -/
theorem run_readsBack {q : Program} {fuel : Nat} (hc : q.canonical = true)
    (hp : Stmt.allPlaced q.body = true) (hlev : q.levels ≤ maxNesting) (hk : Kinds ts 0 q.tokens)
    (hend : isEnd (tokenAt ts q.tokens.length) = true) (hfuel : (run fuel ts).isSome = true) :
    ∃ p, run fuel ts = some (.ok p) ∧ p.unspan = q.unspan := by
  have hends := topItems_readsBack (Stmt.readsBackAll q.body hc hp) fuel #[] ⟨0, #[]⟩ hlev hk
    (by simpa [Program.tokens] using hend)
  unfold run at hfuel ⊢
  unfold Ends at hends
  revert hfuel hends
  rcases (topItems ts fuel #[]).run.run ⟨0, #[]⟩ with ⟨(e | _) | body, s'⟩
  · exact fun _ h => h.elim
  · simp
  · rintro - ⟨hbody, rfl⟩
    refine ⟨⟨body.toList⟩, by simp, ?_⟩
    simpa [Program.unspan, Stmt.unspanAll] using hbody

/-- The kinds of the tokens before the first end token are those the reader meets from the
start of the terminated list, and the end of input comes right after them. -/
theorem kinds_terminate {tokens : List Token} {l : List TokenKind}
    (h : (tokens.takeWhile fun t => !isEnd t).map Token.kind = l) :
    Kinds (terminate tokens) 0 l ∧ isEnd (tokenAt (terminate tokens) l.length) = true := by
  rw [takeWhile_not_isEnd] at h
  have hle : tokens.findIdx isEnd ≤ tokens.length := List.findIdx_le_length
  have hlen : l.length = tokens.findIdx isEnd := by
    rw [← h]
    simp [hle]
  refine ⟨fun i hi => ?_, ?_⟩
  · rw [Nat.zero_add, tokenAt_terminate (by omega)]
    subst h
    simp
  · rw [hlen, ← endIdx_terminate]
    exact isEnd_endIdx

end Parser

/-- Reading inverts writing.  A program read without error is canonical, within the nesting
limit, and written by the kinds of the tokens before the first end token; and every canonical
program within the nesting limit whose declarations stand as items of a block or of the
program is read back, up to spans, from every token list whose kinds before the first end
token write it. -/
theorem Program.ofTokens_inverts_writing :
    (∀ (tokens : List Token) (p : Program), Program.ofTokens tokens = .ok p →
      p.canonical = true ∧ p.levels ≤ maxNesting ∧
        (tokens.takeWhile fun t => !Parser.isEnd t).map Token.kind = p.tokens) ∧
    (∀ (q : Program) (tokens : List Token), q.canonical = true →
      Stmt.allPlaced q.body = true → q.levels ≤ maxNesting →
      (tokens.takeWhile fun t => !Parser.isEnd t).map Token.kind = q.tokens →
      ∃ p, Program.ofTokens tokens = .ok p ∧ p.unspan = q.unspan) := by
  refine ⟨fun _ _ h => Program.ofTokens_written h, fun q tokens hc hp hlev hw => ?_⟩
  obtain ⟨hk, hend⟩ := Parser.kinds_terminate hw
  obtain ⟨r, hr, rfl⟩ := Program.ofTokens_terminates tokens
  have hsome : (Parser.run (Parser.fuelFor (Parser.terminate tokens).size)
      (Parser.terminate tokens)).isSome = true := by simp [hr]
  obtain ⟨p, hrun, hq⟩ := Parser.run_readsBack hc hp hlev hk hend hsome
  rw [hr, Option.some.injEq] at hrun
  exact ⟨p, hrun, hq⟩

/-- An `if` whose branch is a declaration: `if (true) var x;`. -/
def varBranch : List Token :=
  [⟨.kwIf, ⟨0, 2, 1, 1⟩⟩, ⟨.leftParen, ⟨3, 4, 1, 4⟩⟩, ⟨.bool true, ⟨4, 8, 1, 5⟩⟩,
    ⟨.rightParen, ⟨8, 9, 1, 9⟩⟩, ⟨.kwVar, ⟨10, 13, 1, 11⟩⟩, ⟨.identifier "x", ⟨14, 15, 1, 15⟩⟩,
    ⟨.semicolon, ⟨15, 16, 1, 16⟩⟩]

/-- A declaration is read only as an item of a block or of a program: the canonical program
`if (true) var x;`, well within the nesting limit, is written by tokens that are refused. -/
theorem var_branch_not_read_back :
    let q : Program := ⟨[.ifElse (.bool true default) (.declare "x" none none default) none default]⟩
    q.canonical = true ∧ q.levels ≤ maxNesting ∧
      (varBranch.takeWhile fun t => !Parser.isEnd t).map Token.kind = q.tokens ∧
      (Program.ofTokens varBranch).toBool = false :=
  ⟨rfl, by decide, by simp [varBranch, Program.tokens, Stmt.tokensAll, Stmt.tokens,
    Stmt.elseTokens, Expr.tokens, Expr.initTokens, TypeTag.tokens, Parser.isEnd],
    by decide +kernel⟩

/-- `loopsAndBranches`, canonical and placed, is read back from its tokens, and what is read is
canonical again and written by them. -/
theorem loopsAndBranches_read_back :
    ∃ p, Program.ofTokens loopsAndBranchesTokens = .ok p ∧ p.unspan = loopsAndBranches.unspan ∧
      p.canonical = true ∧ p.levels ≤ maxNesting ∧
      (loopsAndBranchesTokens.takeWhile fun t => !Parser.isEnd t).map Token.kind = p.tokens := by
  obtain ⟨p, hp, hu⟩ := Program.ofTokens_inverts_writing.2 loopsAndBranches loopsAndBranchesTokens
    rfl rfl (by decide) rfl
  exact ⟨p, hp, hu, Program.ofTokens_inverts_writing.1 _ _ hp⟩

end StackScript
