import StackScript.Proofs.Reading

/-!
# The height of parsed trees

The reader counts one nesting level for each statement and each expression it enters, and fails
past `maxNesting` of them.  An infix chain is read by a loop, not by recursion: in
`x + x + ⋯ + x` every right operand is read one level down and the loop goes on at the level of
the first operand, so the chain costs two levels whatever its length, while its tree is a left
spine as tall as the chain is long.

So the limit bounds how deep the reader recurses, not how tall the trees it returns are:
`Program.ofTokens_sumTokens` reads a sum of `k + 1` names, for every `k`, as one `print` of a
spine of height `k + 1` (`sumChain_height`), and `parsed_expression_height_unbounded` states it
as a fact about the reader: no bound on the height of the expressions of the programs it
accepts.
-/

namespace StackScript

/-- The height of an expression: a literal or a name is `1`, a node one more than its tallest
operand. -/
def Expr.height : Expr → Nat
  | .number .. | .string .. | .bool .. | .nil _ | .var .. => 1
  | .assign _ e _ | .unary _ e _ | .group e _ => e.height + 1
  | .binary _ l r _ | .and l r _ | .or l r _ => max l.height r.height + 1

namespace Parser

/-- `print x + x + ⋯ + x;` with `k` additions, every token at `sp`. -/
def sumTokens (x : String) (sp : Span) (k : Nat) : List Token :=
  ⟨.kwPrint, sp⟩ :: ⟨.identifier x, sp⟩ ::
    ((List.range k).flatMap fun _ => [⟨.plus, sp⟩, ⟨.identifier x, sp⟩]) ++ [⟨.semicolon, sp⟩]

/-- The left spine `x + x + ⋯ + x` with `k` additions, every node at `sp`. -/
def sumChain (x : String) (sp : Span) : Nat → Expr
  | 0 => .var x sp
  | k + 1 => .binary .add (sumChain x sp k) (.var x sp) sp

theorem sumChain_span (x : String) (sp : Span) (k : Nat) : (sumChain x sp k).span = sp := by
  cases k <;> rfl

/-- A spine of `k` additions has height `k + 1`. -/
theorem sumChain_height (x : String) (sp : Span) (k : Nat) : (sumChain x sp k).height = k + 1 := by
  induction k with
  | zero => rfl
  | succ k ih =>
    simp only [sumChain, Expr.height, ih]
    omega

theorem length_sumTokens (x : String) (sp : Span) (k : Nat) :
    (sumTokens x sp k).length = 2 * k + 3 := by
  have hw : ∀ _ : Nat, ([⟨.plus, sp⟩, ⟨.identifier x, sp⟩] : List Token).length = 2 :=
    fun _ => rfl
  simp only [sumTokens, List.length_cons, List.length_append, length_flatMap_range hw,
    List.length_nil]

variable {ts : Array Token} {s : State} {n d : Nat} {x : String} {sp : Span}

theorem infixChain_factor_stops {left : Expr}
    (h : (tokenAt ts s.pos).kind = .plus ∨ (tokenAt ts s.pos).kind = .semicolon) :
    (infixChain ts (n + 1) d .factor left).run.run s = (.ok left, s) := by
  rcases h with h | h
  · exact infixChain_looser (by rw [h]; rfl) (by decide)
  · exact infixChain_none (by rw [h]; rfl)

theorem infixChain_plus_var {left : Expr} {sp₁ : Span} (hd : d < maxNesting)
    (hplus : tokenAt ts s.pos = ⟨.plus, sp⟩) (hx : tokenAt ts (s.pos + 1) = ⟨.identifier x, sp₁⟩)
    (hnext : (tokenAt ts (s.pos + 1 + 1)).kind = .plus ∨
      (tokenAt ts (s.pos + 1 + 1)).kind = .semicolon) :
    (infixChain ts (n + 3) d .assignment left).run.run s =
      (infixChain ts (n + 2) d .assignment
        (.binary .add left (.var x sp₁) (left.span.merge sp₁))).run.run
        { s with pos := s.pos + 1 + 1 } := by
  have hend : isEnd (tokenAt ts s.pos) = false := by simp [hplus, isEnd]
  have hc : Connective.of? (tokenAt ts s.pos).kind = some (.binary .add, .term) := by
    rw [hplus]; rfl
  have hr : (expr ts (n + 2) d Prec.term.tighter).run.run { s with pos := s.pos + 1 } =
      (.ok (.var x sp₁), { s with pos := s.pos + 1 + 1 }) := by
    rw [expr_run hd, Yields.run_bind, operand_var hx]
    exact infixChain_factor_stops hnext
  exact infixChain_binary hend hc (by decide) hr

/-- The whole loop over a sum: from the spine of `j` additions, the `k - j` turns left build the
spine of `k`, and the loop stops at the `;`.  By induction on the turns left. -/
theorem infixChain_sum {p k : Nat} {es : Array ParseError} (hd : d < maxNesting)
    (hturn : ∀ i < k, tokenAt ts (p + 2 * i) = ⟨.plus, sp⟩ ∧
      tokenAt ts (p + 2 * i + 1) = ⟨.identifier x, sp⟩)
    (hsemi : tokenAt ts (p + 2 * k) = ⟨.semicolon, sp⟩) :
    ∀ r j, j + r = k → ∀ n, (infixChain ts (n + r + 3) d .assignment (sumChain x sp j)).run.run
      ⟨p + 2 * j, es⟩ = (.ok (sumChain x sp k), ⟨p + 2 * k, es⟩) := by
  intro r
  induction r with
  | zero =>
    intro j hj n
    rw [Nat.add_zero] at hj
    subst hj
    exact infixChain_none (by dsimp only; rw [hsemi]; rfl)
  | succ r ih =>
    intro j hj n
    obtain ⟨hplus, hx⟩ := hturn j (by omega)
    have hnext : (tokenAt ts (p + 2 * j + 1 + 1)).kind = .plus ∨
        (tokenAt ts (p + 2 * j + 1 + 1)).kind = .semicolon := by
      rw [show p + 2 * j + 1 + 1 = p + 2 * (j + 1) by omega]
      rcases Nat.lt_or_ge (j + 1) k with hlt | hge
      · rw [(hturn (j + 1) hlt).1]
        exact .inl rfl
      · rw [show j + 1 = k by omega, hsemi]
        exact .inr rfl
    rw [show n + (r + 1) + 3 = n + r + 1 + 3 by omega,
      infixChain_plus_var (s := ⟨p + 2 * j, es⟩) hd hplus hx hnext, sumChain_span,
      Span.merge_self, show n + r + 1 + 2 = n + r + 3 by omega]
    have h := ih (j + 1) (by omega) n
    rw [show p + 2 * (j + 1) = p + 2 * j + 1 + 1 by omega] at h
    exact h

end Parser

open StackScript.Parser

/-- A sum of `k + 1` names is read as one `print` of the spine of `k` additions: the reader
accepts the chain whatever its length. -/
theorem Program.ofTokens_sumTokens (x : String) (sp : Span) (k : Nat) :
    Program.ofTokens (sumTokens x sp k) = .ok ⟨[.print (sumChain x sp k) sp]⟩ := by
  unfold Program.ofTokens
  have hsp := spells_terminate (sumTokens x sp k)
  have hend := isEnd_terminate (sumTokens x sp k)
  have hsize := length_le_size_terminate (sumTokens x sp k)
  have hw : ∀ _ : Nat, ([⟨.plus, sp⟩, ⟨.identifier x, sp⟩] : List Token).length = 2 :=
    fun _ => rfl
  rw [length_sumTokens] at hend hsize
  generalize terminate (sumTokens x sp k) = ts at hsp hend hsize ⊢
  simp only [sumTokens, List.cons_append, Spells.cons_iff, Spells.append_iff] at hsp
  obtain ⟨hprint, hx, hsum, hsemi, -⟩ := hsp
  simp only [length_flatMap_range hw, Nat.zero_add] at hsum hsemi
  rw [show 1 + 1 + 2 * k = 2 + 2 * k by omega] at hsemi
  have hturn : ∀ i < k, tokenAt ts (2 + 2 * i) = ⟨.plus, sp⟩ ∧
      tokenAt ts (2 + 2 * i + 1) = ⟨.identifier x, sp⟩ := by
    intro i hi
    have h := Spells.flatMap_range hw hsum hi
    simp only [Spells.cons_iff] at h
    exact ⟨h.1, h.2.1⟩
  have hstmt : ∀ n, (statement ts (n + k + 5) 0).run.run ⟨0, #[]⟩ =
      (.ok (.print (sumChain x sp k) sp), ⟨2 + 2 * k + 1, #[]⟩) := by
    intro n
    have he : (expr ts (n + k + 4) 1 .assignment).run.run ⟨0 + 1, #[]⟩ =
        (.ok (sumChain x sp k), ⟨2 + 2 * k, #[]⟩) := by
      rw [expr_run (by decide), Yields.run_bind, operand_var hx]
      exact infixChain_sum (p := 2) (by decide) hturn hsemi k 0 (by omega) n
    have h := statement_print (n := n + k + 4) (d := 0) (s := ⟨0, #[]⟩) (by decide) hprint he hsemi
    rw [Span.merge_self] at h
    exact h
  obtain ⟨F, hF⟩ : ∃ F, fuelFor ts.size = F + k + 8 :=
    ⟨fuelFor ts.size - (k + 8), by simp only [fuelFor, maxNesting]; omega⟩
  have htop : (topItems ts (F + k + 8) #[]).run.run ⟨0, #[]⟩ =
      (.ok #[.print (sumChain x sp k) sp], ⟨2 + 2 * k + 1, #[]⟩) := by
    have hd := (declaration_statement (n := F + k + 5) (d := 0) (s := ⟨0, #[]⟩)
      (by rw [hprint]; rfl)).trans (hstmt F)
    rw [show F + k + 8 = F + k + 5 + 1 + 1 + 1 by omega,
      topItems_item (by rw [hprint]; rfl) (recovering_ok hd),
      show F + k + 5 + 1 + 1 = F + k + 6 + 1 by omega,
      topItems_end (by rw [show 2 + 2 * k + 1 = 2 * k + 3 by omega]; exact hend)]
    rfl
  dsimp only
  rw [hF, run_ok htop rfl]
  rfl

/-- The nesting limit bounds no height: for every bound, some token list is read without error
as a program printing an expression taller than it. -/
theorem parsed_expression_height_unbounded (h : Nat) :
    ∃ tokens e sp, Program.ofTokens tokens = .ok ⟨[.print e sp]⟩ ∧ h < e.height :=
  ⟨sumTokens "x" ⟨0, 0, 1, 1⟩ h, sumChain "x" ⟨0, 0, 1, 1⟩ h, ⟨0, 0, 1, 1⟩,
    Program.ofTokens_sumTokens _ _ h, by rw [sumChain_height]; omega⟩

/-- `print a + a + ⋯ + a;` with `2 * maxNesting + 2` additions, every token at line 1, column 1,
is read without error, and the expression it prints is taller than `2 * maxNesting + 2`. -/
theorem long_sum_exceeds_nesting_bound :
    Program.ofTokens (sumTokens "a" ⟨0, 0, 1, 1⟩ (2 * maxNesting + 2)) =
        .ok ⟨[.print (sumChain "a" ⟨0, 0, 1, 1⟩ (2 * maxNesting + 2)) ⟨0, 0, 1, 1⟩]⟩ ∧
      2 * maxNesting + 2 < (sumChain "a" ⟨0, 0, 1, 1⟩ (2 * maxNesting + 2)).height :=
  ⟨Program.ofTokens_sumTokens _ _ _, by rw [sumChain_height]; omega⟩

end StackScript
