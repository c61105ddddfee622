import StackScript.Proofs.Nesting

/-!
# The reader stops at the first end token

The reader never goes past the first end-of-input token of its token list: taking a token there
does not move, and resuming after an error stops there.  So it reads no token after it, and what
it answers depends only on the tokens up to it.

`Parser.SameTo ts ts'` says that `ts'` has the tokens of `ts` up to and including the first end
token of `ts`.  `Parser.Follows ts x x'` says that, from every state no further than that token,
the production `x'` does what `x` does (the same answer or error and the same state) whenever
`x` does not run out of fuel, and that `x` leaves the reader no further than that token.  The
relation follows the monad (`Follows.bind`), so each production of the reader on `ts` is
followed by the same production on `ts'` with as much fuel or more, by one step lemma per
production (`Parser.Followed`).

Hence the program read from a token list is the one read from its terminated list cut just
after the first end token, whatever tokens are put after it (`Program.ofTokens_reads_to_first_end`).
-/

namespace StackScript

namespace Parser

open Yields (run_bind run_tryCatch)

variable {ts ts' : Array Token}

/-! ## Token lists alike up to the first end token -/

/-- `ts'` has the tokens of `ts` up to and including the first end token of `ts`. -/
def SameTo (ts ts' : Array Token) : Prop := ∀ i ≤ endIdx ts, tokenAt ts' i = tokenAt ts i

namespace SameTo

theorem refl (ts : Array Token) : SameTo ts ts := fun _ _ => rfl

theorem endIdx_eq (h : SameTo ts ts') : endIdx ts' = endIdx ts :=
  endIdx_eq_of (fun i hi => by rw [h i hi.le]; exact isEnd_of_lt_endIdx hi)
    (by rw [h _ (Nat.le_refl _)]; exact isEnd_endIdx)

theorem symm (h : SameTo ts ts') : SameTo ts' ts := fun i hi =>
  (h i (h.endIdx_eq ▸ hi)).symm

end SameTo

/-! ## One production following another -/

/-- From every state no further than the first end token of `ts`, the production `x'` does what
`x` does whenever `x` does not run out of fuel: the same answer or error, and the same state,
which is no further than that token. -/
def Follows (ts : Array Token) {α : Type} (x x' : M α) : Prop :=
  ∀ s : State, s.pos ≤ endIdx ts → (x.run.run s).1 ≠ .error .exhausted →
    x'.run.run s = x.run.run s ∧ (x.run.run s).2.pos ≤ endIdx ts

namespace Follows

variable {α β : Type}

theorem pure (a : α) : Follows ts (Pure.pure a : M α) (Pure.pure a) := fun _ hs _ => ⟨rfl, hs⟩

theorem throw (e : Stop) : Follows ts (MonadExcept.throw e : M α) (MonadExcept.throw e) :=
  fun _ hs _ => ⟨rfl, hs⟩

theorem fail (e : ParseError) : Follows ts (Parser.fail e : M α) (Parser.fail e) := throw _

theorem eq_of_run {x x' : M α} (hx : Follows ts x x') {s s₁ : State} {r : Except Stop α}
    (hs : s.pos ≤ endIdx ts) (hr : x.run.run s = (r, s₁)) (hne : r ≠ .error .exhausted) :
    x'.run.run s = (r, s₁) ∧ s₁.pos ≤ endIdx ts := by
  obtain ⟨h', hle⟩ := hx s hs (by rw [hr]; exact hne)
  rw [h', hr]
  rw [hr] at hle
  exact ⟨rfl, hle⟩

/-- The rest of a `do` block follows from what its first step answers. -/
theorem bind {x x' : M α} {f f' : α → M β} (hx : Follows ts x x')
    (hf : ∀ a, Follows ts (f a) (f' a)) : Follows ts (x >>= f) (x' >>= f') := by
  intro s hs hne
  rw [run_bind] at hne ⊢
  rw [run_bind]
  rcases hr : x.run.run s with ⟨(e | _) | a, s₁⟩ <;> rw [hr] at hne
  · -- a parse error stops both
    obtain ⟨h', hle⟩ := hx.eq_of_run hs hr fun h => by cases h
    exact ⟨by rw [h'], hle⟩
  · exact absurd rfl hne
  · obtain ⟨h', hle⟩ := hx.eq_of_run hs hr fun h => by cases h
    rw [h']
    exact hf a s₁ hle hne

theorem ite {c : Prop} [Decidable c] {x x' y y' : M α} (hx : Follows ts x x')
    (hy : Follows ts y y') : Follows ts (if c then x else y) (if c then x' else y') := by
  split
  · exact hx
  · exact hy

theorem tryCatch {x x' : M α} {h h' : Stop → M α} (hx : Follows ts x x')
    (hex : h .exhausted = MonadExcept.throw .exhausted)
    (hh : ∀ e, Follows ts (h (.error e)) (h' (.error e))) :
    Follows ts (tryCatch x h) (tryCatch x' h') := by
  intro s hs hne
  rw [run_tryCatch] at hne ⊢
  rw [run_tryCatch]
  rcases hr : x.run.run s with ⟨(e | _) | a, s₁⟩ <;> rw [hr] at hne
  · obtain ⟨h', hle⟩ := hx.eq_of_run hs hr fun h => by cases h
    rw [h']
    exact hh e s₁ hle hne
  · -- running out of fuel is passed on, so it does not happen
    dsimp only at hne
    rw [hex] at hne
    exact absurd rfl hne
  · obtain ⟨h', hle⟩ := hx.eq_of_run hs hr fun h => by cases h
    exact ⟨by rw [h'], hle⟩

theorem get : Follows ts (get : M State) get := fun _ hs _ => ⟨rfl, hs⟩

theorem map {x x' : M α} (f : α → β) (hx : Follows ts x x') : Follows ts (f <$> x) (f <$> x') := by
  rw [← bind_pure_comp, ← bind_pure_comp]
  exact hx.bind fun _ => pure _

theorem exhausted (x' : M α) : Follows ts (MonadExcept.throw .exhausted : M α) x' :=
  fun _ _ hne => absurd rfl hne

end Follows

/-! ## Primitive steps -/

theorem resumeFrom_eq (ts : Array Token) (p : Nat) : resumeFrom ts p =
    if isEnd (tokenAt ts p) then p
    else if 0 < p ∧ (tokenAt ts (p - 1)).kind.alike .semicolon then p
    else if (tokenAt ts p).kind.startsStatement || (tokenAt ts p).kind.alike .rightBrace then p
    else resumeFrom ts (p + 1) := by
  rw [resumeFrom]
  split
  · rfl
  · -- past the array every place reads the end token
    rename_i hp
    have hend : isEnd (tokenAt ts p) = true := by
      simp [tokenAt, Array.getD_eq_getD_getElem?, hp, endToken, isEnd]
    rw [if_pos hend]

section Primitives

variable (h : SameTo ts ts')
include h

theorem resumeFrom_congr {p : Nat} (hp : p ≤ endIdx ts) : resumeFrom ts' p = resumeFrom ts p := by
  fun_induction resumeFrom ts p with
  | case1 p _ t hend =>
    rw [resumeFrom_eq ts', h p hp, if_pos hend]
  | case2 p _ t hend hsemi =>
    rw [resumeFrom_eq ts', h p hp, h (p - 1) (by omega), if_neg hend, if_pos hsemi]
  | case3 p _ t hend hsemi hword =>
    rw [resumeFrom_eq ts', h p hp, h (p - 1) (by omega), if_neg hend, if_neg hsemi, if_pos hword]
  | case4 p _ t hend hsemi hword ih =>
    have hlt := lt_endIdx hp (by simpa [t] using hend)
    rw [resumeFrom_eq ts', h p hp, h (p - 1) (by omega), if_neg hend, if_neg hsemi, if_neg hword,
      ih hlt]
  | case5 p hsize =>
    have hend : isEnd (tokenAt ts p) = true := by
      simp [tokenAt, Array.getD_eq_getD_getElem?, hsize, endToken, isEnd]
    rw [resumeFrom_eq ts', h p hp, if_pos hend]

theorem peek_follows : Follows ts (peek ts) (peek ts') := fun s hs _ =>
  ⟨by rw [peek_run, peek_run, h _ hs], hs⟩

theorem atEnd_follows : Follows ts (atEnd ts) (atEnd ts') := fun s hs _ =>
  ⟨by rw [atEnd_run, atEnd_run, h _ hs], hs⟩

theorem currentSpan_follows : Follows ts (currentSpan ts) (currentSpan ts') := fun s hs _ =>
  ⟨by rw [currentSpan_run, currentSpan_run, h _ hs], hs⟩

theorem previousSpan_follows : Follows ts (previousSpan ts) (previousSpan ts') := fun s hs _ =>
  ⟨by rw [previousSpan_run, previousSpan_run, h _ (by omega)], hs⟩

theorem check_follows (k : TokenKind) : Follows ts (check ts k) (check ts' k) := fun s hs _ =>
  ⟨by rw [check_run, check_run, h _ hs], hs⟩

theorem advance_follows : Follows ts (advance ts) (advance ts') := by
  intro s hs _
  rw [advance_run_eq, advance_run_eq, h _ hs]
  cases hend : isEnd (tokenAt ts s.pos)
  · have hlt := lt_endIdx hs hend
    simp only [Bool.false_eq_true, ↓reduceIte, Nat.add_sub_cancel]
    exact ⟨by rw [h _ hs], hlt⟩
  · simp only [↓reduceIte]
    exact ⟨by rw [h _ (by omega)], hs⟩

theorem accept_follows (k : TokenKind) : Follows ts (accept ts k) (accept ts' k) :=
  (check_follows h k).bind fun _ =>
    Follows.ite ((advance_follows h).bind fun _ => Follows.pure _) (Follows.pure _)

theorem expect_follows (k : TokenKind) : Follows ts (expect ts k) (expect ts' k) :=
  (check_follows h k).bind fun _ =>
    Follows.ite (advance_follows h) ((peek_follows h).bind fun _ => Follows.fail _)

theorem expectIdentifier_follows : Follows ts (expectIdentifier ts) (expectIdentifier ts') := by
  refine (peek_follows h).bind fun t => ?_
  split
  · exact (advance_follows h).bind fun _ => Follows.pure _
  · exact Follows.fail _

theorem enter_follows (what : Production) (d : Nat) :
    Follows ts (enter ts what d) (enter ts' what d) :=
  Follows.ite ((currentSpan_follows h).bind fun _ => Follows.fail _) (Follows.pure _)

theorem typeTag_follows : Follows ts (typeTag ts) (typeTag ts') := by
  refine (peek_follows h).bind fun t => ?_
  dsimp only
  split
  · exact (advance_follows h).bind fun _ => Follows.pure _
  · exact Follows.pure _

end Primitives

theorem Follows.record (e : ParseError) : Follows ts (record e) (record e) :=
  fun _ hs _ => ⟨rfl, hs⟩

theorem resume_follows (h : SameTo ts ts') :
    Follows ts (modify fun s => { s with pos := resumeFrom ts s.pos } : M Unit)
      (modify fun s => { s with pos := resumeFrom ts' s.pos }) := fun s hs _ =>
  ⟨by
    show ((.ok (), { s with pos := resumeFrom ts' s.pos }) : Except Stop Unit × State) =
      (.ok (), { s with pos := resumeFrom ts s.pos })
    rw [resumeFrom_congr h hs], resumeFrom_le_endIdx hs⟩

/-! ## The productions -/

/-- With fuel `n` on `ts` and `n'` on `ts'`, every production on `ts'` follows the same
production on `ts`. -/
structure Followed (ts ts' : Array Token) (n n' : Nat) : Prop where
  expr : ∀ d min, Follows ts (Parser.expr ts n d min) (Parser.expr ts' n' d min)
  operand : ∀ d, Follows ts (Parser.operand ts n d) (Parser.operand ts' n' d)
  infixChain : ∀ d min left,
    Follows ts (Parser.infixChain ts n d min left) (Parser.infixChain ts' n' d min left)
  statement : ∀ d, Follows ts (Parser.statement ts n d) (Parser.statement ts' n' d)
  declaration : ∀ d, Follows ts (Parser.declaration ts n d) (Parser.declaration ts' n' d)
  recovering : ∀ d, Follows ts (Parser.recovering ts n d) (Parser.recovering ts' n' d)
  blockItems : ∀ d acc, Follows ts (Parser.blockItems ts n d acc) (Parser.blockItems ts' n' d acc)
  topItems : ∀ acc, Follows ts (Parser.topItems ts n acc) (Parser.topItems ts' n' acc)

namespace Followed

variable {n n' : Nat} (h : SameTo ts ts') (ih : Followed ts ts' n n')
include h ih

/-! ### One step lemma per production -/

theorem expr_succ (d : Nat) (min : Prec) :
    Follows ts (Parser.expr ts (n + 1) d min) (Parser.expr ts' (n' + 1) d min) := by
  rw [Parser.expr, Parser.expr]
  exact (enter_follows h _ _).bind fun _ =>
    (ih.operand _).bind fun left => ih.infixChain _ _ left

theorem operand_succ (d : Nat) :
    Follows ts (Parser.operand ts (n + 1) d) (Parser.operand ts' (n' + 1) d) := by
  rw [Parser.operand, Parser.operand]
  refine (advance_follows h).bind fun tok => ?_
  split
  · exact Follows.pure _
  · exact Follows.pure _
  · exact Follows.pure _
  · exact Follows.pure _
  · exact Follows.pure _
  · -- a group: an expression and `)`
    exact (ih.expr _ _).bind fun _ => (expect_follows h _).bind fun _ =>
      (previousSpan_follows h).bind fun _ => Follows.pure _
  · exact (ih.expr _ _).bind fun _ => Follows.pure _
  · exact (ih.expr _ _).bind fun _ => Follows.pure _
  · exact Follows.ite (Follows.fail _) (Follows.fail _)

theorem infixChain_succ (d : Nat) (min : Prec) (left : Expr) :
    Follows ts (Parser.infixChain ts (n + 1) d min left)
      (Parser.infixChain ts' (n' + 1) d min left) := by
  rw [Parser.infixChain, Parser.infixChain]
  refine (atEnd_follows h).bind fun _ => Follows.ite (Follows.pure _) ?_
  refine (peek_follows h).bind fun _ => ?_
  split
  · exact Follows.pure _
  refine Follows.ite (Follows.pure _) ((advance_follows h).bind fun tok => ?_)
  have hrest : ∀ e, Follows ts (Pure.pure e >>= fun e => Parser.infixChain ts n d min e)
      (Pure.pure e >>= fun e => Parser.infixChain ts' n' d min e) :=
    fun _ => (Follows.pure _).bind fun e => ih.infixChain _ _ e
  dsimp only
  split
  · exact (ih.expr _ _).bind fun _ => hrest _
  · exact (ih.expr _ _).bind fun _ => hrest _
  · exact (ih.expr _ _).bind fun _ => hrest _
  · refine (ih.expr _ _).bind fun _ => ?_
    split
    · exact hrest _
    · exact (Follows.record _).bind fun _ => hrest _

theorem declaration_succ (d : Nat) :
    Follows ts (Parser.declaration ts (n + 1) d) (Parser.declaration ts' (n' + 1) d) := by
  rw [Parser.declaration, Parser.declaration]
  refine (check_follows h _).bind fun _ => Follows.ite ?_ (ih.statement _)
  refine (currentSpan_follows h).bind fun _ => (expect_follows h _).bind fun _ =>
    (typeTag_follows h).bind fun _ => (expectIdentifier_follows h).bind fun _ =>
    (accept_follows h _).bind fun _ => ?_
  dsimp only
  refine Follows.ite (((ih.expr _ _).map _).bind fun _ => ?_)
    ((Follows.pure _).bind fun _ => ?_) <;>
    exact (expect_follows h _).bind fun _ => (previousSpan_follows h).bind fun _ => Follows.pure _

theorem statement_succ (d : Nat) :
    Follows ts (Parser.statement ts (n + 1) d) (Parser.statement ts' (n' + 1) d) := by
  rw [Parser.statement, Parser.statement]
  refine (enter_follows h _ _).bind fun _ => (currentSpan_follows h).bind fun _ => ?_
  have hspan : ∀ f : Span → Stmt, Follows ts (previousSpan ts >>= fun sp => Pure.pure (f sp))
      (previousSpan ts' >>= fun sp => Pure.pure (f sp)) :=
    fun _ => (previousSpan_follows h).bind fun _ => Follows.pure _
  refine (check_follows h _).bind fun _ => Follows.ite ?_ ?_
  · -- `print`, an expression and `;`
    exact (advance_follows h).bind fun _ => (ih.expr _ _).bind fun _ =>
      (expect_follows h _).bind fun _ => hspan _
  refine (check_follows h _).bind fun _ => Follows.ite ?_ ?_
  · -- `if`, a condition in parentheses, a branch, and perhaps `else` and a branch
    refine (advance_follows h).bind fun _ => (expect_follows h _).bind fun _ =>
      (ih.expr _ _).bind fun _ => (expect_follows h _).bind fun _ =>
      (ih.statement _).bind fun _ => (accept_follows h _).bind fun _ => ?_
    exact Follows.ite (((ih.statement _).map _).bind fun _ => hspan _)
      ((Follows.pure _).bind fun _ => hspan _)
  refine (check_follows h _).bind fun _ => Follows.ite ?_ ?_
  · -- `while`, a condition in parentheses and a body
    exact (advance_follows h).bind fun _ => (expect_follows h _).bind fun _ =>
      (ih.expr _ _).bind fun _ => (expect_follows h _).bind fun _ =>
      (ih.statement _).bind fun _ => hspan _
  refine (check_follows h _).bind fun _ => Follows.ite ?_ ?_
  · -- `for`, a name, `in`, a limit and a body
    exact (advance_follows h).bind fun _ => (expectIdentifier_follows h).bind fun _ =>
      (expect_follows h _).bind fun _ => (ih.expr _ _).bind fun _ =>
      (ih.statement _).bind fun _ => hspan _
  refine (check_follows h _).bind fun _ => Follows.ite ?_ ?_
  · -- a block: `{`, its items and `}`
    exact (advance_follows h).bind fun _ => (ih.blockItems _ _).bind fun _ =>
      (expect_follows h _).bind fun _ => hspan _
  · -- an expression and `;`
    exact (ih.expr _ _).bind fun _ => (expect_follows h _).bind fun _ => hspan _

theorem blockItems_succ (d : Nat) (acc : Array Stmt) :
    Follows ts (Parser.blockItems ts (n + 1) d acc) (Parser.blockItems ts' (n' + 1) d acc) := by
  rw [Parser.blockItems, Parser.blockItems]
  exact (check_follows h _).bind fun _ => (atEnd_follows h).bind fun _ =>
    Follows.ite (Follows.pure _) ((ih.recovering _).bind fun _ => ih.blockItems _ _)

theorem topItems_succ (acc : Array Stmt) :
    Follows ts (Parser.topItems ts (n + 1) acc) (Parser.topItems ts' (n' + 1) acc) := by
  rw [Parser.topItems, Parser.topItems]
  exact (atEnd_follows h).bind fun _ =>
    Follows.ite (Follows.pure _) ((ih.recovering _).bind fun _ => ih.topItems _)

theorem recovering_succ (d : Nat) :
    Follows ts (Parser.recovering ts (n + 1) d) (Parser.recovering ts' (n' + 1) d) := by
  rw [Parser.recovering, Parser.recovering]
  refine Follows.get.bind fun _ => Follows.tryCatch ((ih.declaration _).map _) rfl fun _ => ?_
  refine (Follows.record _).bind fun _ => Follows.get.bind fun _ => Follows.ite ?_ ?_
  · exact (advance_follows h).bind fun _ => (resume_follows h).bind fun _ => Follows.pure _
  · exact (resume_follows h).bind fun _ => Follows.pure _

omit h ih in
theorem zero (n' : Nat) : Followed ts ts' 0 n' where
  expr _ _ := by rw [Parser.expr]; exact Follows.exhausted _
  operand _ := by rw [Parser.operand]; exact Follows.exhausted _
  infixChain _ _ _ := by rw [Parser.infixChain]; exact Follows.exhausted _
  statement _ := by rw [Parser.statement]; exact Follows.exhausted _
  declaration _ := by rw [Parser.declaration]; exact Follows.exhausted _
  recovering _ := by rw [Parser.recovering]; exact Follows.exhausted _
  blockItems _ _ := by rw [Parser.blockItems]; exact Follows.exhausted _
  topItems _ := by rw [Parser.topItems]; exact Follows.exhausted _

theorem succ : Followed ts ts' (n + 1) (n' + 1) where
  expr := expr_succ h ih
  operand := operand_succ h ih
  infixChain := infixChain_succ h ih
  statement := statement_succ h ih
  declaration := declaration_succ h ih
  recovering := recovering_succ h ih
  blockItems := blockItems_succ h ih
  topItems := topItems_succ h ih

end Followed

/-- Every production on `ts` is followed by the same production on `ts'`, with as much fuel or
more. -/
theorem followed (h : SameTo ts ts') {n n' : Nat} (hn : n ≤ n') : Followed ts ts' n n' := by
  induction n generalizing n' with
  | zero => exact Followed.zero n'
  | succ n ih =>
    obtain ⟨m, rfl⟩ : ∃ m, n' = m + 1 := ⟨n' - 1, by omega⟩
    exact Followed.succ h (ih (by omega))

/-- A run on `ts` that answers is answered alike on `ts'`, with as much fuel or more. -/
theorem run_follows (h : SameTo ts ts') {n n' : Nat} (hn : n ≤ n') (hsome : (run n ts).isSome) :
    run n' ts' = run n ts := by
  unfold run at hsome ⊢
  obtain ⟨heq, -⟩ := (followed h hn).topItems #[] ⟨0, #[]⟩ (Nat.zero_le _) fun hex => by
    revert hsome hex
    rcases (topItems ts n #[]).run.run ⟨0, #[]⟩ with ⟨(e | _) | body, s'⟩ <;> simp
  rw [heq]

/-- Two runs that answer, on token lists with the same tokens up to the first end token, answer
alike, whatever their fuel. -/
theorem run_eq_of_sameTo (h : SameTo ts ts') {n n' : Nat} (hs : (run n ts).isSome)
    (hs' : (run n' ts').isSome) : run n' ts' = run n ts := by
  rcases Nat.le_total n n' with hn | hn
  · exact run_follows h hn hs
  · exact (run_follows h.symm hn hs').symm

/-! ## The terminated list -/

theorem endIdx_lt_size {i : Nat} (hi : i < ts.size) (h : isEnd (tokenAt ts i) = true) :
    endIdx ts < ts.size := by
  refine Nat.lt_of_le_of_ne endIdx_le_size fun heq => ?_
  rw [isEnd_of_lt_endIdx (heq ▸ hi)] at h
  cases h

theorem endIdx_lt_size_terminate (tokens : List Token) :
    endIdx (terminate tokens) < (terminate tokens).size := by
  unfold terminate
  rcases hl : tokens.getLast? with _ | t
  · exact endIdx_lt_size (i := 0) (by simp) rfl
  · dsimp only
    split
    · -- the list ends with its own end token
      rename_i hend
      rw [List.getLast?_eq_getElem?] at hl
      obtain ⟨hi, -⟩ := List.getElem?_eq_some_iff.mp hl
      refine endIdx_lt_size (i := tokens.length - 1) (by simpa using hi) ?_
      simpa [tokenAt, Array.getD_eq_getD_getElem?, hl] using hend
    · -- the end token added after the list
      exact endIdx_lt_size (i := tokens.length) (by simp) (by simp [tokenAt, isEnd])

/-- Cut the terminated list just after its first end token and put any tokens after the cut:
the list that makes has the same tokens up to that end token. -/
theorem sameTo_cut (tokens rest : List Token) :
    SameTo (terminate tokens)
      (terminate ((terminate tokens).toList.take (endIdx (terminate tokens) + 1) ++ rest)) := by
  intro i hi
  have hlt := endIdx_lt_size_terminate tokens
  have hcut : i < ((terminate tokens).toList.take (endIdx (terminate tokens) + 1)).length := by
    simp only [List.length_take, Array.length_toList]
    omega
  rw [tokenAt_terminate (Nat.lt_of_lt_of_le hcut (by simp)), List.getElem_append_left hcut,
    List.getElem_take]
  simp [tokenAt, Array.getD_eq_getD_getElem?, Nat.lt_of_le_of_lt hi hlt]

end Parser

/-- The reader stops at the first end token.  A token list is read with an end token added after
it unless it ends with one, so the list read holds an end token; and the reader reads nothing
after the first one: the program read is the one read from the list cut just after it, whatever
tokens are put after the cut. -/
theorem Program.ofTokens_reads_to_first_end (tokens rest : List Token) :
    Parser.endIdx (Parser.terminate tokens) < (Parser.terminate tokens).size ∧
      Program.ofTokens ((Parser.terminate tokens).toList.take
          (Parser.endIdx (Parser.terminate tokens) + 1) ++ rest) = Program.ofTokens tokens := by
  refine ⟨Parser.endIdx_lt_size_terminate tokens, ?_⟩
  obtain ⟨r, hr, hof⟩ := Program.ofTokens_terminates tokens
  obtain ⟨r', hr', hof'⟩ := Program.ofTokens_terminates
    ((Parser.terminate tokens).toList.take (Parser.endIdx (Parser.terminate tokens) + 1) ++ rest)
  have heq := Parser.run_eq_of_sameTo (Parser.sameTo_cut tokens rest)
    (Option.isSome_iff_exists.mpr ⟨r, hr⟩) (Option.isSome_iff_exists.mpr ⟨r', hr'⟩)
  rw [hr, hr', Option.some.injEq] at heq
  rw [hof, hof', heq]

end StackScript
