import StackScript.Proofs.Termination

/-!
# When the nesting limit is reached

The reader counts a nesting level for each statement and each expression it enters, and fails
past `maxNesting` of them.  Before the end of input every level costs a token: a statement
inside a statement comes after its word or its `{`, an expression inside an expression after the
operand or operator that opens it.  Only once, going from a statement to the expression it
consists of, is a level entered with no token taken.  So a nesting error met before the end
stands after at least `maxNesting - 1` tokens (`Parser.nestingBound`).

At the end of input it is otherwise: taking a token there does not move and answers the token
before the end again.  If that token opens an operand (`(`, `-` or `!`), an operand read at the
end reads it once more and opens a further expression, with no token taken, until the limit is
met.  So a token that opens an operand, alone, is refused as nested too deeply
(`Program.ofTokens_opening_alone`).

`Program.ofTokens_nesting_error` states what holds for every token list: a nesting error comes
with at least `maxNesting - 1` tokens before the first end token, or the last of them opens an
operand.
-/

namespace StackScript

/-- The kinds that open an operand and read a further expression after them: `(`, `-`, `!`. -/
def TokenKind.opensOperand : TokenKind → Bool
  | .leftParen | .minus | .bang => true
  | _ => false

theorem TokenKind.eq_of_opensOperand {k : TokenKind} (h : k.opensOperand = true) :
    k = .leftParen ∨ k = .minus ∨ k = .bang := by
  cases k <;> simp_all [TokenKind.opensOperand]

theorem TokenKind.alike_of_opensOperand {k : TokenKind} (h : k.opensOperand = true)
    (w : TokenKind) (hw : w.opensOperand = false) : k.alike w = false := by
  rcases TokenKind.eq_of_opensOperand h with rfl | rfl | rfl <;> cases w <;>
    simp_all [TokenKind.alike, TokenKind.ordinal, TokenKind.opensOperand]

namespace Parser

open Ends

variable {ts : Array Token} {n : Nat}

/-- A nesting error is met only with at least `maxNesting - 1` tokens before the first end. -/
def NestingDeep (ts : Array Token) (e : ParseError) : Prop :=
  ∀ what sp, e = .nestingTooDeep what sp → maxNesting - 1 ≤ endIdx ts

theorem nestingDeep_of_ne {e : ParseError} (h : ∀ what sp, e ≠ .nestingTooDeep what sp) :
    NestingDeep ts e :=
  fun what sp he => absurd he (h what sp)

/-- The reader stands no further than the first end token and every error it recorded is
`NestingDeep`. -/
structure Fine (ts : Array Token) (s : State) : Prop where
  le_endIdx : s.pos ≤ endIdx ts
  deep : ∀ e ∈ s.errors, NestingDeep ts e

/-- The reader went onward from `s` to `s'`, and `s'` is `Fine`. -/
structure DeepOnward (ts : Array Token) (s s' : State) : Prop where
  onward : Onward ts s s'
  fine : Fine ts s'

namespace DeepOnward

variable {s s' s₁ s₂ : State}

theorem refl (h : Fine ts s) : DeepOnward ts s s := ⟨Onward.refl h.le_endIdx, h⟩

theorem trans (h₁ : DeepOnward ts s s₁) (h₂ : DeepOnward ts s₁ s₂) : DeepOnward ts s s₂ :=
  ⟨h₁.onward.trans h₂.onward, h₂.fine⟩

theorem pos_ge (h : DeepOnward ts s s') {d : Nat} (hd : d ≤ s.pos) : d ≤ s'.pos :=
  Nat.le_trans hd h.onward.pos_le

theorem next (h : Fine ts s) (hlt : s.pos < endIdx ts) :
    DeepOnward ts s { s with pos := s.pos + 1 } :=
  ⟨Onward.next hlt, hlt, h.deep⟩

theorem record (h : Fine ts s) {e : ParseError} (he : NestingDeep ts e) :
    DeepOnward ts s { s with errors := s.errors.push e } := by
  refine ⟨Onward.record h.le_endIdx e, h.le_endIdx, fun e' he' => ?_⟩
  rcases Array.mem_push.mp he' with he' | rfl
  · exact h.deep e' he'
  · exact he

end DeepOnward

/-- Every nesting error that `x` run from `s` raises or records is `NestingDeep`, and the
reader goes onward. -/
def DeepRun {α : Type} (ts : Array Token) (x : M α) (s : State) : Prop :=
  Ends x s (fun _ => DeepOnward ts s) (fun e s' => NestingDeep ts e ∧ DeepOnward ts s s') True

/-! ## Primitive steps -/

section Steps

variable {s s₁ s₂ : State}

theorem DeepRun.child {α : Type} {x : M α} {ok : α → State → Prop} (hx : DeepRun ts x s₂)
    (h : DeepOnward ts s₁ s₂) (hs : Onward ts s s₁) (hk : ∀ a s₃, DeepOnward ts s₁ s₃ → ok a s₃) :
    Ends x s₂ ok (fun e s' => NestingDeep ts e ∧ DeepOnward ts s s') True :=
  hx.mono (fun a s₃ h₃ => hk a s₃ (h.trans h₃))
    (fun _ _ h₃ => ⟨h₃.1, ⟨hs.trans (h.onward.trans h₃.2.onward), h₃.2.fine⟩⟩) id

theorem advance_deep {ok : Token → State → Prop} {err : ParseError → State → Prop}
    (hlast : (tokenAt ts (endIdx ts - 1)).kind.opensOperand = false) (hf : Fine ts s)
    (hk : ∀ tok s₁, DeepOnward ts s s₁ → (tok.kind.opensOperand = true → s.pos < s₁.pos) →
      ok tok s₁) : Ends (advance ts) s ok err True := by
  refine advance_of (fun hend => ?_) (fun hend => ?_)
  · exact hk _ _ (DeepOnward.next hf (lt_endIdx hf.le_endIdx hend)) fun _ => Nat.lt_succ_self _
  · -- at the end the reader stands at the first end token, and reads the token before it again
    have hat : s.pos = endIdx ts := by
      refine Nat.le_antisymm hf.le_endIdx (Nat.not_lt.mp fun hlt => ?_)
      rw [isEnd_of_lt_endIdx hlt] at hend
      cases hend
    refine hk _ _ (DeepOnward.refl hf) fun hopen => ?_
    rw [hat, hlast] at hopen
    cases hopen

theorem expect_deep {k : TokenKind} (hf : Fine ts s) : DeepRun ts (expect ts k) s :=
  expect_of (fun hend _ => DeepOnward.next hf (lt_endIdx hf.le_endIdx hend))
    ⟨nestingDeep_of_ne (fun _ _ h => by cases h), DeepOnward.refl hf⟩

theorem expectIdentifier_deep (hf : Fine ts s) : DeepRun ts (expectIdentifier ts) s :=
  expectIdentifier_of
    (fun _ h => DeepOnward.next hf (lt_endIdx hf.le_endIdx (by simp [isEnd, h])))
    (fun _ => ⟨nestingDeep_of_ne (fun _ _ h => by cases h), DeepOnward.refl hf⟩)

theorem typeTag_deep (hf : Fine ts s) : DeepRun ts (typeTag ts) s :=
  typeTag_of (fun _ h => DeepOnward.next hf (lt_endIdx hf.le_endIdx h)) (DeepOnward.refl hf)

end Steps

/-- With fuel `n`, every nesting error a production raises or records is `NestingDeep`,
provided the production starts with no more nesting levels than tokens before it (up to a
slack of its own) and, when the token before the end opens no operand. -/
structure NestingBound (ts : Array Token) (n : Nat) : Prop where
  expr : ∀ d min s, Fine ts s → d ≤ s.pos + 1 → DeepRun ts (Parser.expr ts n d min) s
  operand : ∀ d s, Fine ts s → d ≤ s.pos + 2 → DeepRun ts (Parser.operand ts n d) s
  infixChain : ∀ d min left s, Fine ts s → d ≤ s.pos + 2 →
    DeepRun ts (Parser.infixChain ts n d min left) s
  statement : ∀ d s, Fine ts s → d ≤ s.pos → DeepRun ts (Parser.statement ts n d) s
  declaration : ∀ d s, Fine ts s → d ≤ s.pos → DeepRun ts (Parser.declaration ts n d) s
  recovering : ∀ d s, Fine ts s → d ≤ s.pos → DeepRun ts (Parser.recovering ts n d) s
  blockItems : ∀ d acc s, Fine ts s → d ≤ s.pos → DeepRun ts (Parser.blockItems ts n d acc) s
  topItems : ∀ acc s, Fine ts s → DeepRun ts (Parser.topItems ts n acc) s

namespace NestingBound

/-! ## One step lemma per production -/

theorem expr_succ (ih : NestingBound ts n) (d : Nat) (min : Prec) (s : State) (hf : Fine ts s)
    (hd : d ≤ s.pos + 1) : DeepRun ts (Parser.expr ts (n + 1) d min) s := by
  rw [DeepRun, Parser.expr]
  simp only [bind_iff, enter_iff]
  split_ifs with hlim
  · -- the limit is met here, after `maxNesting - 1` tokens at least
    refine ⟨fun _ _ h => ?_, DeepOnward.refl hf⟩
    have := hf.le_endIdx
    omega
  refine (ih.operand (d + 1) s hf (by omega)).child (DeepOnward.refl hf) (Onward.refl hf.le_endIdx)
    fun left s₁ h₁ => ?_
  exact (ih.infixChain (d + 1) min left s₁ h₁.fine (by have := h₁.onward.pos_le; omega)).child h₁
    (Onward.refl hf.le_endIdx) fun _ _ h => h

theorem operand_succ (hlast : (tokenAt ts (endIdx ts - 1)).kind.opensOperand = false)
    (ih : NestingBound ts n) (d : Nat) (s : State) (hf : Fine ts s)
    (hd : d ≤ s.pos + 2) : DeepRun ts (Parser.operand ts (n + 1) d) s := by
  rw [DeepRun, Parser.operand]
  simp only [bind_iff]
  refine advance_deep hlast hf fun tok s₁ h₁ hmoved => ?_
  have hs := Onward.refl hf.le_endIdx
  have hopen : tok.kind.opensOperand = true → d ≤ s₁.pos + 1 := fun h => by
    have := hmoved h
    omega
  split
  · exact h₁
  · exact h₁
  · exact h₁
  · exact h₁
  · exact h₁
  · -- a group: an expression and `)`
    rename_i hk
    simp only [bind_iff, previousSpan_iff, pure_iff]
    refine (ih.expr d .assignment s₁ h₁.fine (hopen (by rw [hk]; rfl))).child h₁ hs
      fun _ s₂ h₂ => ?_
    exact (expect_deep h₂.fine).child h₂ hs fun _ _ h => h
  · rename_i hk
    rw [bind_iff]
    exact (ih.expr d .unary s₁ h₁.fine (hopen (by rw [hk]; rfl))).child h₁ hs fun _ _ h => h
  · rename_i hk
    rw [bind_iff]
    exact (ih.expr d .unary s₁ h₁.fine (hopen (by rw [hk]; rfl))).child h₁ hs fun _ _ h => h
  · split <;> exact ⟨nestingDeep_of_ne (fun _ _ h => by cases h), h₁⟩

theorem infixChain_succ (ih : NestingBound ts n) (d : Nat) (min : Prec) (left : Expr) (s : State)
    (hf : Fine ts s) (hd : d ≤ s.pos + 2) :
    DeepRun ts (Parser.infixChain ts (n + 1) d min left) s := by
  rw [DeepRun, Parser.infixChain]
  simp only [bind_iff, atEnd_iff, peek_iff, ite_iff]
  split_ifs with hend
  · exact DeepOnward.refl hf
  split
  · exact DeepOnward.refl hf
  rename_i op level _
  simp only [ite_iff]
  split_ifs
  · exact DeepOnward.refl hf
  simp only [Bool.not_eq_true] at hend
  have hlt := lt_endIdx hf.le_endIdx hend
  simp only [bind_iff]
  rw [advance_iff hend]
  have hnext := DeepOnward.next hf hlt
  have hs := Onward.refl hf.le_endIdx
  have hrest : ∀ e s₂, DeepOnward ts { s with pos := s.pos + 1 } s₂ →
      Ends (Parser.infixChain ts n d min e) s₂ (fun _ => DeepOnward ts s)
        (fun e s' => NestingDeep ts e ∧ DeepOnward ts s s') True := fun e s₂ h₂ =>
    (ih.infixChain d min e s₂ h₂.fine (by have := h₂.onward.pos_le; dsimp only at this; omega)).child
      (hnext.trans h₂) hs fun _ _ h => h
  have hright : ∀ level', Ends (Parser.expr ts n d level') { s with pos := s.pos + 1 }
      (fun _ => DeepOnward ts { s with pos := s.pos + 1 })
      (fun e s' => NestingDeep ts e ∧ DeepOnward ts s s') True := fun level' =>
    (ih.expr d level' _ hnext.fine (by dsimp only; omega)).child (DeepOnward.refl hnext.fine)
      hnext.onward fun _ _ h => h
  cases op with
  | assign =>
    rw [bind_iff]
    refine (hright .assignment).mono (fun value s₂ h₂ => ?_) (fun _ _ h => h) id
    split
    · rw [bind_iff, pure_iff]
      exact hrest _ _ h₂
    · -- an assignment to no name: the error recorded is no nesting error
      rw [bind_iff, record_iff, bind_iff, pure_iff]
      exact hrest _ _ (h₂.trans (DeepOnward.record h₂.fine
        (nestingDeep_of_ne fun _ _ h => by cases h)))
  | _ =>
    rw [bind_iff]
    exact (hright level.tighter).mono
      (fun _ s₂ h₂ => by rw [bind_iff, pure_iff]; exact hrest _ _ h₂) (fun _ _ h => h) id

theorem statement_succ (ih : NestingBound ts n) (d : Nat) (s : State) (hf : Fine ts s)
    (hd : d ≤ s.pos) : DeepRun ts (Parser.statement ts (n + 1) d) s := by
  rw [DeepRun, Parser.statement]
  simp only [bind_iff, enter_iff]
  split_ifs with hlim
  · -- the limit is met here, after `maxNesting` tokens at least
    refine ⟨fun _ _ h => ?_, DeepOnward.refl hf⟩
    have := hf.le_endIdx
    omega
  simp only [bind_iff, currentSpan_iff, check_iff, ite_iff, previousSpan_iff, pure_iff, map_iff]
  split_ifs with hprint hif hwhile hfor hbrace
  · -- `print`, an expression and `;`
    have hnext := DeepOnward.next hf (lt_endIdx hf.le_endIdx (isEnd_eq_false_of_check hprint))
    have hd' : d + 1 ≤ ({ s with pos := s.pos + 1 } : State).pos := Nat.succ_le_succ hd
    rw [advance_iff (isEnd_eq_false_of_check hprint)]
    refine (ih.expr (d + 1) .assignment _ hnext.fine (Nat.le_succ_of_le hd')).child
      (.refl hnext.fine) hnext.onward fun _ s₂ h₂ => ?_
    exact (expect_deep h₂.fine).child h₂ hnext.onward fun _ _ h => hnext.trans h
  · -- `if`: `(`, a condition, `)`, a branch, and perhaps `else` and a branch
    have hnext := DeepOnward.next hf (lt_endIdx hf.le_endIdx (isEnd_eq_false_of_check hif))
    have hd' : d + 1 ≤ ({ s with pos := s.pos + 1 } : State).pos := Nat.succ_le_succ hd
    rw [advance_iff (isEnd_eq_false_of_check hif)]
    refine (expect_deep hnext.fine).child (.refl hnext.fine) hnext.onward fun _ s₂ h₂ => ?_
    refine (ih.expr (d + 1) .assignment s₂ h₂.fine (Nat.le_succ_of_le (h₂.pos_ge hd'))).child
      h₂ hnext.onward fun _ s₃ h₃ => ?_
    refine (expect_deep h₃.fine).child h₃ hnext.onward fun _ s₄ h₄ => ?_
    refine (ih.statement (d + 1) s₄ h₄.fine (h₄.pos_ge hd')).child h₄ hnext.onward
      fun _ s₅ h₅ => ?_
    refine accept_of (fun hend _ => ?_) (hnext.trans h₅)
    have h₆ := h₅.trans (DeepOnward.next h₅.fine (lt_endIdx h₅.fine.le_endIdx hend))
    exact (ih.statement (d + 1) _ h₆.fine (h₆.pos_ge hd')).child h₆ hnext.onward fun _ _ h => hnext.trans h
  · -- `while`: `(`, a condition, `)` and a body
    have hnext := DeepOnward.next hf (lt_endIdx hf.le_endIdx (isEnd_eq_false_of_check hwhile))
    have hd' : d + 1 ≤ ({ s with pos := s.pos + 1 } : State).pos := Nat.succ_le_succ hd
    rw [advance_iff (isEnd_eq_false_of_check hwhile)]
    refine (expect_deep hnext.fine).child (.refl hnext.fine) hnext.onward fun _ s₂ h₂ => ?_
    refine (ih.expr (d + 1) .assignment s₂ h₂.fine (Nat.le_succ_of_le (h₂.pos_ge hd'))).child
      h₂ hnext.onward fun _ s₃ h₃ => ?_
    refine (expect_deep h₃.fine).child h₃ hnext.onward fun _ s₄ h₄ => ?_
    exact (ih.statement (d + 1) s₄ h₄.fine (h₄.pos_ge hd')).child h₄ hnext.onward
      fun _ _ h => hnext.trans h
  · -- `for`: a name, `in`, a limit and a body
    have hnext := DeepOnward.next hf (lt_endIdx hf.le_endIdx (isEnd_eq_false_of_check hfor))
    have hd' : d + 1 ≤ ({ s with pos := s.pos + 1 } : State).pos := Nat.succ_le_succ hd
    rw [advance_iff (isEnd_eq_false_of_check hfor)]
    refine (expectIdentifier_deep hnext.fine).child (.refl hnext.fine) hnext.onward
      fun _ s₂ h₂ => ?_
    refine (expect_deep h₂.fine).child h₂ hnext.onward fun _ s₃ h₃ => ?_
    refine (ih.expr (d + 1) .assignment s₃ h₃.fine (Nat.le_succ_of_le (h₃.pos_ge hd'))).child
      h₃ hnext.onward fun _ s₄ h₄ => ?_
    exact (ih.statement (d + 1) s₄ h₄.fine (h₄.pos_ge hd')).child h₄ hnext.onward
      fun _ _ h => hnext.trans h
  · -- a block: its items and `}`
    have hnext := DeepOnward.next hf (lt_endIdx hf.le_endIdx (isEnd_eq_false_of_check hbrace))
    have hd' : d + 1 ≤ ({ s with pos := s.pos + 1 } : State).pos := Nat.succ_le_succ hd
    rw [advance_iff (isEnd_eq_false_of_check hbrace)]
    refine (ih.blockItems (d + 1) #[] _ hnext.fine hd').child (.refl hnext.fine) hnext.onward
      fun _ s₂ h₂ => ?_
    exact (expect_deep h₂.fine).child h₂ hnext.onward fun _ _ h => hnext.trans h
  · -- an expression and `;`: the expression is entered with no token taken
    have hs := Onward.refl hf.le_endIdx
    refine (ih.expr (d + 1) .assignment s hf (Nat.succ_le_succ hd)).child (.refl hf) hs
      fun _ s₂ h₂ => ?_
    exact (expect_deep h₂.fine).child h₂ hs fun _ _ h => h

theorem declaration_succ (ih : NestingBound ts n) (d : Nat) (s : State) (hf : Fine ts s)
    (hd : d ≤ s.pos) : DeepRun ts (Parser.declaration ts (n + 1) d) s := by
  rw [DeepRun, Parser.declaration]
  simp only [bind_iff, check_iff, ite_iff, currentSpan_iff, previousSpan_iff, pure_iff, map_iff]
  have hs := Onward.refl hf.le_endIdx
  split_ifs with hvar
  · -- `var`, perhaps a type word, a name, perhaps `=` and a value, and `;`
    have hnext := DeepOnward.next hf (lt_endIdx hf.le_endIdx (isEnd_eq_false_of_check hvar))
    rw [expect_iff, if_pos hvar]
    refine (typeTag_deep hnext.fine).child hnext hs fun _ s₂ h₂ => ?_
    refine (expectIdentifier_deep h₂.fine).child h₂ hs fun _ s₃ h₃ => ?_
    refine accept_of (fun hend _ => ?_) ((expect_deep h₃.fine).child h₃ hs fun _ _ h => h)
    have h₄ := h₃.trans (DeepOnward.next h₃.fine (lt_endIdx h₃.fine.le_endIdx hend))
    refine (ih.expr d .assignment _ h₄.fine (Nat.le_succ_of_le (h₄.pos_ge hd))).child h₄ hs
      fun _ s₅ h₅ => ?_
    exact (expect_deep h₅.fine).child h₅ hs fun _ _ h => h
  · exact ih.statement d s hf hd

theorem recovering_succ (hlast : (tokenAt ts (endIdx ts - 1)).kind.opensOperand = false)
    (ih : NestingBound ts n) (d : Nat) (s : State) (hf : Fine ts s)
    (hd : d ≤ s.pos) : DeepRun ts (Parser.recovering ts (n + 1) d) s := by
  rw [DeepRun, Parser.recovering]
  simp only [bind_iff, get_iff]
  rw [tryCatch_iff (by rfl), map_iff]
  refine (ih.declaration d s hf hd).mono (fun _ _ h => h) (fun e s₁ h₁ => ?_) id
  have h₂ := h₁.2.trans (DeepOnward.record h₁.2.fine h₁.1)
  simp only [bind_iff, record_iff, get_iff, ite_iff, modify_iff, pure_iff]
  have hresume : ∀ s₃ : State, DeepOnward ts s s₃ →
      DeepOnward ts s { s₃ with pos := resumeFrom ts s₃.pos } := fun s₃ h₃ =>
    ⟨⟨Nat.le_trans h₃.onward.pos_le (le_resumeFrom _),
        resumeFrom_le_endIdx h₃.fine.le_endIdx, h₃.onward.errors_le⟩,
      resumeFrom_le_endIdx h₃.fine.le_endIdx, h₃.fine.deep⟩
  split_ifs
  · exact advance_deep hlast h₂.fine fun _ _ h₃ _ => hresume _ (h₂.trans h₃)
  · exact hresume _ h₂

theorem blockItems_succ (ih : NestingBound ts n) (d : Nat) (acc : Array Stmt) (s : State)
    (hf : Fine ts s) (hd : d ≤ s.pos) : DeepRun ts (Parser.blockItems ts (n + 1) d acc) s := by
  rw [DeepRun, Parser.blockItems]
  simp only [bind_iff, check_iff, atEnd_iff, ite_iff, pure_iff]
  split_ifs
  · exact DeepOnward.refl hf
  refine (ih.recovering d s hf hd).child (DeepOnward.refl hf) (Onward.refl hf.le_endIdx)
    fun _ s₁ h₁ => ?_
  exact (ih.blockItems d _ s₁ h₁.fine (Nat.le_trans hd h₁.onward.pos_le)).child h₁
    (Onward.refl hf.le_endIdx) fun _ _ h => h

theorem topItems_succ (ih : NestingBound ts n) (acc : Array Stmt) (s : State) (hf : Fine ts s) :
    DeepRun ts (Parser.topItems ts (n + 1) acc) s := by
  rw [DeepRun, Parser.topItems]
  simp only [bind_iff, atEnd_iff, ite_iff, pure_iff]
  split_ifs
  · exact DeepOnward.refl hf
  refine (ih.recovering 0 s hf (Nat.zero_le _)).child (DeepOnward.refl hf)
    (Onward.refl hf.le_endIdx) fun _ s₁ h₁ => ?_
  exact (ih.topItems _ s₁ h₁.fine).child h₁ (Onward.refl hf.le_endIdx) fun _ _ h => h

theorem zero : NestingBound ts 0 where
  expr _ _ _ _ _ := by rw [DeepRun, Parser.expr]; exact exhausted_iff.mpr trivial
  operand _ _ _ _ := by rw [DeepRun, Parser.operand]; exact exhausted_iff.mpr trivial
  infixChain _ _ _ _ _ _ := by rw [DeepRun, Parser.infixChain]; exact exhausted_iff.mpr trivial
  statement _ _ _ _ := by rw [DeepRun, Parser.statement]; exact exhausted_iff.mpr trivial
  declaration _ _ _ _ := by rw [DeepRun, Parser.declaration]; exact exhausted_iff.mpr trivial
  recovering _ _ _ _ := by rw [DeepRun, Parser.recovering]; exact exhausted_iff.mpr trivial
  blockItems _ _ _ _ _ := by rw [DeepRun, Parser.blockItems]; exact exhausted_iff.mpr trivial
  topItems _ _ _ := by rw [DeepRun, Parser.topItems]; exact exhausted_iff.mpr trivial

theorem succ (hlast : (tokenAt ts (endIdx ts - 1)).kind.opensOperand = false)
    (ih : NestingBound ts n) : NestingBound ts (n + 1) where
  expr := ih.expr_succ
  operand := operand_succ hlast ih
  infixChain := ih.infixChain_succ
  statement := ih.statement_succ
  declaration := ih.declaration_succ
  recovering := recovering_succ hlast ih
  blockItems := ih.blockItems_succ
  topItems := ih.topItems_succ

end NestingBound

/-- When the token before the first end opens no operand, the nesting limit is met only after
`maxNesting - 1` tokens, with any fuel. -/
theorem nestingBound (hlast : (tokenAt ts (endIdx ts - 1)).kind.opensOperand = false)
    (n : Nat) : NestingBound ts n := by
  induction n with
  | zero => exact NestingBound.zero
  | succ n ih => exact NestingBound.succ hlast ih

/-- When the token before the first end opens no operand, every nesting error of a run is
`NestingDeep`. -/
theorem run_errors_deep (hlast : (tokenAt ts (endIdx ts - 1)).kind.opensOperand = false)
    (fuel : Nat) {errs : List ParseError} (h : run fuel ts = some (.error errs)) :
    ∀ e ∈ errs, NestingDeep ts e := by
  have hends := (nestingBound hlast fuel).topItems #[] ⟨0, #[]⟩ ⟨Nat.zero_le _, by simp⟩
  unfold run at h
  unfold DeepRun Ends at hends
  rcases hr : (topItems ts fuel #[]).run.run ⟨0, #[]⟩ with ⟨(e | _) | body, s'⟩ <;>
    rw [hr] at h hends
  · -- stopped by an error: the errors recorded and that one
    simp only [Option.some.injEq, Except.error.injEq] at h
    subst h
    intro e' he'
    rcases Array.mem_push.mp (Array.mem_toList_iff.mp he') with he' | rfl
    · exact hends.2.fine.deep e' he'
    · exact hends.1
  · cases h
  · -- read to the end: the errors recorded
    simp only [Option.some.injEq] at h
    split at h
    · cases h
    · simp only [Except.error.injEq] at h
      subst h
      exact fun e he => hends.fine.deep e (Array.mem_toList_iff.mp he)

/-! ## Counting the tokens before the end -/

theorem endIdx_eq_of {p : Nat} (hbefore : ∀ i < p, isEnd (tokenAt ts i) = false)
    (hat : isEnd (tokenAt ts p) = true) : endIdx ts = p := by
  rcases Nat.lt_trichotomy (endIdx ts) p with hlt | heq | hgt
  · have := hbefore _ hlt
    rw [isEnd_endIdx] at this
    cases this
  · exact heq
  · rw [isEnd_of_lt_endIdx hgt] at hat
    cases hat

theorem endIdx_terminate (tokens : List Token) :
    endIdx (terminate tokens) = tokens.findIdx isEnd := by
  have hle : tokens.findIdx isEnd ≤ tokens.length := List.findIdx_le_length
  refine endIdx_eq_of (fun i hi => ?_) ?_
  · rw [tokenAt_terminate (by omega)]
    simpa using List.not_of_lt_findIdx hi
  · rcases Nat.lt_or_ge (tokens.findIdx isEnd) tokens.length with hlt | hge
    · rw [tokenAt_terminate hlt]
      exact List.findIdx_getElem
    · rw [Nat.le_antisymm hle hge]
      exact isEnd_terminate tokens

theorem takeWhile_not_isEnd (tokens : List Token) :
    tokens.takeWhile (fun t => !isEnd t) = tokens.take (tokens.findIdx isEnd) := by
  induction tokens with
  | nil => rfl
  | cons t rest ih =>
    rw [List.takeWhile_cons, List.findIdx_cons]
    cases h : isEnd t
    · simp [ih]
    · simp

theorem opensOperand_of_isEnd {t : Token} (h : isEnd t = true) :
    t.kind.opensOperand = false := by
  unfold isEnd at h
  split at h
  · rename_i hk
    rw [hk]
    rfl
  · cases h

theorem isEnd_eq_false_of_opensOperand {t : Token} (h : t.kind.opensOperand = true) :
    isEnd t = false := by
  cases hend : isEnd t
  · rfl
  · rw [opensOperand_of_isEnd hend] at h
    cases h

/-! ## Reading an opening token again at the end -/

/-- At the end of input, after a token that opens an operand, an expression `k` levels below the
limit reads that token again and again, one level deeper each time, and fails at the limit
without moving. -/
theorem expr_reopens {s : State} {err : ParseError → State → Prop} {cut : Prop}
    (hat : isEnd (tokenAt ts s.pos) = true)
    (hopen : (tokenAt ts (s.pos - 1)).kind.opensOperand = true)
    (herr : err (.nestingTooDeep .expression (tokenAt ts s.pos).span) s) :
    ∀ (k n d : Nat) (min : Prec) (ok : Expr → State → Prop), d + k = maxNesting → 2 * k < n →
      Ends (Parser.expr ts n d min) s ok err cut := by
  intro k
  induction k with
  | zero =>
    intro n d min ok hd hn
    obtain ⟨n, rfl⟩ : ∃ m, n = m + 1 := ⟨n - 1, by omega⟩
    rw [Parser.expr, bind_iff, enter_iff, if_pos (by omega)]
    exact herr
  | succ k ih =>
    intro n d min ok hd hn
    obtain ⟨n, rfl⟩ : ∃ m, n = m + 2 := ⟨n - 2, by omega⟩
    rw [Parser.expr, bind_iff, enter_iff, if_neg (by omega), bind_iff, Parser.operand, bind_iff,
      advance_iff_end hat]
    -- the token read again opens a group or a unary operand, one level deeper
    rcases TokenKind.eq_of_opensOperand hopen with hk | hk | hk <;>
      simp only [hk, bind_iff] <;>
      exact ih n (d + 1) _ _ (by omega) (by omega)

/-- An expression that starts at a token that opens an operand, the last before the end, takes
it and fails at the nesting limit at the end. -/
theorem expr_opening {s : State} {d n : Nat} {min : Prec} {ok : Expr → State → Prop}
    {err : ParseError → State → Prop} {cut : Prop}
    (hopen : (tokenAt ts s.pos).kind.opensOperand = true)
    (hat : isEnd (tokenAt ts (s.pos + 1)) = true)
    (herr : err (.nestingTooDeep .expression (tokenAt ts (s.pos + 1)).span)
      { s with pos := s.pos + 1 })
    (hd : d < maxNesting) (hn : 2 * (maxNesting - d) < n) :
    Ends (Parser.expr ts n d min) s ok err cut := by
  have hend := isEnd_eq_false_of_opensOperand hopen
  have hopen' : (tokenAt ts ((s.pos + 1) - 1)).kind.opensOperand = true := by
    rw [Nat.add_sub_cancel]
    exact hopen
  obtain ⟨n, rfl⟩ : ∃ m, n = m + 2 := ⟨n - 2, by omega⟩
  rw [Parser.expr, bind_iff, enter_iff, if_neg (by omega), bind_iff, Parser.operand, bind_iff,
    advance_iff hend]
  rcases TokenKind.eq_of_opensOperand hopen with hk | hk | hk <;>
    simp only [hk, bind_iff] <;>
    exact expr_reopens (s := { s with pos := s.pos + 1 }) hat hopen' herr
      (maxNesting - (d + 1)) n (d + 1) _ _ (by omega) (by omega)

/-- A token list whose first token opens an operand and whose second ends the input: the one
item read fails at the nesting limit, the error is recorded, and the reading ends there. -/
theorem topItems_opening (h0 : (tokenAt ts 0).kind.opensOperand = true)
    (h1 : isEnd (tokenAt ts 1) = true) (n : Nat) (hn : 2 * maxNesting + 8 ≤ n) :
    Ends (topItems ts n #[]) ⟨0, #[]⟩
      (fun acc s => acc = #[] ∧ s.errors = #[.nestingTooDeep .expression (tokenAt ts 1).span])
      (fun _ _ => False) False := by
  have h0e := isEnd_eq_false_of_opensOperand h0
  have hidx : endIdx ts = 1 :=
    endIdx_eq_of (fun i hi => by obtain rfl : i = 0 := (by omega); exact h0e) h1
  have hresume : resumeFrom ts 1 = 1 :=
    Nat.le_antisymm (hidx ▸ resumeFrom_le_endIdx (by omega)) (le_resumeFrom 1)
  obtain ⟨n, rfl⟩ : ∃ m, n = m + 7 := ⟨n - 7, by omega⟩
  rw [topItems, bind_iff, atEnd_iff]
  simp only [h0e, Bool.false_eq_true, ↓reduceIte]
  rw [bind_iff, recovering, bind_iff, get_iff]
  rw [tryCatch_iff (by rfl), map_iff]
  rw [declaration]
  have hword := TokenKind.alike_of_opensOperand h0
  simp only [bind_iff, check_iff, h0e, hword .kwVar rfl, Bool.not_false,
    Bool.and_false, Bool.false_eq_true, ↓reduceIte]
  rw [statement]
  simp only [bind_iff, enter_iff, if_neg (by decide : ¬maxNesting ≤ 0), currentSpan_iff, check_iff,
    h0e, hword .kwPrint rfl, hword .kwIf rfl, hword .kwWhile rfl, hword .kwFor rfl,
    hword .leftBrace rfl, Bool.not_false, Bool.and_false, Bool.false_eq_true, ↓reduceIte]
  refine expr_opening h0 h1 ?_ (by decide) (by simp only [maxNesting] at hn ⊢; omega)
  simp only [record_iff, get_iff, bind_iff, ite_iff, modify_iff, pure_iff, hresume,
    if_neg (Nat.succ_ne_zero 0)]
  rw [topItems, bind_iff, atEnd_iff]
  simp only [h1, ↓reduceIte, pure_iff]
  exact ⟨trivial, rfl⟩

end Parser

/-- A nesting error is met only after `maxNesting - 1` tokens before the first end token, or at
the end of input, when the last token before it opens an operand and is read there again. -/
theorem Program.ofTokens_nesting_error {tokens : List Token} {errs : List ParseError}
    (h : Program.ofTokens tokens = .error errs) {what : Production} {sp : Span}
    (hin : .nestingTooDeep what sp ∈ errs) :
    maxNesting - 1 ≤ (tokens.takeWhile fun t => !Parser.isEnd t).length ∨
      ∃ t ∈ (tokens.takeWhile fun t => !Parser.isEnd t).getLast?,
        t.kind.opensOperand = true := by
  rw [Parser.takeWhile_not_isEnd, ← Parser.endIdx_terminate]
  have hle : Parser.endIdx (Parser.terminate tokens) ≤ tokens.length := by
    rw [Parser.endIdx_terminate]
    exact List.findIdx_le_length
  cases hlast : (Parser.tokenAt (Parser.terminate tokens)
      (Parser.endIdx (Parser.terminate tokens) - 1)).kind.opensOperand with
  | false =>
    left
    dsimp only [Program.ofTokens] at h
    rcases hr : Parser.run (Parser.fuelFor (Parser.terminate tokens).size)
        (Parser.terminate tokens) with _ | r <;> rw [hr] at h
    · -- out of fuel: no error at all
      cases h
      cases hin
    · rw [Option.getD_some] at h
      subst h
      have hdeep := Parser.run_errors_deep hlast _ hr _ hin what sp rfl
      rw [List.length_take_of_le hle]
      exact hdeep
  | true =>
    right
    rcases Nat.eq_zero_or_pos (Parser.endIdx (Parser.terminate tokens)) with h0 | hpos
    · -- with no token before the end, the token read again is the end token itself
      have hsame : Parser.endIdx (Parser.terminate tokens) - 1 =
          Parser.endIdx (Parser.terminate tokens) := by omega
      rw [hsame, Parser.opensOperand_of_isEnd Parser.isEnd_endIdx] at hlast
      cases hlast
    · refine ⟨tokens[Parser.endIdx (Parser.terminate tokens) - 1], ?_, ?_⟩
      · rw [List.getLast?_take, if_neg (Nat.pos_iff_ne_zero.mp hpos),
          List.getElem?_eq_getElem (by omega)]
        rfl
      · rw [← Parser.tokenAt_terminate (by omega)]
        exact hlast

/-- A token that opens an operand, alone, is refused as nested too deeply: the reader takes it,
reads it again at the end, and nests until the limit.  The error stands at the end token added
after it. -/
theorem Program.ofTokens_opening_alone (t : Token) (h : t.kind.opensOperand = true) :
    Program.ofTokens [t] =
      .error [.nestingTooDeep .expression ⟨t.span.stop, t.span.stop, t.span.line, 0⟩] := by
  have hts : Parser.terminate [t] = #[t, ⟨.eof, ⟨t.span.stop, t.span.stop, t.span.line, 0⟩⟩] := by
    simp [Parser.terminate, Parser.isEnd_eq_false_of_opensOperand h]
  have h0 : (Parser.tokenAt (Parser.terminate [t]) 0).kind.opensOperand = true := by
    rw [hts]
    exact h
  have h1 : Parser.isEnd (Parser.tokenAt (Parser.terminate [t]) 1) = true := by
    rw [hts]
    rfl
  have hends := Parser.topItems_opening h0 h1 (Parser.fuelFor (Parser.terminate [t]).size)
    (by simp only [Parser.fuelFor, maxNesting]; omega)
  dsimp only [Program.ofTokens, Parser.run]
  unfold Parser.Ends at hends
  rcases hr : (Parser.topItems (Parser.terminate [t])
      (Parser.fuelFor (Parser.terminate [t]).size) #[]).run.run ⟨0, #[]⟩ with
    ⟨(e | _) | body, s'⟩ <;> rw [hr] at hends
  · exact hends.elim
  · exact hends.elim
  · -- read to the end with the one error recorded
    obtain ⟨rfl, hs'⟩ := hends
    simp only [hs', hts]
    rfl

theorem lone_paren_error_opens_operand :
    Program.ofTokens [⟨.leftParen, ⟨0, 0, 1, 1⟩⟩] = .error [.nestingTooDeep .expression ⟨0, 0, 1, 0⟩] ∧
      (maxNesting - 1 ≤
          (([⟨.leftParen, ⟨0, 0, 1, 1⟩⟩] : List Token).takeWhile fun t => !Parser.isEnd t).length ∨
        ∃ t ∈ (([⟨.leftParen, ⟨0, 0, 1, 1⟩⟩] : List Token).takeWhile
            fun t => !Parser.isEnd t).getLast?, t.kind.opensOperand = true) :=
  ⟨Program.ofTokens_opening_alone _ rfl,
    Program.ofTokens_nesting_error (Program.ofTokens_opening_alone _ rfl)
      (List.mem_singleton_self _)⟩

/-- One token before the end is far fewer than half the nesting limit, and a lone `(` is refused
as too deeply nested. -/
theorem lone_paren_nests_too_deep :
    Program.ofTokens [⟨.leftParen, ⟨0, 0, 1, 1⟩⟩] = .error [.nestingTooDeep .expression ⟨0, 0, 1, 0⟩] ∧
      (([⟨.leftParen, ⟨0, 0, 1, 1⟩⟩] : List Token).takeWhile fun t => !Parser.isEnd t).length <
        maxNesting / 2 :=
  ⟨Program.ofTokens_opening_alone _ rfl, by decide⟩

end StackScript
