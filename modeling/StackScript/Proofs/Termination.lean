import StackScript.Proofs.Outcomes

/-!
# The reader always stops

The reader's productions call each other with one unit of fuel less, so the fuel bounds how
deep the calls nest.  Every call either takes a token or goes one nesting level deeper, and
the loops over items and operators take a token each turn: measured from a position `p` at
depth `d`, four units for each token before the first end token and four for each nesting level
left (`Parser.need`), plus a small constant per production, are enough.  `Parser.FuelBound ts n`
states it for fuel `n` and every production at once; it holds for every `n`
(`Parser.fuelBound`), by one step lemma per production.

The same induction shows that every production moves the reader onward (`Parser.Onward`), and
that a statement, a declaration or an item read from before the end takes at least one token
(`Parser.Takes`), which is what makes the loops over items go down.

So the reader answers for every token list and every fuel from `4 * size + 4 * maxNesting + 5`
on (`Parser.run_isSome`), and the fuel `Program.ofTokens` gives is more than that
(`Program.ofTokens_terminates`).
-/

namespace StackScript

namespace Parser

open Ends

variable {ts : Array Token} {n : Nat}

/-- Fuel a production needs from position `p` at nesting depth `d`, besides a constant of its
own: four units for each token before the first end token and for each nesting level left. -/
def need (ts : Array Token) (p d : Nat) : Nat := 4 * (endIdx ts - p) + 4 * (maxNesting - d)

/-- With fuel `n`, every production moves the reader onward, a statement, a declaration or an
item takes a token unless it starts at the end, and none runs out of fuel unless `n` is below
its need. -/
structure FuelBound (ts : Array Token) (n : Nat) : Prop where
  expr : ∀ d min s, s.pos ≤ endIdx ts → Ends (Parser.expr ts n d min) s (fun _ => Onward ts s)
    (fun _ => Onward ts s) (n < need ts s.pos d + 2)
  operand : ∀ d s, s.pos ≤ endIdx ts → Ends (Parser.operand ts n d) s (fun _ => Onward ts s)
    (fun _ => Onward ts s) (n < need ts s.pos d + 3)
  infixChain : ∀ d min left s, s.pos ≤ endIdx ts → Ends (Parser.infixChain ts n d min left) s
    (fun _ => Onward ts s) (fun _ => Onward ts s) (n < need ts s.pos d + 2)
  statement : ∀ d s, s.pos ≤ endIdx ts → Ends (Parser.statement ts n d) s (fun _ => Takes ts s)
    (fun _ => Onward ts s) (n < need ts s.pos d + 2)
  declaration : ∀ d s, s.pos ≤ endIdx ts → Ends (Parser.declaration ts n d) s
    (fun _ => Takes ts s) (fun _ => Onward ts s) (n < need ts s.pos d + 3)
  recovering : ∀ d s, s.pos ≤ endIdx ts → Ends (Parser.recovering ts n d) s
    (fun _ => Takes ts s) (fun _ => Onward ts s) (n < need ts s.pos d + 4)
  blockItems : ∀ d acc s, s.pos ≤ endIdx ts → Ends (Parser.blockItems ts n d acc) s
    (fun _ => Onward ts s) (fun _ => Onward ts s) (n < need ts s.pos d + 5)
  topItems : ∀ acc s, s.pos ≤ endIdx ts → Ends (Parser.topItems ts n acc) s
    (fun _ => Onward ts s) (fun _ => Onward ts s) (n < need ts s.pos 0 + 5)

namespace FuelBound

/-! ## One step lemma per production -/

theorem expr_succ (ih : FuelBound ts n) (d : Nat) (min : Prec) (s : State)
    (hp : s.pos ≤ endIdx ts) : Ends (Parser.expr ts (n + 1) d min) s (fun _ => Onward ts s)
      (fun _ => Onward ts s) (n + 1 < need ts s.pos d + 2) := by
  rw [Parser.expr]
  simp only [bind_iff, enter_iff]
  split_ifs with hd
  · exact Onward.refl hp
  refine (ih.operand (d + 1) s hp).mono (fun left s₁ h₁ => ?_) (fun _ _ h => h) ?_
  · refine (ih.infixChain (d + 1) min left s₁ h₁.le_endIdx).mono (fun _ _ h => h₁.trans h)
      (fun _ _ h => h₁.trans h) ?_
    have := h₁.pos_le
    unfold need
    omega
  · unfold need
    omega

theorem operand_succ (ih : FuelBound ts n) (d : Nat) (s : State) (hp : s.pos ≤ endIdx ts) :
    Ends (Parser.operand ts (n + 1) d) s (fun _ => Onward ts s) (fun _ => Onward ts s)
      (n + 1 < need ts s.pos d + 3) := by
  rw [Parser.operand]
  simp only [bind_iff]
  refine advance_onward hp fun tok s₁ h₁ => ?_
  have hfuel : n < need ts s₁.pos d + 2 → n + 1 < need ts s.pos d + 3 := by
    have := h₁.pos_le
    unfold need
    omega
  split
  · exact h₁
  · exact h₁
  · exact h₁
  · exact h₁
  · exact h₁
  · -- a group: an expression and `)`
    simp only [bind_iff, previousSpan_iff, pure_iff]
    refine (ih.expr d .assignment s₁ h₁.le_endIdx).mono (fun e s₂ h₂ => ?_)
      (fun _ _ h => h₁.trans h) hfuel
    exact expect_onward h₂.le_endIdx (fun h => h₁.trans (h₂.trans (Onward.next h)))
      fun _ => h₁.trans h₂
  · rw [bind_iff]
    exact (ih.expr d .unary s₁ h₁.le_endIdx).mono (fun _ _ h => h₁.trans h)
      (fun _ _ h => h₁.trans h) hfuel
  · rw [bind_iff]
    exact (ih.expr d .unary s₁ h₁.le_endIdx).mono (fun _ _ h => h₁.trans h)
      (fun _ _ h => h₁.trans h) hfuel
  · split <;> exact h₁

theorem infixChain_succ (ih : FuelBound ts n) (d : Nat) (min : Prec) (left : Expr) (s : State)
    (hp : s.pos ≤ endIdx ts) : Ends (Parser.infixChain ts (n + 1) d min left) s
      (fun _ => Onward ts s) (fun _ => Onward ts s) (n + 1 < need ts s.pos d + 2) := by
  rw [Parser.infixChain]
  simp only [bind_iff, atEnd_iff, peek_iff, ite_iff]
  split_ifs with hend
  · exact Onward.refl hp
  split
  · exact Onward.refl hp
  rename_i op level _
  simp only [ite_iff]
  split_ifs
  · exact Onward.refl hp
  simp only [Bool.not_eq_true] at hend
  have hlt := lt_endIdx hp hend
  simp only [bind_iff]
  rw [advance_iff hend]
  have hnext := Onward.next hlt
  have hfuel : n < need ts (s.pos + 1) d + 2 → n + 1 < need ts s.pos d + 2 := by
    unfold need
    omega
  have hrest : ∀ e s₂, Onward ts { s with pos := s.pos + 1 } s₂ →
      Ends (Parser.infixChain ts n d min e) s₂ (fun _ => Onward ts s) (fun _ => Onward ts s)
        (n + 1 < need ts s.pos d + 2) := fun e s₂ h₂ =>
    (ih.infixChain d min e s₂ h₂.le_endIdx).mono (fun _ _ h => (hnext.trans h₂).trans h)
      (fun _ _ h => (hnext.trans h₂).trans h) (by have := h₂.pos_le; dsimp only at this; unfold need; omega)
  have hright : ∀ level', Ends (Parser.expr ts n d level') { s with pos := s.pos + 1 }
      (fun _ => Onward ts { s with pos := s.pos + 1 }) (fun _ => Onward ts s)
        (n + 1 < need ts s.pos d + 2) := fun level' =>
    (ih.expr d level' { s with pos := s.pos + 1 } hlt).mono (fun _ _ h => h)
      (fun _ _ h => hnext.trans h) hfuel
  cases op with
  | assign =>
    rw [bind_iff]
    refine (hright .assignment).mono (fun value s₂ h₂ => ?_) (fun _ _ h => h) id
    split
    · rw [bind_iff, pure_iff]
      exact hrest _ _ h₂
    · rw [bind_iff, record_iff, bind_iff, pure_iff]
      exact hrest _ _ (h₂.trans (Onward.record h₂.le_endIdx _))
  | _ =>
    rw [bind_iff]
    exact (hright level.tighter).mono
      (fun _ s₂ h₂ => by rw [bind_iff, pure_iff]; exact hrest _ _ h₂) (fun _ _ h => h) id

theorem statement_succ (ih : FuelBound ts n) (d : Nat) (s : State) (hp : s.pos ≤ endIdx ts) :
    Ends (Parser.statement ts (n + 1) d) s (fun _ => Takes ts s) (fun _ => Onward ts s)
      (n + 1 < need ts s.pos d + 2) := by
  rw [Parser.statement]
  simp only [bind_iff, enter_iff]
  split_ifs with hd
  · exact Onward.refl hp
  have hfuel : ∀ s₂ : State, Onward ts s s₂ → ∀ c ≤ 5, n < need ts s₂.pos (d + 1) + c →
      n + 1 < need ts s.pos d + 2 := by
    intro s₂ h₂ c hc
    have := h₂.pos_le
    unfold need
    omega
  simp only [bind_iff, currentSpan_iff, check_iff, ite_iff, previousSpan_iff, pure_iff, map_iff]
  split_ifs with hprint hif hwhile hfor hbrace
  · -- `print`, an expression and `;`
    have hlt := lt_endIdx hp (isEnd_eq_false_of_check hprint)
    have hnext := Onward.next hlt
    rw [advance_iff (isEnd_eq_false_of_check hprint)]
    refine (ih.expr (d + 1) .assignment { s with pos := s.pos + 1 } hlt).child (Onward.refl hlt)
      hnext (fun e s₂ h₂ => ?_) (hfuel _ hnext 2 (by omega))
    exact (expect_onward' h₂.le_endIdx).child h₂ hnext (fun _ _ h₃ => Takes.of_next hlt h₃)
      False.elim
  · -- `if`: `(`, a condition, `)`, a branch, and perhaps `else` and a branch
    have hlt := lt_endIdx hp (isEnd_eq_false_of_check hif)
    have hnext := Onward.next hlt
    rw [advance_iff (isEnd_eq_false_of_check hif)]
    refine (expect_onward' (s := { s with pos := s.pos + 1 }) hlt).child (Onward.refl hlt) hnext
      (fun _ s₂ h₂ => ?_) False.elim
    refine (ih.expr (d + 1) .assignment s₂ h₂.le_endIdx).child h₂ hnext
      (fun _ s₃ h₃ => ?_) (hfuel _ (hnext.trans h₂) 2 (by omega))
    refine (expect_onward' h₃.le_endIdx).child h₃ hnext (fun _ s₄ h₄ => ?_) False.elim
    refine (ih.statement (d + 1) s₄ h₄.le_endIdx).mono (fun _ s₅ h₅ => ?_)
      (fun _ _ h => (hnext.trans h₄).trans h) (hfuel _ (hnext.trans h₄) 2 (by omega))
    have h₅ := h₄.trans h₅.onward
    refine accept_of (fun _ hk => ?_) (Takes.of_next hlt h₅)
    have hlt₅ := lt_endIdx h₅.le_endIdx ‹_›
    refine (ih.statement (d + 1) { s₅ with pos := s₅.pos + 1 } hlt₅).mono
      (fun _ _ h => Takes.of_next hlt (h₅.trans ((Onward.next hlt₅).trans h.onward)))
      (fun _ _ h => ((hnext.trans h₅).trans (Onward.next hlt₅)).trans h)
      (hfuel _ ((hnext.trans h₅).trans (Onward.next hlt₅)) 2 (by omega))
  · -- `while`: `(`, a condition, `)` and a body
    have hlt := lt_endIdx hp (isEnd_eq_false_of_check hwhile)
    have hnext := Onward.next hlt
    rw [advance_iff (isEnd_eq_false_of_check hwhile)]
    refine (expect_onward' (s := { s with pos := s.pos + 1 }) hlt).child (Onward.refl hlt) hnext
      (fun _ s₂ h₂ => ?_) False.elim
    refine (ih.expr (d + 1) .assignment s₂ h₂.le_endIdx).child h₂ hnext
      (fun _ s₃ h₃ => ?_) (hfuel _ (hnext.trans h₂) 2 (by omega))
    refine (expect_onward' h₃.le_endIdx).child h₃ hnext (fun _ s₄ h₄ => ?_) False.elim
    exact (ih.statement (d + 1) s₄ h₄.le_endIdx).mono
      (fun _ _ h => Takes.of_next hlt (h₄.trans h.onward))
      (fun _ _ h => (hnext.trans h₄).trans h) (hfuel _ (hnext.trans h₄) 2 (by omega))
  · -- `for`: a name, `in`, a limit and a body
    have hlt := lt_endIdx hp (isEnd_eq_false_of_check hfor)
    have hnext := Onward.next hlt
    rw [advance_iff (isEnd_eq_false_of_check hfor)]
    refine (expectIdentifier_onward (s := { s with pos := s.pos + 1 }) hlt).child
      (Onward.refl hlt) hnext (fun _ s₂ h₂ => ?_) False.elim
    refine (expect_onward' h₂.le_endIdx).child h₂ hnext (fun _ s₃ h₃ => ?_) False.elim
    refine (ih.expr (d + 1) .assignment s₃ h₃.le_endIdx).child h₃ hnext
      (fun _ s₄ h₄ => ?_) (hfuel _ (hnext.trans h₃) 2 (by omega))
    exact (ih.statement (d + 1) s₄ h₄.le_endIdx).mono
      (fun _ _ h => Takes.of_next hlt (h₄.trans h.onward))
      (fun _ _ h => (hnext.trans h₄).trans h) (hfuel _ (hnext.trans h₄) 2 (by omega))
  · -- a block: its items and `}`
    have hlt := lt_endIdx hp (isEnd_eq_false_of_check hbrace)
    have hnext := Onward.next hlt
    rw [advance_iff (isEnd_eq_false_of_check hbrace)]
    refine (ih.blockItems (d + 1) #[] { s with pos := s.pos + 1 } hlt).child (Onward.refl hlt)
      hnext (fun _ s₂ h₂ => ?_) (hfuel _ hnext 5 (by omega))
    exact (expect_onward' h₂.le_endIdx).child h₂ hnext (fun _ _ h₃ => Takes.of_next hlt h₃)
      False.elim
  · -- an expression and `;`
    refine (ih.expr (d + 1) .assignment s hp).mono (fun _ s₂ h₂ => ?_) (fun _ _ h => h)
      (hfuel _ (Onward.refl hp) 2 (by omega))
    exact expect_onward h₂.le_endIdx
      (fun hlt₂ => Takes.of_lt (h₂.trans (Onward.next hlt₂)) (Nat.lt_succ_of_le h₂.pos_le))
      (fun _ => h₂)

theorem declaration_succ (ih : FuelBound ts n) (d : Nat) (s : State) (hp : s.pos ≤ endIdx ts) :
    Ends (Parser.declaration ts (n + 1) d) s (fun _ => Takes ts s) (fun _ => Onward ts s)
      (n + 1 < need ts s.pos d + 3) := by
  rw [Parser.declaration]
  simp only [bind_iff, check_iff, ite_iff, currentSpan_iff, previousSpan_iff, pure_iff, map_iff]
  split_ifs with hvar
  · -- `var`, perhaps a type word, a name, perhaps `=` and a value, and `;`
    have hlt := lt_endIdx hp (isEnd_eq_false_of_check hvar)
    have hnext := Onward.next hlt
    rw [expect_iff, if_pos hvar]
    refine (typeTag_onward (s := { s with pos := s.pos + 1 }) hlt).child (Onward.refl hlt) hnext
      (fun _ s₂ h₂ => ?_) False.elim
    refine (expectIdentifier_onward h₂.le_endIdx).child h₂ hnext (fun _ s₃ h₃ => ?_) False.elim
    have hsemi : ∀ s₄, Onward ts { s with pos := s.pos + 1 } s₄ → Ends (expect ts .semicolon) s₄
        (fun _ s' => Takes ts s s') (fun _ => Onward ts s) (n + 1 < need ts s.pos d + 3) :=
      fun s₄ h₄ => (expect_onward' h₄.le_endIdx).child h₄ hnext
        (fun _ _ h => Takes.of_next hlt h) False.elim
    refine accept_of (fun _ hk => ?_) (hsemi _ h₃)
    have hlt₃ := lt_endIdx h₃.le_endIdx ‹_›
    refine (ih.expr d .assignment { s₃ with pos := s₃.pos + 1 } hlt₃).child
      (h₃.trans (Onward.next hlt₃)) hnext (fun _ s₄ h₄ => hsemi s₄ h₄) ?_
    have := h₃.pos_le
    dsimp only at this ⊢
    unfold need
    omega
  · exact (ih.statement d s hp).mono (fun _ _ h => h) (fun _ _ h => h) (by omega)

theorem recovering_succ (ih : FuelBound ts n) (d : Nat) (s : State) (hp : s.pos ≤ endIdx ts) :
    Ends (Parser.recovering ts (n + 1) d) s (fun _ => Takes ts s) (fun _ => Onward ts s)
      (n + 1 < need ts s.pos d + 4) := by
  rw [Parser.recovering]
  simp only [bind_iff, get_iff]
  rw [tryCatch_iff (by rfl), map_iff]
  refine (ih.declaration d s hp).mono (fun _ _ h => h) (fun e s₁ h₁ => ?_) (by omega)
  have h₂ := h₁.trans (Onward.record h₁.le_endIdx e)
  simp only [bind_iff, record_iff, get_iff, ite_iff, modify_iff, pure_iff]
  have hresume : ∀ s₃ : State, Onward ts s s₃ →
      (isEnd (tokenAt ts s.pos) = false → s.pos < s₃.pos) →
        Takes ts s { s₃ with pos := resumeFrom ts s₃.pos } := fun s₃ h₃ hmoved =>
    ⟨⟨Nat.le_trans h₃.pos_le (le_resumeFrom _), resumeFrom_le_endIdx h₃.le_endIdx, h₃.errors_le⟩,
      fun hend => Nat.lt_of_lt_of_le (hmoved hend) (le_resumeFrom _)⟩
  split_ifs with hstay
  · -- no token was taken, so the one under the reader is taken now
    refine advance_of (fun hend => ?_) (fun hend => ?_)
    · refine hresume _ (h₂.trans (Onward.next (lt_endIdx h₂.le_endIdx hend))) fun _ => ?_
      dsimp only
      omega
    · refine hresume _ h₂ fun hend' => ?_
      dsimp only at hend
      rw [hstay, hend'] at hend
      cases hend
  · exact hresume _ h₂ fun _ => Nat.lt_of_le_of_ne h₂.pos_le (Ne.symm hstay)

theorem blockItems_succ (ih : FuelBound ts n) (d : Nat) (acc : Array Stmt) (s : State)
    (hp : s.pos ≤ endIdx ts) : Ends (Parser.blockItems ts (n + 1) d acc) s (fun _ => Onward ts s)
      (fun _ => Onward ts s) (n + 1 < need ts s.pos d + 5) := by
  rw [Parser.blockItems]
  simp only [bind_iff, check_iff, atEnd_iff, ite_iff, pure_iff]
  split_ifs with hstop
  · exact Onward.refl hp
  -- an item takes a token, so the rest of the block needs less fuel
  have hend : isEnd (tokenAt ts s.pos) = false := by simp_all
  refine (ih.recovering d s hp).mono (fun _ s₁ h₁ => ?_) (fun _ _ h => h) (by omega)
  have hlt := h₁.moved hend
  have := lt_endIdx hp hend
  exact (ih.blockItems d _ s₁ h₁.onward.le_endIdx).mono (fun _ _ h => h₁.onward.trans h)
    (fun _ _ h => h₁.onward.trans h) (by unfold need; omega)

theorem topItems_succ (ih : FuelBound ts n) (acc : Array Stmt) (s : State)
    (hp : s.pos ≤ endIdx ts) : Ends (Parser.topItems ts (n + 1) acc) s (fun _ => Onward ts s)
      (fun _ => Onward ts s) (n + 1 < need ts s.pos 0 + 5) := by
  rw [Parser.topItems]
  simp only [bind_iff, atEnd_iff, ite_iff, pure_iff]
  split_ifs with hstop
  · exact Onward.refl hp
  have hend : isEnd (tokenAt ts s.pos) = false := by simpa using hstop
  refine (ih.recovering 0 s hp).mono (fun _ s₁ h₁ => ?_) (fun _ _ h => h) (by omega)
  have hlt := h₁.moved hend
  have := lt_endIdx hp hend
  exact (ih.topItems _ s₁ h₁.onward.le_endIdx).mono (fun _ _ h => h₁.onward.trans h)
    (fun _ _ h => h₁.onward.trans h) (by unfold need; omega)

/-! ## Every fuel -/

theorem zero : FuelBound ts 0 where
  expr _ _ _ _ := by rw [Parser.expr]; exact exhausted_iff.mpr (by omega)
  operand _ _ _ := by rw [Parser.operand]; exact exhausted_iff.mpr (by omega)
  infixChain _ _ _ _ _ := by rw [Parser.infixChain]; exact exhausted_iff.mpr (by omega)
  statement _ _ _ := by rw [Parser.statement]; exact exhausted_iff.mpr (by omega)
  declaration _ _ _ := by rw [Parser.declaration]; exact exhausted_iff.mpr (by omega)
  recovering _ _ _ := by rw [Parser.recovering]; exact exhausted_iff.mpr (by omega)
  blockItems _ _ _ _ := by rw [Parser.blockItems]; exact exhausted_iff.mpr (by omega)
  topItems _ _ _ := by rw [Parser.topItems]; exact exhausted_iff.mpr (by omega)

theorem succ (ih : FuelBound ts n) : FuelBound ts (n + 1) where
  expr := ih.expr_succ
  operand := ih.operand_succ
  infixChain := ih.infixChain_succ
  statement := ih.statement_succ
  declaration := ih.declaration_succ
  recovering := ih.recovering_succ
  blockItems := ih.blockItems_succ
  topItems := ih.topItems_succ

end FuelBound

/-- Every fuel bounds the reader as `need` says. -/
theorem fuelBound (n : Nat) : FuelBound ts n := by
  induction n with
  | zero => exact FuelBound.zero
  | succ n ih => exact ih.succ

/-- The reader answers, for every token list, with any fuel of at least four units per token,
four per nesting level and five more. -/
theorem run_isSome (fuel : Nat) (h : 4 * ts.size + 4 * maxNesting + 5 ≤ fuel) :
    (run fuel ts).isSome := by
  have hends := (fuelBound fuel : FuelBound ts fuel).topItems #[] ⟨0, #[]⟩ (Nat.zero_le _)
  have hsize : endIdx ts ≤ ts.size := endIdx_le_size
  unfold run
  rcases hr : (topItems ts fuel #[]).run.run ⟨0, #[]⟩ with ⟨(e | _) | body, s'⟩
  · rfl
  · -- running out of fuel would take more fuel than the bound
    rw [Ends, hr] at hends
    unfold need at hends
    omega
  · rfl

end Parser

/-- Reading a program always stops: for every token list, whether or not it ends with an end
token and wherever end tokens stand in it, the reader answers within the fuel
`Program.ofTokens` gives it, and that answer is what `Program.ofTokens` returns. -/
theorem Program.ofTokens_terminates (tokens : List Token) :
    ∃ r, Parser.run (Parser.fuelFor (Parser.terminate tokens).size) (Parser.terminate tokens) =
      some r ∧ Program.ofTokens tokens = r := by
  have h : (Parser.run (Parser.fuelFor (Parser.terminate tokens).size)
      (Parser.terminate tokens)).isSome :=
    Parser.run_isSome _ (by simp only [Parser.fuelFor, maxNesting]; omega)
  obtain ⟨r, hr⟩ := Option.isSome_iff_exists.mp h
  exact ⟨r, hr, by simp only [Program.ofTokens, hr, Option.getD_some]⟩

end StackScript
