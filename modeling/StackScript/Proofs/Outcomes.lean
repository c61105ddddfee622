import StackScript.Proofs.Reading

/-!
# What a production ends with

`Parser.Ends x s ok err cut` says what becomes of the production `x` run from the state `s`: an
answer `a`, with the state `s'` it leaves, satisfies `ok a s'`; a parse error `e` satisfies
`err e s'` with the state it leaves; and the production runs out of fuel only if `cut` holds.
With `cut` false it is total correctness, with `cut` true partial correctness, and in between
a bound on the fuel: "runs out only if the fuel is below what it needs".

The rules follow the monad: `bind_iff` hands the rest of a `do` block to what the first step
answers, and each primitive step (taking a token, expecting one, entering a nesting level) has
one lemma saying what it answers and where it leaves the reader.

`Parser.endIdx ts` is the index of the first end-of-input token.  The reader stands at it or
before it: taking a token there does not move, and resuming after an error stops there.
`Parser.Onward ts s s'` says the reader went from `s` to `s'` without going back or past that
token, keeping every error recorded.
-/

namespace StackScript

namespace Parser

open Yields (run_bind)

/-! ## The first end of input -/

/-- The index of the first end-of-input token; every index past the array reads one. -/
def endIdx (ts : Array Token) : Nat := ts.toList.findIdx isEnd

variable {ts : Array Token}

theorem endIdx_le_size : endIdx ts ≤ ts.size := by
  have hle : ts.toList.findIdx isEnd ≤ ts.toList.length := List.findIdx_le_length
  simpa [endIdx] using hle

theorem isEnd_of_lt_endIdx {i : Nat} (h : i < endIdx ts) : isEnd (tokenAt ts i) = false := by
  have hi : i < ts.size := Nat.lt_of_lt_of_le h endIdx_le_size
  have hnot := List.not_of_lt_findIdx h
  simpa [tokenAt, Array.getD_eq_getD_getElem?, hi] using hnot

theorem isEnd_endIdx : isEnd (tokenAt ts (endIdx ts)) = true := by
  unfold endIdx
  by_cases h : ts.toList.findIdx isEnd < ts.size
  · have hend : isEnd ts.toList[ts.toList.findIdx isEnd] = true :=
      @List.findIdx_getElem _ isEnd ts.toList (by simpa using h)
    simpa [tokenAt, Array.getD_eq_getD_getElem?, h] using hend
  · simp [tokenAt, Array.getD_eq_getD_getElem?, h, endToken, isEnd]

theorem lt_endIdx {p : Nat} (hp : p ≤ endIdx ts) (h : isEnd (tokenAt ts p) = false) :
    p < endIdx ts := by
  rcases Nat.lt_or_eq_of_le hp with hlt | rfl
  · exact hlt
  · rw [isEnd_endIdx] at h
    cases h

theorem le_resumeFrom (p : Nat) : p ≤ resumeFrom ts p := by
  fun_induction resumeFrom ts p <;> omega

theorem resumeFrom_le_endIdx {p : Nat} (hp : p ≤ endIdx ts) : resumeFrom ts p ≤ endIdx ts := by
  fun_induction resumeFrom ts p with
  | case4 p _ t hend _ _ ih => exact ih (lt_endIdx hp (by simpa [t] using hend))
  | _ => exact hp

/-! ## Moving onward -/

/-- From `s` to `s'` the reader did not go back nor past the first end token, and every error
recorded at `s` is still there. -/
structure Onward (ts : Array Token) (s s' : State) : Prop where
  pos_le : s.pos ≤ s'.pos
  le_endIdx : s'.pos ≤ endIdx ts
  errors_le : s.errors.size ≤ s'.errors.size

namespace Onward

variable {s s₁ s₂ : State}

theorem refl (h : s.pos ≤ endIdx ts) : Onward ts s s := ⟨Nat.le_refl _, h, Nat.le_refl _⟩

theorem trans (h₁ : Onward ts s s₁) (h₂ : Onward ts s₁ s₂) : Onward ts s s₂ :=
  ⟨Nat.le_trans h₁.pos_le h₂.pos_le, h₂.le_endIdx, Nat.le_trans h₁.errors_le h₂.errors_le⟩

theorem next (h : s.pos < endIdx ts) : Onward ts s { s with pos := s.pos + 1 } :=
  ⟨Nat.le_succ _, h, Nat.le_refl _⟩

theorem record (h : s.pos ≤ endIdx ts) (e : ParseError) :
    Onward ts s { s with errors := s.errors.push e } :=
  ⟨Nat.le_refl _, h, by simp⟩

end Onward

/-! ## Outcomes of a production -/

/-- What becomes of production `x` run from `s`: an answer satisfies `ok`, a parse error `err`,
each with the state left behind, and running out of fuel is allowed only when `cut` holds. -/
def Ends {α : Type} (x : M α) (s : State) (ok : α → State → Prop)
    (err : ParseError → State → Prop) (cut : Prop) : Prop :=
  match x.run.run s with
  | (.ok a, s') => ok a s'
  | (.error (.error e), s') => err e s'
  | (.error .exhausted, _) => cut

namespace Ends

variable {α β : Type} {s s' : State} {ok ok' : β → State → Prop}
  {err err' : ParseError → State → Prop} {cut cut' : Prop}

theorem of_run {x : M β} {a : β} (h : x.run.run s = (.ok a, s')) :
    Ends x s ok err cut ↔ ok a s' := by
  simp only [Ends, h]

theorem pure_iff {a : β} : Ends (pure a : M β) s ok err cut ↔ ok a s := Iff.rfl

theorem exhausted_iff : Ends (throw .exhausted : M β) s ok err cut ↔ cut := Iff.rfl

/-- The rest of a `do` block runs from what its first step answers. -/
theorem bind_iff {x : M α} {f : α → M β} :
    Ends (x >>= f) s ok err cut ↔ Ends x s (fun a s₁ => Ends (f a) s₁ ok err cut) err cut := by
  unfold Ends
  rw [run_bind]
  rcases x.run.run s with ⟨(e | _) | a, s₁⟩ <;> rfl

theorem map_iff {x : M α} {f : α → β} :
    Ends (f <$> x) s ok err cut ↔ Ends x s (fun a s₁ => ok (f a) s₁) err cut := by
  rw [← bind_pure_comp, bind_iff]
  rfl

theorem ite_iff {c : Prop} [Decidable c] {x y : M β} :
    Ends (if c then x else y) s ok err cut ↔ if c then Ends x s ok err cut else Ends y s ok err cut := by
  split <;> rfl

theorem mono {x : M β} (h : Ends x s ok err cut) (hok : ∀ a s', ok a s' → ok' a s')
    (herr : ∀ e s', err e s' → err' e s') (hcut : cut → cut') : Ends x s ok' err' cut' := by
  unfold Ends at *
  revert h
  rcases x.run.run s with ⟨(e | _) | a, s₁⟩
  · exact herr _ _
  · exact hcut
  · exact hok _ _

/-- Two outcomes of one run hold together. -/
theorem and {x : M β} {ok₂ : β → State → Prop} {err₂ : ParseError → State → Prop} {cut₂ : Prop}
    (h₁ : Ends x s ok err cut) (h₂ : Ends x s ok₂ err₂ cut₂) :
    Ends x s (fun a s' => ok a s' ∧ ok₂ a s') (fun e s' => err e s' ∧ err₂ e s')
      (cut ∧ cut₂) := by
  unfold Ends at *
  revert h₁ h₂
  rcases x.run.run s with ⟨(e | _) | a, s₁⟩ <;> exact fun h₁ h₂ => ⟨h₁, h₂⟩

theorem tryCatch_iff {x : M β} {h : Stop → M β} (hx : h .exhausted = throw .exhausted) :
    Ends (tryCatch x h) s ok err cut ↔
      Ends x s ok (fun e s₁ => Ends (h (.error e)) s₁ ok err cut) cut := by
  unfold Ends
  rw [Yields.run_tryCatch]
  rcases x.run.run s with ⟨(e | _) | a, s₁⟩
  · rfl
  · dsimp only
    rw [hx]
    rfl
  · rfl

/-! ## Primitive steps -/

section Primitives

variable {err : ParseError → State → Prop} {cut : Prop}

theorem get_iff {ok : State → State → Prop} : Ends (get : M State) s ok err cut ↔ ok s s := of_run get_run

theorem modify_iff {ok : Unit → State → Prop} {f : State → State} : Ends (modify f : M Unit) s ok err cut ↔ ok () (f s) :=
  Iff.rfl

theorem record_iff {ok : Unit → State → Prop} {e : ParseError} :
    Ends (record e) s ok err cut ↔ ok () { s with errors := s.errors.push e } := Iff.rfl

theorem peek_iff {ok : Token → State → Prop} : Ends (peek ts) s ok err cut ↔ ok (tokenAt ts s.pos) s := of_run peek_run

theorem atEnd_iff {ok : Bool → State → Prop} : Ends (atEnd ts) s ok err cut ↔ ok (isEnd (tokenAt ts s.pos)) s :=
  of_run atEnd_run

theorem currentSpan_iff {ok : Span → State → Prop} : Ends (currentSpan ts) s ok err cut ↔ ok (tokenAt ts s.pos).span s :=
  of_run currentSpan_run

theorem previousSpan_iff {ok : Span → State → Prop} :
    Ends (previousSpan ts) s ok err cut ↔ ok (tokenAt ts (s.pos - 1)).span s :=
  of_run previousSpan_run

theorem check_iff {ok : Bool → State → Prop} {k : TokenKind} : Ends (check ts k) s ok err cut ↔
    ok (!isEnd (tokenAt ts s.pos) && (tokenAt ts s.pos).kind.alike k) s :=
  of_run (check_run k)

theorem advance_iff {ok : Token → State → Prop} (h : isEnd (tokenAt ts s.pos) = false) :
    Ends (advance ts) s ok err cut ↔ ok (tokenAt ts s.pos) { s with pos := s.pos + 1 } :=
  of_run (advance_run h)

/-- Taking a token at the end does not move, and answers the token before the reader. -/
theorem advance_iff_end {ok : Token → State → Prop} (h : isEnd (tokenAt ts s.pos) = true) :
    Ends (advance ts) s ok err cut ↔ ok (tokenAt ts (s.pos - 1)) s := by
  rw [of_run advance_run_eq, h]
  rfl

theorem enter_iff {ok : Unit → State → Prop} {what : Production} {d : Nat} : Ends (enter ts what d) s ok err cut ↔
    if maxNesting ≤ d then err (.nestingTooDeep what (tokenAt ts s.pos).span) s else ok () s := by
  unfold enter
  split <;> rfl

theorem expect_iff {ok : Token → State → Prop} {k : TokenKind} : Ends (expect ts k) s ok err cut ↔
    if !isEnd (tokenAt ts s.pos) && (tokenAt ts s.pos).kind.alike k then
      ok (tokenAt ts s.pos) { s with pos := s.pos + 1 }
    else
      err (.unexpectedToken (.token k) (tokenAt ts s.pos).kind (tokenAt ts s.pos).span) s := by
  unfold expect
  rw [bind_iff, check_iff]
  split
  · rename_i h
    simp only [Bool.and_eq_true, Bool.not_eq_eq_eq_not, Bool.not_true] at h
    exact advance_iff h.1
  · rfl

theorem accept_iff {ok : Bool → State → Prop} {k : TokenKind} : Ends (accept ts k) s ok err cut ↔
    if !isEnd (tokenAt ts s.pos) && (tokenAt ts s.pos).kind.alike k then
      ok true { s with pos := s.pos + 1 }
    else ok false s := by
  unfold accept
  rw [bind_iff, check_iff]
  split
  · rename_i h
    simp only [Bool.and_eq_true, Bool.not_eq_eq_eq_not, Bool.not_true] at h
    rw [bind_iff, advance_iff h.1]
    rfl
  · rfl

theorem advance_of {ok : Token → State → Prop}
    (hmove : isEnd (tokenAt ts s.pos) = false → ok (tokenAt ts s.pos) { s with pos := s.pos + 1 })
    (hstay : isEnd (tokenAt ts s.pos) = true → ok (tokenAt ts (s.pos - 1)) s) :
    Ends (advance ts) s ok err cut := by
  cases h : isEnd (tokenAt ts s.pos)
  · exact (advance_iff h).mpr (hmove h)
  · exact (advance_iff_end h).mpr (hstay h)

theorem expect_of {ok : Token → State → Prop} {k : TokenKind}
    (hok : isEnd (tokenAt ts s.pos) = false → (tokenAt ts s.pos).kind.alike k = true →
      ok (tokenAt ts s.pos) { s with pos := s.pos + 1 })
    (herr : err (.unexpectedToken (.token k) (tokenAt ts s.pos).kind (tokenAt ts s.pos).span) s) :
    Ends (expect ts k) s ok err cut := by
  rw [expect_iff]
  split
  · rename_i h
    simp only [Bool.and_eq_true, Bool.not_eq_eq_eq_not, Bool.not_true] at h
    exact hok h.1 h.2
  · exact herr

theorem accept_of {ok : Bool → State → Prop} {k : TokenKind}
    (htake : isEnd (tokenAt ts s.pos) = false → (tokenAt ts s.pos).kind.alike k = true →
      ok true { s with pos := s.pos + 1 })
    (hleave : ok false s) : Ends (accept ts k) s ok err cut := by
  rw [accept_iff]
  split
  · rename_i h
    simp only [Bool.and_eq_true, Bool.not_eq_eq_eq_not, Bool.not_true] at h
    exact htake h.1 h.2
  · exact hleave

theorem expectIdentifier_of {ok : String → State → Prop}
    (hok : ∀ name, (tokenAt ts s.pos).kind = .identifier name →
      ok name { s with pos := s.pos + 1 })
    (herr : ∀ k, err (.unexpectedToken .identifier k (tokenAt ts s.pos).span) s) :
    Ends (expectIdentifier ts) s ok err cut := by
  unfold expectIdentifier
  rw [bind_iff, peek_iff]
  split
  · rename_i name h
    rw [bind_iff, advance_iff (by simp [isEnd, h])]
    exact hok name h
  · exact herr _

theorem typeTag_of {ok : Option TypeTag → State → Prop}
    (hsome : ∀ tag, isEnd (tokenAt ts s.pos) = false → ok (some tag) { s with pos := s.pos + 1 })
    (hnone : ok none s) : Ends (typeTag ts) s ok err cut := by
  unfold typeTag
  rw [bind_iff, peek_iff]
  dsimp only
  split
  · rename_i name h
    have hend : isEnd (tokenAt ts s.pos) = false := by
      rcases htk : tokenAt ts s.pos with ⟨k, sp⟩
      rw [htk] at h
      cases k <;> simp_all [isEnd]
    rw [bind_iff, advance_iff hend]
    exact hsome _ hend
  · exact hnone

end Primitives

end Ends

/-! ## Steps that move the reader onward -/

/-- The reader moved onward and, unless it started at the end, took at least one token. -/
structure Takes (ts : Array Token) (s s' : State) : Prop where
  onward : Onward ts s s'
  moved : isEnd (tokenAt ts s.pos) = false → s.pos < s'.pos

namespace Takes

variable {s s' : State}

theorem of_lt (h : Onward ts s s') (hlt : s.pos < s'.pos) : Takes ts s s' := ⟨h, fun _ => hlt⟩

theorem of_next (hlt : s.pos < endIdx ts) (h : Onward ts { s with pos := s.pos + 1 } s') :
    Takes ts s s' :=
  of_lt ((Onward.next hlt).trans h) (Nat.lt_of_lt_of_le (Nat.lt_succ_self _) h.pos_le)

end Takes

namespace Ends

variable {α : Type} {s s₁ s₂ : State} {err : ParseError → State → Prop} {cut : Prop}

theorem child {x : M α} {ok : α → State → Prop} {c : Prop}
    (hx : Ends x s₂ (fun _ => Onward ts s₂) (fun _ => Onward ts s₂) c) (h : Onward ts s₁ s₂)
    (hs : Onward ts s s₁) (hk : ∀ a s₃, Onward ts s₁ s₃ → ok a s₃) (hc : c → cut) :
    Ends x s₂ ok (fun _ => Onward ts s) cut :=
  hx.mono (fun a s₃ h₃ => hk a s₃ (h.trans h₃)) (fun _ _ h₃ => hs.trans (h.trans h₃)) hc

theorem advance_onward {ok : Token → State → Prop} (hp : s.pos ≤ endIdx ts)
    (hk : ∀ tok s₁, Onward ts s s₁ → ok tok s₁) : Ends (advance ts) s ok err cut :=
  advance_of (fun h => hk _ _ (Onward.next (lt_endIdx hp h))) (fun _ => hk _ _ (Onward.refl hp))

theorem expect_onward {ok : Token → State → Prop} {k : TokenKind} (hp : s.pos ≤ endIdx ts)
    (hok : s.pos < endIdx ts → ok (tokenAt ts s.pos) { s with pos := s.pos + 1 })
    (herr : ∀ e, err e s) : Ends (expect ts k) s ok err cut :=
  expect_of (fun h _ => hok (lt_endIdx hp h)) (herr _)

theorem expect_onward' {k : TokenKind} (hp : s.pos ≤ endIdx ts) :
    Ends (expect ts k) s (fun _ => Onward ts s) (fun _ => Onward ts s) False :=
  expect_onward hp Onward.next fun _ => Onward.refl hp

theorem expectIdentifier_onward (hp : s.pos ≤ endIdx ts) :
    Ends (expectIdentifier ts) s (fun _ => Onward ts s) (fun _ => Onward ts s) False :=
  expectIdentifier_of (fun _ h => Onward.next (lt_endIdx hp (by simp [isEnd, h])))
    (fun _ => Onward.refl hp)

theorem typeTag_onward (hp : s.pos ≤ endIdx ts) :
    Ends (typeTag ts) s (fun _ => Onward ts s) (fun _ => Onward ts s) False :=
  typeTag_of (fun _ h => Onward.next (lt_endIdx hp h)) (Onward.refl hp)

end Ends

theorem isEnd_eq_false_of_check {t : Token} {b : Bool} (h : (!isEnd t && b) = true) :
    isEnd t = false := by
  simp_all

end Parser

end StackScript
