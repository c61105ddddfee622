import StackScript.Proofs.Reading
import StackScript.Proofs.Statements

/-!
# Compiled programs do what the interpreter does

A program that the reader returns and the compiler accepts runs on the machine, from any globals,
as `Program.exec` answers (`Program.compiled_runs_as_interpreted`):

* when the interpreter answers, with some number of rounds per loop, the machine ends the same
  way, normally or with the same error, with the same globals and the same printed lines;
* when the machine ends, the interpreter answers the same with enough rounds;

unless the machine stops first on a full stack.  Its stack holds `stackMax` values, locals and
temporaries together, and the interpreter has no such bound: a block whose locals fill the stack
overflows on the machine where the interpreter runs on (`stack_filling_block_overflows`).

The proof runs the statements' simulation of `Proofs/Statements` on the whole program, then the
`NIL` and `RETURN` that end its chunk.  Machine runs that have ended agree however many steps they
were given (`Machine.run_ended_eq`), which turns the interpreter's answers into the machine's
endings and back.
-/

namespace StackScript

open Machine Emit Emitter

/-- How the machine ends a run that the interpreter ends with `r`: by `RETURN` after a normal
end, with the error after a failed one. -/
def Outcome.ofEnding : Except RuntimeError Unit → Outcome
  | .ok () => .finished
  | .error e => .failed e

namespace Machine

variable {c : Chunk} {m : Machine}

/-- The machine `m` runs chunk `c` as `r` answers: if `r` is an ending, some run ends that way
with its globals and printed lines; if there is no answer, `fuel` steps leave it running. -/
def Answers (c : Chunk) (m : Machine) (fuel : Nat) : Option Ending → Prop
  | some (r, E) => ∃ n m', run c n m = (Outcome.ofEnding r, m') ∧ m'.globals = E.globals ∧
      m'.printed = E.printed
  | none => ∃ m', run c fuel m = (.outOfSteps, m')

/-- Some run of the machine stops on a full stack. -/
def Overflows (c : Chunk) (m : Machine) : Prop :=
  ∃ n l m', run c n m = (.failed (.stackOverflow l), m')

/-- Two runs of one machine that have both ended end alike. -/
theorem run_ended_eq {n k : Nat} {o o' : Outcome} {m₁ m₂ : Machine} (h₁ : run c n m = (o, m₁))
    (ho : o ≠ .outOfSteps) (h₂ : run c k m = (o', m₂)) (ho' : o' ≠ .outOfSteps) :
    o = o' ∧ m₁ = m₂ := by
  have e₁ := run_add_of_ended h₁ ho k
  have e₂ := run_add_of_ended h₂ ho' n
  rw [Nat.add_comm, e₁] at e₂
  exact Prod.mk.inj e₂

theorem run_nil_ret (hb₁ : c.byteAt? m.ip = some Op.pushNil.byte)
    (hb₂ : c.byteAt? (m.ip + 1) = some Op.ret.byte) :
    (∃ m', run c (1 + 1) m = (.finished, m') ∧ m'.globals = m.globals ∧
      m'.printed = m.printed) ∨ ∃ l m', run c (1 + 1) m = (.failed (.stackOverflow l), m') := by
  rw [run_succ, next_literal hb₁ (.inl ⟨rfl, rfl⟩)]
  by_cases hf : stackMax ≤ m.stack.size
  · simp only [hf, ↓reduceIte]
    exact .inr ⟨_, _, rfl⟩
  · simp only [hf, ↓reduceIte]
    have hs : m.stack.push Value.nil = (m.stack.toList ++ [Value.nil]).toArray := by
      apply Array.toList_inj.mp
      simp
    rw [run_succ, next_ret (s := m.stack.toList) (v := .nil) hb₂ hs]
    exact .inl ⟨_, rfl, rfl, rfl⟩

end Machine

/-- Where a program's code stands: its statements compiled from offset `0` at the top, with no
locals, then `NIL` and `RETURN`. -/
theorem Chunk.ofProgram_layout {p : Program} {c : Chunk} (hp : Stmt.allPlaced p.body)
    (h : Chunk.ofProgram p = .ok c) :
    ∃ st : Emitter, (Stmt.emitAll p.body).run ⟨Chunk.empty, #[], 0, []⟩ = .ok ((), st) ∧
      c.Holds st.chunk 0 st.chunk.size ∧ c.byteAt? st.chunk.size = some Op.pushNil.byte ∧
      c.byteAt? (st.chunk.size + 1) = some Op.ret.byte := by
  simp only [Chunk.ofProgram, bind, Except.bind] at h
  split at h
  · cases h
  rename_i r hr
  obtain ⟨⟨⟩, st₃⟩ := r
  cases h
  obtain ⟨⟨⟩, st₁, h₁, hr⟩ := run_bind_ok.mp hr
  obtain ⟨⟨⟩, st₂, h₂, h₃⟩ := run_bind_ok.mp hr
  have g₁ := (Stmt.emitAll_declares p.body hp h₁ valid_empty).1
  have w₂ := (Writes.refl g₁.valid).andOp h₂
  have w₃ := (Writes.refl w₂.valid).andOp h₃
  have s₂ := size_of_op h₂
  have s₃ := size_of_op h₃
  have hc : st₃.chunk.Holds st₃.chunk 0 st₃.chunk.size := .refl _ _ _
  obtain ⟨hb₂, -⟩ := (hc.of_writes w₃ (Nat.le_refl _) (by omega)).op h₂ g₁.valid (Nat.zero_le _)
    (by omega)
  obtain ⟨hb₃, -⟩ := hc.op h₃ w₂.valid (Nat.zero_le _) (by omega)
  rw [s₂] at hb₃
  exact ⟨st₁, h₁, hc.of_writes (w₂.trans w₃) (Nat.le_refl _) (by omega), hb₂, hb₃⟩

/-- A placed program's chunk, run from any globals `G`, does what the interpreter answers with
`fuel` rounds per loop, unless its stack overflows. -/
theorem Program.runs {p : Program} {c : Chunk} (hp : Stmt.allPlaced p.body)
    (hc : Chunk.ofProgram p = .ok c) (G : Globals) (fuel : Nat) :
    Answers c ⟨#[], G, 0, #[]⟩ fuel (p.exec fuel ⟨[], G, #[]⟩) ∨
      Overflows c ⟨#[], G, 0, #[]⟩ := by
  obtain ⟨st, h, hcode, hnil, hret⟩ := Chunk.ofProgram_layout hp hc
  have hall : Stmt.RunsAll c fuel p.body := Stmt.runsAll p.body hp
  have hR := hall h valid_empty hcode (E := ⟨[], G, #[]⟩) (m := ⟨#[], G, 0, #[]⟩) rfl
    ⟨by simp [Env.values], rfl, rfl⟩ rfl
  dsimp only at hR
  simp only [Program.exec]
  rcases hx : Stmt.execAll fuel 0 p.body ⟨[], G, #[]⟩ with _ | ⟨_ | ⟨⟩, E⟩ <;> rw [hx] at hR
  · -- no answer: the machine is busy for `fuel` steps, or overflows first
    rcases hR with ⟨m', hw⟩ | ⟨l, m', hf⟩
    · exact .inl ⟨m', hw.run_eq⟩
    · obtain ⟨n, hn⟩ := hf.run
      exact .inr ⟨n, l, m', hn⟩
  · -- an error: the machine fails with it
    rcases hR with ⟨n, m', -, -, hx, -⟩ | ⟨e', m', hf, ⟨hx, hs⟩ | ⟨l, rfl⟩⟩
    · cases hx
    · cases hx
      obtain ⟨n, hn⟩ := hf.run
      exact .inl ⟨n, m', hn, hs.globals, hs.printed⟩
    · obtain ⟨n, hn⟩ := hf.run
      exact .inr ⟨n, l, m', hn⟩
  · -- a normal end: the statements' code ends where `NIL` and `RETURN` stand
    rcases hR with ⟨n, m₁, hw, hip, -, hm, -⟩ | ⟨e', m', hf, ⟨hx, -⟩ | ⟨l, rfl⟩⟩
    · rw [← hip] at hnil hret
      rcases run_nil_ret hnil hret with ⟨m₂, h₂, hg, hpr⟩ | ⟨l, m₂, h₂⟩
      · exact .inl ⟨n + (1 + 1), m₂, by rw [hw.run_add, h₂]; rfl, hg.trans hm.globals,
          hpr.trans hm.printed⟩
      · exact .inr ⟨n + (1 + 1), l, m₂, by rw [hw.run_add, h₂]⟩
    · cases hx
    · obtain ⟨n, hn⟩ := hf.run
      exact .inr ⟨n, l, m', hn⟩

/-- A program that the reader returns and the compiler accepts runs on the machine, from any
globals `G`, as the interpreter answers, unless the machine's stack overflows: every answer of
the interpreter is an ending of the machine with the same globals and printed lines, and every
ending of the machine other than an overflow is an answer of the interpreter. -/
theorem Program.compiled_runs_as_interpreted {tokens : List Token} {p : Program} {c : Chunk}
    (hp : Program.ofTokens tokens = .ok p) (hc : Chunk.ofProgram p = .ok c) (G : Globals) :
    (∀ fuel r E, p.exec fuel ⟨[], G, #[]⟩ = some (r, E) →
      (∃ n m, Machine.run c n ⟨#[], G, 0, #[]⟩ = (Outcome.ofEnding r, m) ∧
        m.globals = E.globals ∧ m.printed = E.printed) ∨
      Overflows c ⟨#[], G, 0, #[]⟩) ∧
    (∀ n o m, Machine.run c n ⟨#[], G, 0, #[]⟩ = (o, m) → o ≠ .outOfSteps →
      (∀ l, o ≠ .failed (.stackOverflow l)) →
      ∃ fuel r E, p.exec fuel ⟨[], G, #[]⟩ = some (r, E) ∧ o = Outcome.ofEnding r ∧
        m.globals = E.globals ∧ m.printed = E.printed) := by
  have hplaced := Program.ofTokens_placed hp
  refine ⟨fun fuel r E hx => ?_, fun n o m hrun ho hov => ?_⟩
  · have h := Program.runs hplaced hc G fuel
    rw [hx] at h
    exact h
  · -- with `n` rounds per loop the interpreter answers: otherwise the machine would still run
    have h := Program.runs hplaced hc G n
    rcases hx : p.exec n ⟨[], G, #[]⟩ with _ | ⟨r, E⟩ <;> rw [hx] at h
    · rcases h with ⟨m', hm'⟩ | ⟨k, l, m', hk⟩
      · rw [hm'] at hrun
        cases hrun
        exact absurd rfl ho
      · exact absurd (run_ended_eq hk (by simp) hrun ho).1.symm (hov l)
    · rcases h with ⟨k, m', hk, hg, hpr⟩ | ⟨k, l, m', hk⟩
      · obtain ⟨rfl, rfl⟩ := run_ended_eq hrun ho hk (by cases r <;> simp [Outcome.ofEnding])
        exact ⟨n, r, E, hx, rfl, hg, hpr⟩
      · exact absurd (run_ended_eq hk (by simp) hrun ho).1.symm (hov l)

/-- Whether tokens read as a program that compiles, and the program and its chunk pass `test`:
a check that runs, for programs written out in full. -/
def Program.compilesWith (tokens : List Token) (test : Program → Chunk → Bool) : Bool :=
  match Program.ofTokens tokens with
  | .ok p =>
    match Chunk.ofProgram p with
    | .ok c => test p c
    | .error _ => false
  | .error _ => false

theorem Program.compilesWith_spec (tokens : List Token) (test : Program → Chunk → Bool)
    (h : Program.compilesWith tokens test = true) :
    ∃ p c, Program.ofTokens tokens = .ok p ∧ Chunk.ofProgram p = .ok c ∧ test p c = true := by
  unfold Program.compilesWith at h
  split at h
  case h_2 => cases h
  rename_i p hp
  split at h
  case h_2 => cases h
  rename_i c hc
  exact ⟨p, c, hp, hc, h⟩

/-- `loopsAndBranches` reads and compiles, and its chunk runs as the program does. -/
theorem loopsAndBranches_runs_as_interpreted :
    ∃ p c, Program.ofTokens loopsAndBranchesTokens = .ok p ∧ Chunk.ofProgram p = .ok c ∧
      ∀ fuel r E, p.exec fuel ⟨[], ∅, #[]⟩ = some (r, E) →
        (∃ n m, Machine.run c n ⟨#[], ∅, 0, #[]⟩ = (Outcome.ofEnding r, m) ∧
          m.globals = E.globals ∧ m.printed = E.printed) ∨
        Overflows c ⟨#[], ∅, 0, #[]⟩ := by
  obtain ⟨p, c, hp, hc, -⟩ :=
    Program.compilesWith_spec loopsAndBranchesTokens (fun _ _ => true) (by decide +kernel)
  exact ⟨p, c, hp, hc, (Program.compiled_runs_as_interpreted hp hc ∅).1⟩

/-- A block of `stackMax` locals `v0` … `v255`, all on line 1, then `print nil;` in it. -/
def stackFillingBlock : List Token :=
  let t (k : TokenKind) : Token := ⟨k, ⟨0, 0, 1, 1⟩⟩
  t .leftBrace :: ((List.range stackMax).flatMap fun i =>
      [t .kwVar, t (.identifier ("v" ++ toString i)), t .semicolon]) ++
    [t .kwPrint, t .kwNil, t .semicolon, t .rightBrace]

/-- The place of every token of `stackFillingBlock`: line 1, column 1. -/
def fillSpan : Span := ⟨0, 0, 1, 1⟩

/-- The declaration `var vi;` of `stackFillingBlock`. -/
def fillDeclaration (i : Nat) : Stmt := .declare ("v" ++ toString i) none none fillSpan

/-- The program `stackFillingBlock` spells. -/
def stackFillingProgram : Program :=
  ⟨[.block ((List.range stackMax).map fillDeclaration ++ [.print (.nil fillSpan) fillSpan])
    fillSpan]⟩

open StackScript.Parser in
/-- The reader reads `stackFillingBlock` as `stackFillingProgram`: production by production, with
the fuel `Program.ofTokens` gives. -/
theorem stackFillingBlock_reads :
    Program.ofTokens stackFillingBlock = .ok stackFillingProgram := by
  unfold Program.ofTokens
  have hsp := spells_terminate stackFillingBlock
  have hw : ∀ i : Nat, ([⟨.kwVar, ⟨0, 0, 1, 1⟩⟩, ⟨.identifier ("v" ++ toString i), ⟨0, 0, 1, 1⟩⟩,
      ⟨.semicolon, ⟨0, 0, 1, 1⟩⟩] : List Token).length = 3 := fun _ => rfl
  have hlen : stackFillingBlock.length = 1 + 3 * stackMax + 4 := by
    simp only [stackFillingBlock, List.length_cons, List.length_append, List.length_nil,
      length_flatMap_range hw]
    omega
  have hend := isEnd_terminate stackFillingBlock
  rw [hlen] at hend
  generalize terminate stackFillingBlock = ts at hsp hend ⊢
  simp only [stackFillingBlock, List.cons_append, Spells.cons_iff, Spells.append_iff] at hsp
  obtain ⟨h₀, hdecls, hp, hnil, hsemi, hclose, -⟩ := hsp
  simp only [length_flatMap_range hw, Nat.zero_add] at hdecls hp hnil hsemi hclose
  have hdecl : ∀ j < stackMax, tokenAt ts (1 + 3 * j) = ⟨.kwVar, fillSpan⟩ ∧
      tokenAt ts (1 + 3 * j + 1) = ⟨.identifier ("v" ++ toString j), fillSpan⟩ ∧
      tokenAt ts (1 + 3 * j + 2) = ⟨.semicolon, fillSpan⟩ := by
    intro j hj
    have h := Spells.flatMap_range hw hdecls hj
    simp only [Spells.cons_iff] at h
    exact ⟨h.1, h.2.1, by simpa [Nat.add_assoc, fillSpan] using h.2.2.1⟩
  -- the declarations, one item each, by induction on the number left
  have items : ∀ r j, j + r = stackMax → ∀ n,
      (blockItems ts (n + r + 3) 1 ((List.range j).map fillDeclaration).toArray).run.run
          ⟨1 + 3 * j, #[]⟩ =
        (blockItems ts (n + 3) 1 ((List.range stackMax).map fillDeclaration).toArray).run.run
          ⟨1 + 3 * stackMax, #[]⟩ := by
    intro r
    induction r with
    | zero =>
      intro j hj n
      subst hj
      rfl
    | succ r ih =>
      intro j hj n
      obtain ⟨hv, hx, hs⟩ := hdecl j (by omega)
      have hd := declaration_var (n := n + r + 1) (d := 1) (s := ⟨1 + 3 * j, #[]⟩) hv hx hs
      rw [show n + (r + 1) + 3 = n + r + 3 + 1 by omega,
        blockItems_item (by rw [hv]; rfl) (by rw [hv]; rfl) (recovering_ok hd),
        ← ih (j + 1) (by omega) n]
      simp only [Span.merge_self, List.range_succ, List.map_append, List.map_cons, List.map_nil,
        ← List.append_toArray]
      rw [show 1 + 3 * j + 3 = 1 + 3 * (j + 1) by omega]
      rfl
  have hexpr : ∀ n, (expr ts (n + 2) 2 .assignment).run.run ⟨1 + 3 * stackMax + 1, #[]⟩ =
      (.ok (.nil fillSpan), ⟨1 + 3 * stackMax + 1 + 1, #[]⟩) := by
    intro n
    rw [expr_run (by decide), Yields.run_bind, operand_nil hnil]
    exact infixChain_none (by rw [hsemi]; rfl)
  have hlast : ∀ n, (blockItems ts (n + 6) 1
      ((List.range stackMax).map fillDeclaration).toArray).run.run ⟨1 + 3 * stackMax, #[]⟩ =
        (.ok ((List.range stackMax).map fillDeclaration ++
          [Stmt.print (.nil fillSpan) fillSpan]).toArray, ⟨1 + 3 * stackMax + 3, #[]⟩) := by
    intro n
    have hs := statement_print (n := n + 2) (d := 1) (s := ⟨1 + 3 * stackMax, #[]⟩) (by decide) hp
      (hexpr n) hsemi
    have hd := (declaration_statement (n := n + 3) (d := 1) (s := ⟨1 + 3 * stackMax, #[]⟩)
      (by rw [hp]; rfl)).trans hs
    rw [show n + 6 = n + 3 + 1 + 1 + 1 by omega, blockItems_item (by rw [hp]; rfl)
      (by rw [hp]; rfl) (recovering_ok hd), show n + 3 + 1 + 1 = n + 4 + 1 by omega,
      blockItems_close (by rw [hclose])]
    simp [fillSpan]
  have hblock : ∀ n, (statement ts (n + stackMax + 7) 0).run.run ⟨0, #[]⟩ =
      (.ok (.block ((List.range stackMax).map fillDeclaration ++
        [Stmt.print (.nil fillSpan) fillSpan]) fillSpan), ⟨1 + 3 * stackMax + 4, #[]⟩) := by
    intro n
    have hi : (blockItems ts (n + stackMax + 6) 1 #[]).run.run ⟨0 + 1, #[]⟩ =
        (.ok ((List.range stackMax).map fillDeclaration ++
          [Stmt.print (.nil fillSpan) fillSpan]).toArray, ⟨1 + 3 * stackMax + 3, #[]⟩) := by
      have h := items stackMax 0 (by omega) (n + 3)
      simp only [List.range_zero, List.map_nil, Nat.mul_zero, Nat.add_zero] at h
      rw [show n + stackMax + 6 = n + 3 + stackMax + 3 by omega, h]
      exact hlast n
    rw [show n + stackMax + 7 = n + stackMax + 6 + 1 by omega,
      statement_block (s := ⟨0, #[]⟩) (by decide) h₀ hi hclose]
    simp [fillSpan]
  obtain ⟨F, hF⟩ : ∃ F, fuelFor ts.size = F + stackMax + 10 :=
    ⟨fuelFor ts.size - (stackMax + 10), by simp only [fuelFor, maxNesting, stackMax]; omega⟩
  have htop : (topItems ts (F + stackMax + 10) #[]).run.run ⟨0, #[]⟩ =
      (.ok #[.block ((List.range stackMax).map fillDeclaration ++
        [Stmt.print (.nil fillSpan) fillSpan]) fillSpan], ⟨1 + 3 * stackMax + 4, #[]⟩) := by
    have hd := (declaration_statement (n := F + stackMax + 7) (d := 0) (s := ⟨0, #[]⟩)
      (by rw [h₀]; rfl)).trans (hblock F)
    rw [show F + stackMax + 10 = F + stackMax + 7 + 1 + 1 + 1 by omega,
      topItems_item (by rw [h₀]; rfl) (recovering_ok hd),
      show F + stackMax + 7 + 1 + 1 = F + stackMax + 8 + 1 by omega, topItems_end hend]
    rfl
  dsimp only
  rw [hF, run_ok htop rfl]
  rfl

/-- Compiler and interpreter evaluated once on `stackFillingProgram`: its chunk begins with
`stackMax + 1` instructions `NIL` on line 1 (one per local, then the `nil` printed), and the
interpreter prints `nil` and ends normally.  The evaluation is a theorem of its own, whose last
step is the kernel's. -/
private theorem stackFillingProgram_evaluates :
    ((match Chunk.ofProgram stackFillingProgram with
      | .ok c => c.code.toList.take (stackMax + 1) == List.replicate (stackMax + 1) 1 &&
          c.lines.toList.take (stackMax + 1) == List.replicate (stackMax + 1) 1
      | .error _ => false) &&
    (match stackFillingProgram.exec 0 ⟨[], ∅, #[]⟩ with
      | some (.ok (), E) => decide (E.printed = #["nil"])
      | _ => false)) = true := by
  decide +kernel

theorem Machine.within_nils {c : Chunk} {G : Globals} {P : Array String} :
    ∀ k ≤ stackMax, (∀ i < k, c.byteAt? i = some Op.pushNil.byte) →
      Within c 0 k ⟨#[], G, 0, P⟩ k ⟨Array.replicate k .nil, G, k, P⟩
  | 0, _, _ => .refl _
  | k + 1, hk, hb => by
    have hnext := next_literal (c := c) (m := ⟨Array.replicate k .nil, G, k, P⟩) (v := .nil)
      (hb k (by omega)) (.inl ⟨rfl, rfl⟩)
    have hroom : ¬ stackMax ≤ (Array.replicate k Value.nil).size := by simp; omega
    simp only [hroom, ↓reduceIte] at hnext
    have hpush : (Array.replicate k Value.nil).push .nil = Array.replicate (k + 1) .nil := by
      apply Array.toList_inj.mp
      simp [List.replicate_succ']
    rw [hpush] at hnext
    exact (within_nils k (by omega) fun i hi => hb i (by omega)).mono (Nat.le_refl 0)
      (Nat.le_succ k) |>.trans (.single (Nat.zero_le k) (Nat.lt_succ_self k) hnext)

theorem Chunk.byteAt?_lineAt_of_take {c : Chunk} {k b l : Nat}
    (hcode : c.code.toList.take k = List.replicate k (UInt8.ofNat b))
    (hlines : c.lines.toList.take k = List.replicate k l) {i : Nat} (hi : i < k) :
    c.byteAt? i = some (b % 256) ∧ c.lineAt i = l := by
  have hc : c.code[i]? = some (UInt8.ofNat b) := by
    have := congrArg (·[i]?) hcode
    simpa [List.getElem?_take, hi] using this
  have hl : c.lines[i]? = some l := by
    have := congrArg (·[i]?) hlines
    simpa [List.getElem?_take, hi] using this
  exact ⟨by simp [byteAt?, hc], by simp [lineAt, Array.getD_eq_getD_getElem?, hl]⟩

/-- The interpreter prints `nil` for `stackFillingBlock` and ends normally, where the machine
stops on a full stack at its `nil`. -/
theorem stack_filling_block_overflows :
    ∃ p c, Program.ofTokens stackFillingBlock = .ok p ∧ Chunk.ofProgram p = .ok c ∧
      (∃ E, p.exec 0 ⟨[], ∅, #[]⟩ = some (.ok (), E) ∧ E.printed = #["nil"]) ∧
      ∃ m, Machine.run c (stackMax + 1) ⟨#[], ∅, 0, #[]⟩ = (.failed (.stackOverflow 1), m) := by
  obtain ⟨hc, hx⟩ := Bool.and_eq_true_iff.mp stackFillingProgram_evaluates
  split at hc
  case h_2 => cases hc
  rename_i c hcomp
  obtain ⟨hcode, hlines⟩ := Bool.and_eq_true_iff.mp hc
  have hnils := fun i (hi : i < stackMax + 1) =>
    Chunk.byteAt?_lineAt_of_take (eq_of_beq hcode) (eq_of_beq hlines) hi
  refine ⟨stackFillingProgram, c, stackFillingBlock_reads, hcomp, ?_, ?_⟩
  · split at hx
    · exact ⟨_, by assumption, of_decide_eq_true hx⟩
    · cases hx
  · -- `stackMax` nils fill the stack, and the next `NIL` overflows it on line 1
    have hw := within_nils (c := c) (G := ∅) (P := #[]) stackMax (Nat.le_refl _)
      fun i hi => (hnils i (by omega)).1
    have hb : c.byteAt? stackMax = some Op.pushNil.byte := (hnils stackMax (by omega)).1
    have hover := next_literal (c := c) (m := ⟨Array.replicate stackMax .nil, ∅, stackMax, #[]⟩)
      (v := .nil) hb (.inl ⟨rfl, rfl⟩)
    simp only [Array.size_replicate, Nat.le_refl, ↓reduceIte, (hnils stackMax (by omega)).2]
      at hover
    exact ⟨_, by rw [hw.run_add 1, run_succ, hover]⟩

end StackScript
