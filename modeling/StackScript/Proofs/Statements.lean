import StackScript.Proofs.Simulation

/-!
# Compiled statements do what the interpreter does

The code the compiler writes for a statement, run on a machine that holds an environment with no
temporaries above its locals, does what `Stmt.exec` answers (`Stmt.runs`):

* for an answer that ends normally, it reaches the byte after the code with the stack back to the
  locals, now the ones the compiler has after the statement, holding the environment the
  statement ends with;
* for an error, it fails with that error, showing the globals and printed lines the statement
  ends with;
* for no answer (a loop ran out of rounds), it runs at least as many steps inside the code as
  the loops were given rounds;
* in every case it may instead overflow the stack.

Loops are followed round by round, by induction on the number of rounds left.
-/

namespace StackScript

open Machine

/-- The machine ended the statements normally at `q`: no temporaries above the locals, which
hold the environment of `r`, named as `locals`. -/
def Ends (q : Nat) (locals : Array Local) (r : Ending) (m : Machine) : Prop :=
  m.ip = q ∧ r.1 = .ok () ∧ r.2.Agrees [] m ∧ r.2.Named locals

section Ended

variable {c : Chunk} {a b q : Nat} {locals : Array Local} {m : Machine} {E : Env}

theorem Leads.ended_error {x : RuntimeError} {Q : Machine → Prop}
    (h : Leads c a b m (Ends q locals (.error x, E))
      (Raises ((.error x : Except RuntimeError Unit), E))) :
    Leads c a b m Q (Raises ((.error x : Except RuntimeError Unit), E)) :=
  h.mono (Nat.le_refl a) (Nat.le_refl b) (fun _ h => by cases h.2.1) fun _ _ h => h

theorem Leads.ended_ok {F : RuntimeError → Machine → Prop}
    (h : Leads c a b m (Ends q locals (.ok (), E))
      (Raises ((.ok () : Except RuntimeError Unit), E))) :
    Leads c a b m (Ends q locals (.ok (), E)) F :=
  h.mono (Nat.le_refl a) (Nat.le_refl b) (fun _ h => h) fun _ _ h => by cases h.1

end Ended

/-- The code on `[a, b)`, run from `m`, does what the interpreter answered: for an answer, it
ends as `Ends q locals` says or fails with its error; for no answer, it runs `n` steps inside the
code. Either may instead overflow the stack. -/
def Follows (c : Chunk) (a b q n : Nat) (locals : Array Local) (m : Machine) :
    Option Ending → Prop
  | some r => Leads c a b m (Ends q locals r) (Raises r)
  | none => Busy c a b m n

namespace Follows

variable {c : Chunk} {a b q n : Nat} {locals : Array Local} {m : Machine} {r : Option Ending}

theorem widen {a' b' : Nat} (h : Follows c a b q n locals m r) (ha : a' ≤ a) (hb : b ≤ b') :
    Follows c a' b' q n locals m r := by
  cases r with
  | some r => exact Leads.widen h ha hb
  | none => exact Busy.mono ha hb h

theorem step {m' : Machine} (ha : a ≤ m.ip) (hb : m.ip < b) (hnext : next c m = (.ok false, m'))
    (h : Follows c a b q n locals m' r) : Follows c a b q n locals m r := by
  cases r with
  | some r => exact Leads.step ha hb hnext h
  | none => exact (Busy.step ha hb hnext h).le (Nat.le_succ n)

theorem succ {m' : Machine} (ha : a ≤ m.ip) (hb : m.ip < b) (hnext : next c m = (.ok false, m'))
    (h : Follows c a b q n locals m' r) : Follows c a b q (n + 1) locals m r := by
  cases r with
  | some r => exact Leads.step ha hb hnext h
  | none => exact Busy.step ha hb hnext h

theorem push {full : Prop} [Decidable full] {l : Nat} {m₁ m₂ : Machine} (ha : a ≤ m.ip)
    (hb : m.ip < b)
    (hnext : next c m = if full then (.error (.stackOverflow l), m₁) else (.ok false, m₂))
    (h : ¬ full → Follows c a b q n locals m₂ r) : Follows c a b q n locals m r := by
  by_cases hf : full
  · rw [if_pos hf] at hnext
    cases r with
    | some r => exact Leads.overflow ha hb hnext
    | none => exact .inr ⟨l, m₁, 0, m, .refl m, ha, hb, hnext⟩
  · rw [if_neg hf] at hnext
    exact step ha hb hnext (h hf)

theorem bind {Q : Machine → Prop} (h : Leads c a b m Q fun _ _ => False)
    (k : ∀ m', Q m' → Follows c a b q n locals m' r) : Follows c a b q n locals m r := by
  cases r with
  | some r => exact (h.mono (Nat.le_refl a) (Nat.le_refl b) (fun _ h => h) nofun).bind k
  | none => exact Busy.of_leads h k

theorem returning {p : Nat} {temps : List Value} {v : Value} {E : Env}
    (h : Leads c a b m (Expr.Returns p temps (.ok v, E))
      (Raises ((.ok v : Except RuntimeError Value), E)))
    (k : ∀ m₁, E.Agrees (temps ++ [v]) m₁ → m₁.ip = p → Follows c a b q n locals m₁ r) :
    Follows c a b q n locals m r := by
  have h' : Leads c a b m (Expr.Returns p temps (.ok v, E)) fun _ _ => False :=
    h.mono (Nat.le_refl a) (Nat.le_refl b) (fun _ h => h) fun _ _ ⟨hx, _⟩ => by cases hx
  refine bind h' fun m₁ ⟨hip, _, hv, hm⟩ => ?_
  cases hv
  exact k m₁ hm hip

theorem raising {p : Nat} {temps : List Value} {x : RuntimeError} {E : Env}
    (h : Leads c a b m (Expr.Returns p temps (.error x, E))
      (Raises ((.error x : Except RuntimeError Value), E))) :
    Follows c a b q n locals m (some (.error x, E)) :=
  Leads.raising h

theorem andThen {q' : Nat} {locals' : Array Local} (h : Follows c a b q n locals m r)
    (k : ∀ r' m', r = some r' → Ends q locals r' m' → Leads c a b m' (Ends q' locals' r') (Raises r')) :
    Follows c a b q' n locals' m r := by
  cases r with
  | none => exact h
  | some r => exact Leads.bind h fun m' hm' => k r m' rfl hm'

theorem le {n' : Nat} (h : Follows c a b q n locals m r) (hn : n' ≤ n) :
    Follows c a b q n' locals m r := by
  cases r with
  | some r => exact h
  | none => exact Busy.le h hn

end Follows

/-! ## Popping -/

theorem Machine.within_pops {c : Chunk} {a b p : Nat} (ws : List Value) :
    ∀ (vs : List Value) (m : Machine), m.stack = (vs ++ ws).toArray → m.ip = p → a ≤ p →
      p + ws.length ≤ b → (∀ i < ws.length, c.byteAt? (p + i) = some Op.pop.byte) →
      Within c a b m ws.length { m with stack := vs.toArray, ip := p + ws.length } := by
  induction ws with
  | nil =>
    intro vs m hs hip _ _ _
    have hm : { m with stack := vs.toArray, ip := p + ([] : List Value).length } = m := by
      cases m
      simp_all
    rw [hm]
    exact .refl m
  | cons w ws ih =>
    intro vs m hs hip ha hb hpop
    have h₁ := ih (vs ++ [w]) m (by simp [hs]) hip ha (by simp at hb; omega)
      fun i hi => hpop i (by simp; omega)
    have hlast : c.byteAt? (p + ws.length) = some Op.pop.byte :=
      hpop ws.length (by simp)
    have h₂ : next c { m with stack := (vs ++ [w]).toArray, ip := p + ws.length } =
        (.ok false, { m with stack := vs.toArray, ip := p + (w :: ws).length }) := by
      rw [next_pop (s := vs) (v := w) hlast rfl]
      simp [Nat.add_assoc]
    exact h₁.trans (.single (by dsimp only; omega) (by simp at hb ⊢; omega) h₂)

theorem Leads.restore {c : Chunk} {a b q : Nat} {locals : Array Local} {extra : List String}
    {E : Env} {m : Machine} {F : RuntimeError → Machine → Prop}
    (hnames : E.locals.map Prod.fst = locals.toList.map Local.name ++ extra)
    (hm : E.Agrees [] m) (hip : m.ip = q) (ha : a ≤ q) (hb : q + extra.length ≤ b)
    (hpop : ∀ i < extra.length, c.byteAt? (q + i) = some Op.pop.byte) :
    Leads c a b m (Ends (q + extra.length) locals (.ok (), E.restore locals.size)) F := by
  have hlen : E.locals.length = locals.size + extra.length := by
    simpa using congrArg List.length hnames
  have hvals : E.values = E.values.take locals.size ++ E.values.drop locals.size :=
    (List.take_append_drop _ _).symm
  have hdrop : (E.values.drop locals.size).length = extra.length := by simp [hlen]
  refine .inl ⟨_, _, Machine.within_pops _ _ m (by rw [← hvals, hm.stack, List.append_nil])
    hip ha (by omega) fun i hi => hpop i (by omega), ?_⟩
  refine ⟨by simp [hdrop], rfl, ⟨?_, hm.globals, hm.printed⟩, ?_⟩
  · simp [Env.restore, Env.values, List.map_take]
  · simp only [Env.Named, Env.restore, List.map_take, hnames]
    simp

/-- What a compilation keeps of the code before it, `c` has too. -/
theorem Chunk.Holds.of_grows {c : Chunk} {st₁ st₂ : Emitter} {a b b₁ : Nat}
    (h : c.Holds st₂.chunk a b) (hg : st₁.Grows st₂) (hb₁ : b₁ ≤ st₁.chunk.size) (hb : b₁ ≤ b) :
    c.Holds st₁.chunk a b₁ :=
  h.trans (hg.holds.mono (Nat.zero_le a) hb₁) (Nat.le_refl a) hb

/-! ## Code that does what the interpreter does -/

/-- Code that does in chunk `c` what `run` answers at each block depth, for `n` steps when it has
no answer: wherever the compiler writes it, run on a machine that holds an environment whose
locals the compiler names, with nothing above them. -/
def Emit.Runs (c : Chunk) (n : Nat) (code : Emit Unit) (run : Nat → Env → Option Ending) :
    Prop :=
  ∀ ⦃st st' : Emitter⦄ ⦃E : Env⦄ ⦃m : Machine⦄, code.run st = .ok ((), st') → st.Valid →
    c.Holds st'.chunk st.chunk.size st'.chunk.size → E.Named st.locals → E.Agrees [] m →
    m.ip = st.chunk.size →
    Follows c st.chunk.size st'.chunk.size st'.chunk.size n st'.locals m (run st.depth E)

/-- The code of a statement does what the interpreter answers with `fuel` rounds per loop. -/
def Stmt.Runs (c : Chunk) (fuel : Nat) (s : Stmt) : Prop :=
  Emit.Runs c fuel s.emit fun d => s.exec fuel d

open Emit Emitter

variable {c : Chunk} {fuel : Nat}

theorem Expr.computes_init (init : Option Expr) (line : Nat) {st st' : Emitter} {E : Env}
    {temps : List Value} {m : Machine}
    (h : ((init.map Expr.emit).getD (op .pushNil line)).run st = .ok ((), st'))
    (hv : st.Valid) (hc : c.Holds st'.chunk st.chunk.size st'.chunk.size)
    (hn : E.Named st.locals) (hm : E.Agrees temps m) (hip : m.ip = st.chunk.size) :
    Leads c st.chunk.size st'.chunk.size m (Expr.Returns st'.chunk.size temps (Expr.evalInit init E))
      (Raises (Expr.evalInit init E)) := by
  cases init with
  | some e => exact Expr.computes c e h hv hc hn hm hip
  | none => exact leads_literal (.inl ⟨rfl, rfl⟩) h hc hm hip

theorem Expr.evalInit_named {locals : Array Local} (init : Option Expr) {E : Env}
    (h : E.Named locals) : (Expr.evalInit init E).2.Named locals := by
  cases init with
  | some e => exact e.eval_named h
  | none => exact h

theorem Emit.Runs.consuming {e : Expr} {o : Op} {line : Nat} {finish : Value → Env → Env}
    (hstep : ∀ {m : Machine} {E : Env} {v : Value}, c.byteAt? m.ip = some o.byte →
      E.Agrees [v] m → ∃ m', next c m = (.ok false, m') ∧ m'.ip = m.ip + 1 ∧
        (finish v E).Agrees [] m')
    (hnamed : ∀ v E, (finish v E).locals = E.locals) :
    Emit.Runs c fuel (do e.emit; op o line) fun _ E =>
      match e.eval E with
      | (.ok v, E') => some (.ok (), finish v E')
      | (.error x, E') => some (.error x, E') := by
  intro st st' E m h hv hc hn hm hip
  dsimp only
  obtain ⟨_, st₁, h₁, h₂⟩ := run_bind_ok.mp h
  have w₁ := Expr.emit_writes h₁ hv
  have w₂ := (Writes.refl w₁.valid).andOp h₂
  have s₂ := size_of_op h₂
  obtain ⟨hb, -⟩ := hc.op h₂ w₁.valid w₁.size (by omega)
  have hle := w₁.size
  have hE := (Expr.computes c e h₁ hv (hc.of_writes w₂ (Nat.le_refl _) (by omega)) hn hm
    hip).widen (Nat.le_refl _) (by omega : st₁.chunk.size ≤ st'.chunk.size)
  have hn₁ := e.eval_named hn (E := E)
  rcases he : e.eval E with ⟨_ | v, E₁⟩ <;> rw [he] at hE hn₁
  · exact Follows.raising hE
  · refine Follows.returning hE fun m₁ hm₁ hip₁ => ?_
    rw [← hip₁] at hb
    obtain ⟨m₂, hnext, hip₂, hm₂⟩ := hstep hb (by simpa using hm₁)
    refine Leads.step (by omega) (by omega) hnext (Leads.done ⟨by omega, rfl, hm₂, ?_⟩)
    rw [Env.Named, hnamed, w₂.locals, w₁.locals]
    exact hn₁

namespace Stmt.Runs

theorem expression (e : Expr) (sp : Span) : (Stmt.expression e sp).Runs c fuel := by
  unfold Stmt.Runs
  simp only [Stmt.emit, Stmt.exec]
  exact Emit.Runs.consuming
    (fun hb hm => ⟨_, next_pop hb hm.stack, rfl, ⟨by simp, hm.globals, hm.printed⟩⟩)
    fun _ _ => rfl

theorem print (e : Expr) (sp : Span) : (Stmt.print e sp).Runs c fuel := by
  unfold Stmt.Runs
  simp only [Stmt.emit, Stmt.exec]
  exact Emit.Runs.consuming
    (fun hb hm => ⟨_, next_print hb hm.stack, rfl,
      ⟨by simp [Env.values], hm.globals, by simp [hm.printed]⟩⟩)
    fun _ _ => rfl

theorem declare (n : String) (ty : Option TypeTag) (init : Option Expr) (sp : Span) :
    (Stmt.declare n ty init sp).Runs c fuel := by
  intro st st' E m h hv hc hn hm hip
  rw [Stmt.emit] at h
  simp only [Stmt.exec]
  obtain ⟨_, st₁, h₁, _, st₂, h₂, h₃⟩ := by simpa only [Emit.declare, run_bind_ok] using h
  obtain ⟨rfl, rfl⟩ : st₁ = _ ∧ st₁ = st₂ := by
    simpa only [StateT.run_get, Pure.pure, Except.pure, Except.ok.injEq, Prod.mk.injEq] using h₂
  have w₁ : st.Writes st₁ := by
    cases init with
    | some e => exact Expr.emit_writes h₁ hv
    | none => exact OnlyWrites.op h₁ hv
  have hn₁ := Expr.evalInit_named init hn (E := E)
  rw [w₁.depth] at h₃
  by_cases hd : 0 < st.depth
  · -- inside a block: the value stays on the stack as the new local's slot
    obtain ⟨slot, st₃, h₄, h₅⟩ := by simpa only [hd, ↓reduceIte, run_bind_ok] using h₃
    obtain ⟨-, rfl⟩ := run_pure_ok.mp h₅
    obtain ⟨-, -, rfl⟩ := addLocal_ok.mp h₄
    have hE := Expr.computes_init init sp.line h₁ hv hc hn hm hip
    rcases he : Expr.evalInit init E with ⟨_ | v, E₁⟩ <;> rw [he] at hE hn₁
    · exact Follows.raising hE
    · refine Follows.returning hE fun m₁ hm₁ hip₁ => Leads.done ⟨hip₁, rfl, ?_, ?_⟩
      · exact ⟨by simp [hm₁.stack, Env.declare, hd, Env.values],
          by simp [Env.declare, hd, hm₁.globals], by simp [Env.declare, hd, hm₁.printed]⟩
      · simp only [Env.Named, Env.declare, hd, ↓reduceIte, List.map_append, Array.toList_push]
        rw [hn₁, w₁.locals, w₁.depth]
        rfl
  · -- at the top: `DEFINE_GLOBAL` pops the value into the global of that name
    obtain ⟨k, st₃, h₄, h₅⟩ := by simpa only [hd, ↓reduceIte, run_bind_ok] using h₃
    obtain ⟨w₃, hcode, -, hk⟩ := nameConstant_writes w₁.valid h₄
    have w₅ := w₃.andOpWith h₅
    have s₃ : st₃.chunk.size = st₁.chunk.size := by simp [Chunk.size, hcode]
    have s₅ : st'.chunk.size = st₃.chunk.size + 2 := by
      obtain ⟨-, rfl⟩ := by simpa only [opWith_run, Except.ok.injEq, Prod.mk.injEq] using h₅
      simp
    have hle := w₁.size
    obtain ⟨hb, hk₁, -, -⟩ := hc.opWith h₅ w₃.valid (by omega) (by omega)
    have hk256 : k < 256 := by
      have := (Array.getElem?_eq_some_iff.mp hk).1
      have := w₃.valid.constants
      simp only [maxConstants] at this
      omega
    have hx : c.constants[k]? = some (.string n) := hc.constant (by
      obtain ⟨-, rfl⟩ := by simpa only [opWith_run, Except.ok.injEq, Prod.mk.injEq] using h₅
      simpa using hk)
    have hE := (Expr.computes_init init sp.line h₁ hv (hc.of_writes (w₃.andOpWith h₅)
      (Nat.le_refl _) (by omega)) hn hm hip).widen (Nat.le_refl _)
      (by omega : st₁.chunk.size ≤ st'.chunk.size)
    rcases he : Expr.evalInit init E with ⟨_ | v, E₁⟩ <;> rw [he] at hE hn₁
    · exact Follows.raising hE
    · refine Follows.returning hE fun m₁ hm₁ hip₁ => ?_
      have hs : m₁.stack = (E₁.values ++ [v]).toArray := by simp [hm₁.stack]
      rw [s₃, ← hip₁] at hb hk₁
      rw [Nat.mod_eq_of_lt hk256] at hk₁
      refine Leads.step (by omega) (by omega) (next_defineGlobal hb hk₁ hx hs)
        (Leads.done ⟨by simp [hip₁, s₅, s₃], rfl, ?_, ?_⟩)
      · exact ⟨by simp [Env.declare, hd, Env.values], by simp [Env.declare, hd, hm₁.globals],
          by simp [Env.declare, hd, hm₁.printed]⟩
      · simp only [Env.declare, hd, ↓reduceIte]
        rw [w₅.locals, w₁.locals]
        exact hn₁

end Stmt.Runs


/-! ## Sequences and blocks -/

/-- The code of a list of statements does what the interpreter answers for them in order. -/
def Stmt.RunsAll (c : Chunk) (fuel : Nat) (ss : List Stmt) : Prop :=
  Emit.Runs c fuel (Stmt.emitAll ss) fun d => Stmt.execAll fuel d ss

namespace Stmt.RunsAll

theorem nil : Stmt.RunsAll c fuel [] := by
  intro st st' E m h _ _ hn hm hip
  rw [Stmt.emitAll] at h
  obtain ⟨-, rfl⟩ := run_pure_ok.mp h
  simp only [Stmt.execAll]
  exact Leads.done ⟨hip, rfl, hm, hn⟩

theorem cons {s : Stmt} {rest : List Stmt} (hs : s.Runs c fuel) (hp : s.placed true)
    (hr : Stmt.RunsAll c fuel rest) (hd : (Stmt.emitAll rest).Declares) :
    Stmt.RunsAll c fuel (s :: rest) := by
  intro st st' E m h hv hc hn hm hip
  rw [Stmt.emitAll] at h
  obtain ⟨_, st₁, h₁, h₂⟩ := run_bind_ok.mp h
  obtain ⟨g₁, hd₁, -⟩ := Stmt.emit_scope hp h₁ hv
  obtain ⟨g₂, -, -⟩ := hd h₂ g₁.valid
  have hle := g₂.size
  simp only [Stmt.execAll]
  have hS := (hs h₁ hv (hc.of_grows g₂ (Nat.le_refl _) (by omega)) hn hm hip).widen
    (Nat.le_refl _) hle
  dsimp only at hS
  rcases he : s.exec fuel st.depth E with _ | ⟨_ | ⟨⟩, E₁⟩ <;> rw [he] at hS
  · exact hS
  · exact Leads.ended_error hS
  · -- the first statement ended normally: the rest starts where it ended
    refine Follows.bind (Leads.ended_ok hS) fun m₁ hdone => ?_
    obtain ⟨hip₁, -, hm₁, hn₁⟩ := hdone
    have hR := hr h₂ g₁.valid (hc.mono g₁.size (Nat.le_refl _)) hn₁ hm₁ hip₁
    dsimp only at hR
    rw [hd₁] at hR
    exact hR.widen g₁.size (Nat.le_refl _)

end Stmt.RunsAll

/-- A block runs its items one level deeper and pops the locals they declared, as the interpreter
drops them. -/
theorem Stmt.Runs.block {body : List Stmt} (hb : Stmt.RunsAll c fuel body)
    (hd : (Stmt.emitAll body).Declares) (sp : Span) : (Stmt.block body sp).Runs c fuel := by
  intro st st' E m h hv hc hn hm hip
  rw [Stmt.emit] at h
  simp only [Stmt.exec]
  obtain ⟨_, stA, h₁, _, st₂, h₂, h₃⟩ := by simpa only [Emit.block, run_bind_ok] using h
  obtain ⟨-, rfl⟩ := by simpa only [beginScope_run, Except.ok.injEq, Prod.mk.injEq] using h₁
  obtain ⟨g₂, hd₂, newer, hl₂, hnewer⟩ := hd h₂ hv.beginScope
  obtain ⟨g', -, hl'⟩ := (Writes.refl g₂.valid).grows.endScope hd₂ hl₂ hv.depth hnewer h₃
  obtain ⟨hsize, hpop⟩ : st'.chunk.size = st₂.chunk.size + newer.length ∧
      ∀ i < newer.length, st'.chunk.byteAt? (st₂.chunk.size + i) = some Op.pop.byte := by
    rw [endScope_newer hd₂ hl₂ hv.depth hnewer sp.line, Except.ok.injEq, Prod.mk.injEq] at h₃
    obtain ⟨-, rfl⟩ := h₃
    refine ⟨by simp [Chunk.size], fun i hi => ?_⟩
    simp [Chunk.byteAt?, Chunk.size, hi]
  have hle : st.chunk.size ≤ st₂.chunk.size := g₂.size
  have hB := (hb h₂ hv.beginScope (hc.of_grows g' (Nat.le_refl _) (by omega)) hn hm hip).widen
    (Nat.le_refl _) (by omega : st₂.chunk.size ≤ st'.chunk.size)
  dsimp only at hB
  rcases he : Stmt.execAll fuel (st.depth + 1) body E with _ | ⟨_ | ⟨⟩, E₁⟩ <;> rw [he] at hB
  · exact hB
  · exact Leads.ended_error hB
  · -- the body ended normally: one `POP` for each local it declared
    refine Leads.bind (Leads.ended_ok hB) fun m₁ hdone => ?_
    obtain ⟨hip₁, -, hm₁, hn₁⟩ := hdone
    have hlen : E.locals.length = st.locals.size := by simpa using congrArg List.length hn
    have hnames : E₁.locals.map Prod.fst =
        st.locals.toList.map Local.name ++ newer.map Local.name := by
      rw [hn₁, hl₂]
      simp
    have hk : newer.length = (newer.map Local.name).length := (List.length_map _).symm
    rw [hsize, hl', hlen, hk]
    refine Leads.restore hnames hm₁ hip₁ (by omega) (Nat.le_refl _) fun i hi => ?_
    rw [List.length_map] at hi
    rw [hc.byteAt? (by omega) (by omega)]
    exact hpop i hi


/-! ## Conditionals -/

/-- The code of an `else` branch does what the interpreter does with it. -/
def Stmt.RunsElse (c : Chunk) (fuel : Nat) (no : Option Stmt) : Prop :=
  Emit.Runs c fuel (Stmt.emitElse no) fun d => Stmt.execElse fuel d no

theorem Stmt.RunsElse.none : Stmt.RunsElse c fuel none := by
  intro st st' E m h _ _ hn hm hip
  rw [Stmt.emitElse] at h
  obtain ⟨-, rfl⟩ := run_pure_ok.mp h
  simp only [Stmt.execElse]
  exact Leads.done ⟨hip, rfl, hm, hn⟩

theorem Stmt.RunsElse.some {s : Stmt} (hs : s.Runs c fuel) : Stmt.RunsElse c fuel (some s) := by
  intro st st' E m h hv hc hn hm hip
  rw [Stmt.emitElse] at h
  simp only [Stmt.execElse]
  exact hs h hv hc hn hm hip

/-- An `if` computes its condition; the jump on it leads to the branch the interpreter takes,
which starts by popping the condition. -/
theorem Stmt.Runs.ifElse {cond : Expr} {yes : Stmt} {no : Option Stmt} (hy : yes.Runs c fuel)
    (hyw : yes.emit.OnlyWrites) (hn : Stmt.RunsElse c fuel no)
    (hnw : (Stmt.emitElse no).OnlyWrites) (sp : Span) :
    (Stmt.ifElse cond yes no sp).Runs c fuel := by
  intro st st' E m h hv hc hn₀ hm hip
  rw [Stmt.emit] at h
  simp only [Stmt.exec]
  obtain ⟨_, st₁, h₁, p, st₂, h₂, _, st₃, h₃, _, st₄, h₄, q, st₅, h₅, _, st₆, h₆, _, st₇, h₇,
    _, st₈, h₈, h₉⟩ := by simpa only [Emit.ifElse, run_bind_ok] using h
  -- the code: `cond`, `JUMP_IF_FALSE`, `POP`, `yes`, `JUMP`, `POP`, `no`
  have w₁ := Expr.emit_writes h₁ hv
  obtain ⟨w₂, rfl⟩ := (Writes.refl w₁.valid).andJump h₂
  have w₃ := (Writes.refl w₂.valid).andOp h₃
  have w₄ := hyw h₄ w₃.valid
  obtain ⟨w₅, rfl⟩ := (Writes.refl w₄.valid).andJump h₅
  have w₆ := ((((w₁.trans w₂).trans w₃).trans w₄).trans w₅).andPatch
    (by have := w₁.size; omega) h₆
  have w₇ := (Writes.refl w₆.valid).andOp h₇
  have w₈ := hnw h₈ w₇.valid
  have s₂ := size_of_jump h₂
  have s₃ := size_of_op h₃
  have s₅ := size_of_jump h₅
  have s₆ := size_of_patch h₆
  have s₇ := size_of_op h₇
  have s₉ := size_of_patch h₉
  have hle₁ := w₁.size
  have hle₄ := w₄.size
  have hle₈ := w₈.size
  have hcA : c.Holds st₈.chunk st.chunk.size (st₄.chunk.size + 1) :=
    (hc.mono (Nat.le_refl _) (by omega)).of_patch h₉ (.inl (Nat.le_refl _))
  have hcB : c.Holds st₈.chunk (st₄.chunk.size + 3) st₈.chunk.size :=
    (hc.mono (by omega) (by omega)).of_patch h₉ (.inr (Nat.le_refl _))
  have hc₆ : c.Holds st₆.chunk st.chunk.size (st₄.chunk.size + 1) :=
    hcA.of_writes (w₇.trans w₈) (by omega) (Nat.le_refl _)
  have hcL : c.Holds st₅.chunk st.chunk.size (st₁.chunk.size + 1) :=
    (hc₆.mono (Nat.le_refl _) (by omega)).of_patch h₆ (.inl (Nat.le_refl _))
  have hcM : c.Holds st₅.chunk (st₁.chunk.size + 3) (st₄.chunk.size + 1) :=
    (hc₆.mono (by omega) (Nat.le_refl _)).of_patch h₆ (.inr (Nat.le_refl _))
  obtain ⟨hjb, -, -⟩ := (hcL.of_writes ((w₃.trans w₄).trans w₅) (by omega) (Nat.le_refl _)).jump
    h₂ w₁.valid hle₁ (by omega)
  have hjd := (hc₆.patch h₆ (by omega) (by omega) (by omega)).1
  obtain ⟨hpb, -⟩ := (hcM.of_writes (w₄.trans w₅) (Nat.le_refl _) (by omega)).op h₃ w₂.valid
    (by omega) (by omega)
  obtain ⟨hkb, -, -⟩ := hcM.jump h₅ w₄.valid (by omega) (by omega)
  have hkd := (hc.patch h₉ (by omega) (by omega) (by omega)).1
  obtain ⟨hqb, -⟩ := (hcB.of_writes w₈ (Nat.le_refl _) (by omega)).op h₇ w₆.valid (by omega)
    (by omega)
  have hcc : c.Holds st₁.chunk st.chunk.size st₁.chunk.size :=
    hcL.of_writes (((w₂.trans w₃).trans w₄).trans w₅) (Nat.le_refl _) (by omega)
  have hcy : c.Holds st₄.chunk st₃.chunk.size st₄.chunk.size :=
    (hcM.of_writes w₅ (by omega) (by omega)).mono (by omega) (Nat.le_refl _)
  have hcn : c.Holds st₈.chunk st₇.chunk.size st₈.chunk.size :=
    hcB.mono (by omega) (Nat.le_refl _)
  have wAll := ((w₆.trans w₇).trans w₈).andPatch (by omega) h₉
  rw [s₉]
  have hC := (Expr.computes c cond h₁ hv hcc hn₀ hm hip).widen (Nat.le_refl _)
    (by omega : st₁.chunk.size ≤ st₈.chunk.size)
  have hn₁ := cond.eval_named hn₀ (E := E)
  rcases he : cond.eval E with ⟨_ | v, E₁⟩ <;> rw [he] at hC hn₁
  · exact Follows.raising hC
  · refine Follows.returning hC fun m₁ hm₁ hip₁ => ?_
    have hs₁ : m₁.stack = (E₁.values ++ [v]).toArray := by simp [hm₁.stack]
    rw [← hip₁] at hjb hjd
    have hnext := next_jumpIfFalse hjb hjd hs₁
    by_cases hx : v.isFalsy
    · -- false: the jump lands on the `POP` of the `else` branch, then the branch runs
      simp only [hx, ↓reduceIte] at hnext ⊢
      have hpos : m₁.ip + 3 + (st₅.chunk.size - (m₁.ip + 1) - 2) = st₆.chunk.size := by omega
      rw [hpos] at hnext
      have hpop := next_pop (m := { m₁ with ip := st₆.chunk.size }) hqb hs₁
      have hn₇ : E₁.Named st₇.locals := by rw [w₇.locals, w₆.locals]; exact hn₁
      have hd₇ : st₇.depth = st.depth := by rw [w₇.depth, w₆.depth]
      have hl₈ : st₈.locals = st'.locals := by rw [w₈.locals, w₇.locals, w₆.locals, wAll.locals]
      rw [← hd₇, ← hl₈]
      refine Follows.step (by omega) (by omega) hnext
        (Follows.step (by dsimp only; omega) (by dsimp only; omega) hpop ?_)
      refine (hn h₈ w₇.valid hcn hn₇ ?_ ?_).widen (by omega) (Nat.le_refl _)
      · exact ⟨by simp, hm₁.globals, hm₁.printed⟩
      · dsimp only
        omega
    · -- true: `POP`, the first branch, and the jump over the second
      simp only [hx, Bool.false_eq_true, ↓reduceIte] at hnext ⊢
      have hpop := next_pop (m := { m₁ with ip := m₁.ip + 3 })
        (by rw [hip₁, ← s₂]; exact hpb) hs₁
      have hn₃ : E₁.Named st₃.locals := by rw [w₃.locals, w₂.locals, w₁.locals]; exact hn₁
      have hd₃ : st₃.depth = st.depth := by rw [w₃.depth, w₂.depth, w₁.depth]
      rw [← hd₃]
      refine Follows.step (by omega) (by omega) hnext
        (Follows.step (by dsimp only; omega) (by dsimp only; omega) hpop ?_)
      refine Follows.andThen ((hy h₄ w₃.valid hcy hn₃ ?_ ?_).widen (by omega) (by omega)) ?_
      · exact ⟨by simp, hm₁.globals, hm₁.printed⟩
      · dsimp only
        omega
      · intro r' m' _ hr
        obtain ⟨hip', hr', hm', hn'⟩ := hr
        rw [← hip'] at hkb hkd
        refine Leads.step (by omega) (by omega) (next_jump hkb hkd)
          (Leads.done ⟨?_, hr', hm'.setIp _, ?_⟩)
        · dsimp only
          omega
        · rw [w₄.locals, w₃.locals, w₂.locals, w₁.locals] at hn'
          rw [wAll.locals]
          exact hn'


/-! ## Loops -/

/-- A `while` loop: each round computes the condition, leaves on a false one, and otherwise pops
it, runs the body and jumps back; by induction on the rounds left, the code does what
`Stmt.whileRounds` answers. -/
theorem Stmt.Runs.whileLoop {cond : Expr} {body : Stmt} (hb : body.Runs c fuel)
    (hbw : body.emit.OnlyWrites) (sp : Span) : (Stmt.whileLoop cond body sp).Runs c fuel := by
  intro st st' E m h hv hc hn₀ hm hip
  rw [Stmt.emit] at h
  simp only [Stmt.exec]
  obtain ⟨start, st₀, h₀, _, st₁, h₁, p, st₂, h₂, _, st₃, h₃, _, st₄, h₄, _, st₅, h₅, _, st₆, h₆,
    h₇⟩ := by simpa only [Emit.whileLoop, run_bind_ok] using h
  obtain ⟨rfl, rfl⟩ := by simpa only [offset_run, Except.ok.injEq, Prod.mk.injEq] using h₀
  -- the code: `cond`, `JUMP_IF_FALSE` out, `POP`, `body`, `LOOP` back, `POP`
  have w₁ := Expr.emit_writes h₁ hv
  obtain ⟨w₂, rfl⟩ := (Writes.refl w₁.valid).andJump h₂
  have w₃ := (Writes.refl w₂.valid).andOp h₃
  have w₄ := hbw h₄ w₃.valid
  have w₅ := (Writes.refl w₄.valid).andLoopBack h₅
  have w₆ := ((((w₁.trans w₂).trans w₃).trans w₄).trans w₅).andPatch
    (by have := w₁.size; omega) h₆
  have w₇ := (Writes.refl w₆.valid).andOp h₇
  have s₂ := size_of_jump h₂
  have s₃ := size_of_op h₃
  have s₆ := size_of_patch h₆
  have s₇ := size_of_op h₇
  have hle₁ := w₁.size
  have hle₄ := w₄.size
  have hc₆ : c.Holds st₆.chunk st.chunk.size st₆.chunk.size :=
    hc.of_writes w₇ (Nat.le_refl _) (by omega)
  have s₅ : st₅.chunk.size = st₄.chunk.size + 3 := by
    obtain ⟨-, rfl⟩ := loopBack_ok.mp h₅
    simp
  have hcL : c.Holds st₅.chunk st.chunk.size (st₁.chunk.size + 1) :=
    (hc₆.mono (Nat.le_refl _) (by omega)).of_patch h₆ (.inl (Nat.le_refl _))
  have hcR : c.Holds st₅.chunk (st₁.chunk.size + 3) st₅.chunk.size :=
    (hc₆.mono (by omega) (by omega)).of_patch h₆ (.inr (Nat.le_refl _))
  obtain ⟨hlb, hld, -⟩ := hcR.loopBack h₅ (by omega) (by omega)
  obtain ⟨hjb, -, -⟩ := (hcL.of_writes ((w₃.trans w₄).trans w₅) (by omega) (Nat.le_refl _)).jump
    h₂ w₁.valid hle₁ (by omega)
  have hjd := (hc₆.patch h₆ (by omega) (by omega) (by omega)).1
  obtain ⟨hpb, -⟩ := (hcR.of_writes (w₄.trans w₅) (Nat.le_refl _) (by omega)).op h₃ w₂.valid
    (by omega) (by omega)
  obtain ⟨hqb, -⟩ := hc.op h₇ w₆.valid (by omega) (by omega)
  have hcc : c.Holds st₁.chunk st.chunk.size st₁.chunk.size :=
    hcL.of_writes (((w₂.trans w₃).trans w₄).trans w₅) (Nat.le_refl _) (by omega)
  have hcb : c.Holds st₄.chunk st₃.chunk.size st₄.chunk.size :=
    (hcR.of_writes w₅ (Nat.le_refl _) (by omega)).mono (by omega) (Nat.le_refl _)
  have hl₇ : st'.locals = st.locals := by
    rw [w₇.locals, w₆.locals]
  have hl₄ : st₄.locals = st.locals := by
    rw [w₄.locals, w₃.locals, w₂.locals, w₁.locals]
  have hd₃ : st₃.depth = st.depth := by
    rw [w₃.depth, w₂.depth, w₁.depth]
  -- every round starts at the condition with the body's locals; induction on the rounds left
  suffices key : ∀ k ≤ fuel, ∀ (E : Env) (m : Machine), E.Named st.locals → E.Agrees [] m →
      m.ip = st.chunk.size → Follows c st.chunk.size st'.chunk.size st'.chunk.size k st'.locals m
        (Stmt.whileRounds cond (fun E => body.exec fuel st.depth E) k E) from
    key fuel (Nat.le_refl _) E m hn₀ hm hip
  intro k
  induction k with
  | zero => exact fun _ _ _ _ _ _ => Busy.zero
  | succ k ih =>
    intro hk E m hn hm hip
    simp only [Stmt.whileRounds]
    have hC := (Expr.computes c cond h₁ hv hcc hn hm hip).widen (Nat.le_refl _)
      (by omega : st₁.chunk.size ≤ st'.chunk.size)
    have hn₁ := cond.eval_named hn (E := E)
    rcases he : cond.eval E with ⟨_ | v, E₁⟩ <;> rw [he] at hC hn₁
    · exact Follows.raising hC
    · refine Follows.returning hC fun m₁ hm₁ hip₁ => ?_
      have hs₁ : m₁.stack = (E₁.values ++ [v]).toArray := by simp [hm₁.stack]
      have hjb₁ := hjb
      have hjd₁ := hjd
      rw [← hip₁] at hjb₁ hjd₁
      have hnext := next_jumpIfFalse hjb₁ hjd₁ hs₁
      by_cases hx : v.isFalsy
      · -- false: out of the loop, popping the condition
        simp only [hx, ↓reduceIte] at hnext ⊢
        have hpos : m₁.ip + 3 + (st₅.chunk.size - (m₁.ip + 1) - 2) = st₆.chunk.size := by omega
        rw [hpos] at hnext
        have hpop := next_pop (m := { m₁ with ip := st₆.chunk.size }) hqb hs₁
        refine Leads.step (by omega) (by omega) hnext
          (Leads.step (by dsimp only; omega) (by dsimp only; omega) hpop (Leads.done ?_))
        refine ⟨by dsimp only; omega, rfl, ⟨by simp, hm₁.globals, hm₁.printed⟩, ?_⟩
        rw [hl₇]
        exact hn₁
      · -- true: pop the condition and run the body
        simp only [hx, Bool.false_eq_true, ↓reduceIte] at hnext ⊢
        have hpop := next_pop (m := { m₁ with ip := m₁.ip + 3 })
          (by rw [hip₁, ← s₂]; exact hpb) hs₁
        have hn₃ : E₁.Named st₃.locals := by rw [w₃.locals, w₂.locals, w₁.locals]; exact hn₁
        refine Follows.step (by omega) (by omega) hnext
          (Follows.step (by dsimp only; omega) (by dsimp only; omega) hpop ?_)
        have hB := (hb h₄ w₃.valid hcb hn₃ (m := { { m₁ with ip := m₁.ip + 3 } with
          stack := E₁.values.toArray, ip := m₁.ip + 3 + 1 }) ⟨by simp, hm₁.globals, hm₁.printed⟩
          (by dsimp only; omega)).widen (by omega : st.chunk.size ≤ st₃.chunk.size)
          (by omega : st₄.chunk.size ≤ st'.chunk.size)
        dsimp only at hB
        rw [hd₃] at hB
        rcases hbr : body.exec fuel st.depth E₁ with _ | ⟨_ | ⟨⟩, E₂⟩ <;> rw [hbr] at hB
        · exact hB.le hk
        · exact Leads.ended_error hB
        · -- the body ended normally: jump back for the next round
          refine Follows.bind (Leads.ended_ok hB) fun m₄ hdone => ?_
          obtain ⟨hip₄, -, hm₄, hn₄⟩ := hdone
          rw [← hip₄] at hlb hld
          have hloop := next_loop hlb hld (by omega)
          refine (Follows.succ (by omega) (by omega) hloop (ih (by omega) E₂ _ ?_ (hm₄.setIp _) ?_)).le
            (Nat.le_refl _)
          · rw [← hl₄]
            exact hn₄
          · dsimp only
            omega


/-! ### One instruction at a time

Each lemma below runs one instruction at `p` from a machine that holds an environment, and hands
the machine after it to a continuation. -/

namespace Follows

variable {c : Chunk} {a b q n p : Nat} {locals : Array Local} {m : Machine}
  {r : Option Ending} {E : Env} {temps : List Value}

theorem getLocal {slot : Nat} (hip : m.ip = p) (hb : c.byteAt? p = some Op.getLocal.byte)
    (hk : c.byteAt? (p + 1) = some slot) (hslot : slot < E.locals.length)
    (hm : E.Agrees temps m) (ha : a ≤ p) (hlt : p < b)
    (k : ∀ m₁, E.Agrees (temps ++ [E.localAt slot]) m₁ → m₁.ip = p + 2 →
      Follows c a b q n locals m₁ r) : Follows c a b q n locals m r := by
  subst hip
  exact push ha hlt (next_getLocal hb hk (hm.getElem?_stack hslot)) fun _ =>
    k _ (hm.push _ _) rfl

theorem constant {i : Nat} {v : Value} (hip : m.ip = p) (hb : c.byteAt? p = some Op.constant.byte)
    (hk : c.byteAt? (p + 1) = some i) (hv : c.constants[i]? = some v)
    (hm : E.Agrees temps m) (ha : a ≤ p) (hlt : p < b)
    (k : ∀ m₁, E.Agrees (temps ++ [v]) m₁ → m₁.ip = p + 2 → Follows c a b q n locals m₁ r) :
    Follows c a b q n locals m r := by
  subst hip
  exact push ha hlt (next_constant hb hk hv) fun _ => k _ (hm.push _ _) rfl

theorem pop {v : Value} (hip : m.ip = p) (hb : c.byteAt? p = some Op.pop.byte)
    (hm : E.Agrees (temps ++ [v]) m) (ha : a ≤ p) (hlt : p < b)
    (k : ∀ m₁, E.Agrees temps m₁ → m₁.ip = p + 1 → Follows c a b q n locals m₁ r) :
    Follows c a b q n locals m r := by
  subst hip
  have hs : m.stack = ((E.values ++ temps) ++ [v]).toArray := by simp [hm.stack]
  exact step ha hlt (next_pop hb hs) (k _ ⟨by simp, hm.globals, hm.printed⟩ rfl)

theorem binOp {o : BinOp} {x y : Value} {line : Nat} (hip : m.ip = p)
    (hb : c.byteAt? p = some o.instr.byte) (hl : c.lineAt p = line) (hneg : o.negated = false)
    (hm : E.Agrees (temps ++ [x] ++ [y]) m) (ha : a ≤ p) (hlt : p < b)
    (herr : ∀ e, o.apply x y line = .error e → r = some (.error e, E))
    (k : ∀ v m₁, o.apply x y line = .ok v → E.Agrees (temps ++ [v]) m₁ → m₁.ip = p + 1 →
      Follows c a b q n locals m₁ r) :
    Follows c a b q n locals m r := by
  subst hip
  have hm' : E.Agrees (temps ++ [x, y]) m := by simpa using hm
  have h := leads_binOp (q := m.ip + 1) hb hl (by simp [hneg]) (by simp [hneg]) hm' ha hlt
  rcases he : o.apply x y line with e | v <;> rw [he] at h
  · rw [herr e he]
    exact raising h
  · exact returning h fun m₁ hm₁ hip₁ => k v m₁ he hm₁ hip₁

theorem setLocal {slot : Nat} {v : Value} (hip : m.ip = p)
    (hb : c.byteAt? p = some Op.setLocal.byte) (hk : c.byteAt? (p + 1) = some slot)
    (hslot : slot < E.locals.length) (hm : E.Agrees [v] m) (ha : a ≤ p) (hlt : p < b)
    (k : ∀ m₁, (E.setLocalAt slot v).Agrees [v] m₁ → m₁.ip = p + 2 →
      Follows c a b q n locals m₁ r) : Follows c a b q n locals m r := by
  subst hip
  have hs : m.stack = (E.values ++ [v]).toArray := by simp [hm.stack]
  have hslot' : slot < E.values.length := by simpa using hslot
  refine step ha hlt (next_setLocal hb hk hs (by omega)) (k _ ⟨?_, hm.globals, hm.printed⟩ rfl)
  simp [Env.values_setLocalAt, List.set_append_left _ _ hslot']

theorem jumpIfFalse {d : Nat} {v : Value} (hip : m.ip = p)
    (hb : c.byteAt? p = some Op.jumpIfFalse.byte) (hd : c.readU16? (p + 1) = some d)
    (hm : E.Agrees (temps ++ [v]) m) (ha : a ≤ p) (hlt : p < b)
    (k : ∀ m₁, E.Agrees (temps ++ [v]) m₁ → m₁.ip = (if v.isFalsy then p + 3 + d else p + 3) →
      Follows c a b q n locals m₁ r) : Follows c a b q n locals m r := by
  subst hip
  have hs : m.stack = ((E.values ++ temps) ++ [v]).toArray := by simp [hm.stack]
  exact step ha hlt (next_jumpIfFalse hb hd hs) (k _ (hm.setIp _) rfl)

theorem loop {d : Nat} (hip : m.ip = p) (hb : c.byteAt? p = some Op.loop.byte)
    (hd : c.readU16? (p + 1) = some d) (hle : d ≤ p + 3) (ha : a ≤ p) (hlt : p < b)
    (h : Follows c a b q n locals { m with ip := p + 3 - d } r) :
    Follows c a b q (n + 1) locals m r := by
  subst hip
  exact succ ha hlt (next_loop hb hd hle) h

end Follows

/-- The instructions of a compiled `for` loop's rounds as they stand in chunk `c`: from `start`
the test (`GET_LOCAL` of the counter and of the limit, `LESS`, `JUMP_IF_FALSE` out, `POP`), the
body up to `next`, then the step (`GET_LOCAL` of the counter, `CONSTANT 1`, `ADD`, `SET_LOCAL` of
the counter, `POP`, `LOOP` back to `start`) and the `POP` that the jump out lands on. The limit
and the counter are in slots `base` and `base + 1`; the test and the step fail on `line`. -/
structure ForCode (c : Chunk) (base line start next : Nat) : Prop where
  order : start + 9 ≤ next
  counter : c.byteAt? start = some Op.getLocal.byte ∧ c.byteAt? (start + 1) = some (base + 1)
  limit : c.byteAt? (start + 2) = some Op.getLocal.byte ∧ c.byteAt? (start + 3) = some base
  less : c.byteAt? (start + 4) = some Op.less.byte ∧ c.lineAt (start + 4) = line
  test : c.byteAt? (start + 5) = some Op.jumpIfFalse.byte ∧
    c.readU16? (start + 6) = some (next + 3 - start)
  pop : c.byteAt? (start + 8) = some Op.pop.byte
  counter' : c.byteAt? next = some Op.getLocal.byte ∧ c.byteAt? (next + 1) = some (base + 1)
  one : ∃ k, c.byteAt? (next + 2) = some Op.constant.byte ∧ c.byteAt? (next + 3) = some k ∧
    c.constants[k]? = some (.number 1)
  add : c.byteAt? (next + 4) = some Op.add.byte ∧ c.lineAt (next + 4) = line
  store : c.byteAt? (next + 5) = some Op.setLocal.byte ∧ c.byteAt? (next + 6) = some (base + 1)
  pop' : c.byteAt? (next + 7) = some Op.pop.byte
  back : c.byteAt? (next + 8) = some Op.loop.byte ∧
    c.readU16? (next + 9) = some (next + 11 - start)
  exit : c.byteAt? (next + 11) = some Op.pop.byte

/-- The rounds of a `for` loop do what `Stmt.forRounds` answers, by induction on the rounds
left: each round tests the counter against the limit, leaves on a false test, and otherwise runs
the body and adds `1` to the counter in its slot. -/
theorem ForCode.rounds {base line start next a b : Nat} {L : Array Local}
    {body : Env → Option Ending} (hf : ForCode c base line start next) (ha : a ≤ start)
    (hb : next + 12 ≤ b) (hL : L.size = base + 2)
    (hbody : ∀ E m, E.Named L → E.Agrees [] m → m.ip = start + 9 →
      Follows c (start + 9) next next fuel L m (body E)) :
    ∀ k ≤ fuel, ∀ (E : Env) (m : Machine), E.Named L → E.Agrees [] m → m.ip = start →
      Follows c a b (next + 12) k L m (Stmt.forRounds base line body k E) := by
  have hord := hf.order
  intro k
  induction k with
  | zero => exact fun _ _ _ _ _ _ => Busy.zero
  | succ k ih =>
    intro hk E m hn hm hip
    have hlen : E.locals.length = base + 2 := by
      rw [← hL]
      simpa using congrArg List.length hn
    simp only [Stmt.forRounds]
    refine Follows.getLocal hip hf.counter.1 hf.counter.2 (by omega) hm (by omega) (by omega)
      fun m₁ hm₁ hip₁ => ?_
    refine Follows.getLocal hip₁ hf.limit.1 hf.limit.2 (by omega) hm₁ (by omega) (by omega)
      fun m₂ hm₂ hip₂ => ?_
    refine Follows.binOp (o := .lt) (by omega) hf.less.1 hf.less.2 rfl hm₂ (by omega) (by omega)
      (fun e he => by rw [he]) fun t m₃ ht hm₃ hip₃ => ?_
    simp only [ht]
    refine Follows.jumpIfFalse (by omega) hf.test.1 hf.test.2 hm₃ (by omega) (by omega)
      fun m₄ hm₄ hip₄ => ?_
    by_cases hx : t.isFalsy
    · -- a false test jumps out, to the `POP` after the loop
      simp only [hx, ↓reduceIte] at hip₄ ⊢
      refine Follows.pop (by omega) hf.exit hm₄ (by omega) (by omega) fun m₅ hm₅ hip₅ => ?_
      exact Leads.done ⟨by omega, rfl, hm₅, hn⟩
    · -- a true test is popped, and the body runs
      simp only [hx, Bool.false_eq_true, ↓reduceIte] at hip₄ ⊢
      refine Follows.pop (by omega) hf.pop hm₄ (by omega) (by omega) fun m₅ hm₅ hip₅ => ?_
      have hB := (hbody E m₅ hn hm₅ (by omega)).widen (by omega : a ≤ start + 9)
        (by omega : next ≤ b)
      rcases hbr : body E with _ | ⟨_ | u, E'⟩ <;> rw [hbr] at hB
      · exact hB.le hk
      · exact Leads.ended_error hB
      · -- the body ended normally: the step adds `1` to the counter, and the next round
        cases u
        dsimp only
        refine Follows.bind (Leads.ended_ok hB) fun m₆ hdone => ?_
        obtain ⟨hip₆, -, hm₆, hn₆⟩ := hdone
        dsimp only at hm₆ hn₆
        have hlen' : E'.locals.length = base + 2 := by
          rw [← hL]
          simpa using congrArg List.length hn₆
        refine Follows.getLocal hip₆ hf.counter'.1 hf.counter'.2 (by omega) hm₆ (by omega)
          (by omega) fun m₇ hm₇ hip₇ => ?_
        obtain ⟨i, hb₇, hk₇, hv₇⟩ := hf.one
        refine Follows.constant (by omega) hb₇ hk₇ hv₇ hm₇ (by omega) (by omega)
          fun m₈ hm₈ hip₈ => ?_
        refine Follows.binOp (o := .add) (by omega) hf.add.1 hf.add.2 rfl hm₈ (by omega)
          (by omega) (fun e he => by rw [he]) fun v m₉ hv hm₉ hip₉ => ?_
        simp only [hv]
        refine Follows.setLocal (v := v) (by omega) hf.store.1 hf.store.2 (by omega) hm₉
          (by omega) (by omega) fun m₁₀ hm₁₀ hip₁₀ => ?_
        have hm₁₀' : (E'.setLocalAt (base + 1) v).Agrees ([] ++ [v]) m₁₀ := hm₁₀
        refine Follows.pop (by omega) hf.pop' hm₁₀' (by omega) (by omega)
          fun m₁₁ hm₁₁ hip₁₁ => ?_
        refine Follows.loop (by omega) hf.back.1 hf.back.2 (by omega) (by omega) (by omega) ?_
        refine ih (by omega) _ _ ?_ (hm₁₁.setIp _) (by dsimp only; omega)
        rw [Env.Named, Env.names_setLocalAt]
        exact hn₆

/-- Where the compiler puts the parts of a `for` loop compiled from `st` to `st'`: the limit's
code first, inside the loop's block; a `CONSTANT 0` for the counter; the rounds of `ForCode`
around the body's code, which is compiled with the limit and the counter as the block's two new
locals; and the two `POP`s that end the block. -/
theorem Emit.forLoop_layout {name : String} {limit body : Emit Unit} {line : Nat}
    {st st' : Emitter} (hl : limit.OnlyWrites) (hbw : body.OnlyWrites)
    (h : (Emit.forLoop name limit body line).run st = .ok ((), st')) (hv : st.Valid)
    (hc : c.Holds st'.chunk st.chunk.size st'.chunk.size) :
    ∃ st₁ st₂ st₃ : Emitter,
      limit.run { st with depth := st.depth + 1 } = .ok ((), st₁) ∧
      c.Holds st₁.chunk st.chunk.size st₁.chunk.size ∧
      (∃ k, c.byteAt? st₁.chunk.size = some Op.constant.byte ∧
        c.byteAt? (st₁.chunk.size + 1) = some k ∧ c.constants[k]? = some (.number 0)) ∧
      ForCode c st.locals.size line (st₁.chunk.size + 2) st₃.chunk.size ∧
      body.run st₂ = .ok ((), st₃) ∧ st₂.Valid ∧ st₂.chunk.size = st₁.chunk.size + 11 ∧
      st₂.locals = (st.locals.push ⟨limitSlotName, st.depth + 1⟩).push ⟨name, st.depth + 1⟩ ∧
      st₂.depth = st.depth + 1 ∧ st₃.locals = st₂.locals ∧
      c.Holds st₃.chunk st₂.chunk.size st₃.chunk.size ∧
      (∀ i < 2, c.byteAt? (st₃.chunk.size + 12 + i) = some Op.pop.byte) ∧
      st'.chunk.size = st₃.chunk.size + 14 ∧ st'.locals = st.locals := by
  -- taken apart a phase at a time: one pattern for all twenty steps is slow to elaborate
  simp only [forLoop, run_bind_ok] at h
  obtain ⟨_, st₀, h₀, _, st₁, h₁, k₁, st₂, h₂, _, st₃, h₃, k₂, st₄, h₄, h⟩ := h
  obtain ⟨start, st₅, h₅, _, st₆, h₆, _, st₇, h₇, _, st₈, h₈, p, st₉, h₉, _, st₁₀, h₁₀, h⟩ := h
  obtain ⟨_, st₁₁, h₁₁, _, st₁₂, h₁₂, _, st₁₃, h₁₃, _, st₁₄, h₁₄, _, st₁₅, h₁₅, _, st₁₆, h₁₆,
    _, st₁₇, h₁₇, h⟩ := h
  obtain ⟨_, st₁₈, h₁₈, _, st₁₉, h₁₉, h₂₀⟩ := h
  obtain ⟨-, rfl⟩ := by simpa only [beginScope_run, Except.ok.injEq, Prod.mk.injEq] using h₀
  have w₁ := hl h₁ hv.beginScope
  obtain ⟨g₂, hk₁, hst₂⟩ := (Writes.refl w₁.valid).grows.andAddLocal h₂
  have w₃ := (Writes.refl g₂.valid).andLoadConstant h₃
  obtain ⟨g₄, hk₂, hst₄⟩ := (Writes.refl w₃.valid).grows.andAddLocal h₄
  obtain ⟨hstart, rfl⟩ := by simpa only [offset_run, Except.ok.injEq, Prod.mk.injEq] using h₅
  have c₂ : st₂.chunk = st₁.chunk := by rw [hst₂]
  have c₄ : st₄.chunk = st₃.chunk := by rw [hst₄]
  have hl₄ : st₄.locals =
      (st.locals.push ⟨limitSlotName, st.depth + 1⟩).push ⟨name, st.depth + 1⟩ := by
    rw [hst₄, w₃.locals, w₃.depth, hst₂, w₁.locals, w₁.depth]
  have hd₄ : st₄.depth = st.depth + 1 := by
    rw [hst₄, w₃.depth, hst₂, w₁.depth]
  have v₆ := (Writes.refl g₄.valid).andOpWith h₆
  have v₇ := (Writes.refl v₆.valid).andOpWith h₇
  have v₈ := (Writes.refl v₇.valid).andOp h₈
  obtain ⟨v₉, rfl⟩ := (Writes.refl v₈.valid).andJump h₉
  have v₁₀ := (Writes.refl v₉.valid).andOp h₁₀
  have v₁₁ := hbw h₁₁ v₁₀.valid
  have v₁₂ := (Writes.refl v₁₁.valid).andOpWith h₁₂
  have v₁₃ := (Writes.refl v₁₂.valid).andLoadConstant h₁₃
  have v₁₄ := (Writes.refl v₁₃.valid).andOp h₁₄
  have v₁₅ := (Writes.refl v₁₄.valid).andOpWith h₁₅
  have v₁₆ := (Writes.refl v₁₅.valid).andOp h₁₆
  have v₁₇ := (Writes.refl v₁₆.valid).andLoopBack h₁₇
  have u₁₆ := v₁₆.trans v₁₇
  have u₁₅ := v₁₅.trans u₁₆
  have u₁₄ := v₁₄.trans u₁₅
  have u₁₃ := v₁₃.trans u₁₄
  have u₁₂ := v₁₂.trans u₁₃
  have u₁₁ := v₁₁.trans u₁₂
  have u₁₀ := v₁₀.trans u₁₁
  have u₉ := v₉.trans u₁₀
  have u₈ := v₈.trans u₉
  have u₇ := v₇.trans u₈
  have u₆ := v₆.trans u₇
  have s₁ := w₁.size
  have s₃ : st₃.chunk.size = st₁.chunk.size + 2 := by rw [size_of_loadConstant h₃, c₂]
  have s₄ : st₄.chunk.size = st₃.chunk.size := by rw [c₄]
  have s₆ := size_of_opWith h₆
  have s₇ := size_of_opWith h₇
  have s₈ := size_of_op h₈
  have s₉ := size_of_jump h₉
  have s₁₀ := size_of_op h₁₀
  have s₁₁ := v₁₁.size
  have s₁₂ := size_of_opWith h₁₂
  have s₁₃ := size_of_loadConstant h₁₃
  have s₁₄ := size_of_op h₁₄
  have s₁₅ := size_of_opWith h₁₅
  have s₁₆ := size_of_op h₁₆
  have s₁₇ := size_of_loopBack h₁₇
  have s₁₈ := size_of_patch h₁₈
  have s₁₉ := size_of_op h₁₉
  have s₁ : st.chunk.size ≤ st₁.chunk.size := w₁.size
  have s₂ : st₂.chunk.size = st₁.chunk.size := by rw [c₂]
  have W₁₈ := u₆.andPatch (by omega : st₄.chunk.size ≤ st₈.chunk.size + 1) h₁₈
  have v₁₉ := (Writes.refl W₁₈.valid).andOp h₁₉
  have hd₁₉ : st₁₉.depth = st.depth + 1 := by rw [v₁₉.depth, W₁₈.depth, hd₄]
  have hl₁₉ : st₁₉.locals = st.locals ++
      [(⟨limitSlotName, st.depth + 1⟩ : Local), ⟨name, st.depth + 1⟩].toArray := by
    rw [v₁₉.locals, W₁₈.locals, hl₄]
    apply Array.toList_inj.mp
    simp
  obtain ⟨gE, -, hlE⟩ := (Writes.refl v₁₉.valid).grows.endScope hd₁₉ hl₁₉ hv.depth (by simp) h₂₀
  obtain ⟨sE, hpop⟩ : st'.chunk.size = st₁₉.chunk.size + 2 ∧
      ∀ i < 2, st'.chunk.byteAt? (st₁₉.chunk.size + i) = some Op.pop.byte := by
    rw [endScope_newer hd₁₉ hl₁₉ hv.depth (by simp) line, Except.ok.injEq, Prod.mk.injEq] at h₂₀
    obtain ⟨-, rfl⟩ := h₂₀
    refine ⟨by simp [Chunk.size], fun i hi => ?_⟩
    simp [Chunk.byteAt?, Chunk.size, hi]
  have hc₁₉ : c.Holds st₁₉.chunk st.chunk.size st₁₉.chunk.size :=
    hc.of_grows gE (Nat.le_refl _) (by omega)
  have hc₁₈ : c.Holds st₁₈.chunk st.chunk.size st₁₈.chunk.size :=
    hc₁₉.of_writes v₁₉ (Nat.le_refl _) (by omega)
  have hcL : c.Holds st₁₇.chunk st.chunk.size (st₈.chunk.size + 1) :=
    (hc₁₈.mono (Nat.le_refl _) (by omega)).of_patch h₁₈ (.inl (Nat.le_refl _))
  have hcR : c.Holds st₁₇.chunk (st₈.chunk.size + 3) st₁₇.chunk.size :=
    (hc₁₈.mono (by omega) (by omega)).of_patch h₁₈ (.inr (Nat.le_refl _))
  have l₁ : st₁.locals = st.locals := w₁.locals
  have hmax : st.locals.size + 2 ≤ maxLocals := by
    have := g₄.valid.locals
    rw [hl₄] at this
    simp at this
    omega
  have e₁ : k₁ % 256 = st.locals.size := by
    rw [hk₁, l₁, Nat.mod_eq_of_lt (by simp only [maxLocals] at hmax; omega)]
  have e₂ : k₂ % 256 = st.locals.size + 1 := by
    have : st₃.locals.size = st.locals.size + 1 := by
      rw [w₃.locals, hst₂, l₁]
      simp
    rw [hk₂, this, Nat.mod_eq_of_lt (by simp only [maxLocals] at hmax; omega)]
  have hc₃ : c.Holds st₃.chunk st.chunk.size st₃.chunk.size :=
    hcL.of_grows (g₄.andWrites u₆) (Nat.le_refl _) (by omega)
  obtain ⟨k₀, hb₀, hk₀, hv₀⟩ := hc₃.loadConstant h₃ (by omega) (by omega)
  obtain ⟨hb₆, hk₆, -, -⟩ := (hcL.of_writes u₇ (Nat.le_refl _) (by omega)).opWith h₆ g₄.valid
    (by omega) (by omega)
  obtain ⟨hb₇, hk₇, -, -⟩ := (hcL.of_writes u₈ (Nat.le_refl _) (by omega)).opWith h₇ v₆.valid
    (by omega) (by omega)
  obtain ⟨hb₈, hl₈⟩ := (hcL.of_writes u₉ (Nat.le_refl _) (by omega)).op h₈ v₇.valid (by omega)
    (by omega)
  obtain ⟨hb₉, -, -⟩ := (hcL.of_writes u₁₀ (by omega) (Nat.le_refl _)).jump h₉ v₈.valid
    (by omega) (by omega)
  have hd₉ := (hc₁₈.patch h₁₈ (by omega) (by omega) (by omega)).1
  obtain ⟨hb₁₀, -⟩ := (hcR.of_writes u₁₁ (Nat.le_refl _) (by omega)).op h₁₀ v₉.valid (by omega)
    (by omega)
  obtain ⟨hb₁₂, hk₁₂, -, -⟩ := (hcR.of_writes u₁₃ (Nat.le_refl _) (by omega)).opWith h₁₂
    v₁₁.valid (by omega) (by omega)
  obtain ⟨one, hb₁₃, hk₁₃, hv₁₃⟩ := (hcR.of_writes u₁₄ (Nat.le_refl _) (by omega)).loadConstant
    h₁₃ (by omega) (by omega)
  obtain ⟨hb₁₄, hl₁₄⟩ := (hcR.of_writes u₁₅ (Nat.le_refl _) (by omega)).op h₁₄ v₁₃.valid
    (by omega) (by omega)
  obtain ⟨hb₁₅, hk₁₅, -, -⟩ := (hcR.of_writes u₁₆ (Nat.le_refl _) (by omega)).opWith h₁₅
    v₁₄.valid (by omega) (by omega)
  obtain ⟨hb₁₆, -⟩ := (hcR.of_writes v₁₇ (Nat.le_refl _) (by omega)).op h₁₆ v₁₅.valid (by omega)
    (by omega)
  obtain ⟨hb₁₇, hd₁₇, -⟩ := hcR.loopBack h₁₇ (by omega) (by omega)
  obtain ⟨hb₁₉, -⟩ := hc₁₉.op h₁₉ W₁₈.valid (by omega) (by omega)
  have hcl : c.Holds st₁.chunk st.chunk.size st₁.chunk.size :=
    hcL.of_grows (((g₂.andWrites w₃).trans g₄).andWrites u₆) (Nat.le_refl _) (by omega)
  have hcb : c.Holds st₁₁.chunk st₁₀.chunk.size st₁₁.chunk.size :=
    (hcR.of_writes u₁₂ (Nat.le_refl _) (by omega)).mono (by omega) (Nat.le_refl _)
  rw [s₂] at hb₀ hk₀
  rw [show st₄.chunk.size = st₁.chunk.size + 2 by omega] at hb₆ hk₆
  rw [show st₆.chunk.size = st₁.chunk.size + 2 + 2 by omega] at hb₇ hk₇
  rw [show st₇.chunk.size = st₁.chunk.size + 2 + 4 by omega] at hb₈ hl₈
  rw [show st₈.chunk.size = st₁.chunk.size + 2 + 5 by omega] at hb₉
  rw [show st₉.chunk.size = st₁.chunk.size + 2 + 8 by omega] at hb₁₀
  rw [show st₁₂.chunk.size = st₁₁.chunk.size + 2 by omega] at hb₁₃ hk₁₃
  rw [show st₁₃.chunk.size = st₁₁.chunk.size + 4 by omega] at hb₁₄ hl₁₄
  rw [show st₁₄.chunk.size = st₁₁.chunk.size + 5 by omega] at hb₁₅ hk₁₅
  rw [show st₁₅.chunk.size = st₁₁.chunk.size + 7 by omega] at hb₁₆
  rw [show st₁₆.chunk.size = st₁₁.chunk.size + 8 by omega] at hb₁₇
  rw [show st₁₈.chunk.size = st₁₁.chunk.size + 11 by omega] at hb₁₉
  rw [e₂] at hk₆ hk₁₂ hk₁₅
  rw [e₁] at hk₇
  have hd₉' : c.readU16? (st₁.chunk.size + 2 + 6) =
      some (st₁₁.chunk.size + 3 - (st₁.chunk.size + 2)) := by
    rw [show st₁.chunk.size + 2 + 6 = st₈.chunk.size + 1 by omega, hd₉]
    congr 1
    omega
  have hd₁₇' : c.readU16? (st₁₁.chunk.size + 9) =
      some (st₁₁.chunk.size + 11 - (st₁.chunk.size + 2)) := by
    rw [show st₁₁.chunk.size + 9 = st₁₆.chunk.size + 1 by omega, hd₁₇]
    congr 1
    omega
  have hf : ForCode c st.locals.size line (st₁.chunk.size + 2) st₁₁.chunk.size :=
    { order := by omega
      counter := ⟨hb₆, hk₆⟩
      limit := ⟨hb₇, hk₇⟩
      less := ⟨hb₈, hl₈⟩
      test := ⟨hb₉, hd₉'⟩
      pop := hb₁₀
      counter' := ⟨hb₁₂, hk₁₂⟩
      one := ⟨one, hb₁₃, hk₁₃, hv₁₃⟩
      add := ⟨hb₁₄, hl₁₄⟩
      store := ⟨hb₁₅, hk₁₅⟩
      pop' := hb₁₆
      back := ⟨hb₁₇, hd₁₇'⟩
      exit := hb₁₉ }
  refine ⟨st₁, st₁₀, st₁₁, h₁, hcl, ⟨k₀, hb₀, hk₀, hv₀⟩, hf, h₁₁, v₁₀.valid, by omega,
    (u₁₁.locals.symm.trans u₆.locals).trans hl₄, (u₁₁.depth.symm.trans u₆.depth).trans hd₄,
    v₁₁.locals, hcb, fun i hi => ?_, by omega, hlE⟩
  rw [show st₁₁.chunk.size + 12 + i = st₁₉.chunk.size + i by omega,
    hc.byteAt? (by omega) (by omega)]
  exact hpop i hi

/-- A `for` loop computes its limit in a block of its own, keeps it and the counter, from `0`, as
the block's first two locals, runs the rounds of `Stmt.forRounds`, and pops both at the end, as
the interpreter drops them. -/
theorem Stmt.Runs.forLoop {name : String} {limit : Expr} {body : Stmt} (hb : body.Runs c fuel)
    (hbw : body.emit.OnlyWrites) (sp : Span) : (Stmt.forLoop name limit body sp).Runs c fuel := by
  intro st st' E m h hv hc hn hm hip
  rw [Stmt.emit] at h
  simp only [Stmt.exec]
  obtain ⟨st₁, st₂, st₃, h₁, hcl, ⟨k₀, hb₀, hk₀, hv₀⟩, hf, h₂, hv₂, s₂, hl₂, hd₂, hl₃, hcb, hpop,
    s', hl'⟩ := Emit.forLoop_layout (fun _ _ h hv => Expr.emit_writes h hv) hbw h hv hc
  have s₁ : st.chunk.size ≤ st₁.chunk.size := (Expr.emit_writes h₁ hv.beginScope).size
  have s₃ : st₂.chunk.size ≤ st₃.chunk.size := (hbw h₂ hv₂).size
  have hL := (Expr.computes c limit h₁ hv.beginScope hcl hn hm hip).widen (Nat.le_refl _)
    (by omega : st₁.chunk.size ≤ st'.chunk.size)
  have hn₁ := limit.eval_named hn (E := E)
  rcases he : limit.eval E with ⟨_ | l, E₁⟩ <;> rw [he] at hL hn₁
  · exact Follows.raising hL
  · refine Follows.returning hL fun m₁ hm₁ hip₁ => ?_
    have hbase : E₁.locals.length = st.locals.size := by simpa using congrArg List.length hn₁
    dsimp only
    rw [hbase]
    refine Follows.constant hip₁ hb₀ hk₀ hv₀ hm₁ (by omega) (by omega) fun m₂ hm₂ hip₂ => ?_
    have hR : Follows c st.chunk.size st'.chunk.size (st₃.chunk.size + 12) fuel st₂.locals m₂
        (Stmt.forRounds st.locals.size sp.line (fun E => body.exec fuel (st.depth + 1) E) fuel
          { E₁ with locals := E₁.locals ++ [(limitSlotName, l), (name, .number 0)] }) := by
      refine hf.rounds (by omega) (by omega) (by rw [hl₂]; simp) (fun E m hn hm hip => ?_) fuel
        (Nat.le_refl _) _ m₂ ?_ ⟨?_, hm₂.globals, hm₂.printed⟩ (by omega)
      · have hB := hb h₂ hv₂ hcb hn hm (by omega)
        rw [hl₃, hd₂, s₂] at hB
        exact hB
      · have hn₁' : E₁.locals.map Prod.fst = st.locals.toList.map Local.name := hn₁
        simp [Env.Named, hl₂, hn₁']
      · simp [hm₂.stack, Env.values]
    rcases hr : Stmt.forRounds st.locals.size sp.line (fun E => body.exec fuel (st.depth + 1) E)
        fuel { E₁ with locals := E₁.locals ++ [(limitSlotName, l), (name, .number 0)] } with
      _ | ⟨_ | u, E₃⟩ <;> rw [hr] at hR
    · exact hR
    · exact Leads.ended_error hR
    · -- the rounds ended normally: the end of the block pops the limit and the counter
      cases u
      refine Leads.bind (Leads.ended_ok hR) fun m₃ hdone => ?_
      obtain ⟨hip₃, -, hm₃, hn₃⟩ := hdone
      dsimp only at hm₃ hn₃
      have hnames : E₃.locals.map Prod.fst =
          st.locals.toList.map Local.name ++ [limitSlotName, name] := by
        rw [hn₃, hl₂]
        simp
      rw [s', hl']
      exact Leads.restore hnames hm₃ hip₃ (by omega) (by simp) hpop

/-! ## Every statement -/

mutual

/-- The code of every placed statement does what the interpreter answers, with `fuel` rounds per
loop. -/
theorem Stmt.runs : ∀ (s : Stmt), s.placed true → s.Runs c fuel
  | .expression e sp, _ => Stmt.Runs.expression e sp
  | .print e sp, _ => Stmt.Runs.print e sp
  | .declare n ty init sp, _ => Stmt.Runs.declare n ty init sp
  | .block body sp, hs => by
    have hb : Stmt.allPlaced body := by simpa [Stmt.placed] using hs
    exact Stmt.Runs.block (Stmt.runsAll body hb) (Stmt.emitAll_declares body hb) sp
  | .ifElse cond yes no sp, hs => by
    simp only [Stmt.placed, Bool.and_eq_true] at hs
    exact Stmt.Runs.ifElse (Stmt.runs yes (Stmt.placed_item hs.1)) (Stmt.emit_onlyWrites yes hs.1)
      (Stmt.runsElse no hs.2) (Stmt.emitElse_onlyWrites no hs.2) sp
  | .whileLoop cond body sp, hs => by
    have hb : body.placed false := by simpa [Stmt.placed] using hs
    exact Stmt.Runs.whileLoop (Stmt.runs body (Stmt.placed_item hb))
      (Stmt.emit_onlyWrites body hb) sp
  | .forLoop n limit body sp, hs => by
    have hb : body.placed false := by simpa [Stmt.placed] using hs
    exact Stmt.Runs.forLoop (Stmt.runs body (Stmt.placed_item hb))
      (Stmt.emit_onlyWrites body hb) sp

theorem Stmt.runsElse : ∀ (no : Option Stmt), Stmt.elsePlaced no → Stmt.RunsElse c fuel no
  | some s, hs => Stmt.RunsElse.some
    (Stmt.runs s (Stmt.placed_item (by simpa [Stmt.elsePlaced] using hs)))
  | none, _ => Stmt.RunsElse.none

theorem Stmt.runsAll : ∀ (ss : List Stmt), Stmt.allPlaced ss → Stmt.RunsAll c fuel ss
  | [], _ => Stmt.RunsAll.nil
  | s :: rest, hs => by
    simp only [Stmt.allPlaced, Bool.and_eq_true] at hs
    exact Stmt.RunsAll.cons (Stmt.runs s hs.1) hs.1 (Stmt.runsAll rest hs.2)
      (Stmt.emitAll_declares rest hs.2)

end

end StackScript
