import StackScript.Proofs.Statements

/-!
# Stack balance

The slot the compiler gives a local is the place its value takes on the stack, and that holds
only if every piece of code leaves the stack as high as it found it, give or take what it is
meant to add.  This module states that of the code of every expression and every statement, on
every path through its jumps:

* the code of an expression, started on any stack that holds the locals, ends at its last byte
  with exactly one more value, every value below left alone unless the expression assigns the
  local it belongs to, or it stops with a runtime error (`Expr.emit_balanced`);
* the code of a statement compiled as an item, started on a stack that holds exactly the locals,
  ends at its last byte with the stack as high as the compiler's locals after it (one more for a
  declaration inside a block), the slots below left alone unless the statement assigns their
  local; or it stops with a runtime error; or it runs forever inside its own code
  (`Stmt.emit_balanced`);
* the end of a block pops exactly the locals declared in it, one `POP` each
  (`Emit.endScope_newer`).

The stack the code starts on is any stack of the right height: its values become the values of
the locals (`Env.ofStack`), and the interpreter's answer for them (`Stmt.runs`) says where the
code goes.  What the interpreter leaves of the locals is `Env.Keeps`: every local in its place and
under its name, with its value unless the code assigns its name (`Stmt.exec_keeps`).
-/

namespace StackScript

/-! ## The names code assigns -/

/-- Whether an expression assigns the name `x` somewhere inside. -/
def Expr.assigns : Expr → String → Bool
  | .assign n e _, x => n == x || e.assigns x
  | .binary _ l r _, x | .and l r _, x | .or l r _, x => l.assigns x || r.assigns x
  | .unary _ e _, x | .group e _, x => e.assigns x
  | .number .., _ | .string .., _ | .bool .., _ | .nil _, _ | .var .., _ => false

/-- Whether a declaration's initial value assigns `x`. -/
def Expr.initAssigns : Option Expr → String → Bool
  | some e, x => e.assigns x
  | none, _ => false

mutual

/-- Whether a statement assigns the name `x` somewhere inside; a declaration binds its name and
does not assign it. -/
def Stmt.assigns : Stmt → String → Bool
  | .expression e _, x | .print e _, x => e.assigns x
  | .declare _ _ init _, x => Expr.initAssigns init x
  | .block body _, x => Stmt.assignsAll body x
  | .ifElse c yes no _, x => c.assigns x || yes.assigns x || Stmt.elseAssigns no x
  | .whileLoop c body _, x => c.assigns x || body.assigns x
  | .forLoop _ limit body _, x => limit.assigns x || body.assigns x

/-- Whether the `else` branch of an `if`, if any, assigns `x`. -/
def Stmt.elseAssigns : Option Stmt → String → Bool
  | some s, x => s.assigns x
  | none, _ => false

/-- Whether one of a list of statements assigns `x`. -/
def Stmt.assignsAll : List Stmt → String → Bool
  | [], _ => false
  | s :: rest, x => s.assigns x || Stmt.assignsAll rest x

end

/-! ## What the interpreter keeps -/

namespace Env

/-- `E'` has every local of `E` in its place and under its name, with its value unless
`assigned` holds of the name. -/
def Keeps (assigned : String → Bool) (E E' : Env) : Prop :=
  ∀ (i : Nat) (n : String) (v : Value), E.locals[i]? = some (n, v) →
    ∃ v', E'.locals[i]? = some (n, v') ∧ (assigned n = false → v' = v)

namespace Keeps

variable {f g : String → Bool} {E E₁ E₂ : Env}

theorem refl (f : String → Bool) (E : Env) : E.Keeps f E :=
  fun _ _ v h => ⟨v, h, fun _ => rfl⟩

theorem of_locals (h : E₁.locals = E.locals) : E.Keeps f E₁ := by
  intro i n v hi
  exact ⟨v, by rw [h, hi], fun _ => rfl⟩

theorem trans (h₁ : E.Keeps f E₁) (h₂ : E₁.Keeps f E₂) : E.Keeps f E₂ := by
  intro i n v hi
  obtain ⟨v₁, hi₁, hv₁⟩ := h₁ i n v hi
  obtain ⟨v₂, hi₂, hv₂⟩ := h₂ i n v₁ hi₁
  exact ⟨v₂, hi₂, fun hn => (hv₂ hn).trans (hv₁ hn)⟩

theorem length_le (h : E.Keeps f E₁) : E.locals.length ≤ E₁.locals.length := by
  rcases hl : E.locals.length with _ | k
  · exact Nat.zero_le _
  · obtain ⟨⟨n, v⟩, hk⟩ : ∃ p, E.locals[k]? = some p :=
      ⟨_, List.getElem?_eq_getElem (by omega)⟩
    obtain ⟨v', hk', -⟩ := h k n v hk
    have := (List.getElem?_eq_some_iff.mp hk').1
    omega

theorem mono (h : E.Keeps f E₁) (hfg : ∀ x, g x = false → f x = false) : E.Keeps g E₁ := by
  intro i n v hi
  obtain ⟨v₁, hi₁, hv₁⟩ := h i n v hi
  exact ⟨v₁, hi₁, fun hn => hv₁ (hfg n hn)⟩

theorem append (h : E.Keeps f E₁) (l : List (String × Value)) :
    E.Keeps f { E₁ with locals := E₁.locals ++ l } := by
  intro i n v hi
  obtain ⟨v₁, hi₁, hv₁⟩ := h i n v hi
  have hlt : i < E₁.locals.length := (List.getElem?_eq_some_iff.mp hi₁).1
  exact ⟨v₁, by rw [List.getElem?_append_left hlt, hi₁], hv₁⟩

theorem restore (h : E.Keeps f E₁) {k : Nat} (hk : E.locals.length ≤ k) :
    E.Keeps f (E₁.restore k) := by
  intro i n v hi
  have hlt : i < E.locals.length := (List.getElem?_eq_some_iff.mp hi).1
  obtain ⟨v₁, hi₁, hv₁⟩ := h i n v hi
  exact ⟨v₁, by simp [Env.restore, show i < k by omega, hi₁], hv₁⟩

theorem setLocalAt_of_le (h : E.Keeps f E₁) {j : Nat} (hj : E.locals.length ≤ j) (w : Value) :
    E.Keeps f (E₁.setLocalAt j w) := by
  intro i n v hi
  have hlt : i < E.locals.length := (List.getElem?_eq_some_iff.mp hi).1
  obtain ⟨v₁, hi₁, hv₁⟩ := h i n v hi
  exact ⟨v₁, by simp [Env.setLocalAt, show j ≠ i by omega, hi₁], hv₁⟩

theorem setLocalAt (E : Env) {j : Nat} (hj : ∀ n v, E.locals[j]? = some (n, v) → f n = true)
    (w : Value) : E.Keeps f (E.setLocalAt j w) := by
  intro i n v hi
  by_cases hij : j = i
  · subst hij
    refine ⟨w, by simp [Env.setLocalAt, hi], fun hn => ?_⟩
    rw [hj n v hi] at hn
    cases hn
  · exact ⟨v, by simp [Env.setLocalAt, hij, hi], fun _ => rfl⟩

end Keeps

theorem newest?_getElem? {locals : List (String × Value)} {name : String} {i : Nat}
    (h : newest? locals name = some i) : ∃ v, locals[i]? = some (name, v) := by
  induction locals generalizing i with
  | nil => cases h
  | cons nv rest ih =>
    obtain ⟨n, v⟩ := nv
    simp only [newest?] at h
    rcases hr : newest? rest name with _ | j <;> rw [hr] at h
    · by_cases hn : n = name
      · simp only [hn, ↓reduceIte, Option.some.injEq] at h
        subst h hn
        exact ⟨v, rfl⟩
      · simp [hn] at h
    · simp only [Option.some.injEq] at h
      subst h
      simpa using ih hr

/-- Assigning a variable keeps every local not of its name. -/
theorem keeps_write (E : Env) (name : String) (v : Value) (line : Nat) :
    E.Keeps (name == ·) (E.write name v line).2 := by
  unfold write
  rcases hi : newest? E.locals name with _ | i
  · dsimp only
    split <;> exact .of_locals rfl
  · refine Keeps.setLocalAt E (fun n w hn => ?_) v
    obtain ⟨w', hw'⟩ := newest?_getElem? hi
    rw [hw', Option.some.injEq, Prod.mk.injEq] at hn
    simp [hn.1]

/-- A declaration keeps the locals: a local goes after them, a global beside them. -/
theorem keeps_declare (E : Env) (depth : Nat) (name : String) (v : Value) (f : String → Bool) :
    E.Keeps f (E.declare depth name v) := by
  unfold declare
  split
  · exact (Keeps.refl f E).append _
  · exact .of_locals rfl

end Env

open Env

/-- An expression keeps every local whose name it does not assign. -/
theorem Expr.eval_keeps (e : Expr) (E : Env) : E.Keeps e.assigns (e.eval E).2 := by
  induction e generalizing E with
  | number | string | bool | nil | var => exact .refl _ E
  | assign n e s ih =>
    have he : E.Keeps (Expr.assign n e s).assigns (e.eval E).2 :=
      (ih E).mono fun x hx => (Bool.or_eq_false_iff.mp hx).2
    rcases hr : e.eval E with ⟨_ | v, E₁⟩ <;> rw [hr] at he <;> simp only [Expr.eval, hr]
    · exact he
    · exact he.trans ((keeps_write E₁ n v s.line).mono fun x hx => (Bool.or_eq_false_iff.mp hx).1)
  | binary o l r s ihl ihr =>
    have hl : E.Keeps (Expr.binary o l r s).assigns (l.eval E).2 :=
      (ihl E).mono fun x hx => (Bool.or_eq_false_iff.mp hx).1
    rcases hr₁ : l.eval E with ⟨_ | a, E₁⟩ <;> rw [hr₁] at hl <;> simp only [Expr.eval, hr₁]
    · exact hl
    · have hr : E₁.Keeps (Expr.binary o l r s).assigns (r.eval E₁).2 :=
        (ihr E₁).mono fun x hx => (Bool.or_eq_false_iff.mp hx).2
      rcases hr₂ : r.eval E₁ with ⟨_ | b, E₂⟩ <;> rw [hr₂] at hr <;> exact hl.trans hr
  | unary o e s ih =>
    have he := ih E
    rcases hr : e.eval E with ⟨_ | v, E₁⟩ <;> rw [hr] at he <;> simp only [Expr.eval, hr] <;>
      exact he
  | and l r s ihl ihr =>
    have hl : E.Keeps (Expr.and l r s).assigns (l.eval E).2 :=
      (ihl E).mono fun x hx => (Bool.or_eq_false_iff.mp hx).1
    rcases hr₁ : l.eval E with ⟨_ | a, E₁⟩ <;> rw [hr₁] at hl <;> simp only [Expr.eval, hr₁]
    · exact hl
    · split
      · exact hl
      · exact hl.trans ((ihr E₁).mono fun x hx => (Bool.or_eq_false_iff.mp hx).2)
  | or l r s ihl ihr =>
    have hl : E.Keeps (Expr.or l r s).assigns (l.eval E).2 :=
      (ihl E).mono fun x hx => (Bool.or_eq_false_iff.mp hx).1
    rcases hr₁ : l.eval E with ⟨_ | a, E₁⟩ <;> rw [hr₁] at hl <;> simp only [Expr.eval, hr₁]
    · exact hl
    · split
      · exact hl.trans ((ihr E₁).mono fun x hx => (Bool.or_eq_false_iff.mp hx).2)
      · exact hl
  | group e s ih => exact ih E

theorem Expr.evalInit_keeps (init : Option Expr) (E : Env) :
    E.Keeps (Expr.initAssigns init) (Expr.evalInit init E).2 := by
  cases init with
  | some e => exact e.eval_keeps E
  | none => exact .refl _ E

theorem Stmt.whileRounds_keeps {f : String → Bool} {cond : Expr} {body : Env → Option Ending}
    (hc : ∀ x, f x = false → cond.assigns x = false)
    (hb : ∀ E r, body E = some r → E.Keeps f r.2) :
    ∀ (rounds : Nat) (E : Env) (r : Ending), Stmt.whileRounds cond body rounds E = some r →
      E.Keeps f r.2 := by
  intro rounds
  induction rounds with
  | zero => intro E r h; cases h
  | succ rounds ih =>
    intro E r h
    have hE := (cond.eval_keeps E).mono hc
    rcases he : cond.eval E with ⟨_ | v, E₁⟩ <;> rw [he] at hE <;>
      simp only [Stmt.whileRounds, he] at h
    · -- the condition failed
      obtain rfl := Option.some.inj h.symm
      exact hE
    · split at h
      · obtain rfl := Option.some.inj h.symm
        exact hE
      · rcases hbody : body E₁ with _ | ⟨_ | ⟨⟩, E₂⟩ <;> rw [hbody] at h
        · cases h
        · obtain rfl := Option.some.inj h.symm
          exact hE.trans (hb E₁ _ hbody)
        · exact hE.trans ((hb E₁ _ hbody).trans (ih E₂ r h))

theorem Stmt.forRounds_keeps {f : String → Bool} {base line : Nat} {body : Env → Option Ending}
    (hb : ∀ E r, body E = some r → E.Keeps f r.2) :
    ∀ (rounds : Nat) (E₀ E : Env) (r : Ending), E₀.locals.length ≤ base → E₀.Keeps f E →
      Stmt.forRounds base line body rounds E = some r → E₀.Keeps f r.2 := by
  intro rounds
  induction rounds with
  | zero => intro E₀ E r _ _ h; cases h
  | succ rounds ih =>
    intro E₀ E r hbase hE h
    simp only [Stmt.forRounds] at h
    split at h
    · obtain rfl := Option.some.inj h.symm
      exact hE
    · split at h
      · obtain rfl := Option.some.inj h.symm
        exact hE
      · rcases hbody : body E with _ | ⟨_ | ⟨⟩, E₁⟩ <;> rw [hbody] at h
        · cases h
        · obtain rfl := Option.some.inj h.symm
          exact hE.trans (hb E _ hbody)
        · have hE₁ := hE.trans (hb E _ hbody)
          dsimp only at h
          split at h
          · exact ih E₀ _ r hbase (hE₁.setLocalAt_of_le (by omega) _) h
          · obtain rfl := Option.some.inj h.symm
            exact hE₁

mutual

/-- A statement keeps every local around it whose name it does not assign, whatever it answers. -/
theorem Stmt.exec_keeps : ∀ (s : Stmt) {fuel depth : Nat} {E : Env} {r : Ending},
    s.exec fuel depth E = some r → E.Keeps s.assigns r.2
  | .expression e _, fuel, depth, E, r, h => by
    have he := e.eval_keeps E
    rcases hr : e.eval E with ⟨_ | v, E₁⟩ <;> rw [hr] at he <;>
      simp only [Stmt.exec, hr, Option.some.injEq] at h <;> subst h <;> exact he
  | .print e _, fuel, depth, E, r, h => by
    have he := e.eval_keeps E
    rcases hr : e.eval E with ⟨_ | v, E₁⟩ <;> rw [hr] at he <;>
      simp only [Stmt.exec, hr, Option.some.injEq] at h <;> subst h
    · exact he
    · exact he.trans (.of_locals rfl)
  | .declare n _ init _, fuel, depth, E, r, h => by
    have he := Expr.evalInit_keeps init E
    rcases hr : Expr.evalInit init E with ⟨_ | v, E₁⟩ <;> rw [hr] at he <;>
      simp only [Stmt.exec, hr, Option.some.injEq] at h <;> subst h
    · exact he
    · exact he.trans (keeps_declare E₁ depth n v _)
  | .block body _, fuel, depth, E, r, h => by
    simp only [Stmt.exec] at h
    rcases hb : Stmt.execAll fuel (depth + 1) body E with _ | ⟨_ | ⟨⟩, E₁⟩ <;> rw [hb] at h
    · cases h
    · obtain rfl := Option.some.inj h.symm
      exact Stmt.execAll_keeps body hb
    · obtain rfl := Option.some.inj h.symm
      exact (Stmt.execAll_keeps body hb).restore (Nat.le_refl _)
  | .ifElse c yes no sp, fuel, depth, E, r, h => by
    have hc : E.Keeps (Stmt.ifElse c yes no sp).assigns (c.eval E).2 :=
      (c.eval_keeps E).mono fun x hx => (Bool.or_eq_false_iff.mp (Bool.or_eq_false_iff.mp hx).1).1
    rcases hr : c.eval E with ⟨_ | v, E₁⟩ <;> rw [hr] at hc <;> simp only [Stmt.exec, hr] at h
    · obtain rfl := Option.some.inj h.symm
      exact hc
    · split at h
      · exact hc.trans ((Stmt.execElse_keeps no h).mono fun x hx =>
          (Bool.or_eq_false_iff.mp hx).2)
      · exact hc.trans ((Stmt.exec_keeps yes h).mono fun x hx =>
          (Bool.or_eq_false_iff.mp (Bool.or_eq_false_iff.mp hx).1).2)
  | .whileLoop c body _, fuel, depth, E, r, h => by
    simp only [Stmt.exec] at h
    exact Stmt.whileRounds_keeps (fun x hx => (Bool.or_eq_false_iff.mp hx).1)
      (fun E r hr => (Stmt.exec_keeps body hr).mono fun x hx => (Bool.or_eq_false_iff.mp hx).2)
      fuel E r h
  | .forLoop n limit body sp, fuel, depth, E, r, h => by
    have hl : E.Keeps (Stmt.forLoop n limit body sp).assigns (limit.eval E).2 :=
      (limit.eval_keeps E).mono fun x hx => (Bool.or_eq_false_iff.mp hx).1
    have hb : ∀ E r, body.exec fuel (depth + 1) E = some r →
        E.Keeps (Stmt.forLoop n limit body sp).assigns r.2 :=
      fun E r hr => (Stmt.exec_keeps body hr).mono fun x hx => (Bool.or_eq_false_iff.mp hx).2
    rcases hr : limit.eval E with ⟨_ | v, E₁⟩ <;> rw [hr] at hl <;> simp only [Stmt.exec, hr] at h
    · obtain rfl := Option.some.inj h.symm
      exact hl
    · -- the rounds run on the locals with the limit and the counter after them
      have hext := hl.append [(limitSlotName, v), (n, .number 0)]
      have hlen : E.locals.length ≤ E₁.locals.length := hl.length_le
      rcases hf : Stmt.forRounds E₁.locals.length sp.line
          (fun E => body.exec fuel (depth + 1) E) fuel
          { E₁ with locals := E₁.locals ++ [(limitSlotName, v), (n, .number 0)] } with
        _ | ⟨_ | ⟨⟩, E₂⟩ <;> rw [hf] at h
      · cases h
      · obtain rfl := Option.some.inj h.symm
        exact Stmt.forRounds_keeps hb fuel E _ _ hlen hext hf
      · obtain rfl := Option.some.inj h.symm
        exact (Stmt.forRounds_keeps hb fuel E _ _ hlen hext hf).restore hlen

theorem Stmt.execElse_keeps : ∀ (no : Option Stmt) {fuel depth : Nat} {E : Env} {r : Ending},
    Stmt.execElse fuel depth no E = some r → E.Keeps (Stmt.elseAssigns no) r.2
  | some s, fuel, depth, E, r, h => Stmt.exec_keeps s h
  | none, fuel, depth, E, r, h => by
    simp only [Stmt.execElse, Option.some.injEq] at h
    subst h
    exact .refl _ E

theorem Stmt.execAll_keeps : ∀ (ss : List Stmt) {fuel depth : Nat} {E : Env} {r : Ending},
    Stmt.execAll fuel depth ss E = some r → E.Keeps (Stmt.assignsAll ss) r.2
  | [], fuel, depth, E, r, h => by
    simp only [Stmt.execAll, Option.some.injEq] at h
    subst h
    exact .refl _ E
  | s :: rest, fuel, depth, E, r, h => by
    simp only [Stmt.execAll] at h
    rcases hs : s.exec fuel depth E with _ | ⟨_ | ⟨⟩, E₁⟩ <;> rw [hs] at h
    · cases h
    · obtain rfl := Option.some.inj h.symm
      exact (Stmt.exec_keeps s hs).mono fun x hx => (Bool.or_eq_false_iff.mp hx).1
    · exact ((Stmt.exec_keeps s hs).mono fun x hx => (Bool.or_eq_false_iff.mp hx).1).trans
        ((Stmt.execAll_keeps rest h).mono fun x hx => (Bool.or_eq_false_iff.mp hx).2)

end

/-! ## Code on a stack -/

/-- The environment whose locals are the compiler's `locals`, each with the value in its slot on
`m`'s stack, and whose globals and printed lines are `m`'s. -/
def Env.ofStack (locals : Array Local) (m : Machine) : Env :=
  ⟨(locals.toList.map Local.name).zip (m.stack.toList.take locals.size), m.globals, m.printed⟩

namespace Env

variable {locals : Array Local} {m : Machine}

theorem ofStack_named (h : locals.size ≤ m.stack.size) : (ofStack locals m).Named locals := by
  simp only [Named, ofStack]
  exact List.map_fst_zip (by simpa using h)

/-- The values above the locals are the temporaries. -/
theorem ofStack_agrees (locals : Array Local) (m : Machine) :
    (ofStack locals m).Agrees (m.stack.toList.drop locals.size) m := by
  refine ⟨?_, rfl, rfl⟩
  have hvals : (ofStack locals m).values = m.stack.toList.take locals.size := by
    simp only [values, ofStack]
    exact List.map_snd_zip (by simp)
  rw [hvals, List.take_append_drop]

theorem ofStack_getElem? {i : Nat} (hi : i < locals.size) (hs : i < m.stack.size) :
    (ofStack locals m).locals[i]? = some (locals[i].name, m.stack[i]) := by
  simp only [ofStack]
  rw [List.getElem?_zip_eq_some]
  simp [hi, hs]

theorem Agrees.getElem?_kept {f : String → Bool} {E' : Env} {temps : List Value} {m' : Machine}
    (hk : (ofStack locals m).Keeps f E') (hm' : E'.Agrees temps m') {i : Nat}
    (hi : i < locals.size) (hs : i < m.stack.size) (hf : f locals[i].name = false) :
    m'.stack[i]? = m.stack[i]? := by
  obtain ⟨v', hv', hkept⟩ := hk i _ _ (ofStack_getElem? hi hs)
  have hlt : i < E'.locals.length := (List.getElem?_eq_some_iff.mp hv').1
  rw [hm'.getElem?_stack hlt, Array.getElem?_eq_getElem hs, ← hkept hf]
  simp [localAt, hv']

end Env

open Machine

/-- The code of an expression adds exactly one value to the stack.  Started at its first byte on
any stack that holds the compiler's locals, it either reaches the byte after it with one value
more, every value below left alone except the locals whose names the expression assigns, or it
stops with a runtime error.  Compiling it leaves the locals and the block depth as they were. -/
theorem Expr.emit_balanced {e : Expr} {st st' : Emitter} (hv : st.Valid)
    (h : e.emit.run st = .ok ((), st')) {c : Chunk}
    (hc : c.Holds st'.chunk st.chunk.size st'.chunk.size) {m : Machine}
    (hip : m.ip = st.chunk.size) (hstack : st.locals.size ≤ m.stack.size) :
    st'.locals = st.locals ∧ st'.depth = st.depth ∧
      ((∃ n m', Within c st.chunk.size st'.chunk.size m n m' ∧ m'.ip = st'.chunk.size ∧
          m'.stack.size = m.stack.size + 1 ∧
          (∀ i (hi : i < st.locals.size), e.assigns st.locals[i].name = false →
            m'.stack[i]? = m.stack[i]?) ∧
          ∀ i, st.locals.size ≤ i → m'.stack[i]? = m.stack[i]? ∨ m.stack.size ≤ i) ∨
        ∃ x m', Fails c st.chunk.size st'.chunk.size m x m') := by
  have w := Expr.emit_writes h hv
  refine ⟨w.locals, w.depth, ?_⟩
  have hn := ofStack_named hstack
  rcases Expr.computes c e h hv hc hn (ofStack_agrees st.locals m) hip with
    ⟨n, m', hw, hip', v, -, hm'⟩ | ⟨x, m', hfail, -⟩
  · -- the value is on top of the temporaries, above the locals the expression leaves
    have hlen : (e.eval (ofStack st.locals m)).2.locals.length = st.locals.size := by
      simpa using congrArg List.length (e.eval_named hn)
    refine .inl ⟨n, m', hw, hip', ?_, fun i hi hf => ?_, fun i hi => ?_⟩
    · rw [hm'.stack_size, hlen]
      simp
      omega
    · exact hm'.getElem?_kept (e.eval_keeps _) hi (by omega) hf
    · rcases Nat.lt_or_ge i m.stack.size with hs | hs
      · refine .inl ?_
        rw [hm'.stack, List.getElem?_toArray, ← List.append_assoc,
          List.getElem?_append_left (by simp [hlen]; omega), List.getElem?_append_right (by simp [hlen]; omega)]
        simp [hlen, Array.getElem?_eq_getElem hs, show st.locals.size + (i - st.locals.size) = i by omega]
      · exact .inr hs
  · exact .inr ⟨x, m', hfail⟩

/-- The code of a statement keeps the stack balanced.  Compiled as an item from any state the
compiler reaches, the statement leaves the block depth as it was and the locals too, but for the
one a declaration inside a block adds.  Started at its first byte on a stack that holds exactly
the locals, its code either reaches the byte after it with the stack as high as the locals after
it, every slot below left alone except those of locals whose names the statement assigns; or it
stops with a runtime error; or it runs inside its own code forever. -/
theorem Stmt.emit_balanced {s : Stmt} (hs : s.placed true) {st st' : Emitter} (hv : st.Valid)
    (h : s.emit.run st = .ok ((), st')) {c : Chunk}
    (hc : c.Holds st'.chunk st.chunk.size st'.chunk.size) {m : Machine}
    (hip : m.ip = st.chunk.size) (hstack : m.stack.size = st.locals.size) :
    st'.depth = st.depth ∧ st'.locals = s.localsAfter st.depth st.locals ∧
      ((∃ n m', Within c st.chunk.size st'.chunk.size m n m' ∧ m'.ip = st'.chunk.size ∧
          m'.stack.size = st'.locals.size ∧
          ∀ i (hi : i < st.locals.size), s.assigns st.locals[i].name = false →
            m'.stack[i]? = m.stack[i]?) ∨
        (∃ x m', Fails c st.chunk.size st'.chunk.size m x m') ∨
        ∀ k, Busy c st.chunk.size st'.chunk.size m k) := by
  obtain ⟨-, hd, hl⟩ := Stmt.emit_scope hs h hv
  refine ⟨hd, hl, ?_⟩
  have hn := ofStack_named (Nat.le_of_eq hstack.symm)
  have hm : (Env.ofStack st.locals m).Agrees [] m := by
    have h₀ := ofStack_agrees st.locals m
    rwa [List.drop_eq_nil_of_le (by simp [hstack])] at h₀
  by_cases hfin : ∃ fuel r, s.exec fuel st.depth (Env.ofStack st.locals m) = some r
  · -- with enough rounds the interpreter answers, and the code does what it answers
    obtain ⟨fuel, ⟨x, E'⟩, hr⟩ := hfin
    have hR : s.Runs c fuel := Stmt.runs s hs
    have hF := hR h hv hc hn hm hip
    dsimp only at hF
    rw [hr] at hF
    rcases hF with ⟨n, m', hw, hip', -, hm', hn'⟩ | ⟨e, m', hfail, -⟩
    · refine .inl ⟨n, m', hw, hip', ?_, fun i hi hf => ?_⟩
      · rw [hm'.stack_size]
        simpa using congrArg List.length hn'
      · exact hm'.getElem?_kept (Stmt.exec_keeps s hr) hi (by omega) hf
    · exact .inr (.inl ⟨e, m', hfail⟩)
  · -- no number of rounds is enough: the code runs on inside, as many steps as asked
    refine .inr (.inr fun k => ?_)
    have hR : s.Runs c k := Stmt.runs s hs
    have hF := hR h hv hc hn hm hip
    dsimp only at hF
    rcases hr : s.exec k st.depth (Env.ofStack st.locals m) with _ | r
    · rw [hr] at hF
      exact hF
    · exact absurd ⟨k, r, hr⟩ hfin

/-- Stack balance and scope reclamation, for all the code the compiler writes, from every state it
reaches (`Emitter.Valid`: among others, no local deeper than the current block):

* a statement of a parsed program (`Stmt.placed`, `Program.ofTokens_placed`) leaves the block
  depth and the locals as they were, but for the local a declaration inside a block adds; its
  code, started at its first byte on a stack that holds exactly the locals, reaches the byte
  after it with the stack as high as the locals then, every slot below left alone unless the
  statement assigns its local, or stops with a runtime error, or runs inside itself forever;
* the code of an expression, on any stack that holds the locals, reaches the byte after it with
  exactly one value more, or stops with a runtime error;
* the end of a block writes one `POP` for each local declared in it and gives back the locals
  from before it. -/
theorem compiled_code_keeps_stack_balance :
    (∀ {s : Stmt} {st st' : Emitter} {c : Chunk} {m : Machine}, s.placed true → st.Valid →
      s.emit.run st = .ok ((), st') → c.Holds st'.chunk st.chunk.size st'.chunk.size →
      m.ip = st.chunk.size → m.stack.size = st.locals.size →
      st'.depth = st.depth ∧ st'.locals = s.localsAfter st.depth st.locals ∧
        ((∃ n m', Within c st.chunk.size st'.chunk.size m n m' ∧ m'.ip = st'.chunk.size ∧
            m'.stack.size = st'.locals.size ∧
            ∀ i (hi : i < st.locals.size), s.assigns st.locals[i].name = false →
              m'.stack[i]? = m.stack[i]?) ∨
          (∃ x m', Fails c st.chunk.size st'.chunk.size m x m') ∨
          ∀ k, Busy c st.chunk.size st'.chunk.size m k)) ∧
    (∀ {e : Expr} {st st' : Emitter} {c : Chunk} {m : Machine}, st.Valid →
      e.emit.run st = .ok ((), st') → c.Holds st'.chunk st.chunk.size st'.chunk.size →
      m.ip = st.chunk.size → st.locals.size ≤ m.stack.size →
      st'.locals = st.locals ∧ st'.depth = st.depth ∧
        ((∃ n m', Within c st.chunk.size st'.chunk.size m n m' ∧ m'.ip = st'.chunk.size ∧
            m'.stack.size = m.stack.size + 1 ∧
            (∀ i (hi : i < st.locals.size), e.assigns st.locals[i].name = false →
              m'.stack[i]? = m.stack[i]?) ∧
            ∀ i, st.locals.size ≤ i → m'.stack[i]? = m.stack[i]? ∨ m.stack.size ≤ i) ∨
          ∃ x m', Fails c st.chunk.size st'.chunk.size m x m')) ∧
    (∀ {st : Emitter} {older : Array Local} {newer : List Local} {d : Nat},
      st.depth = d + 1 → st.locals = older ++ newer.toArray → (∀ l ∈ older, l.depth ≤ d) →
      (∀ l ∈ newer, l.depth = d + 1) → ∀ line,
      (Emit.endScope line).run st = .ok ((), { st with
        depth := d, locals := older,
        chunk := { st.chunk with
          code := st.chunk.code ++ Array.replicate newer.length (UInt8.ofNat Op.pop.byte),
          lines := st.chunk.lines ++ Array.replicate newer.length line } })) :=
  ⟨fun hs hv h hc hip hstack => Stmt.emit_balanced hs hv h hc hip hstack,
    fun hv h hc hip hstack => Expr.emit_balanced hv h hc hip hstack,
    fun hd hl holder hnewer line => Emit.endScope_newer hd hl holder hnewer line⟩

/-- `a = !a;` compiled in a block whose one local is `a`, run on a stack that holds `a`: its code
ends with the stack as high as before, or stops with an error, or runs on forever. -/
theorem negate_local_code_balanced :
    ∃ st', (Stmt.expression (.assign "a" (.unary .not (.var "a" default) default) default)
        default).emit.run ⟨Chunk.empty, #[⟨"a", 1⟩], 1, []⟩ = .ok ((), st') ∧
      st'.locals = #[⟨"a", 1⟩] ∧
      ((∃ n m', Within st'.chunk 0 st'.chunk.size ⟨#[.bool true], ∅, 0, #[]⟩ n m' ∧
          m'.ip = st'.chunk.size ∧ m'.stack.size = 1) ∨
        (∃ x m', Fails st'.chunk 0 st'.chunk.size ⟨#[.bool true], ∅, 0, #[]⟩ x m') ∨
        ∀ k, Busy st'.chunk 0 st'.chunk.size ⟨#[.bool true], ∅, 0, #[]⟩ k) := by
  have hv : (⟨Chunk.empty, #[⟨"a", 1⟩], 1, []⟩ : Emitter).Valid :=
    ⟨rfl, by decide, by simp, by decide, by simp⟩
  obtain ⟨st', h⟩ : ∃ st', (Stmt.expression (.assign "a" (.unary .not (.var "a" default) default)
      default) default).emit.run ⟨Chunk.empty, #[⟨"a", 1⟩], 1, []⟩ = .ok ((), st') := ⟨_, rfl⟩
  obtain ⟨-, hl, hrun⟩ := compiled_code_keeps_stack_balance.1 (m := ⟨#[.bool true], ∅, 0, #[]⟩)
    rfl hv h (Chunk.Holds.refl _ _ _) rfl rfl
  refine ⟨st', h, hl, ?_⟩
  rcases hrun with ⟨n, m', hw, hip, hsize, -⟩ | hrest
  · exact .inl ⟨n, m', hw, hip, by rw [hsize, hl]; rfl⟩
  · exact .inr hrest

end StackScript
