import StackScript.Proofs.Stepping
import StackScript.Proofs.Emitting
import StackScript.Proofs.Meaning

/-!
# Compiled expressions compute their values

The code the compiler writes for an expression, run on a machine that holds an environment,
leaves the expression's value on the stack and the environment its assignments lead to, or stops
with the error the interpreter of `Proofs/Meaning` meets, or overflows the stack
(`Expr.computes`).

A machine holds an environment (`Env.Agrees E temps m`) when its stack is the values of the
environment's locals, oldest first, with `temps` above them, and its globals and printed lines
are the environment's.  The compiler's locals name the environment's (`Env.Named`), so the slot
the compiler gives a name is the place of its newest local (`Emit.slotOf?_eq_newest?`).
-/

namespace StackScript

/-! ## Environments on the stack -/

namespace Env

/-- The values of the locals, oldest first: the bottom of the stack. -/
def values (E : Env) : List Value := E.locals.map Prod.snd

/-- The compiler's locals have the names of the environment's, in the same order. -/
def Named (E : Env) (locals : Array Local) : Prop :=
  E.locals.map Prod.fst = locals.toList.map Local.name

/-- The machine `m` holds `E`: its stack is the values of `E`'s locals with `temps` above them,
and its globals and printed lines are those of `E`. -/
structure Agrees (E : Env) (temps : List Value) (m : Machine) : Prop where
  stack : m.stack = (E.values ++ temps).toArray
  globals : m.globals = E.globals
  printed : m.printed = E.printed

/-- What is seen of `E` in `m` after an error: the globals and the printed lines. -/
structure Shows (E : Env) (m : Machine) : Prop where
  globals : m.globals = E.globals
  printed : m.printed = E.printed

theorem Agrees.shows {E : Env} {temps : List Value} {m : Machine} (h : E.Agrees temps m) :
    E.Shows m :=
  ⟨h.globals, h.printed⟩

@[simp] theorem length_values (E : Env) : E.values.length = E.locals.length := by
  simp [values]

theorem newest?_eq (locals : List (String × Value)) (name : String) :
    newest? locals name = ((locals.map Prod.fst).reverse.findIdx? (· == name)).map
      (locals.length - 1 - ·) := by
  induction locals with
  | nil => rfl
  | cons nv rest ih =>
    obtain ⟨n, v⟩ := nv
    simp only [newest?, ih, List.map_cons, List.reverse_cons, List.findIdx?_append,
      List.length_cons, List.length_reverse, List.length_map]
    rcases hi : (rest.map Prod.fst).reverse.findIdx? (· == name) with _ | i
    · by_cases hn : n = name <;> simp [hn, List.findIdx?_cons]
    · have hlt : i < rest.length := by
        have := (List.findIdx?_eq_some_iff_getElem.mp hi).1
        simpa using this
      simp only [Option.map_some, Option.some_or, Option.some.injEq]
      omega

theorem newest?_lt {locals : List (String × Value)} {name : String} {i : Nat}
    (h : newest? locals name = some i) : i < locals.length := by
  rw [newest?_eq, Option.map_eq_some_iff] at h
  obtain ⟨j, hj, rfl⟩ := h
  have := (List.findIdx?_eq_some_iff_getElem.mp hj).1
  simp only [List.length_reverse, List.length_map] at this
  omega

theorem Agrees.getElem?_stack {E : Env} {temps : List Value} {m : Machine} (h : E.Agrees temps m)
    {i : Nat} (hi : i < E.locals.length) : m.stack[i]? = some (E.localAt i) := by
  have hlt : (E.locals.map Prod.snd).length > i := by simpa using hi
  simp only [h.stack, List.getElem?_toArray, values, List.getElem?_append_left hlt]
  simp [localAt, hi]

end Env

/-- The slot the compiler gives a name is the place of the newest local of that name. -/
theorem Emit.slotOf?_eq_newest? {E : Env} {locals : Array Local} (h : E.Named locals)
    (name : String) : slotOf? locals name = Env.newest? E.locals name := by
  have hlen : E.locals.length = locals.size := by
    simpa using congrArg List.length h
  have hnames : (E.locals.map Prod.fst).reverse = (locals.toList.map Local.name).reverse := by
    rw [h]
  rw [Env.newest?_eq, hnames, hlen, slotOf?, ← List.map_reverse, List.findIdx?_map]
  rfl

namespace Env

variable {E : Env} {temps : List Value} {m : Machine}

theorem Agrees.push (h : E.Agrees temps m) (v : Value) (ip : Nat) :
    E.Agrees (temps ++ [v]) { m with stack := m.stack.push v, ip := ip } :=
  ⟨by simp [h.stack], h.globals, h.printed⟩

theorem Agrees.setIp (h : E.Agrees temps m) (ip : Nat) : E.Agrees temps { m with ip := ip } :=
  ⟨h.stack, h.globals, h.printed⟩

theorem values_setLocalAt (E : Env) (i : Nat) (v : Value) :
    (E.setLocalAt i v).values = E.values.set i v := by
  apply List.ext_getElem?
  intro j
  simp only [values, setLocalAt, List.getElem?_map, List.getElem?_modify, List.getElem?_set]
  by_cases h : i = j
  · subst h
    rcases hi : E.locals[i]? with _ | ⟨n, w⟩
    · simp [List.getElem?_eq_none_iff.mp hi]
    · simp [(List.getElem?_eq_some_iff.mp hi).1]
  · simp [h]

theorem names_setLocalAt (E : Env) (i : Nat) (v : Value) :
    (E.setLocalAt i v).locals.map Prod.fst = E.locals.map Prod.fst := by
  apply List.ext_getElem?
  intro j
  simp only [setLocalAt, List.getElem?_map, List.getElem?_modify]
  by_cases h : i = j
  · subst h
    cases E.locals[i]? <;> simp
  · simp [h]

theorem Agrees.stack_size (h : E.Agrees temps m) :
    m.stack.size = E.locals.length + temps.length := by
  simp [h.stack]

end Env

/-! ## Where compiled code stands

The chunk `c` that runs holds the code of a whole compilation; the lemmas below find in it the
instructions of each step of that compilation, also where a later patch rewrote an operand. -/

namespace Chunk.Holds

variable {c : Chunk} {st₁ st₂ : Emitter} {a b : Nat}

theorem of_writes {b₁ : Nat} (h : c.Holds st₂.chunk a b) (hw : st₁.Writes st₂)
    (hb₁ : b₁ ≤ st₁.chunk.size) (hb : b₁ ≤ b) : c.Holds st₁.chunk a b₁ :=
  h.trans (hw.holds.mono (Nat.zero_le a) hb₁) (Nat.le_refl a) hb

theorem of_patchU16 {d : Chunk} {p v : Nat} (h : c.Holds (d.patchU16 p v) a b)
    (hp : b ≤ p ∨ p + 2 ≤ a) : c.Holds d a b :=
  h.trans (holds_patchU16 d p v a b fun _ _ _ => by omega) (Nat.le_refl a) (Nat.le_refl b)

theorem of_patch (h : c.Holds st₂.chunk a b) {p line : Nat} {x : Unit}
    (hp : (Emit.patch p line).run st₁ = .ok (x, st₂)) (hab : b ≤ p ∨ p + 2 ≤ a) :
    c.Holds st₁.chunk a b := by
  obtain ⟨-, rfl⟩ := Emit.patch_ok.mp hp
  exact h.of_patchU16 hab

theorem op (h : c.Holds st₂.chunk a b) {o : Op} {line : Nat} {x : Unit}
    (hop : (Emit.op o line).run st₁ = .ok (x, st₂)) (hv : st₁.Valid) (ha : a ≤ st₁.chunk.size)
    (hb : st₁.chunk.size < b) :
    c.byteAt? st₁.chunk.size = some o.byte ∧ c.lineAt st₁.chunk.size = line := by
  obtain ⟨-, rfl⟩ := by simpa only [Emit.op_run, Except.ok.injEq, Prod.mk.injEq] using hop
  rw [h.byteAt? ha hb, h.lineAt ha hb]
  simp [byteAt?_write, lineAt_write, hv.lines]

theorem opWith (h : c.Holds st₂.chunk a b) {o : Op} {k line : Nat} {x : Unit}
    (hop : (Emit.opWith o k line).run st₁ = .ok (x, st₂)) (hv : st₁.Valid)
    (ha : a ≤ st₁.chunk.size) (hb : st₁.chunk.size + 1 < b) :
    c.byteAt? st₁.chunk.size = some o.byte ∧ c.byteAt? (st₁.chunk.size + 1) = some (k % 256) ∧
      c.lineAt st₁.chunk.size = line ∧ st₂.chunk.size = st₁.chunk.size + 2 := by
  obtain ⟨-, rfl⟩ := by simpa only [Emit.opWith_run, Except.ok.injEq, Prod.mk.injEq] using hop
  rw [h.byteAt? ha (by omega), h.byteAt? (by omega) hb, h.lineAt ha (by omega)]
  simp [byteAt?_write, lineAt_write, hv.lines]

theorem jump (h : c.Holds st₂.chunk a b) {o : Op} {line p : Nat}
    (hj : (Emit.jump o line).run st₁ = .ok (p, st₂)) (hv : st₁.Valid) (ha : a ≤ st₁.chunk.size)
    (hb : st₁.chunk.size < b) :
    c.byteAt? st₁.chunk.size = some o.byte ∧ c.lineAt st₁.chunk.size = line ∧
      p = st₁.chunk.size + 1 := by
  obtain ⟨rfl, rfl⟩ := by simpa only [Emit.jump_run, Except.ok.injEq, Prod.mk.injEq] using hj
  rw [h.byteAt? ha hb, h.lineAt ha hb]
  have hne : st₁.chunk.size ≠ st₁.chunk.size + 1 + 1 := by omega
  simp [byteAt?_write, lineAt_write, hv.lines, hne]

theorem loopBack (h : c.Holds st₂.chunk a b) {start line : Nat} {x : Unit}
    (hl : (Emit.loopBack start line).run st₁ = .ok (x, st₂)) (ha : a ≤ st₁.chunk.size)
    (hb : st₁.chunk.size + 2 < b) :
    c.byteAt? st₁.chunk.size = some Op.loop.byte ∧
      c.readU16? (st₁.chunk.size + 1) = some (st₁.chunk.size + 1 - start + 2) ∧
      st₂.chunk.size = st₁.chunk.size + 3 := by
  obtain ⟨hd, rfl⟩ := Emit.loopBack_ok.mp hl
  have hd' : st₁.chunk.size + 1 - start + 2 < 65536 := by simp only [maxJump] at hd; omega
  rw [h.byteAt? ha (by omega), h.readU16? (by omega) (by omega)]
  have hne : st₁.chunk.size ≠ st₁.chunk.size + 1 + 1 := by omega
  have hhi : (st₁.chunk.size + 1 - start + 2) / 256 < 256 := by omega
  refine ⟨by simp [byteAt?_write, hne], ?_, by simp⟩
  simp [Chunk.readU16?, byteAt?_write, Nat.mod_eq_of_lt hhi]
  omega

theorem loadConstant (h : c.Holds st₂.chunk a b) {v : Value} {line : Nat} {x : Unit}
    (hl : (Emit.loadConstant v line).run st₁ = .ok (x, st₂)) (ha : a ≤ st₁.chunk.size)
    (hb : st₁.chunk.size + 1 < b) :
    ∃ k, c.byteAt? st₁.chunk.size = some Op.constant.byte ∧
      c.byteAt? (st₁.chunk.size + 1) = some k ∧ c.constants[k]? = some v := by
  obtain ⟨hlt, rfl⟩ := Emit.loadConstant_ok.mp hl
  have hk : st₁.chunk.constants.size < 256 := hlt
  refine ⟨st₁.chunk.constants.size, ?_, ?_, h.constant (by simp)⟩
  · rw [h.byteAt? ha (by omega)]
    simp [Chunk.byteAt?_write]
  · rw [h.byteAt? (by omega) hb]
    simp [Chunk.byteAt?_write, Nat.mod_eq_of_lt hk]

theorem patch (h : c.Holds st₂.chunk a b) {p line : Nat} {x : Unit}
    (hp : (Emit.patch p line).run st₁ = .ok (x, st₂)) (ha : a ≤ p) (hb : p + 1 < b)
    (hlt : p + 1 < st₁.chunk.size) :
    c.readU16? p = some (st₁.chunk.size - p - 2) ∧
      st₂.chunk = st₁.chunk.patchU16 p (st₁.chunk.size - p - 2) := by
  obtain ⟨hj, rfl⟩ := Emit.patch_ok.mp hp
  exact ⟨by rw [h.readU16? ha hb, readU16?_patchU16 hlt hj], rfl⟩

end Chunk.Holds

namespace Emit

variable {st₁ st₂ : Emitter}

theorem size_of_op {o : Op} {line : Nat} {x : Unit} (h : (op o line).run st₁ = .ok (x, st₂)) :
    st₂.chunk.size = st₁.chunk.size + 1 := by
  obtain ⟨-, rfl⟩ := by simpa only [op_run, Except.ok.injEq, Prod.mk.injEq] using h
  simp

theorem size_of_jump {o : Op} {line p : Nat} (h : (jump o line).run st₁ = .ok (p, st₂)) :
    st₂.chunk.size = st₁.chunk.size + 3 := by
  obtain ⟨-, rfl⟩ := by simpa only [jump_run, Except.ok.injEq, Prod.mk.injEq] using h
  simp

theorem size_of_patch {p line : Nat} {x : Unit} (h : (patch p line).run st₁ = .ok (x, st₂)) :
    st₂.chunk.size = st₁.chunk.size := by
  obtain ⟨-, rfl⟩ := patch_ok.mp h
  simp

theorem size_of_opWith {o : Op} {k line : Nat} {x : Unit}
    (h : (opWith o k line).run st₁ = .ok (x, st₂)) : st₂.chunk.size = st₁.chunk.size + 2 := by
  obtain ⟨-, rfl⟩ := by simpa only [opWith_run, Except.ok.injEq, Prod.mk.injEq] using h
  simp

theorem size_of_loadConstant {v : Value} {line : Nat} {x : Unit}
    (h : (loadConstant v line).run st₁ = .ok (x, st₂)) : st₂.chunk.size = st₁.chunk.size + 2 := by
  obtain ⟨-, rfl⟩ := loadConstant_ok.mp h
  simp

theorem size_of_loopBack {start line : Nat} {x : Unit}
    (h : (loopBack start line).run st₁ = .ok (x, st₂)) : st₂.chunk.size = st₁.chunk.size + 3 := by
  obtain ⟨-, rfl⟩ := loopBack_ok.mp h
  simp

end Emit

/-! ## Running compiled expressions -/

/-- The machine stands at `b` with the value of `r` above `temps`, holding the environment of
`r`. -/
def Expr.Returns (b : Nat) (temps : List Value) (r : Except RuntimeError Value × Env)
    (m : Machine) : Prop :=
  m.ip = b ∧ ∃ v, r.1 = .ok v ∧ r.2.Agrees (temps ++ [v]) m

/-- The machine failed with the error of `r`, showing the environment of `r`. -/
def Raises {α : Type} (r : Except RuntimeError α × Env) (x : RuntimeError) (m : Machine) : Prop :=
  r.1 = .error x ∧ r.2.Shows m

theorem BinOp.numeric_map {x y : Value} {line : Nat} {f : Float → Float → Value}
    (g : Value → Value) :
    (apply.numeric x y line f).map g = apply.numeric x y line fun a b => g (f a b) := by
  unfold apply.numeric
  split <;> rfl

namespace Machine

variable {c : Chunk} {a b : Nat} {m : Machine} {E : Env} {temps : List Value}

theorem Leads.widen {a' b' : Nat} {Q : Machine → Prop} {F : RuntimeError → Machine → Prop}
    (h : Leads c a b m Q F) (ha : a' ≤ a) (hb : b ≤ b') : Leads c a' b' m Q F :=
  h.mono ha hb (fun _ h => h) fun _ _ h => h

theorem Leads.raising {γ : Type} {q : Nat} {x : RuntimeError} {E₁ : Env} {Q : Machine → Prop}
    (h : Leads c a b m (Expr.Returns q temps (.error x, E₁))
      (Raises ((.error x : Except RuntimeError Value), E₁))) :
    Leads c a b m Q (Raises ((.error x : Except RuntimeError γ), E₁)) :=
  h.mono (Nat.le_refl a) (Nat.le_refl b) (fun _ ⟨_, _, hv, _⟩ => by cases hv)
    fun _ _ ⟨hx, hs⟩ => ⟨by cases hx; rfl, hs⟩

theorem Leads.returning {q : Nat} {v : Value} {E₁ : Env} {Q : Machine → Prop}
    {F : RuntimeError → Machine → Prop}
    (h : Leads c a b m (Expr.Returns q temps (.ok v, E₁)) (Raises ((.ok v : Except RuntimeError Value), E₁)))
    (k : ∀ m₁, E₁.Agrees (temps ++ [v]) m₁ → m₁.ip = q → Leads c a b m₁ Q F) :
    Leads c a b m Q F :=
  (h.mono (Nat.le_refl a) (Nat.le_refl b) (fun _ h => h) fun _ _ ⟨hx, _⟩ => by cases hx).bind
    fun m₁ ⟨hip, _, hv, hm⟩ => by cases hv; exact k m₁ hm hip

/-! ### Instructions that push -/

variable {st : Emitter} {Q : Machine → Prop} {F : RuntimeError → Machine → Prop}

theorem leads_loadConstant {st' : Emitter} {v : Value} {line : Nat} {x : Unit}
    (h : (Emit.loadConstant v line).run st = .ok (x, st'))
    (hc : c.Holds st'.chunk st.chunk.size st'.chunk.size)
    (hm : E.Agrees temps m) (hip : m.ip = st.chunk.size) :
    Leads c st.chunk.size st'.chunk.size m (Expr.Returns st'.chunk.size temps (.ok v, E)) F := by
  have hsize := Emit.size_of_loadConstant h
  obtain ⟨k, hb, hk, hv⟩ := hc.loadConstant h (Nat.le_refl _) (by omega)
  rw [← hip] at hb hk
  refine Leads.push (by omega) (by omega) (next_constant hb hk hv) fun _ => Leads.done ?_
  exact ⟨by simp [hip, hsize], v, rfl, hm.push v _⟩

theorem leads_literal {st' : Emitter} {o : Op} {v : Value} {line : Nat} {x : Unit}
    (hv : o = .pushNil ∧ v = .nil ∨ o = .pushTrue ∧ v = .bool true ∨
      o = .pushFalse ∧ v = .bool false)
    (h : (Emit.op o line).run st = .ok (x, st'))
    (hc : c.Holds st'.chunk st.chunk.size st'.chunk.size)
    (hm : E.Agrees temps m) (hip : m.ip = st.chunk.size) :
    Leads c st.chunk.size st'.chunk.size m (Expr.Returns st'.chunk.size temps (.ok v, E)) F := by
  obtain ⟨-, rfl⟩ := by simpa only [Emit.op_run, Except.ok.injEq, Prod.mk.injEq] using h
  have hb : c.byteAt? m.ip = some o.byte := by
    rw [hip, hc.byteAt? (Nat.le_refl _) (by simp)]
    simp [Chunk.byteAt?_write]
  refine Leads.push (by omega) (by simp [hip]) (next_literal hb hv) fun _ => Leads.done ?_
  exact ⟨by simp [hip], v, rfl, hm.push v _⟩

/-! ### Variables -/

theorem leads_read {st' : Emitter} {name : String} {line : Nat} (hv : st.Valid)
    (h : (Emit.access name (.getLocal, .getGlobal) line).run st = .ok ((), st'))
    (hc : c.Holds st'.chunk st.chunk.size st'.chunk.size) (hn : E.Named st.locals)
    (hm : E.Agrees temps m) (hip : m.ip = st.chunk.size) :
    Leads c st.chunk.size st'.chunk.size m
      (Expr.Returns st'.chunk.size temps (E.read name line, E)) (Raises (E.read name line, E)) := by
  obtain ⟨-, hsize, hl₀, -, hcode⟩ := Emit.access_writes hv h
  have hline : c.lineAt m.ip = line := by rw [hip, hc.lineAt (Nat.le_refl _) (by omega), hl₀]
  rcases hcode with ⟨slot, hslot, hb₀, hb₁⟩ | ⟨hnone, k, hk, hb₀, hb₁⟩
  · -- a local: `GET_LOCAL slot` pushes the value in its slot
    rw [Emit.slotOf?_eq_newest? hn] at hslot
    have hb : c.byteAt? m.ip = some Op.getLocal.byte := by
      rw [hip, hc.byteAt? (Nat.le_refl _) (by omega), hb₀]
    have hs : c.byteAt? (m.ip + 1) = some slot := by
      rw [hip, hc.byteAt? (by omega) (by omega), hb₁]
    have hread : E.read name line = .ok (E.localAt slot) := by simp [Env.read, hslot]
    rw [hread]
    refine Leads.push (by omega) (by omega)
      (next_getLocal hb hs (hm.getElem?_stack (Env.newest?_lt hslot))) fun _ => Leads.done ?_
    exact ⟨by simp [hip, hsize], _, rfl, hm.push _ _⟩
  · -- a global: `GET_GLOBAL k` looks the name up
    rw [Emit.slotOf?_eq_newest? hn] at hnone
    have hb : c.byteAt? m.ip = some Op.getGlobal.byte := by
      rw [hip, hc.byteAt? (Nat.le_refl _) (by omega), hb₀]
    have hs : c.byteAt? (m.ip + 1) = some k := by
      rw [hip, hc.byteAt? (by omega) (by omega), hb₁]
    have hnext := next_getGlobal hb hs (hc.constant hk)
    have hg' : m.globals[name]? = E.globals[name]? := by rw [hm.globals]
    rw [hg', hline] at hnext
    rcases hg : E.globals[name]? with _ | v
    · rw [hg] at hnext
      refine Leads.fail (by omega) (by omega) hnext ?_
      exact ⟨by simp [Env.read, hnone, hg], (hm.setIp _).shows⟩
    · rw [hg] at hnext
      have hread : E.read name line = .ok v := by simp [Env.read, hnone, hg]
      rw [hread]
      refine Leads.push (by omega) (by omega) hnext fun _ => Leads.done ?_
      exact ⟨by simp [hip, hsize], _, rfl, hm.push _ _⟩

theorem leads_write {st' : Emitter} {name : String} {line : Nat} {v : Value} (hv : st.Valid)
    (h : (Emit.access name (.setLocal, .setGlobal) line).run st = .ok ((), st'))
    (hc : c.Holds st'.chunk st.chunk.size st'.chunk.size) (hn : E.Named st.locals)
    (hm : E.Agrees (temps ++ [v]) m) (hip : m.ip = st.chunk.size) :
    Leads c st.chunk.size st'.chunk.size m
      (Expr.Returns st'.chunk.size temps (E.write name v line)) (Raises (E.write name v line)) := by
  obtain ⟨-, hsize, hl₀, -, hcode⟩ := Emit.access_writes hv h
  have hline : c.lineAt m.ip = line := by rw [hip, hc.lineAt (Nat.le_refl _) (by omega), hl₀]
  have hs : m.stack = ((E.values ++ temps) ++ [v]).toArray := by simp [hm.stack]
  rcases hcode with ⟨slot, hslot, hb₀, hb₁⟩ | ⟨hnone, k, hk, hb₀, hb₁⟩
  · -- a local: `SET_LOCAL slot` overwrites its slot
    rw [Emit.slotOf?_eq_newest? hn] at hslot
    have hlt := Env.newest?_lt hslot
    have hb : c.byteAt? m.ip = some Op.setLocal.byte := by
      rw [hip, hc.byteAt? (Nat.le_refl _) (by omega), hb₀]
    have hk : c.byteAt? (m.ip + 1) = some slot := by
      rw [hip, hc.byteAt? (by omega) (by omega), hb₁]
    have hwrite : E.write name v line = (.ok v, E.setLocalAt slot v) := by
      simp [Env.write, hslot]
    rw [hwrite]
    refine Leads.step (by omega) (by omega) (next_setLocal hb hk hs (by simp; omega))
      (Leads.done ⟨by simp [hip, hsize], v, rfl, ?_, hm.globals, hm.printed⟩)
    have hslot' : slot < E.values.length := by simpa using hlt
    simp [Env.values_setLocalAt, List.set_append_left _ _ hslot']
  · -- a global: `SET_GLOBAL k` overwrites it if it exists
    rw [Emit.slotOf?_eq_newest? hn] at hnone
    have hb : c.byteAt? m.ip = some Op.setGlobal.byte := by
      rw [hip, hc.byteAt? (Nat.le_refl _) (by omega), hb₀]
    have hk' : c.byteAt? (m.ip + 1) = some k := by
      rw [hip, hc.byteAt? (by omega) (by omega), hb₁]
    have hnext := next_setGlobal hb hk' (hc.constant hk) hs
    have hcontains : m.globals.contains name = E.globals.contains name := by rw [hm.globals]
    rw [hcontains, hline] at hnext
    by_cases hg : E.globals.contains name
    · simp only [hg, ↓reduceIte] at hnext
      have hwrite : E.write name v line = (.ok v, { E with globals := E.globals.insert name v }) := by
        simp [Env.write, hnone, hg]
      rw [hwrite]
      refine Leads.step (by omega) (by omega) hnext (Leads.done ?_)
      exact ⟨by simp [hip, hsize], v, rfl, hm.stack, by simp [hm.globals], hm.printed⟩
    · simp only [hg, Bool.false_eq_true, ↓reduceIte] at hnext
      have hwrite : E.write name v line = (.error (.undefinedVariable name line), E) := by
        simp [Env.write, hnone, hg]
      rw [hwrite]
      exact Leads.fail (by omega) (by omega) hnext ⟨rfl, hm.globals, hm.printed⟩

/-! ### Operators -/

theorem leads_arith {o : Op} {f : Float → Float → Value} {x y : Value} {line : Nat}
    (hb : c.byteAt? m.ip = some o.byte) (hl : c.lineAt m.ip = line)
    (hf : ∀ offset line, perform c offset line o = (do Exec.arith f line; return false))
    (hm : E.Agrees (temps ++ [x, y]) m) (ha : a ≤ m.ip) (hlt : m.ip < b) :
    Leads c a b m (Expr.Returns (m.ip + 1) temps (BinOp.apply.numeric x y line f, E))
      (Raises (BinOp.apply.numeric x y line f, E)) := by
  have hs : m.stack = ((E.values ++ temps) ++ [x, y]).toArray := by simp [hm.stack]
  have hnext := next_arith hb hf hs
  rw [hl] at hnext
  -- two numbers go on; every other pair of operands fails
  cases x <;> cases y
  case number.number x y =>
    refine Leads.push ha hlt hnext fun _ => Leads.done ⟨rfl, _, rfl, ?_, hm.globals, hm.printed⟩
    simp
  all_goals exact Leads.fail ha hlt hnext ⟨rfl, hm.globals, hm.printed⟩

theorem leads_equal {x y : Value} (hb : c.byteAt? m.ip = some Op.equal.byte)
    (hm : E.Agrees (temps ++ [x, y]) m) (ha : a ≤ m.ip) (hlt : m.ip < b) :
    Leads c a b m (Expr.Returns (m.ip + 1) temps (.ok (.bool (x.equal y)), E)) F := by
  have hs : m.stack = ((E.values ++ temps) ++ [x, y]).toArray := by simp [hm.stack]
  refine Leads.push ha hlt (next_equal hb hs) fun _ =>
    Leads.done ⟨rfl, _, rfl, ?_, hm.globals, hm.printed⟩
  simp

theorem leads_not {v : Value} (hb : c.byteAt? m.ip = some Op.not.byte)
    (hm : E.Agrees (temps ++ [v]) m) (ha : a ≤ m.ip) (hlt : m.ip < b) :
    Leads c a b m (Expr.Returns (m.ip + 1) temps (.ok (.bool v.isFalsy), E)) F := by
  have hs : m.stack = ((E.values ++ temps) ++ [v]).toArray := by simp [hm.stack]
  refine Leads.push ha hlt (next_not hb hs) fun _ =>
    Leads.done ⟨rfl, _, rfl, ?_, hm.globals, hm.printed⟩
  simp

theorem leads_negate {v : Value} {line : Nat} (hb : c.byteAt? m.ip = some Op.negate.byte)
    (hl : c.lineAt m.ip = line) (hm : E.Agrees (temps ++ [v]) m) (ha : a ≤ m.ip) (hlt : m.ip < b) :
    Leads c a b m (Expr.Returns (m.ip + 1) temps (UnOp.neg.apply v line, E))
      (Raises (UnOp.neg.apply v line, E)) := by
  have hs : m.stack = ((E.values ++ temps) ++ [v]).toArray := by simp [hm.stack]
  have hnext := next_negate hb hs
  rw [hl] at hnext
  cases v with
  | number x =>
    refine Leads.push ha hlt hnext fun _ => Leads.done ⟨rfl, _, rfl, ?_, hm.globals, hm.printed⟩
    simp
  | _ => exact Leads.fail ha hlt hnext ⟨rfl, hm.globals, hm.printed⟩

theorem Leads.andNot {q : Nat} {r : Except RuntimeError Value}
    (h : Leads c a b m (Expr.Returns q temps (r, E)) (Raises (r, E)))
    (hb : c.byteAt? q = some Op.not.byte) (ha : a ≤ q) (hq : q < b) :
    Leads c a b m (Expr.Returns (q + 1) temps (r.map fun v => Value.bool v.isFalsy, E))
      (Raises (r.map fun v => Value.bool v.isFalsy, E)) := by
  cases r with
  | error x => exact h.raising
  | ok v =>
    refine h.returning fun m₁ hm₁ hip => ?_
    subst hip
    exact leads_not hb hm₁ ha hq

/-- The instructions of a binary operator apply it to the two values on top: the instruction of
`BinOp.instr`, then a `NOT` for the operators that are negations. -/
theorem leads_binOp {o : BinOp} {x y : Value} {line q : Nat}
    (hb : c.byteAt? m.ip = some o.instr.byte) (hl : c.lineAt m.ip = line)
    (hnot : o.negated → c.byteAt? (m.ip + 1) = some Op.not.byte)
    (hq : q = if o.negated then m.ip + 2 else m.ip + 1)
    (hm : E.Agrees (temps ++ [x, y]) m) (ha : a ≤ m.ip) (hlt : q ≤ b) :
    Leads c a b m (Expr.Returns q temps (o.apply x y line, E)) (Raises (o.apply x y line, E)) := by
  cases o <;>
    simp only [BinOp.negated, BinOp.instr, Bool.false_eq_true, ↓reduceIte, forall_const] at hq hb hnot <;>
    subst hq
  case add | sub | mul | div | lt | gt =>
    exact leads_arith hb hl (fun _ _ => rfl) hm ha (by omega)
  case eq => exact leads_equal hb hm ha (by omega)
  case ne => exact (leads_equal hb hm ha (by omega)).andNot hnot (by omega) (by omega)
  case le | ge =>
    have h₁ : Leads c a b m _ _ := leads_arith hb hl (fun _ _ => rfl) hm ha (by omega)
    have h := h₁.andNot hnot (by omega) (by omega)
    rw [BinOp.numeric_map] at h
    exact h

theorem leads_unOp {o : UnOp} {v : Value} {line : Nat}
    (hb : c.byteAt? m.ip = some o.instr.byte) (hl : c.lineAt m.ip = line)
    (hm : E.Agrees (temps ++ [v]) m) (ha : a ≤ m.ip) (hlt : m.ip < b) :
    Leads c a b m (Expr.Returns (m.ip + 1) temps (o.apply v line, E))
      (Raises (o.apply v line, E)) := by
  cases o with
  | neg => exact leads_negate hb hl hm ha hlt
  | not => exact leads_not hb hm ha hlt

end Machine

/-! ## Compiled expressions -/

theorem Env.Named.write {E : Env} {locals : Array Local} (h : E.Named locals) (name : String)
    (v : Value) (line : Nat) : (E.write name v line).2.Named locals := by
  unfold Env.write
  split
  · rw [Named, names_setLocalAt]
    exact h
  · split <;> exact h

/-- Expressions keep the names of the locals: they assign locals, never declare them. -/
theorem Expr.eval_named {locals : Array Local} (e : Expr) {E : Env} (h : E.Named locals) :
    (e.eval E).2.Named locals := by
  induction e generalizing E with
  | number | string | bool | nil | var => exact h
  | assign n e s ih =>
    have he := ih h
    rcases hr : e.eval E with ⟨_ | v, E₁⟩ <;> rw [hr] at he <;> simp only [Expr.eval, hr]
    · exact he
    · exact he.write n v s.line
  | binary o l r s ihl ihr =>
    have hl := ihl h
    rcases hr₁ : l.eval E with ⟨_ | x, E₁⟩ <;> rw [hr₁] at hl <;> simp only [Expr.eval, hr₁]
    · exact hl
    · have hr := ihr hl
      rcases hr₂ : r.eval E₁ with ⟨_ | y, E₂⟩ <;> rw [hr₂] at hr <;> exact hr
  | unary o e s ih =>
    have he := ih h
    rcases hr : e.eval E with ⟨_ | v, E₁⟩ <;> rw [hr] at he <;> simp only [Expr.eval, hr] <;>
      exact he
  | and l r s ihl ihr =>
    have hl := ihl h
    rcases hr₁ : l.eval E with ⟨_ | x, E₁⟩ <;> rw [hr₁] at hl <;> simp only [Expr.eval, hr₁]
    · exact hl
    · split
      · exact hl
      · exact ihr hl
  | or l r s ihl ihr =>
    have hl := ihl h
    rcases hr₁ : l.eval E with ⟨_ | x, E₁⟩ <;> rw [hr₁] at hl <;> simp only [Expr.eval, hr₁]
    · exact hl
    · split
      · exact ihr hl
      · exact hl
  | group e s ih => exact ih h

/-- The code of `e` computes `e` in chunk `c`: wherever the compiler writes it, run on a machine
that holds an environment whose locals the compiler names, it leads to the value and the
environment that `Expr.eval` gives, or fails with the error it gives, or overflows the stack. -/
def Expr.Computes (c : Chunk) (e : Expr) : Prop :=
  ∀ ⦃st st' : Emitter⦄ ⦃E : Env⦄ ⦃temps : List Value⦄ ⦃m : Machine⦄,
    e.emit.run st = .ok ((), st') → st.Valid → c.Holds st'.chunk st.chunk.size st'.chunk.size →
    E.Named st.locals → E.Agrees temps m → m.ip = st.chunk.size →
    Machine.Leads c st.chunk.size st'.chunk.size m (Expr.Returns st'.chunk.size temps (e.eval E))
      (Raises (e.eval E))

namespace Expr.Computes

open Machine Emit Emitter

variable {c : Chunk}

theorem number (x : Float) (s : Span) : (Expr.number x s).Computes c :=
  fun _ _ _ _ _ h _ hc _ hm hip => leads_loadConstant h hc hm hip

theorem string (v : String) (s : Span) : (Expr.string v s).Computes c :=
  fun _ _ _ _ _ h _ hc _ hm hip => leads_loadConstant h hc hm hip

theorem bool (b : Bool) (s : Span) : (Expr.bool b s).Computes c := by
  intro st st' E temps m h _ hc _ hm hip
  cases b
  · exact leads_literal (.inr (.inr ⟨rfl, rfl⟩)) h hc hm hip
  · exact leads_literal (.inr (.inl ⟨rfl, rfl⟩)) h hc hm hip

theorem nil (s : Span) : (Expr.nil s).Computes c :=
  fun _ _ _ _ _ h _ hc _ hm hip => leads_literal (.inl ⟨rfl, rfl⟩) h hc hm hip

theorem var (n : String) (s : Span) : (Expr.var n s).Computes c :=
  fun _ _ _ _ _ h hv hc hn hm hip => leads_read hv h hc hn hm hip

theorem group {e : Expr} (he : e.Computes c) (s : Span) : (Expr.group e s).Computes c :=
  fun _ _ _ _ _ h hv hc hn hm hip => he h hv hc hn hm hip

theorem assign {e : Expr} (he : e.Computes c) (n : String) (s : Span) :
    (Expr.assign n e s).Computes c := by
  intro st st' E temps m h hv hc hn hm hip
  obtain ⟨_, st₁, h₁, h₂⟩ := by simpa only [Expr.emit, run_bind_ok] using h
  have w₁ := Expr.emit_writes h₁ hv
  obtain ⟨w₂, hsize, -⟩ := access_writes w₁.valid h₂
  have hE := (he h₁ hv (hc.of_writes w₂ (Nat.le_refl _) (by omega)) hn hm hip).widen
    (Nat.le_refl _) (by omega : st₁.chunk.size ≤ st'.chunk.size)
  have hn₁ := e.eval_named hn (E := E)
  rcases hr : e.eval E with ⟨_ | v, E₁⟩ <;> rw [hr] at hE hn₁ <;> simp only [Expr.eval, hr]
  · exact hE.raising
  · -- the value is on top: store it
    refine hE.returning fun m₁ hm₁ hip₁ => ?_
    rw [← w₁.locals] at hn₁
    exact (leads_write w₁.valid h₂ (hc.mono w₁.size (Nat.le_refl _)) hn₁ hm₁ hip₁).widen
      w₁.size (Nat.le_refl _)

theorem unary {e : Expr} (he : e.Computes c) (o : UnOp) (s : Span) :
    (Expr.unary o e s).Computes c := by
  intro st st' E temps m h hv hc hn hm hip
  rw [Expr.emit_unary] at h
  obtain ⟨_, st₁, h₁, h₂⟩ := run_bind_ok.mp h
  have w₁ := Expr.emit_writes h₁ hv
  have w₂ := (Writes.refl w₁.valid).andOp h₂
  have hsize := size_of_op h₂
  have hE := (he h₁ hv (hc.of_writes w₂ (Nat.le_refl _) (by omega)) hn hm hip).widen
    (Nat.le_refl _) (by omega : st₁.chunk.size ≤ st'.chunk.size)
  rcases hr : e.eval E with ⟨_ | v, E₁⟩ <;> rw [hr] at hE <;> simp only [Expr.eval, hr]
  · exact hE.raising
  · -- the operator's instruction applies it to the value on top
    refine hE.returning fun m₁ hm₁ hip₁ => ?_
    obtain ⟨hb, hl⟩ := hc.op h₂ w₁.valid w₁.size (by omega)
    have hle := w₁.size
    rw [← hip₁] at hb hl
    rw [hsize, ← hip₁]
    exact leads_unOp hb hl hm₁ (by omega) (by omega)

theorem binary {l r : Expr} (hl : l.Computes c) (hr : r.Computes c) (o : BinOp) (s : Span) :
    (Expr.binary o l r s).Computes c := by
  intro st st' E temps m h hv hc hn hm hip
  rw [Expr.emit_binary] at h
  obtain ⟨_, st₁, h₁, _, st₂, h₂, _, st₃, h₃, h₄⟩ := by simpa only [run_bind_ok] using h
  have w₁ := Expr.emit_writes h₁ hv
  have w₂ := Expr.emit_writes h₂ w₁.valid
  have w₃ := (Writes.refl w₂.valid).andOp h₃
  have s₃ := size_of_op h₃
  have hle₁ := w₁.size
  have hle₂ := w₂.size
  obtain ⟨w₄, hend, hnot⟩ : st₃.Writes st' ∧
      st'.chunk.size = (if o.negated then st₂.chunk.size + 2 else st₂.chunk.size + 1) ∧
      (o.negated → c.byteAt? st₃.chunk.size = some Op.not.byte) := by
    cases hneg : o.negated <;> simp only [hneg, Bool.false_eq_true, ↓reduceIte] at h₄ ⊢
    · obtain ⟨-, rfl⟩ := run_pure_ok.mp h₄
      exact ⟨.refl w₃.valid, s₃, False.elim⟩
    · have s₄ := size_of_op h₄
      refine ⟨(Writes.refl w₃.valid).andOp h₄, by omega, fun _ => ?_⟩
      exact (hc.op h₄ w₃.valid (by omega) (by omega)).1
  have hend' : st₂.chunk.size + 1 ≤ st'.chunk.size := by
    rw [hend]
    split <;> omega
  have w₂₄ := w₃.trans w₄
  obtain ⟨hb, hline⟩ :=
    (hc.of_writes w₄ (Nat.le_refl _) (by omega)).op h₃ w₂.valid (by omega) (by omega)
  have hcl := hc.of_writes (w₂.trans w₂₄) (Nat.le_refl _) (by omega)
  have hcr := (hc.mono hle₁ (Nat.le_refl _)).of_writes w₂₄ (Nat.le_refl _) (by omega)
  have hL := (hl h₁ hv hcl hn hm hip).widen (Nat.le_refl _)
    (by omega : st₁.chunk.size ≤ st'.chunk.size)
  have hn₁ := l.eval_named hn (E := E)
  rcases he₁ : l.eval E with ⟨_ | x, E₁⟩ <;> rw [he₁] at hL hn₁ <;> simp only [Expr.eval, he₁]
  · exact hL.raising
  · refine hL.returning fun m₁ hm₁ hip₁ => ?_
    rw [← w₁.locals] at hn₁
    have hR := (hr h₂ w₁.valid hcr hn₁ hm₁ hip₁).widen hle₁
      (by omega : st₂.chunk.size ≤ st'.chunk.size)
    rcases he₂ : r.eval E₁ with ⟨_ | y, E₂⟩ <;> rw [he₂] at hR
    · exact hR.raising
    · refine hR.returning fun m₂ hm₂ hip₂ => ?_
      simp only [List.append_assoc, List.singleton_append] at hm₂
      rw [s₃, ← hip₂] at hnot
      rw [← hip₂] at hb hline
      exact leads_binOp hb hline hnot (by rw [hend, hip₂]) hm₂ (by omega) (Nat.le_refl _)

theorem and {l r : Expr} (hl : l.Computes c) (hr : r.Computes c) (s : Span) :
    (Expr.and l r s).Computes c := by
  intro st st' E temps m h hv hc hn hm hip
  obtain ⟨_, st₁, h₁, p, st₂, h₂, _, st₃, h₃, _, st₄, h₄, h₅⟩ := by
    simpa only [Expr.emit, run_bind_ok] using h
  -- the code: `l`, `JUMP_IF_FALSE` to the end, `POP`, `r`
  have w₁ := Expr.emit_writes h₁ hv
  obtain ⟨w₂, rfl⟩ := (Writes.refl w₁.valid).andJump h₂
  have w₃ := (Writes.refl w₂.valid).andOp h₃
  have w₄ := Expr.emit_writes h₄ w₃.valid
  have s₂ := size_of_jump h₂
  have s₃ := size_of_op h₃
  have s₅ := size_of_patch h₅
  have hle₁ := w₁.size
  have hle₄ := w₄.size
  have hcA : c.Holds st₄.chunk st.chunk.size (st₁.chunk.size + 1) :=
    (hc.mono (Nat.le_refl _) (by omega)).of_patch h₅ (.inl (Nat.le_refl _))
  have hcB : c.Holds st₄.chunk (st₁.chunk.size + 3) st₄.chunk.size :=
    (hc.mono (by omega) (by omega)).of_patch h₅ (.inr (Nat.le_refl _))
  obtain ⟨hjb, -, -⟩ := (hcA.of_writes (w₃.trans w₄) (by omega) (Nat.le_refl _)).jump h₂
    w₁.valid hle₁ (by omega)
  have hjd := (hc.patch h₅ (by omega) (by omega) (by omega)).1
  obtain ⟨hpb, -⟩ := (hcB.of_writes w₄ (Nat.le_refl _) (by omega)).op h₃ w₂.valid (by omega)
    (by omega)
  have hcl := hcA.of_writes (w₂.trans (w₃.trans w₄)) (Nat.le_refl _) (by omega)
  have hcr := hcB.mono (by omega : st₁.chunk.size + 3 ≤ st₃.chunk.size) (Nat.le_refl _)
  rw [s₅]
  have hL := (hl h₁ hv hcl hn hm hip).widen (Nat.le_refl _)
    (by omega : st₁.chunk.size ≤ st₄.chunk.size)
  have hn₁ := l.eval_named hn (E := E)
  rcases he₁ : l.eval E with ⟨_ | x, E₁⟩ <;> rw [he₁] at hL hn₁ <;> simp only [Expr.eval, he₁]
  · exact hL.raising
  · refine hL.returning fun m₁ hm₁ hip₁ => ?_
    have hs₁ : m₁.stack = ((E₁.values ++ temps) ++ [x]).toArray := by simp [hm₁.stack]
    rw [← hip₁] at hjb hjd
    have hnext := next_jumpIfFalse hjb hjd hs₁
    by_cases hx : x.isFalsy
    · -- a false left operand is the answer: the jump skips the rest with it on the stack
      simp only [hx, ↓reduceIte] at hnext ⊢
      refine Leads.step (by omega) (by omega) hnext (Leads.done ⟨?_, x, rfl, hm₁.setIp _⟩)
      show m₁.ip + 3 + (st₄.chunk.size - m₁.ip - 2 - 1) = st₄.chunk.size
      omega
    · -- otherwise the jump falls through to `POP`, and the right operand is the answer
      simp only [hx, Bool.false_eq_true, ↓reduceIte] at hnext ⊢
      have hpb' : c.byteAt? (m₁.ip + 3) = some Op.pop.byte := by rw [hip₁, ← s₂]; exact hpb
      have hpop := next_pop (m := { m₁ with ip := m₁.ip + 3 }) hpb' hs₁
      refine Leads.step (by omega) (by omega) hnext
        (Leads.step (by dsimp only; omega) (by dsimp only; omega) hpop ?_)
      have hn₃ : E₁.Named st₃.locals := by rw [w₃.locals, w₂.locals, w₁.locals]; exact hn₁
      refine Leads.widen (hr h₄ w₃.valid hcr hn₃ ?_ ?_) (by omega) (Nat.le_refl _)
      · exact ⟨rfl, hm₁.globals, hm₁.printed⟩
      · dsimp only
        omega

theorem or {l r : Expr} (hl : l.Computes c) (hr : r.Computes c) (s : Span) :
    (Expr.or l r s).Computes c := by
  intro st st' E temps m h hv hc hn hm hip
  obtain ⟨_, st₁, h₁, p, st₂, h₂, q, st₃, h₃, _, st₄, h₄, _, st₅, h₅, _, st₆, h₆, h₇⟩ := by
    simpa only [Expr.emit, run_bind_ok] using h
  -- the code: `l`, `JUMP_IF_FALSE` to the `POP`, `JUMP` to the end, `POP`, `r`
  have w₁ := Expr.emit_writes h₁ hv
  obtain ⟨w₂, rfl⟩ := (Writes.refl w₁.valid).andJump h₂
  obtain ⟨w₃, rfl⟩ := (Writes.refl w₂.valid).andJump h₃
  have w₄ := (w₁.trans (w₂.trans w₃)).andPatch (by have := w₁.size; omega) h₄
  have w₅ := (Writes.refl w₄.valid).andOp h₅
  have w₆ := Expr.emit_writes h₆ w₅.valid
  have s₂ := size_of_jump h₂
  have s₃ := size_of_jump h₃
  have s₄ := size_of_patch h₄
  have s₅ := size_of_op h₅
  have s₇ := size_of_patch h₇
  have hle₁ := w₁.size
  have hle₆ := w₆.size
  have hcA : c.Holds st₆.chunk st.chunk.size (st₂.chunk.size + 1) :=
    (hc.mono (Nat.le_refl _) (by omega)).of_patch h₇ (.inl (Nat.le_refl _))
  have hcB : c.Holds st₆.chunk (st₂.chunk.size + 3) st₆.chunk.size :=
    (hc.mono (by omega) (by omega)).of_patch h₇ (.inr (Nat.le_refl _))
  have hc₄ : c.Holds st₄.chunk st.chunk.size (st₂.chunk.size + 1) :=
    hcA.of_writes (w₅.trans w₆) (by omega) (Nat.le_refl _)
  have hcL : c.Holds st₃.chunk st.chunk.size (st₁.chunk.size + 1) :=
    (hc₄.mono (Nat.le_refl _) (by omega)).of_patch h₄ (.inl (Nat.le_refl _))
  have hcJ : c.Holds st₃.chunk st₂.chunk.size (st₂.chunk.size + 1) :=
    (hc₄.mono (by omega) (Nat.le_refl _)).of_patch h₄ (.inr (by omega))
  obtain ⟨hjb, -, -⟩ := (hcL.of_writes w₃ (by omega) (Nat.le_refl _)).jump h₂ w₁.valid hle₁
    (by omega)
  have hjd := (hc₄.patch h₄ (by omega) (by omega) (by omega)).1
  obtain ⟨hkb, -, -⟩ := hcJ.jump h₃ w₂.valid (Nat.le_refl _) (by omega)
  have hkd := (hc.patch h₇ (by omega) (by omega) (by omega)).1
  obtain ⟨hpb, -⟩ := (hcB.of_writes w₆ (Nat.le_refl _) (by omega)).op h₅ w₄.valid (by omega)
    (by omega)
  have hcl : c.Holds st₁.chunk st.chunk.size st₁.chunk.size :=
    hcL.of_writes (w₂.trans w₃) (Nat.le_refl _) (by omega)
  have hcr := hcB.mono (by omega : st₂.chunk.size + 3 ≤ st₅.chunk.size) (Nat.le_refl _)
  rw [s₇]
  have hL := (hl h₁ hv hcl hn hm hip).widen (Nat.le_refl _)
    (by omega : st₁.chunk.size ≤ st₆.chunk.size)
  have hn₁ := l.eval_named hn (E := E)
  rcases he₁ : l.eval E with ⟨_ | x, E₁⟩ <;> rw [he₁] at hL hn₁ <;> simp only [Expr.eval, he₁]
  · exact hL.raising
  · refine hL.returning fun m₁ hm₁ hip₁ => ?_
    have hs₁ : m₁.stack = ((E₁.values ++ temps) ++ [x]).toArray := by simp [hm₁.stack]
    rw [← hip₁] at hjb hjd
    have hnext := next_jumpIfFalse hjb hjd hs₁
    by_cases hx : x.isFalsy
    · -- a false left operand: the jump lands on `POP`, and the right operand is the answer
      simp only [hx, ↓reduceIte] at hnext ⊢
      have hpos : m₁.ip + 3 + (st₃.chunk.size - (m₁.ip + 1) - 2) = st₄.chunk.size := by
        omega
      have hpb' : c.byteAt? (m₁.ip + 3 + (st₃.chunk.size - (m₁.ip + 1) - 2)) =
          some Op.pop.byte := by
        rw [hpos]
        exact hpb
      have hpop := next_pop (m := { m₁ with ip := m₁.ip + 3 + _ }) hpb' hs₁
      refine Leads.step (by omega) (by omega) hnext
        (Leads.step (by dsimp only; omega) (by dsimp only; omega) hpop ?_)
      have hn₅ : E₁.Named st₅.locals := by rw [w₅.locals, w₄.locals]; exact hn₁
      refine Leads.widen (hr h₆ w₅.valid hcr hn₅ ?_ ?_) (by omega) (Nat.le_refl _)
      · exact ⟨rfl, hm₁.globals, hm₁.printed⟩
      · dsimp only
        omega
    · -- otherwise the left operand is the answer: the second jump skips the rest
      simp only [hx, Bool.false_eq_true, ↓reduceIte] at hnext ⊢
      have hkb' : c.byteAt? (m₁.ip + 3) = some Op.jump.byte := by rw [hip₁, ← s₂]; exact hkb
      have hkd' : c.readU16? (m₁.ip + 3 + 1) = some (st₆.chunk.size - (st₂.chunk.size + 1) - 2) := by
        rw [hip₁, ← s₂]; exact hkd
      refine Leads.step (by omega) (by omega) hnext
        (Leads.step (by dsimp only; omega) (by dsimp only; omega) (next_jump hkb' hkd') ?_)
      refine Leads.done ⟨?_, x, rfl, hm₁.setIp _⟩
      dsimp only
      omega

end Expr.Computes

/-- The code the compiler writes for an expression computes it. -/
theorem Expr.computes (c : Chunk) (e : Expr) : e.Computes c := by
  induction e with
  | number x s => exact .number x s
  | string v s => exact .string v s
  | bool b s => exact .bool b s
  | nil s => exact .nil s
  | var n s => exact .var n s
  | assign n e s ih => exact ih.assign n s
  | binary o l r s ihl ihr => exact ihl.binary ihr o s
  | unary o e s ih => exact ih.unary o s
  | and l r s ihl ihr => exact ihl.and ihr s
  | or l r s ihl ihr => exact ihl.or ihr s
  | group e s ih => exact ih.group s

end StackScript
