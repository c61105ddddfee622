import Mathlib
import StackScript.Machine.Run

/-!
# The machine one instruction at a time

`Machine.next c m` is one step of the machine: the answer of `Machine.step` and the machine after
it.  This file opens the monadic step into one equation per instruction (`next_pop`,
`next_getLocal`, …), each stating exactly what the instruction does to the stack, the globals,
the printed lines and the instruction offset, and when it fails.

Runs of a piece of code are described by where they stay:

* `Machine.Within c a b m n m'`: `n` steps lead from `m` to `m'`, each taken at an offset in
  `[a, b)`, none failing and none returning;
* `Machine.Fails c a b m e m'`: such steps, then one more inside `[a, b)` that fails with `e`;
* `Machine.Leads c a b m Q F`: the code reaches a machine satisfying `Q`, or fails with an error
  `e` in a machine satisfying `F e`, or fails on a full stack;
* `Machine.Busy c a b m k`: the code runs `k` steps without leaving `[a, b)`, or fails on a full
  stack first.

`Leads` composes like a continuation (`Leads.bind`), which is how the compiler's correctness is
assembled piece by piece.
-/

namespace StackScript

/-- One step of the machine on chunk `c`: the answer of `Machine.step` and the machine after it. -/
def Machine.next (c : Chunk) (m : Machine) : Except RuntimeError Bool × Machine :=
  ((Machine.step c).run).run m

/-! ## The monad of steps -/

namespace Exec

variable {α β : Type}

theorem run_bind (x : Exec α) (f : α → Exec β) (m : Machine) :
    (x >>= f).run.run m = match x.run.run m with
      | (.ok a, m') => (f a).run.run m'
      | (.error e, m') => (.error e, m') := by
  simp only [ExceptT.run_bind, StateT.run_bind]
  rcases x.run.run m with ⟨_ | a, m'⟩ <;> rfl

theorem run_pure (a : α) (m : Machine) : (pure a : Exec α).run.run m = (.ok a, m) := rfl

theorem run_get (m : Machine) : (get : Exec Machine).run.run m = (.ok m, m) := rfl

theorem run_set (m m' : Machine) : (set m' : Exec PUnit).run.run m = (.ok ⟨⟩, m') := rfl

theorem run_modify (f : Machine → Machine) (m : Machine) :
    (modify f : Exec PUnit).run.run m = (.ok ⟨⟩, f m) := rfl

/-! ## The primitives of a step -/

theorem push_run (v : Value) (line : Nat) (m : Machine) :
    (push v line).run.run m = if stackMax ≤ m.stack.size then (.error (.stackOverflow line), m)
      else (.ok (), { m with stack := m.stack.push v }) := by
  simp only [push, run_bind, run_get]
  by_cases h : stackMax ≤ m.stack.size <;> simp only [h, ↓reduceIte] <;> rfl

theorem pop_run (line : Nat) (m : Machine) :
    (pop line).run.run m = match m.stack.back? with
      | some v => (.ok v, { m with stack := m.stack.pop })
      | none => (.error (.stackUnderflow line), m) := by
  simp only [pop, run_bind, run_get]
  cases m.stack.back? <;> rfl

theorem top_run (line : Nat) (m : Machine) :
    (top line).run.run m = match m.stack.back? with
      | some v => (.ok v, m)
      | none => (.error (.stackUnderflow line), m) := by
  simp only [top, run_bind, run_get]
  cases m.stack.back? <;> rfl

theorem readByte_run (c : Chunk) (line : Nat) (m : Machine) :
    (readByte c line).run.run m = match c.byteAt? m.ip with
      | some b => (.ok b, { m with ip := m.ip + 1 })
      | none => (.error (.malformed (.readPastEnd m.ip) line), m) := by
  simp only [readByte, run_bind, run_get]
  cases c.byteAt? m.ip <;> rfl

theorem readU16_run (c : Chunk) (line : Nat) (m : Machine) :
    (readU16 c line).run.run m = match c.readU16? m.ip with
      | some d => (.ok d, { m with ip := m.ip + 2 })
      | none => (.error (.malformed (.truncatedJump m.ip) line), m) := by
  simp only [readU16, run_bind, run_get]
  cases c.readU16? m.ip <;> rfl

theorem readConstant_run (c : Chunk) (line : Nat) (m : Machine) :
    (readConstant c line).run.run m = match c.byteAt? m.ip with
      | some k => match c.constants[k]? with
        | some v => (.ok v, { m with ip := m.ip + 1 })
        | none => (.error (.malformed (.constantOutOfRange k) line), { m with ip := m.ip + 1 })
      | none => (.error (.malformed (.readPastEnd m.ip) line), m) := by
  simp only [readConstant, run_bind, readByte_run]
  cases c.byteAt? m.ip with
  | none => rfl
  | some k => dsimp only; cases c.constants[k]? <;> rfl

theorem setIp_run (ip : Nat) (m : Machine) :
    (setIp ip).run.run m = (.ok (), { m with ip := ip }) := rfl

end Exec

/-! ## One instruction -/

namespace Machine

open Exec

variable {c : Chunk} {m : Machine}

theorem next_of_byte {op : Op} (hb : c.byteAt? m.ip = some op.byte) :
    next c m = ((perform c m.ip (c.lineAt m.ip) op).run).run { m with ip := m.ip + 1 } := by
  have hop : Op.ofByte? op.byte = some op := by cases op <;> rfl
  simp only [next, step, run_bind, run_get, readByte_run, hb, hop]

theorem next_constant {k : Nat} {v : Value} (hb : c.byteAt? m.ip = some Op.constant.byte)
    (hk : c.byteAt? (m.ip + 1) = some k) (hv : c.constants[k]? = some v) :
    next c m = if stackMax ≤ m.stack.size then
        (.error (.stackOverflow (c.lineAt m.ip)), { m with ip := m.ip + 2 })
      else (.ok false, { m with stack := m.stack.push v, ip := m.ip + 2 }) := by
  simp only [next_of_byte hb, perform, run_bind, readConstant_run, hk, hv, push_run]
  by_cases h : stackMax ≤ m.stack.size <;> simp only [h, ↓reduceIte]
  rfl

theorem next_literal {op : Op} {v : Value} (hb : c.byteAt? m.ip = some op.byte)
    (hv : op = .pushNil ∧ v = .nil ∨ op = .pushTrue ∧ v = .bool true ∨
      op = .pushFalse ∧ v = .bool false) :
    next c m = if stackMax ≤ m.stack.size then
        (.error (.stackOverflow (c.lineAt m.ip)), { m with ip := m.ip + 1 })
      else (.ok false, { m with stack := m.stack.push v, ip := m.ip + 1 }) := by
  rw [next_of_byte hb]
  rcases hv with ⟨rfl, rfl⟩ | ⟨rfl, rfl⟩ | ⟨rfl, rfl⟩ <;>
    simp only [perform, run_bind, push_run] <;>
    by_cases h : stackMax ≤ m.stack.size <;> simp only [h, ↓reduceIte] <;> rfl

theorem next_pop {s : List Value} {v : Value} (hb : c.byteAt? m.ip = some Op.pop.byte)
    (hs : m.stack = (s ++ [v]).toArray) :
    next c m = (.ok false, { m with stack := s.toArray, ip := m.ip + 1 }) := by
  have hback : m.stack.back? = some v := by simp [hs]
  have hpop : m.stack.pop = s.toArray := by simp [hs]
  simp only [next_of_byte hb, perform, run_bind, pop_run, hback, hpop]
  rfl

theorem next_getLocal {k : Nat} {v : Value} (hb : c.byteAt? m.ip = some Op.getLocal.byte)
    (hk : c.byteAt? (m.ip + 1) = some k) (hv : m.stack[k]? = some v) :
    next c m = if stackMax ≤ m.stack.size then
        (.error (.stackOverflow (c.lineAt m.ip)), { m with ip := m.ip + 2 })
      else (.ok false, { m with stack := m.stack.push v, ip := m.ip + 2 }) := by
  simp only [next_of_byte hb, perform, run_bind, readByte_run, hk, run_get, hv, push_run]
  by_cases h : stackMax ≤ m.stack.size <;> simp only [h, ↓reduceIte]
  rfl

theorem next_setLocal {k : Nat} {s : List Value} {v : Value}
    (hb : c.byteAt? m.ip = some Op.setLocal.byte) (hk : c.byteAt? (m.ip + 1) = some k)
    (hs : m.stack = (s ++ [v]).toArray) (hlt : k < s.length + 1) :
    next c m = (.ok false, { m with stack := ((s ++ [v]).set k v).toArray, ip := m.ip + 2 }) := by
  have hback : m.stack.back? = some v := by simp [hs]
  have hsize : k < m.stack.size := by simp [hs, hlt]
  simp only [next_of_byte hb, perform, run_bind, readByte_run, hk, top_run, hback, run_get, hsize,
    ↓reduceIte, run_set]
  simp only [hs, List.setIfInBounds_toArray]
  rfl

theorem next_getGlobal {k : Nat} {x : String} (hb : c.byteAt? m.ip = some Op.getGlobal.byte)
    (hk : c.byteAt? (m.ip + 1) = some k) (hx : c.constants[k]? = some (.string x)) :
    next c m = match m.globals[x]? with
      | some v => if stackMax ≤ m.stack.size then
          (.error (.stackOverflow (c.lineAt m.ip)), { m with ip := m.ip + 2 })
        else (.ok false, { m with stack := m.stack.push v, ip := m.ip + 2 })
      | none => (.error (.undefinedVariable x (c.lineAt m.ip)), { m with ip := m.ip + 2 }) := by
  simp only [next_of_byte hb, perform, readName, run_bind, readConstant_run, hk, hx, run_pure, run_get]
  cases m.globals[x]? with
  | none => rfl
  | some v =>
    simp only [run_bind, push_run]
    by_cases h : stackMax ≤ m.stack.size <;> simp only [h, ↓reduceIte]
    rfl

theorem next_defineGlobal {k : Nat} {x : String} {s : List Value} {v : Value}
    (hb : c.byteAt? m.ip = some Op.defineGlobal.byte) (hk : c.byteAt? (m.ip + 1) = some k)
    (hx : c.constants[k]? = some (.string x)) (hs : m.stack = (s ++ [v]).toArray) :
    next c m = (.ok false,
      { m with stack := s.toArray, globals := m.globals.insert x v, ip := m.ip + 2 }) := by
  have hback : m.stack.back? = some v := by simp [hs]
  have hpop : m.stack.pop = s.toArray := by simp [hs]
  simp only [next_of_byte hb, perform, readName, run_bind, readConstant_run, hk, hx, run_pure,
    pop_run, hback, hpop, run_modify]

theorem next_setGlobal {k : Nat} {x : String} {s : List Value} {v : Value}
    (hb : c.byteAt? m.ip = some Op.setGlobal.byte) (hk : c.byteAt? (m.ip + 1) = some k)
    (hx : c.constants[k]? = some (.string x)) (hs : m.stack = (s ++ [v]).toArray) :
    next c m = if m.globals.contains x then
        (.ok false, { m with globals := m.globals.insert x v, ip := m.ip + 2 })
      else (.error (.undefinedVariable x (c.lineAt m.ip)), { m with ip := m.ip + 2 }) := by
  have hback : m.stack.back? = some v := by simp [hs]
  simp only [next_of_byte hb, perform, readName, run_bind, readConstant_run, hk, hx, run_pure,
    top_run, hback, run_get]
  by_cases h : m.globals.contains x <;> simp only [h, ↓reduceIte] <;> rfl

theorem next_arith {op : Op} {f : Float → Float → Value} {s : List Value} {a b : Value}
    (hb : c.byteAt? m.ip = some op.byte)
    (hf : ∀ offset line, perform c offset line op = (do arith f line; return false))
    (hs : m.stack = (s ++ [a, b]).toArray) :
    next c m = match a, b with
      | .number x, .number y => if stackMax ≤ s.length then
          (.error (.stackOverflow (c.lineAt m.ip)), { m with stack := s.toArray, ip := m.ip + 1 })
        else (.ok false, { m with stack := (s ++ [f x y]).toArray, ip := m.ip + 1 })
      | _, _ => (.error (.operandsNotNumbers a.typeName b.typeName (c.lineAt m.ip)),
          { m with stack := s.toArray, ip := m.ip + 1 }) := by
  have hb₁ : m.stack.back? = some b := by simp [hs]
  have hp₁ : m.stack.pop = (s ++ [a]).toArray := by simp [hs]
  have hb₂ : (s ++ [a]).toArray.back? = some a := by simp
  have hp₂ : (s ++ [a]).toArray.pop = s.toArray := by simp
  simp only [next_of_byte hb, hf, arith, run_bind, pop_run, hb₁, hp₁, hb₂, hp₂]
  cases a <;> cases b <;> try rfl
  simp only [push_run, List.size_toArray, List.push_toArray]
  by_cases h : stackMax ≤ s.length <;> simp only [h, ↓reduceIte]
  rfl

theorem next_negate {s : List Value} {v : Value} (hb : c.byteAt? m.ip = some Op.negate.byte)
    (hs : m.stack = (s ++ [v]).toArray) :
    next c m = match v with
      | .number x => if stackMax ≤ s.length then
          (.error (.stackOverflow (c.lineAt m.ip)), { m with stack := s.toArray, ip := m.ip + 1 })
        else (.ok false, { m with stack := (s ++ [Value.number (-x)]).toArray, ip := m.ip + 1 })
      | _ => (.error (.cannotNegate v.typeName (c.lineAt m.ip)),
          { m with stack := s.toArray, ip := m.ip + 1 }) := by
  have hback : m.stack.back? = some v := by simp [hs]
  have hpop : m.stack.pop = s.toArray := by simp [hs]
  simp only [next_of_byte hb, perform, run_bind, pop_run, hback, hpop]
  cases v <;> try rfl
  simp only [run_bind, push_run, List.size_toArray, List.push_toArray]
  by_cases h : stackMax ≤ s.length <;> simp only [h, ↓reduceIte]
  rfl

theorem next_equal {s : List Value} {a b : Value} (hb : c.byteAt? m.ip = some Op.equal.byte)
    (hs : m.stack = (s ++ [a, b]).toArray) :
    next c m = if stackMax ≤ s.length then
        (.error (.stackOverflow (c.lineAt m.ip)), { m with stack := s.toArray, ip := m.ip + 1 })
      else (.ok false, { m with stack := (s ++ [Value.bool (a.equal b)]).toArray, ip := m.ip + 1 }) := by
  have hb₁ : m.stack.back? = some b := by simp [hs]
  have hp₁ : m.stack.pop = (s ++ [a]).toArray := by simp [hs]
  have hb₂ : (s ++ [a]).toArray.back? = some a := by simp
  have hp₂ : (s ++ [a]).toArray.pop = s.toArray := by simp
  simp only [next_of_byte hb, perform, run_bind, pop_run, hb₁, hp₁, hb₂, hp₂, push_run,
    List.size_toArray, List.push_toArray]
  by_cases h : stackMax ≤ s.length <;> simp only [h, ↓reduceIte]
  rfl

theorem next_not {s : List Value} {v : Value} (hb : c.byteAt? m.ip = some Op.not.byte)
    (hs : m.stack = (s ++ [v]).toArray) :
    next c m = if stackMax ≤ s.length then
        (.error (.stackOverflow (c.lineAt m.ip)), { m with stack := s.toArray, ip := m.ip + 1 })
      else (.ok false, { m with stack := (s ++ [Value.bool v.isFalsy]).toArray, ip := m.ip + 1 }) := by
  have hback : m.stack.back? = some v := by simp [hs]
  have hpop : m.stack.pop = s.toArray := by simp [hs]
  simp only [next_of_byte hb, perform, run_bind, pop_run, hback, hpop, push_run, List.size_toArray,
    List.push_toArray]
  by_cases h : stackMax ≤ s.length <;> simp only [h, ↓reduceIte]
  rfl

theorem next_jump {d : Nat} (hb : c.byteAt? m.ip = some Op.jump.byte)
    (hd : c.readU16? (m.ip + 1) = some d) :
    next c m = (.ok false, { m with ip := m.ip + 3 + d }) := by
  simp only [next_of_byte hb, perform, run_bind, readU16_run, hd, run_get, setIp_run]
  rfl

theorem next_jumpIfFalse {d : Nat} {s : List Value} {v : Value}
    (hb : c.byteAt? m.ip = some Op.jumpIfFalse.byte) (hd : c.readU16? (m.ip + 1) = some d)
    (hs : m.stack = (s ++ [v]).toArray) :
    next c m = (.ok false, { m with ip := if v.isFalsy then m.ip + 3 + d else m.ip + 3 }) := by
  have hback : m.stack.back? = some v := by simp [hs]
  simp only [next_of_byte hb, perform, run_bind, readU16_run, hd, top_run, hback]
  cases v.isFalsy <;> rfl

theorem next_loop {d : Nat} (hb : c.byteAt? m.ip = some Op.loop.byte)
    (hd : c.readU16? (m.ip + 1) = some d) (hle : d ≤ m.ip + 3) :
    next c m = (.ok false, { m with ip := m.ip + 3 - d }) := by
  have hnot : ¬ m.ip + 1 + 2 < d := by omega
  simp only [next_of_byte hb, perform, run_bind, readU16_run, hd, run_get, hnot, ↓reduceIte,
    run_pure, setIp_run]

theorem next_print {s : List Value} {v : Value} (hb : c.byteAt? m.ip = some Op.print.byte)
    (hs : m.stack = (s ++ [v]).toArray) :
    next c m = (.ok false,
      { m with stack := s.toArray, printed := m.printed.push v.render, ip := m.ip + 1 }) := by
  have hback : m.stack.back? = some v := by simp [hs]
  have hpop : m.stack.pop = s.toArray := by simp [hs]
  simp only [next_of_byte hb, perform, run_bind, pop_run, hback, hpop, run_modify]
  rfl

theorem next_ret {s : List Value} {v : Value} (hb : c.byteAt? m.ip = some Op.ret.byte)
    (hs : m.stack = (s ++ [v]).toArray) :
    next c m = (.ok true, { m with stack := s.toArray, ip := m.ip + 1 }) := by
  have hback : m.stack.back? = some v := by simp [hs]
  have hpop : m.stack.pop = s.toArray := by simp [hs]
  simp only [next_of_byte hb, perform, run_bind, pop_run, hback, hpop]
  rfl

/-! ## Runs that stay inside a piece of code -/

theorem run_succ (n : Nat) (m : Machine) : run c (n + 1) m = match next c m with
    | (.ok true, m') => (.finished, m')
    | (.ok false, m') => run c n m'
    | (.error e, m') => (.failed e, m') := rfl

theorem run_add_of_ended {n : Nat} {o : Outcome} {m' : Machine} (h : run c n m = (o, m'))
    (ho : o ≠ .outOfSteps) (j : Nat) : run c (n + j) m = (o, m') := by
  induction n generalizing m with
  | zero => simp [run] at h; exact absurd h.1.symm ho
  | succ n ih =>
    rw [Nat.add_right_comm, run_succ]
    rw [run_succ] at h
    rcases hnext : next c m with ⟨_ | returned, m₁⟩ <;> rw [hnext] at h
    · exact h
    · cases returned
      · exact ih h
      · exact h

/-- `n` steps lead from `m` to `m'`, each taken at an offset in `[a, b)`, none failing and none
returning. -/
inductive Within (c : Chunk) (a b : Nat) : Machine → Nat → Machine → Prop
  | refl (m : Machine) : Within c a b m 0 m
  | step {m m₁ m₂ : Machine} {n : Nat} : a ≤ m.ip → m.ip < b → next c m = (.ok false, m₁) →
      Within c a b m₁ n m₂ → Within c a b m (n + 1) m₂

namespace Within

variable {a b : Nat}

theorem single {m' : Machine} (ha : a ≤ m.ip) (hb : m.ip < b) (h : next c m = (.ok false, m')) :
    Within c a b m 1 m' :=
  .step ha hb h (.refl m')

theorem trans {m₁ m₂ : Machine} {n₁ n₂ : Nat} (h₁ : Within c a b m n₁ m₁)
    (h₂ : Within c a b m₁ n₂ m₂) : Within c a b m (n₁ + n₂) m₂ := by
  induction h₁ with
  | refl => simpa using h₂
  | step ha hb hnext _ ih =>
    rw [Nat.add_right_comm]
    exact .step ha hb hnext (ih h₂)

theorem mono {a' b' n : Nat} {m' : Machine} (ha : a' ≤ a) (hb : b ≤ b')
    (h : Within c a b m n m') : Within c a' b' m n m' := by
  induction h with
  | refl => exact .refl _
  | step ha₁ hb₁ hnext _ ih => exact .step (by omega) (by omega) hnext ih

/-- The run of a chunk passes through every machine that steps inside a piece of code reach. -/
theorem run_add {n : Nat} {m' : Machine} (h : Within c a b m n m') (j : Nat) :
    run c (n + j) m = run c j m' := by
  induction h with
  | refl => simp
  | @step m m₁ m₂ n _ _ hnext _ ih =>
    rw [Nat.add_right_comm, run_succ, hnext]
    exact ih

theorem run_eq {n : Nat} {m' : Machine} (h : Within c a b m n m') :
    run c n m = (.outOfSteps, m') := by
  simpa [run] using h.run_add 0

theorem take {n j : Nat} {m' : Machine} (h : Within c a b m n m') (hj : j ≤ n) :
    ∃ m'', Within c a b m j m'' := by
  induction h generalizing j with
  | refl => exact ⟨_, by rw [Nat.le_zero.mp hj]; exact .refl _⟩
  | @step m m₁ m₂ n ha hb hnext _ ih =>
    cases j with
    | zero => exact ⟨m, .refl m⟩
    | succ j =>
      obtain ⟨m'', h''⟩ := ih (Nat.le_of_succ_le_succ hj)
      exact ⟨m'', .step ha hb hnext h''⟩

end Within

/-- Steps inside `[a, b)` from `m`, then one more there that fails with `e`, leaving `m'`. -/
def Fails (c : Chunk) (a b : Nat) (m : Machine) (e : RuntimeError) (m' : Machine) : Prop :=
  ∃ n m₁, Within c a b m n m₁ ∧ a ≤ m₁.ip ∧ m₁.ip < b ∧ next c m₁ = (.error e, m')

theorem Fails.mono {a b a' b' : Nat} {e : RuntimeError} {m' : Machine} (ha : a' ≤ a) (hb : b ≤ b')
    (h : Fails c a b m e m') : Fails c a' b' m e m' := by
  obtain ⟨n, m₁, hw, h₁, h₂, hnext⟩ := h
  exact ⟨n, m₁, hw.mono ha hb, by omega, by omega, hnext⟩

theorem Fails.run {a b : Nat} {e : RuntimeError} {m' : Machine} (h : Fails c a b m e m') :
    ∃ n, run c n m = (.failed e, m') := by
  obtain ⟨n, m₁, hw, -, -, hnext⟩ := h
  refine ⟨n + 1, ?_⟩
  rw [hw.run_add 1, run_succ, hnext]

/-- The code on `[a, b)`, run from `m`, reaches a machine satisfying `Q`, or fails with an error
`e` in a machine satisfying `F e`, or fails on a full stack. -/
def Leads (c : Chunk) (a b : Nat) (m : Machine) (Q : Machine → Prop)
    (F : RuntimeError → Machine → Prop) : Prop :=
  (∃ n m', Within c a b m n m' ∧ Q m') ∨
    ∃ e m', Fails c a b m e m' ∧ (F e m' ∨ ∃ l, e = .stackOverflow l)

namespace Leads

variable {a b : Nat} {Q R : Machine → Prop} {F : RuntimeError → Machine → Prop}

theorem done (h : Q m) : Leads c a b m Q F := .inl ⟨0, m, .refl m, h⟩

theorem step {m' : Machine} (ha : a ≤ m.ip) (hb : m.ip < b) (hnext : next c m = (.ok false, m'))
    (h : Leads c a b m' Q F) : Leads c a b m Q F := by
  rcases h with ⟨n, m'', hw, hq⟩ | ⟨e, m'', ⟨n, m₁, hw, h₁, h₂, hn⟩, hf⟩
  · exact .inl ⟨n + 1, m'', .step ha hb hnext hw, hq⟩
  · exact .inr ⟨e, m'', ⟨n + 1, m₁, .step ha hb hnext hw, h₁, h₂, hn⟩, hf⟩

theorem fail {e : RuntimeError} {m' : Machine} (ha : a ≤ m.ip) (hb : m.ip < b)
    (hnext : next c m = (.error e, m')) (h : F e m') : Leads c a b m Q F :=
  .inr ⟨e, m', ⟨0, m, .refl m, ha, hb, hnext⟩, .inl h⟩

theorem overflow {l : Nat} {m' : Machine} (ha : a ≤ m.ip) (hb : m.ip < b)
    (hnext : next c m = (.error (.stackOverflow l), m')) : Leads c a b m Q F :=
  .inr ⟨_, m', ⟨0, m, .refl m, ha, hb, hnext⟩, .inr ⟨l, rfl⟩⟩

theorem push {full : Prop} [Decidable full] {l : Nat} {m₁ m₂ : Machine} (ha : a ≤ m.ip)
    (hb : m.ip < b)
    (hnext : next c m = if full then (.error (.stackOverflow l), m₁) else (.ok false, m₂))
    (h : ¬ full → Leads c a b m₂ Q F) : Leads c a b m Q F := by
  by_cases hf : full
  · rw [if_pos hf] at hnext
    exact overflow ha hb hnext
  · rw [if_neg hf] at hnext
    exact step ha hb hnext (h hf)

theorem bind (h : Leads c a b m Q F) (k : ∀ m', Q m' → Leads c a b m' R F) : Leads c a b m R F := by
  rcases h with ⟨n, m', hw, hq⟩ | hfail
  · rcases k m' hq with ⟨n', m'', hw', hr⟩ | ⟨e, m'', ⟨n', m₁, hw', h₁, h₂, hn⟩, hf⟩
    · exact .inl ⟨n + n', m'', hw.trans hw', hr⟩
    · exact .inr ⟨e, m'', ⟨n + n', m₁, hw.trans hw', h₁, h₂, hn⟩, hf⟩
  · exact .inr hfail

theorem mono {a' b' : Nat} {Q' : Machine → Prop} {F' : RuntimeError → Machine → Prop}
    (ha : a' ≤ a) (hb : b ≤ b') (hq : ∀ m, Q m → Q' m) (hf : ∀ e m, F e m → F' e m)
    (h : Leads c a b m Q F) : Leads c a' b' m Q' F' := by
  rcases h with ⟨n, m', hw, hq'⟩ | ⟨e, m', hfail, hf'⟩
  · exact .inl ⟨n, m', hw.mono ha hb, hq m' hq'⟩
  · exact .inr ⟨e, m', hfail.mono ha hb, hf'.imp (hf e m') id⟩

end Leads

/-- The code on `[a, b)` runs `k` steps from `m` without leaving it, or fails on a full stack
first. -/
def Busy (c : Chunk) (a b : Nat) (m : Machine) (k : Nat) : Prop :=
  (∃ m', Within c a b m k m') ∨ ∃ l m', Fails c a b m (.stackOverflow l) m'

namespace Busy

variable {a b : Nat}

theorem zero : Busy c a b m 0 := .inl ⟨m, .refl m⟩

theorem step {k : Nat} {m' : Machine} (ha : a ≤ m.ip) (hb : m.ip < b)
    (hnext : next c m = (.ok false, m')) (h : Busy c a b m' k) : Busy c a b m (k + 1) := by
  rcases h with ⟨m'', hw⟩ | ⟨l, m'', n, m₁, hw, h₁, h₂, hn⟩
  · exact .inl ⟨m'', .step ha hb hnext hw⟩
  · exact .inr ⟨l, m'', n + 1, m₁, .step ha hb hnext hw, h₁, h₂, hn⟩

theorem of_leads {k : Nat} {Q : Machine → Prop} (h : Leads c a b m Q fun _ _ => False)
    (hk : ∀ m', Q m' → Busy c a b m' k) : Busy c a b m k := by
  rcases h with ⟨n, m', hw, hq⟩ | ⟨e, m', hfail, hf | ⟨l, rfl⟩⟩
  · rcases hk m' hq with ⟨m'', hw'⟩ | ⟨l, m'', n', m₁, hw', h₁, h₂, hn⟩
    · obtain ⟨m₃, h₃⟩ := (hw.trans hw').take (Nat.le_add_left k n)
      exact .inl ⟨m₃, h₃⟩
    · exact .inr ⟨l, m'', n + n', m₁, hw.trans hw', h₁, h₂, hn⟩
  · exact hf.elim
  · exact .inr ⟨l, m', hfail⟩

theorem le {j k : Nat} (h : Busy c a b m k) (hj : j ≤ k) : Busy c a b m j := by
  rcases h with ⟨m', hw⟩ | hfail
  · exact .inl (hw.take hj)
  · exact .inr hfail

theorem mono {a' b' k : Nat} (ha : a' ≤ a) (hb : b ≤ b') (h : Busy c a b m k) :
    Busy c a' b' m k := by
  rcases h with ⟨m', hw⟩ | ⟨l, m', hfail⟩
  · exact .inl ⟨m', hw.mono ha hb⟩
  · exact .inr ⟨l, m', hfail.mono ha hb⟩

end Busy

end Machine

end StackScript
