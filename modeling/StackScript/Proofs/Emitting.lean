import StackScript.Bytecode.Compiler
import StackScript.Proofs.Placement

/-!
# The compiler's steps

A run of the compiler is peeled one bind at a time (`Emit.run_bind_ok`), and every primitive of
the compiler has an equation for its run (`Emit.op_run`, `Emit.jump_run`, `Emit.patch_run`, …).

Two notions carry the proofs about compiled code:

* `Chunk.Holds c d a b`: `c` has the code and lines of `d` on `[a, b)` and all of `d`'s
  constants.  The chunk a program compiles to holds what each piece of the compiler wrote, once
  that piece has patched its jumps; a piece leaves everything below its start alone
  (`Emitter.Writes`, `Emitter.Grows`), and a patch only its own two bytes.
* `Emitter.Valid`: what every state of the compiler satisfies, from the empty one on: lines and
  bytes in step, name constants that hold their names, at most 256 constants and 256 locals, and
  no local deeper than the current block.

The main statements are frame lemmas: an expression leaves the locals and the block depth as
they were (`Expr.emit_writes`), and so does a statement, apart from the local that a declaration
inside a block adds (`Stmt.emit_scope`); the end of a block pops exactly the locals declared in
it, one `POP` each (`Emit.endScope_run`).
-/

namespace StackScript

/-! ## Chunks as they are written -/

@[simp] theorem Op.byte_mod (o : Op) : o.byte % 256 = o.byte := by
  cases o <;> rfl

namespace Chunk

variable {c d e : Chunk} {a b a' b' : Nat}

@[simp] theorem size_write (c : Chunk) (byte line : Nat) : (c.write byte line).size = c.size + 1 := by
  simp [write, size]

@[simp] theorem code_write (c : Chunk) (byte line : Nat) :
    (c.write byte line).code = c.code.push (UInt8.ofNat byte) := rfl

@[simp] theorem lines_write (c : Chunk) (byte line : Nat) :
    (c.write byte line).lines = c.lines.push line := rfl

@[simp] theorem constants_write (c : Chunk) (byte line : Nat) :
    (c.write byte line).constants = c.constants := rfl

@[simp] theorem size_addConstant (c : Chunk) (v : Value) : (c.addConstant v).size = c.size := rfl

@[simp] theorem code_addConstant (c : Chunk) (v : Value) : (c.addConstant v).code = c.code := rfl

@[simp] theorem lines_addConstant (c : Chunk) (v : Value) : (c.addConstant v).lines = c.lines := rfl

@[simp] theorem constants_addConstant (c : Chunk) (v : Value) :
    (c.addConstant v).constants = c.constants.push v := rfl

@[simp] theorem size_patchU16 (c : Chunk) (p v : Nat) : (c.patchU16 p v).size = c.size := by
  simp [patchU16, size]

@[simp] theorem lines_patchU16 (c : Chunk) (p v : Nat) : (c.patchU16 p v).lines = c.lines := rfl

@[simp] theorem constants_patchU16 (c : Chunk) (p v : Nat) :
    (c.patchU16 p v).constants = c.constants := rfl

theorem code_patchU16_of_ne {p v i : Nat} (h₁ : p ≠ i) (h₂ : p + 1 ≠ i) :
    (c.patchU16 p v).code[i]? = c.code[i]? := by
  simp [patchU16, h₁, h₂]

/-- A patched operand reads back as the distance written, when it fits in two bytes. -/
theorem readU16?_patchU16 {p v : Nat} (hp : p + 1 < c.size) (hv : v ≤ maxJump) :
    (c.patchU16 p v).readU16? p = some v := by
  have hv' : v < 65536 := by simp only [maxJump] at hv; omega
  have hlo : v % 256 < 256 := Nat.mod_lt _ (by decide)
  have hhi : v / 256 < 256 := by omega
  simp only [size] at hp
  simp only [readU16?, byteAt?, patchU16, Array.getElem?_setIfInBounds, Array.size_setIfInBounds]
  simp [show p < c.code.size by omega, hp, Nat.mod_eq_of_lt hlo, Nat.mod_eq_of_lt hhi,
    Nat.div_add_mod']

/-- Chunk `c` has the code and the lines of `d` at every offset in `[a, b)`, and every constant
of `d`. -/
structure Holds (c d : Chunk) (a b : Nat) : Prop where
  code : ∀ i, a ≤ i → i < b → c.code[i]? = d.code[i]?
  lines : ∀ i, a ≤ i → i < b → c.lines[i]? = d.lines[i]?
  constants : ∀ k, k < d.constants.size → c.constants[k]? = d.constants[k]?

namespace Holds

theorem refl (c : Chunk) (a b : Nat) : c.Holds c a b :=
  ⟨fun _ _ _ => rfl, fun _ _ _ => rfl, fun _ _ => rfl⟩

theorem mono (h : c.Holds d a b) (ha : a ≤ a') (hb : b' ≤ b) : c.Holds d a' b' :=
  ⟨fun i h₁ h₂ => h.code i (by omega) (by omega), fun i h₁ h₂ => h.lines i (by omega) (by omega),
    h.constants⟩

theorem trans (h₁ : c.Holds d a b) (h₂ : d.Holds e a' b') (ha : a ≤ a') (hb : b' ≤ b) :
    c.Holds e a' b' := by
  refine ⟨fun i hi₁ hi₂ => ?_, fun i hi₁ hi₂ => ?_, fun k hk => ?_⟩
  · rw [h₁.code i (by omega) (by omega), h₂.code i hi₁ hi₂]
  · rw [h₁.lines i (by omega) (by omega), h₂.lines i hi₁ hi₂]
  · have hd : k < d.constants.size := by
      have := h₂.constants k hk
      rw [Array.getElem?_eq_getElem hk] at this
      exact (Array.getElem?_eq_some_iff.mp this).1
    rw [h₁.constants k hd, h₂.constants k hk]

theorem byteAt? {i : Nat} (h : c.Holds d a b) (h₁ : a ≤ i) (h₂ : i < b) :
    c.byteAt? i = d.byteAt? i := by
  simp only [Chunk.byteAt?, h.code i h₁ h₂]

theorem lineAt {i : Nat} (h : c.Holds d a b) (h₁ : a ≤ i) (h₂ : i < b) :
    c.lineAt i = d.lineAt i := by
  simp only [Chunk.lineAt, Array.getD_eq_getD_getElem?, h.lines i h₁ h₂]

theorem readU16? {i : Nat} (h : c.Holds d a b) (h₁ : a ≤ i) (h₂ : i + 1 < b) :
    c.readU16? i = d.readU16? i := by
  simp only [Chunk.readU16?, h.byteAt? h₁ (by omega), h.byteAt? (i := i + 1) (by omega) h₂]

theorem constant {k : Nat} {v : Value} (h : c.Holds d a b) (hk : d.constants[k]? = some v) :
    c.constants[k]? = some v := by
  have hlt : k < d.constants.size := (Array.getElem?_eq_some_iff.mp hk).1
  rw [h.constants k hlt, hk]

end Holds

theorem holds_write (hl : c.lines.size = c.size) (byte line : Nat) :
    (c.write byte line).Holds c 0 c.size := by
  simp only [size] at hl
  refine ⟨fun i _ hi => ?_, fun i _ hi => ?_, fun k _ => rfl⟩
  · simp only [size] at hi
    simp [Array.getElem?_push, Nat.ne_of_lt hi]
  · simp only [size] at hi
    simp [Array.getElem?_push, show i ≠ c.lines.size by omega]

/-- Patching keeps every byte but the operand's two. -/
theorem holds_patchU16 (c : Chunk) (p v : Nat) (a b : Nat) (h : ∀ i, a ≤ i → i < b → p ≠ i ∧ p + 1 ≠ i) :
    (c.patchU16 p v).Holds c a b :=
  ⟨fun i h₁ h₂ => code_patchU16_of_ne (h i h₁ h₂).1 (h i h₁ h₂).2, fun _ _ _ => rfl,
    fun _ _ => rfl⟩

theorem byteAt?_write (c : Chunk) (byte line i : Nat) :
    (c.write byte line).byteAt? i = if i = c.size then some (byte % 256) else c.byteAt? i := by
  by_cases h : i = c.size
  · simp [byteAt?, size, h]
  · simp only [size] at h
    simp [byteAt?, size, h, Array.getElem?_push]

theorem lineAt_write (c : Chunk) (byte line i : Nat) :
    (c.write byte line).lineAt i = if i = c.lines.size then line else c.lineAt i := by
  by_cases h : i = c.lines.size
  · simp [lineAt, h]
  · simp [lineAt, h, Array.getElem?_push, Array.getD_eq_getD_getElem?]

end Chunk

/-! ## The compiler's primitives -/

namespace Emit

variable {α β : Type} {st st' : Emitter}

/-- A compilation step that succeeds is its first part succeeding, then the rest. -/
theorem run_bind_ok {x : Emit α} {f : α → Emit β} {b : β} :
    (x >>= f).run st = .ok (b, st') ↔
      ∃ a st₁, x.run st = .ok (a, st₁) ∧ (f a).run st₁ = .ok (b, st') := by
  simp only [StateT.run_bind]
  rcases x.run st with e | ⟨a, st₁⟩
  · simp [bind, Except.bind]
  · simp only [bind, Except.bind]
    exact ⟨fun h => ⟨a, st₁, rfl, h⟩, fun ⟨_, _, h₁, h⟩ => by cases h₁; exact h⟩

theorem run_bind (x : Emit α) (f : α → Emit β) (st : Emitter) :
    (x >>= f).run st = match x.run st with
      | .ok (a, st₁) => (f a).run st₁
      | .error e => .error e := by
  simp only [StateT.run_bind]
  rcases x.run st with _ | ⟨a, st₁⟩ <;> rfl

theorem run_pure_ok {a b : α} : (pure a : Emit α).run st = .ok (b, st') ↔ a = b ∧ st = st' := by
  simp [StateT.run, pure, StateT.pure, Except.pure]

theorem op_run (o : Op) (line : Nat) (st : Emitter) :
    (op o line).run st = .ok ((), { st with chunk := st.chunk.write o.byte line }) := rfl

theorem opWith_run (o : Op) (k line : Nat) (st : Emitter) :
    (opWith o k line).run st =
      .ok ((), { st with chunk := (st.chunk.write o.byte line).write k line }) := rfl

theorem offset_run (st : Emitter) : offset.run st = .ok (st.chunk.size, st) := rfl

theorem beginScope_run (st : Emitter) :
    beginScope.run st = .ok ((), { st with depth := st.depth + 1 }) := rfl

theorem constant_run (v : Value) (line : Nat) (st : Emitter) :
    (constant v line).run st = if maxConstants ≤ st.chunk.constants.size then
        .error (.tooManyConstants line)
      else .ok (st.chunk.constants.size, { st with chunk := st.chunk.addConstant v }) := by
  by_cases h : maxConstants ≤ st.chunk.constants.size <;> simp [constant, h] <;> rfl

theorem loadConstant_run (v : Value) (line : Nat) (st : Emitter) :
    (loadConstant v line).run st = if maxConstants ≤ st.chunk.constants.size then
        .error (.tooManyConstants line)
      else .ok ((), { st with
        chunk := ((st.chunk.addConstant v).write Op.constant.byte line).write
          st.chunk.constants.size line }) := by
  simp only [loadConstant, StateT.run_bind, constant_run]
  by_cases h : maxConstants ≤ st.chunk.constants.size <;> simp [h] <;> rfl

theorem nameConstant_run (name : String) (line : Nat) (st : Emitter) :
    (nameConstant name line).run st = match st.names.lookup name with
      | some k => .ok (k, st)
      | none => if maxConstants ≤ st.chunk.constants.size then .error (.tooManyConstants line)
        else .ok (st.chunk.constants.size, { st with
          chunk := st.chunk.addConstant (.string name),
          names := (name, st.chunk.constants.size) :: st.names }) := by
  rcases hk : st.names.lookup name with _ | k
  · by_cases h : maxConstants ≤ st.chunk.constants.size <;>
      simp [nameConstant, hk, StateT.run_bind, constant_run, h]
  · simp [nameConstant, hk]
    rfl

/-- A jump is written with a placeholder operand, whose offset it answers. -/
theorem jump_run (o : Op) (line : Nat) (st : Emitter) :
    (jump o line).run st = .ok (st.chunk.size + 1,
      { st with chunk := ((st.chunk.write o.byte line).write 0xFF line).write 0xFF line }) := by
  simp [jump, op, byte, offset, Chunk.size, Chunk.write]
  rfl

/-- A patch points the jump at `p` to the end of the code, if the distance fits. -/
theorem patch_run (p line : Nat) (st : Emitter) :
    (patch p line).run st = if maxJump < st.chunk.size - p - 2 then
        .error (.jumpTooFar (st.chunk.size - p - 2) line)
      else .ok ((), { st with chunk := st.chunk.patchU16 p (st.chunk.size - p - 2) }) := by
  by_cases h : maxJump < st.chunk.size - p - 2 <;> simp [patch, offset, h] <;> rfl

theorem loopBack_run (start line : Nat) (st : Emitter) :
    (loopBack start line).run st = if maxJump < st.chunk.size + 1 - start + 2 then
        .error (.jumpTooFar (st.chunk.size + 1 - start + 2) line)
      else .ok ((), { st with
        chunk := ((st.chunk.write Op.loop.byte line).write
          ((st.chunk.size + 1 - start + 2) / 256) line).write
          ((st.chunk.size + 1 - start + 2) % 256) line }) := by
  by_cases h : maxJump < st.chunk.size + 1 - start + 2 <;>
    simp [loopBack, op, byte, offset, h] <;> rfl

theorem pops_run (n line : Nat) (st : Emitter) :
    (pops n line).run st = .ok ((), { st with chunk := { st.chunk with
      code := st.chunk.code ++ Array.replicate n (UInt8.ofNat Op.pop.byte),
      lines := st.chunk.lines ++ Array.replicate n line } }) := by
  induction n generalizing st with
  | zero => simp [pops]; rfl
  | succ n ih =>
    have hcode : ∀ (xs : Array UInt8) (a : UInt8), xs.push a ++ Array.replicate n a =
        xs ++ Array.replicate (n + 1) a := fun xs a => by
      apply Array.toList_inj.mp
      simp [List.replicate_succ]
    have hlines : ∀ (xs : Array Nat) (a : Nat), xs.push a ++ Array.replicate n a =
        xs ++ Array.replicate (n + 1) a := fun xs a => by
      apply Array.toList_inj.mp
      simp [List.replicate_succ]
    simp only [pops, run_bind, op_run, ih]
    simp [Chunk.write, hcode, hlines]

/-- The end of a block goes back one level and pops the newest locals deeper than that, one
`POP` each. -/
theorem endScope_run (line : Nat) (st : Emitter) :
    (endScope line).run st = .ok ((), { st with
      depth := st.depth - 1,
      locals := st.locals.extract 0
        (st.locals.size - deeperCount st.locals.toList (st.depth - 1)),
      chunk := { st.chunk with
        code := st.chunk.code ++
          Array.replicate (deeperCount st.locals.toList (st.depth - 1)) (UInt8.ofNat Op.pop.byte),
        lines := st.chunk.lines ++
          Array.replicate (deeperCount st.locals.toList (st.depth - 1)) line } }) := by
  simp only [endScope, StateT.run_bind]
  exact pops_run _ _ _

theorem addLocal_run (name : String) (line : Nat) (st : Emitter) :
    (addLocal name line).run st = if maxLocals ≤ st.locals.size then .error (.tooManyLocals line)
      else .ok (st.locals.size, { st with locals := st.locals.push ⟨name, st.depth⟩ }) := by
  by_cases h : maxLocals ≤ st.locals.size <;> simp [addLocal, h] <;> rfl

theorem access_run (name : String) (ops : Op × Op) (line : Nat) (st : Emitter) :
    (access name ops line).run st = match slotOf? st.locals name with
      | some slot => (opWith ops.1 slot line).run st
      | none => (do let k ← nameConstant name line; opWith ops.2 k line).run st := by
  show (match slotOf? st.locals name with
    | some slot => opWith ops.1 slot line
    | none => do let k ← nameConstant name line; opWith ops.2 k line).run st = _
  rcases slotOf? st.locals name with _ | slot <;> rfl

theorem slotOf?_lt {locals : Array Local} {name : String} {slot : Nat}
    (h : slotOf? locals name = some slot) : slot < locals.size := by
  simp only [slotOf?, Option.map_eq_some_iff] at h
  obtain ⟨i, hi, rfl⟩ := h
  have := (List.findIdx?_eq_some_iff_getElem.mp hi).1
  simp only [List.length_reverse, Array.length_toList] at this
  omega

theorem loadConstant_ok {v : Value} {line : Nat} {x : Unit} :
    (loadConstant v line).run st = .ok (x, st') ↔ st.chunk.constants.size < maxConstants ∧
      st' = { st with
        chunk := ((st.chunk.addConstant v).write Op.constant.byte line).write
          st.chunk.constants.size line } := by
  rw [loadConstant_run]
  by_cases h : maxConstants ≤ st.chunk.constants.size
  · simp only [h, ↓reduceIte, reduceCtorEq, false_iff, not_and]
    omega
  · simp only [h, ↓reduceIte, Except.ok.injEq, Prod.mk.injEq]
    exact ⟨fun ⟨_, h'⟩ => ⟨by omega, h'.symm⟩, fun ⟨_, h'⟩ => ⟨trivial, h'.symm⟩⟩

theorem patch_ok {p line : Nat} {x : Unit} :
    (patch p line).run st = .ok (x, st') ↔ st.chunk.size - p - 2 ≤ maxJump ∧
      st' = { st with chunk := st.chunk.patchU16 p (st.chunk.size - p - 2) } := by
  rw [patch_run]
  by_cases h : maxJump < st.chunk.size - p - 2
  · simp only [h, ↓reduceIte, reduceCtorEq, false_iff, not_and]
    omega
  · simp only [h, ↓reduceIte, Except.ok.injEq, Prod.mk.injEq]
    exact ⟨fun ⟨_, h'⟩ => ⟨by omega, h'.symm⟩, fun ⟨_, h'⟩ => ⟨trivial, h'.symm⟩⟩

theorem loopBack_ok {start line : Nat} {x : Unit} :
    (loopBack start line).run st = .ok (x, st') ↔ st.chunk.size + 1 - start + 2 ≤ maxJump ∧
      st' = { st with
        chunk := ((st.chunk.write Op.loop.byte line).write
          ((st.chunk.size + 1 - start + 2) / 256) line).write
          ((st.chunk.size + 1 - start + 2) % 256) line } := by
  rw [loopBack_run]
  by_cases h : maxJump < st.chunk.size + 1 - start + 2
  · simp only [h, ↓reduceIte, reduceCtorEq, false_iff, not_and]
    omega
  · simp only [h, ↓reduceIte, Except.ok.injEq, Prod.mk.injEq]
    exact ⟨fun ⟨_, h'⟩ => ⟨by omega, h'.symm⟩, fun ⟨_, h'⟩ => ⟨trivial, h'.symm⟩⟩

theorem addLocal_ok {name : String} {line slot : Nat} :
    (addLocal name line).run st = .ok (slot, st') ↔ st.locals.size < maxLocals ∧
      slot = st.locals.size ∧ st' = { st with locals := st.locals.push ⟨name, st.depth⟩ } := by
  rw [addLocal_run]
  by_cases h : maxLocals ≤ st.locals.size
  · simp only [h, ↓reduceIte, reduceCtorEq, false_iff, not_and]
    omega
  · simp only [h, ↓reduceIte, Except.ok.injEq, Prod.mk.injEq]
    exact ⟨fun ⟨h₁, h₂⟩ => ⟨by omega, h₁.symm, h₂.symm⟩, fun ⟨_, h₁, h₂⟩ => ⟨h₁.symm, h₂.symm⟩⟩

end Emit

/-! ## States the compiler reaches -/

/-- What every state of the compiler satisfies: a line for every byte, at most 256 constants and
256 locals, every name constant holding its name, and no local deeper than the current block. -/
structure Emitter.Valid (st : Emitter) : Prop where
  lines : st.chunk.lines.size = st.chunk.size
  constants : st.chunk.constants.size ≤ maxConstants
  names : ∀ name k, st.names.lookup name = some k → st.chunk.constants[k]? = some (.string name)
  locals : st.locals.size ≤ maxLocals
  depth : ∀ l ∈ st.locals, l.depth ≤ st.depth

/-- `st'` comes from `st` by writing code: its locals and block depth are those of `st`, and the
code, lines and constants of `st` are kept. -/
structure Emitter.Writes (st st' : Emitter) : Prop where
  valid : st'.Valid
  locals : st'.locals = st.locals
  depth : st'.depth = st.depth
  size : st.chunk.size ≤ st'.chunk.size
  holds : st'.chunk.Holds st.chunk 0 st.chunk.size

/-- `st'` comes from `st` by writing code, whatever happened to the locals and the block depth:
`st'` is valid and keeps the code, lines and constants of `st`. -/
structure Emitter.Grows (st st' : Emitter) : Prop where
  valid : st'.Valid
  size : st.chunk.size ≤ st'.chunk.size
  holds : st'.chunk.Holds st.chunk 0 st.chunk.size

namespace Emitter

variable {st st₁ st₂ : Emitter}

theorem valid_empty : (⟨Chunk.empty, #[], 0, []⟩ : Emitter).Valid :=
  ⟨rfl, by decide, by simp, by decide, by simp⟩

namespace Valid

theorem write (hv : st.Valid) (byte line : Nat) :
    { st with chunk := st.chunk.write byte line }.Valid :=
  ⟨by simp [hv.lines], by simpa using hv.constants, by simpa using hv.names, hv.locals, hv.depth⟩

theorem addConstant (hv : st.Valid) {v : Value} (hlt : st.chunk.constants.size < maxConstants) :
    { st with chunk := st.chunk.addConstant v }.Valid := by
  refine ⟨by simpa using hv.lines, by simpa using Nat.succ_le_of_lt hlt, fun name k hk => ?_,
    hv.locals, hv.depth⟩
  have hold := hv.names name k hk
  have hlt' : k < st.chunk.constants.size := (Array.getElem?_eq_some_iff.mp hold).1
  simpa [Array.getElem?_push, Nat.ne_of_lt hlt'] using hold

theorem nameConstant (hv : st.Valid) {name : String}
    (hlt : st.chunk.constants.size < maxConstants) :
    ({ st with
        chunk := st.chunk.addConstant (.string name),
        names := (name, st.chunk.constants.size) :: st.names } : Emitter).Valid := by
  refine ⟨by simpa using hv.lines, by simpa using Nat.succ_le_of_lt hlt, fun name' k hk => ?_, hv.locals, hv.depth⟩
  by_cases hn : name' = name
  · subst hn
    simp only [List.lookup_cons, beq_self_eq_true, Option.some.injEq] at hk
    simp [← hk]
  · have hne : (name' == name) = false := by simpa using hn
    have hk' : st.names.lookup name' = some k := by
      simpa only [List.lookup_cons, hne] using hk
    exact (hv.addConstant (v := .string name) hlt).names name' k hk'

theorem patch (hv : st.Valid) (p v : Nat) :
    { st with chunk := st.chunk.patchU16 p v }.Valid :=
  ⟨by simpa using hv.lines, by simpa using hv.constants, by simpa using hv.names, hv.locals,
    hv.depth⟩

theorem beginScope (hv : st.Valid) : { st with depth := st.depth + 1 }.Valid :=
  ⟨hv.lines, hv.constants, hv.names, hv.locals, fun l hl => Nat.le_succ_of_le (hv.depth l hl)⟩

theorem addLocal (hv : st.Valid) {name : String} (hlt : st.locals.size < maxLocals) :
    { st with locals := st.locals.push ⟨name, st.depth⟩ }.Valid := by
  refine ⟨hv.lines, hv.constants, hv.names, by simpa using Nat.succ_le_of_lt hlt, ?_⟩
  intro l hl
  rcases Array.mem_push.mp hl with hl | rfl
  · exact hv.depth l hl
  · exact Nat.le_refl _

end Valid

namespace Grows

theorem beginScope (hv : st.Valid) : st.Grows { st with depth := st.depth + 1 } :=
  ⟨hv.beginScope, Nat.le_refl _, .refl _ _ _⟩

theorem trans (h₁ : st.Grows st₁) (h₂ : st₁.Grows st₂) : st.Grows st₂ :=
  ⟨h₂.valid, Nat.le_trans h₁.size h₂.size, h₂.holds.trans h₁.holds (Nat.le_refl _) h₁.size⟩

theorem andAddLocal (h : st.Grows st₁) {name : String} {line slot : Nat}
    (h' : (Emit.addLocal name line).run st₁ = .ok (slot, st₂)) :
    st.Grows st₂ ∧ slot = st₁.locals.size ∧
      st₂ = { st₁ with locals := st₁.locals.push ⟨name, st₁.depth⟩ } := by
  obtain ⟨hlt, rfl, rfl⟩ := Emit.addLocal_ok.mp h'
  exact ⟨⟨h.valid.addLocal hlt, h.size, h.holds⟩, rfl, rfl⟩

theorem writes (h : st.Grows st₁) (hl : st₁.locals = st.locals) (hd : st₁.depth = st.depth) :
    st.Writes st₁ :=
  ⟨h.valid, hl, hd, h.size, h.holds⟩

end Grows

namespace Writes

theorem grows (h : st.Writes st₁) : st.Grows st₁ := ⟨h.valid, h.size, h.holds⟩

theorem refl (hv : st.Valid) : st.Writes st :=
  ⟨hv, rfl, rfl, Nat.le_refl _, .refl _ _ _⟩

theorem trans (h₁ : st.Writes st₁) (h₂ : st₁.Writes st₂) : st.Writes st₂ :=
  ⟨h₂.valid, h₂.locals.trans h₁.locals, h₂.depth.trans h₁.depth, Nat.le_trans h₁.size h₂.size,
    h₂.holds.trans h₁.holds (Nat.le_refl _) h₁.size⟩

theorem write (hv : st.Valid) (byte line : Nat) :
    st.Writes { st with chunk := st.chunk.write byte line } :=
  ⟨hv.write byte line, rfl, rfl, by simp, Chunk.holds_write hv.lines byte line⟩

theorem addConstant (hv : st.Valid) {v : Value} (hlt : st.chunk.constants.size < maxConstants) :
    st.Writes { st with chunk := st.chunk.addConstant v } := by
  refine ⟨hv.addConstant hlt, rfl, rfl, by simp, ⟨fun _ _ _ => rfl, fun _ _ _ => rfl, ?_⟩⟩
  intro k hk
  simp [Array.getElem?_push, Nat.ne_of_lt hk]

theorem andWrite (h : st.Writes st₁) (byte line : Nat) :
    st.Writes { st₁ with chunk := st₁.chunk.write byte line } :=
  h.trans (write h.valid byte line)

theorem andPatchU16 (h : st.Writes st₁) {p : Nat} (hp : st.chunk.size ≤ p) (v : Nat) :
    st.Writes { st₁ with chunk := st₁.chunk.patchU16 p v } := by
  refine ⟨h.valid.patch p v, h.locals, h.depth, by simpa using h.size, ?_⟩
  exact (Chunk.holds_patchU16 _ p v 0 st.chunk.size fun i _ hi => ⟨by omega, by omega⟩).trans
    h.holds (Nat.le_refl _) (Nat.le_refl _)

theorem byteAt? (h : st.Writes st₁) {p : Nat} (hp : p < st.chunk.size) :
    st₁.chunk.byteAt? p = st.chunk.byteAt? p :=
  h.holds.byteAt? (Nat.zero_le _) hp

theorem lineAt (h : st.Writes st₁) {p : Nat} (hp : p < st.chunk.size) :
    st₁.chunk.lineAt p = st.chunk.lineAt p :=
  h.holds.lineAt (Nat.zero_le _) hp

theorem readU16? (h : st.Writes st₁) {p : Nat} (hp : p + 1 < st.chunk.size) :
    st₁.chunk.readU16? p = st.chunk.readU16? p :=
  h.holds.readU16? (Nat.zero_le _) hp

theorem constant (h : st.Writes st₁) {k : Nat} {v : Value} (hk : st.chunk.constants[k]? = some v) :
    st₁.chunk.constants[k]? = some v :=
  h.holds.constant hk

theorem andOp (h : st.Writes st₁) {o : Op} {line : Nat} {x : Unit}
    (h' : (Emit.op o line).run st₁ = .ok (x, st₂)) : st.Writes st₂ := by
  obtain ⟨-, rfl⟩ := by simpa only [Emit.op_run, Except.ok.injEq, Prod.mk.injEq] using h'
  exact h.andWrite _ _

theorem andJump (h : st.Writes st₁) {o : Op} {line p : Nat}
    (h' : (Emit.jump o line).run st₁ = .ok (p, st₂)) :
    st.Writes st₂ ∧ p = st₁.chunk.size + 1 := by
  obtain ⟨rfl, rfl⟩ := by simpa only [Emit.jump_run, Except.ok.injEq, Prod.mk.injEq] using h'
  exact ⟨((h.andWrite _ _).andWrite _ _).andWrite _ _, rfl⟩

theorem andPatch (h : st.Writes st₁) {p line : Nat} {x : Unit} (hp : st.chunk.size ≤ p)
    (h' : (Emit.patch p line).run st₁ = .ok (x, st₂)) : st.Writes st₂ := by
  obtain ⟨-, rfl⟩ := Emit.patch_ok.mp h'
  exact h.andPatchU16 hp _

theorem andOpWith (h : st.Writes st₁) {o : Op} {k line : Nat} {x : Unit}
    (h' : (Emit.opWith o k line).run st₁ = .ok (x, st₂)) : st.Writes st₂ := by
  obtain ⟨-, rfl⟩ := by simpa only [Emit.opWith_run, Except.ok.injEq, Prod.mk.injEq] using h'
  exact (h.andWrite _ _).andWrite _ _

theorem andLoadConstant (h : st.Writes st₁) {v : Value} {line : Nat} {x : Unit}
    (h' : (Emit.loadConstant v line).run st₁ = .ok (x, st₂)) : st.Writes st₂ := by
  obtain ⟨hlt, rfl⟩ := Emit.loadConstant_ok.mp h'
  exact ((h.trans (addConstant h.valid hlt)).andWrite _ _).andWrite _ _

theorem andLoopBack (h : st.Writes st₁) {start line : Nat} {x : Unit}
    (h' : (Emit.loopBack start line).run st₁ = .ok (x, st₂)) : st.Writes st₂ := by
  obtain ⟨-, rfl⟩ := Emit.loopBack_ok.mp h'
  exact ((h.andWrite _ _).andWrite _ _).andWrite _ _

end Writes

theorem Grows.andWrites (h₁ : st.Grows st₁) (h₂ : st₁.Writes st₂) : st.Grows st₂ :=
  h₁.trans h₂.grows

end Emitter

/-! ## Names and variables -/

namespace Emit

open Emitter

variable {st st' : Emitter}

theorem nameConstant_writes {name : String} {line k : Nat} (hv : st.Valid)
    (h : (nameConstant name line).run st = .ok (k, st')) :
    st.Writes st' ∧ st'.chunk.code = st.chunk.code ∧ st'.chunk.lines = st.chunk.lines ∧
      st'.chunk.constants[k]? = some (.string name) := by
  rw [nameConstant_run] at h
  rcases hk : st.names.lookup name with _ | k'
  · rw [hk] at h
    by_cases hf : maxConstants ≤ st.chunk.constants.size
    · simp [hf] at h
    · simp only [hf, ↓reduceIte, Except.ok.injEq, Prod.mk.injEq] at h
      obtain ⟨rfl, rfl⟩ := h
      have hlt : st.chunk.constants.size < maxConstants := by omega
      refine ⟨⟨hv.nameConstant hlt, rfl, rfl, by simp, ?_⟩, rfl, rfl, by simp⟩
      exact (Writes.addConstant hv (v := .string name) hlt).holds
  · rw [hk] at h
    simp only [Except.ok.injEq, Prod.mk.injEq] at h
    obtain ⟨rfl, rfl⟩ := h
    exact ⟨.refl hv, rfl, rfl, hv.names name _ hk⟩

theorem access_writes {name : String} {ops : Op × Op} {line : Nat} (hv : st.Valid)
    (h : (access name ops line).run st = .ok ((), st')) :
    st.Writes st' ∧ st'.chunk.size = st.chunk.size + 2 ∧
      st'.chunk.lineAt st.chunk.size = line ∧ st'.chunk.lineAt (st.chunk.size + 1) = line ∧
      ((∃ slot, slotOf? st.locals name = some slot ∧
          st'.chunk.byteAt? st.chunk.size = some ops.1.byte ∧
          st'.chunk.byteAt? (st.chunk.size + 1) = some slot) ∨
        (slotOf? st.locals name = none ∧ ∃ k, st'.chunk.constants[k]? = some (.string name) ∧
          st'.chunk.byteAt? st.chunk.size = some ops.2.byte ∧
          st'.chunk.byteAt? (st.chunk.size + 1) = some k)) := by
  rw [access_run] at h
  rcases hs : slotOf? st.locals name with _ | slot <;> rw [hs] at h <;> dsimp only at h
  · rw [run_bind] at h
    rcases hk : (nameConstant name line).run st with _ | ⟨k, st₁⟩ <;> rw [hk] at h <;>
      dsimp only at h
    · cases h
    obtain ⟨w₁, hcode, hlines, hname⟩ := nameConstant_writes hv hk
    rw [opWith_run, Except.ok.injEq, Prod.mk.injEq] at h
    obtain ⟨-, rfl⟩ := h
    have hsize : st₁.chunk.size = st.chunk.size := by simp [Chunk.size, hcode]
    have hk256 : k < 256 := by
      have := (Array.getElem?_eq_some_iff.mp hname).1
      have := w₁.valid.constants
      simp only [maxConstants] at this
      omega
    have hl := w₁.valid.lines
    refine ⟨(w₁.andWrite _ _).andWrite _ _, by simp [hsize], ?_, ?_,
      .inr ⟨rfl, k, hname, ?_, ?_⟩⟩ <;>
      simp [Chunk.byteAt?_write, Chunk.lineAt_write, hl, hsize, Nat.mod_eq_of_lt hk256]
  · rw [opWith_run, Except.ok.injEq, Prod.mk.injEq] at h
    obtain ⟨-, rfl⟩ := h
    have hslot : slot < 256 := by
      have := slotOf?_lt hs
      have := hv.locals
      simp only [maxLocals] at this
      omega
    have hl := hv.lines
    refine ⟨((Writes.refl hv).andWrite _ _).andWrite _ _, by simp, ?_, ?_,
      .inl ⟨slot, rfl, ?_, ?_⟩⟩ <;>
      simp [Chunk.byteAt?_write, Chunk.lineAt_write, hl, Nat.mod_eq_of_lt hslot]

end Emit

/-! ## Expressions -/

/-- The instruction that applies a binary operator; `!=`, `<=` and `>=` follow it with `NOT`. -/
def BinOp.instr : BinOp → Op
  | .add => .add
  | .sub => .subtract
  | .mul => .multiply
  | .div => .divide
  | .eq | .ne => .equal
  | .lt | .ge => .less
  | .gt | .le => .greater

/-- Whether a binary operator is the negation of the one its instruction applies. -/
def BinOp.negated : BinOp → Bool
  | .ne | .le | .ge => true
  | _ => false

/-- The instruction that applies a unary operator. -/
def UnOp.instr : UnOp → Op
  | .neg => .negate
  | .not => .not

open Emit Emitter

theorem Expr.emit_binary (o : BinOp) (l r : Expr) (s : Span) :
    (Expr.binary o l r s).emit = (do
      l.emit
      r.emit
      op o.instr s.line
      if o.negated then op .not s.line) := by
  cases o <;> simp [Expr.emit, BinOp.instr, BinOp.negated]

theorem Expr.emit_unary (o : UnOp) (e : Expr) (s : Span) :
    (Expr.unary o e s).emit = (do e.emit; op o.instr s.line) := by
  cases o <;> rfl

variable {st st' : Emitter}

/-- Compiling an expression writes code and leaves the locals and the block depth alone. -/
theorem Expr.emit_writes {e : Expr} (h : e.emit.run st = .ok ((), st')) (hv : st.Valid) :
    st.Writes st' := by
  induction e generalizing st st' with
  | number x s =>
    obtain ⟨hlt, rfl⟩ := loadConstant_ok.mp h
    exact ((Writes.addConstant hv hlt).andWrite _ _).andWrite _ _
  | string x s =>
    obtain ⟨hlt, rfl⟩ := loadConstant_ok.mp h
    exact ((Writes.addConstant hv hlt).andWrite _ _).andWrite _ _
  | bool b s =>
    cases b <;>
    · simp only [Expr.emit, op_run, Except.ok.injEq, Prod.mk.injEq] at h
      obtain ⟨-, rfl⟩ := h
      exact Writes.write hv _ _
  | nil s =>
    simp only [Expr.emit, op_run, Except.ok.injEq, Prod.mk.injEq] at h
    obtain ⟨-, rfl⟩ := h
    exact Writes.write hv _ _
  | var n s => exact (access_writes hv h).1
  | assign n v s ih =>
    obtain ⟨_, st₁, h₁, h₂⟩ := run_bind_ok.mp h
    have w₁ := ih h₁ hv
    exact w₁.trans (access_writes w₁.valid h₂).1
  | binary o l r s ihl ihr =>
    rw [Expr.emit_binary] at h
    obtain ⟨_, st₁, h₁, _, st₂, h₂, _, st₃, h₃, h₄⟩ := by simpa only [run_bind_ok] using h
    have w₂ := (ihl h₁ hv).trans (ihr h₂ (ihl h₁ hv).valid)
    obtain ⟨-, rfl⟩ := by simpa only [op_run, Except.ok.injEq, Prod.mk.injEq] using h₃
    have w₃ := w₂.andWrite o.instr.byte s.line
    cases hn : o.negated <;> simp only [hn] at h₄
    · obtain ⟨-, rfl⟩ := by simpa only [Bool.false_eq_true, ↓reduceIte, run_pure_ok] using h₄
      exact w₃
    · obtain ⟨-, rfl⟩ := by
        simpa only [↓reduceIte, op_run, Except.ok.injEq, Prod.mk.injEq] using h₄
      exact w₃.andWrite _ _
  | unary o e s ih =>
    rw [Expr.emit_unary] at h
    obtain ⟨_, st₁, h₁, h₂⟩ := run_bind_ok.mp h
    obtain ⟨-, rfl⟩ := by simpa only [op_run, Except.ok.injEq, Prod.mk.injEq] using h₂
    exact (ih h₁ hv).andWrite _ _
  | and l r s ihl ihr =>
    obtain ⟨_, st₁, h₁, p, st₂, h₂, _, st₃, h₃, _, st₄, h₄, h₅⟩ := by
      simpa only [Expr.emit, run_bind_ok] using h
    have w₁ := ihl h₁ hv
    obtain ⟨w₂, rfl⟩ := w₁.andJump h₂
    have w₃ := w₂.andOp h₃
    exact (w₃.trans (ihr h₄ w₃.valid)).andPatch (by have := w₁.size; omega) h₅
  | or l r s ihl ihr =>
    obtain ⟨_, st₁, h₁, p, st₂, h₂, q, st₃, h₃, _, st₄, h₄, _, st₅, h₅, _, st₆, h₆, h₇⟩ := by
      simpa only [Expr.emit, run_bind_ok] using h
    have w₁ := ihl h₁ hv
    obtain ⟨w₂, rfl⟩ := w₁.andJump h₂
    obtain ⟨w₃, rfl⟩ := w₂.andJump h₃
    have w₅ := (w₃.andPatch (by have := w₁.size; omega) h₄).andOp h₅
    exact (w₅.trans (ihr h₆ w₅.valid)).andPatch (by have := w₁.size; have := w₂.size; omega) h₇
  | group e s ih => exact ih h hv

/-! ## Statements -/

/-- The locals after a statement compiled at block depth `d`: a declaration inside a block adds
one, at that depth. -/
def Stmt.localsAfter (s : Stmt) (d : Nat) (locals : Array Local) : Array Local :=
  match s with
  | .declare name _ _ _ => if 0 < d then locals.push ⟨name, d⟩ else locals
  | _ => locals

theorem Emit.deeperCount_append {older newer : List Local} {d : Nat}
    (holder : ∀ l ∈ older, l.depth ≤ d) (hnewer : ∀ l ∈ newer, d < l.depth) :
    deeperCount (older ++ newer) d = newer.length := by
  have hnone : (older.reverse.takeWhile (d < ·.depth)).length = 0 := by
    rcases hr : older.reverse with _ | ⟨l, rest⟩
    · rfl
    · have hl : l.depth ≤ d := holder l (List.mem_reverse.mp (hr ▸ List.mem_cons_self))
      simp [Nat.not_lt.mpr hl]
  simp only [deeperCount, List.reverse_append]
  rw [List.takeWhile_append_of_pos (by simpa using hnewer), List.length_append, hnone]
  simp

/-- The end of a block whose items added the locals `newer`, all of the block's depth, pops
them one by one and gives back the locals `older` from before the block. -/
theorem Emit.endScope_newer {st : Emitter} {older : Array Local} {newer : List Local} {d : Nat}
    (hd : st.depth = d + 1) (hl : st.locals = older ++ newer.toArray)
    (holder : ∀ l ∈ older, l.depth ≤ d) (hnewer : ∀ l ∈ newer, l.depth = d + 1) (line : Nat) :
    (endScope line).run st = .ok ((), { st with
      depth := d, locals := older,
      chunk := { st.chunk with
        code := st.chunk.code ++ Array.replicate newer.length (UInt8.ofNat Op.pop.byte),
        lines := st.chunk.lines ++ Array.replicate newer.length line } }) := by
  have hcount : deeperCount st.locals.toList d = newer.length := by
    simp only [hl, Array.toList_append]
    exact deeperCount_append (fun l hl => holder l (Array.mem_def.mpr hl))
      (fun l hl => by rw [hnewer l hl]; omega)
  rw [endScope_run]
  simp only [hd, Nat.add_sub_cancel, hcount]
  congr
  simp [hl, Array.extract_append]

theorem Emitter.Grows.endScope {st st₁ : Emitter} {older : Array Local} {newer : List Local}
    {d : Nat} (h : st.Grows st₁) (hd : st₁.depth = d + 1) (hl : st₁.locals = older ++ newer.toArray)
    (holder : ∀ l ∈ older, l.depth ≤ d) (hnewer : ∀ l ∈ newer, l.depth = d + 1) {line : Nat}
    {st₂ : Emitter} {x : Unit} (h' : (endScope line).run st₁ = .ok (x, st₂)) :
    st.Grows st₂ ∧ st₂.depth = d ∧ st₂.locals = older := by
  rw [Emit.endScope_newer hd hl holder hnewer, Except.ok.injEq, Prod.mk.injEq] at h'
  obtain ⟨-, rfl⟩ := h'
  have hv := h.valid
  have hsize : older.size ≤ st₁.locals.size := by simp [hl]
  have hs := h.size
  simp only [Chunk.size] at hs
  refine ⟨⟨⟨by simpa [Chunk.size] using hv.lines, hv.constants, hv.names,
    Nat.le_trans hsize hv.locals, holder⟩, by simp [Chunk.size]; omega, ?_⟩, rfl, rfl⟩
  refine Chunk.Holds.trans (d := st₁.chunk) ⟨fun i _ hi => ?_, fun i _ hi => ?_, fun _ _ => rfl⟩
    h.holds (Nat.le_refl _) h.size
  · simp only [Chunk.size] at hi
    simp [Array.getElem?_append_left hi]
  · have := hv.lines
    simp only [Chunk.size] at hi this
    simp [Array.getElem?_append_left (show i < st₁.chunk.lines.size by omega)]

namespace Emit

/-- Code that only writes: from every valid state it reaches a valid state with the same locals
and block depth, keeping what was written. -/
def OnlyWrites (x : Emit Unit) : Prop :=
  ∀ ⦃st st' : Emitter⦄, x.run st = .ok ((), st') → st.Valid → st.Writes st'

/-- Code that may declare locals: from every valid state it reaches a valid state at the same
block depth whose locals are the old ones and new ones of that depth. -/
def Declares (x : Emit Unit) : Prop :=
  ∀ ⦃st st' : Emitter⦄, x.run st = .ok ((), st') → st.Valid →
    st.Grows st' ∧ st'.depth = st.depth ∧
      ∃ newer : List Local, st'.locals = st.locals ++ newer.toArray ∧
        ∀ l ∈ newer, l.depth = st.depth

theorem OnlyWrites.declares {x : Emit Unit} (hx : x.OnlyWrites) : x.Declares := fun _ _ h hv =>
  have w := hx h hv
  ⟨w.grows, w.depth, [], by simp [w.locals], by simp⟩

theorem OnlyWrites.pure : (pure () : Emit Unit).OnlyWrites := fun _ _ h hv => by
  obtain ⟨-, rfl⟩ := run_pure_ok.mp h
  exact .refl hv

theorem OnlyWrites.op {o : Op} {line : Nat} : (op o line).OnlyWrites := fun _ _ h hv =>
  (Writes.refl hv).andOp h

theorem Declares.pure : (pure () : Emit Unit).Declares := OnlyWrites.pure.declares

theorem Declares.seq {x y : Emit Unit} (hx : x.Declares) (hy : y.Declares) :
    (do x; y).Declares := by
  intro st st' h hv
  obtain ⟨_, st₁, h₁, h₂⟩ := run_bind_ok.mp h
  obtain ⟨g₁, hd₁, newer₁, hl₁, hn₁⟩ := hx h₁ hv
  obtain ⟨g₂, hd₂, newer₂, hl₂, hn₂⟩ := hy h₂ g₁.valid
  refine ⟨g₁.trans g₂, hd₂.trans hd₁, newer₁ ++ newer₂, by simp [hl₂, hl₁], ?_⟩
  intro l hl
  rcases List.mem_append.mp hl with hl | hl
  · exact hn₁ l hl
  · rw [hn₂ l hl, hd₁]

theorem ifElse_onlyWrites {cond yes no : Emit Unit} {line : Nat} (hc : cond.OnlyWrites)
    (hy : yes.OnlyWrites) (hn : no.OnlyWrites) : (ifElse cond yes no line).OnlyWrites := by
  intro st st' h hv
  obtain ⟨_, st₁, h₁, p, st₂, h₂, _, st₃, h₃, _, st₄, h₄, q, st₅, h₅, _, st₆, h₆, _, st₇, h₇,
    _, st₈, h₈, h₉⟩ := by simpa only [ifElse, run_bind_ok] using h
  have w₁ := hc h₁ hv
  obtain ⟨w₂, rfl⟩ := w₁.andJump h₂
  have w₃ := w₂.andOp h₃
  have w₄ := w₃.trans (hy h₄ w₃.valid)
  obtain ⟨w₅, rfl⟩ := w₄.andJump h₅
  have w₇ := (w₅.andPatch (by have := w₁.size; omega) h₆).andOp h₇
  exact (w₇.trans (hn h₈ w₇.valid)).andPatch (by have := w₁.size; have := w₄.size; omega) h₉

theorem whileLoop_onlyWrites {cond body : Emit Unit} {line : Nat} (hc : cond.OnlyWrites)
    (hb : body.OnlyWrites) : (whileLoop cond body line).OnlyWrites := by
  intro st st' h hv
  obtain ⟨start, st₀, h₀, _, st₁, h₁, p, st₂, h₂, _, st₃, h₃, _, st₄, h₄, _, st₅, h₅, _, st₆, h₆,
    h₇⟩ := by simpa only [whileLoop, run_bind_ok] using h
  obtain ⟨rfl, rfl⟩ := by simpa only [offset_run, Except.ok.injEq, Prod.mk.injEq] using h₀
  have w₁ := hc h₁ hv
  obtain ⟨w₂, rfl⟩ := w₁.andJump h₂
  have w₃ := w₂.andOp h₃
  have w₅ := (w₃.trans (hb h₄ w₃.valid)).andLoopBack h₅
  exact (w₅.andPatch (by have := w₁.size; omega) h₆).andOp h₇

theorem block_onlyWrites {body : Emit Unit} {line : Nat} (hb : body.Declares) :
    (block body line).OnlyWrites := by
  intro st st' h hv
  obtain ⟨_, st₁, h₁, _, st₂, h₂, h₃⟩ := by simpa only [block, run_bind_ok] using h
  obtain ⟨-, rfl⟩ := by simpa only [beginScope_run, Except.ok.injEq, Prod.mk.injEq] using h₁
  obtain ⟨g₂, hd₂, newer, hl₂, hnewer⟩ := hb h₂ hv.beginScope
  obtain ⟨g, hd, hl⟩ := (Grows.beginScope hv |>.trans g₂).endScope hd₂ hl₂ hv.depth hnewer h₃
  exact g.writes hl hd

theorem forLoop_onlyWrites {name : String} {limit body : Emit Unit} {line : Nat}
    (hl : limit.OnlyWrites) (hb : body.OnlyWrites) : (forLoop name limit body line).OnlyWrites := by
  intro st st' h hv
  -- taken apart a phase at a time: one pattern for all twenty steps is slow to elaborate
  simp only [forLoop, run_bind_ok] at h
  obtain ⟨_, st₀, h₀, _, st₁, h₁, k₁, st₂, h₂, _, st₃, h₃, k₂, st₄, h₄, h⟩ := h
  obtain ⟨start, st₅, h₅, _, st₆, h₆, _, st₇, h₇, _, st₈, h₈, p, st₉, h₉, _, st₁₀, h₁₀, h⟩ := h
  obtain ⟨_, st₁₁, h₁₁, _, st₁₂, h₁₂, _, st₁₃, h₁₃, _, st₁₄, h₁₄, _, st₁₅, h₁₅, _, st₁₆, h₁₆,
    _, st₁₇, h₁₇, h⟩ := h
  obtain ⟨_, st₁₈, h₁₈, _, st₁₉, h₁₉, h₂₀⟩ := h
  obtain ⟨-, rfl⟩ := by simpa only [beginScope_run, Except.ok.injEq, Prod.mk.injEq] using h₀
  have w₁ := hl h₁ hv.beginScope
  obtain ⟨g₂, rfl, rfl⟩ := ((Grows.beginScope hv).andWrites w₁).andAddLocal h₂
  have w₃ := (Writes.refl g₂.valid).andLoadConstant h₃
  obtain ⟨g₄, rfl, rfl⟩ := (g₂.andWrites w₃).andAddLocal h₄
  obtain ⟨rfl, rfl⟩ := by simpa only [offset_run, Except.ok.injEq, Prod.mk.injEq] using h₅
  have w₈ := (((Writes.refl g₄.valid).andOpWith h₆).andOpWith h₇).andOp h₈
  obtain ⟨w₉, rfl⟩ := w₈.andJump h₉
  have w₁₁ := (w₉.andOp h₁₀).trans (hb h₁₁ (w₉.andOp h₁₀).valid)
  have w₁₇ := (((((w₁₁.andOpWith h₁₂).andLoadConstant h₁₃).andOp h₁₄).andOpWith h₁₅).andOp
    h₁₆).andLoopBack h₁₇
  have w₁₉ := (w₁₇.andPatch (by have := w₈.size; omega) h₁₈).andOp h₁₉
  have d₃ : st₃.depth = st.depth + 1 := w₃.depth.trans w₁.depth
  have hd₁₉ : st₁₉.depth = st.depth + 1 := by simp [w₁₉.depth, d₃]
  have hl₁₉ : st₁₉.locals =
      st.locals ++ [⟨limitSlotName, st.depth + 1⟩, ⟨name, st.depth + 1⟩].toArray := by
    apply Array.toList_inj.mp
    simp [w₁₉.locals, w₃.locals, w₁.locals, d₃, w₁.depth]
  obtain ⟨g, hd, hlocals⟩ := (g₄.andWrites w₁₉).endScope hd₁₉ hl₁₉ hv.depth (by simp) h₂₀
  exact g.writes hlocals hd

theorem declare_run {name : String} {init : Option (Emit Unit)} {line : Nat}
    (hi : ∀ code, init = some code → code.OnlyWrites)
    {st st' : Emitter} (h : (declare name init line).run st = .ok ((), st')) (hv : st.Valid) :
    st.Grows st' ∧ st'.depth = st.depth ∧
      st'.locals = if 0 < st.depth then st.locals.push ⟨name, st.depth⟩ else st.locals := by
  obtain ⟨_, st₁, h₁, _, st₂, h₂, h₃⟩ := by simpa only [declare, run_bind_ok] using h
  have w₁ : st.Writes st₁ := by
    cases init with
    | some code => exact hi code rfl h₁ hv
    | none => exact OnlyWrites.op h₁ hv
  obtain ⟨rfl, rfl⟩ : st₁ = _ ∧ st₁ = st₂ := by
    simpa only [StateT.run_get, Pure.pure, Except.pure, Except.ok.injEq, Prod.mk.injEq] using h₂
  by_cases hd : 0 < st₁.depth
  · obtain ⟨slot, st₃, h₄, h₅⟩ := by simpa only [hd, ↓reduceIte, run_bind_ok] using h₃
    obtain ⟨-, rfl⟩ := run_pure_ok.mp h₅
    obtain ⟨g, -, rfl⟩ := w₁.grows.andAddLocal h₄
    rw [w₁.depth] at hd
    exact ⟨g, w₁.depth, by simp [w₁.depth, w₁.locals, hd]⟩
  · obtain ⟨k, st₃, h₄, h₅⟩ := by simpa only [hd, ↓reduceIte, run_bind_ok] using h₃
    have w := (w₁.trans (nameConstant_writes w₁.valid h₄).1).andOpWith h₅
    rw [w₁.depth] at hd
    exact ⟨w.grows, w.depth, by simp [w.locals, hd]⟩

theorem declare_declares {name : String} {init : Option (Emit Unit)} {line : Nat}
    (hi : ∀ code, init = some code → code.OnlyWrites) : (declare name init line).Declares := by
  intro st st' h hv
  obtain ⟨g, hd, hl⟩ := declare_run hi h hv
  by_cases hpos : 0 < st.depth
  · exact ⟨g, hd, [⟨name, st.depth⟩], by simp [hl, hpos], by simp⟩
  · exact ⟨g, hd, [], by simp [hl, hpos], by simp⟩

end Emit

open Emit

theorem Stmt.init_onlyWrites (init : Option Expr) :
    ∀ code, init.map Expr.emit = some code → code.OnlyWrites := by
  intro code hcode
  obtain ⟨e, -, rfl⟩ := Option.map_eq_some_iff.mp hcode
  exact fun _ _ h hv => Expr.emit_writes h hv

mutual

/-- A statement that is no declaration only writes code: whatever it declares inside, it pops. -/
theorem Stmt.emit_onlyWrites : ∀ (s : Stmt), s.placed false → s.emit.OnlyWrites
  | .expression e sp, _ => fun _ _ h hv => by
    obtain ⟨_, st₁, h₁, h₂⟩ := by simpa only [Stmt.emit, run_bind_ok] using h
    exact (Expr.emit_writes h₁ hv).andOp h₂
  | .print e sp, _ => fun _ _ h hv => by
    obtain ⟨_, st₁, h₁, h₂⟩ := by simpa only [Stmt.emit, run_bind_ok] using h
    exact (Expr.emit_writes h₁ hv).andOp h₂
  | .declare .., hs => by simp [Stmt.placed] at hs
  | .block body sp, hs => by
    rw [Stmt.emit]
    exact block_onlyWrites (Stmt.emitAll_declares body (by simpa [Stmt.placed] using hs))
  | .ifElse c yes no sp, hs => by
    simp only [Stmt.placed, Bool.and_eq_true] at hs
    rw [Stmt.emit]
    exact ifElse_onlyWrites (fun _ _ h hv => Expr.emit_writes h hv)
      (Stmt.emit_onlyWrites yes hs.1) (Stmt.emitElse_onlyWrites no hs.2)
  | .whileLoop c body sp, hs => by
    rw [Stmt.emit]
    exact whileLoop_onlyWrites (fun _ _ h hv => Expr.emit_writes h hv)
      (Stmt.emit_onlyWrites body (by simpa [Stmt.placed] using hs))
  | .forLoop n limit body sp, hs => by
    rw [Stmt.emit]
    exact forLoop_onlyWrites (fun _ _ h hv => Expr.emit_writes h hv)
      (Stmt.emit_onlyWrites body (by simpa [Stmt.placed] using hs))

theorem Stmt.emitElse_onlyWrites : ∀ (no : Option Stmt), Stmt.elsePlaced no →
    (Stmt.emitElse no).OnlyWrites
  | some s, hs => by
    rw [Stmt.emitElse]
    exact Stmt.emit_onlyWrites s (by simpa [Stmt.elsePlaced] using hs)
  | none, _ => by
    rw [Stmt.emitElse]
    exact OnlyWrites.pure

/-- The items of a block or a program may declare locals, each at the depth of the block. -/
theorem Stmt.emitAll_declares : ∀ (ss : List Stmt), Stmt.allPlaced ss → (Stmt.emitAll ss).Declares
  | [], _ => by
    rw [Stmt.emitAll]
    exact Declares.pure
  | s :: rest, hs => by
    simp only [Stmt.allPlaced, Bool.and_eq_true] at hs
    rw [Stmt.emitAll]
    refine Declares.seq ?_ (Stmt.emitAll_declares rest hs.2)
    cases s
    case declare name ty init sp =>
      rw [Stmt.emit]
      exact declare_declares (Stmt.init_onlyWrites init)
    all_goals exact (Stmt.emit_onlyWrites _ (Stmt.placed_of_item hs.1 (by simp))).declares

end

/-- Compiled as an item of a block or a program, a statement writes code and keeps the block
depth and the locals, apart from the local that a declaration inside a block adds. -/
theorem Stmt.emit_scope {s : Stmt} (hs : s.placed true) {st st' : Emitter}
    (h : s.emit.run st = .ok ((), st')) (hv : st.Valid) :
    st.Grows st' ∧ st'.depth = st.depth ∧ st'.locals = s.localsAfter st.depth st.locals := by
  cases s
  case declare name ty init sp =>
    rw [Stmt.emit] at h
    obtain ⟨g, hd, hl⟩ := declare_run (Stmt.init_onlyWrites init) h hv
    exact ⟨g, hd, by simp [hl, Stmt.localsAfter]⟩
  all_goals
    have w := Stmt.emit_onlyWrites _ (Stmt.placed_of_item hs (by simp)) h hv
    exact ⟨w.grows, w.depth, by simp [w.locals, Stmt.localsAfter]⟩

end StackScript
