import StackScript.Proofs.Simulation

/-!
# The compiler's limits

Three limits can fail a compilation: a 257th constant, a 257th local alive at once, and a jump
longer than 65535 bytes.  This module says, from the program's tree alone, what one pass asks of
them and in which order.

`Stmt.demands` lists the `Demand`s of a statement in the order the compiler meets them: a
constant for each number or string literal, a name constant for the first global use of each
name (`Demand.name`), two constants (`0` and `1`) and two slots for each `for` loop, a slot for
each declaration inside a block, and each jump's distance when it is known (a forward jump's
when it is patched, a loop's when it is written).  The distances come from `Stmt.codeSize`, the
number of bytes each node compiles to.

`Emit.Meets` is the judgment that ties a compilation step to its demands: the step fails with
`Demand.firstViolation`, the first demand over its limit, and otherwise adds exactly the demanded
constants to the pool (`Demand.pool`) and the demanded names to the table of globals
(`Demand.interned`).  `Stmt.emit_meets` proves it of every statement, one lemma per form of
statement (`Stmt.MeetsDemands.block`, `.ifElse`, ...), and `Program.emit_meets` of every program
whose declarations stand in blocks, which the reader guarantees; `Chunk.ofProgram_ok` reads off
the state a compiled program ends in.
-/

namespace StackScript

/-- What compiling one node asks of the three limits. -/
inductive Demand where
  /-- A new constant: a literal, or a `for` loop's `0` or `1`. -/
  | constant (v : Value) (line : Nat)
  /-- The constant holding a global's name, at the name's first global use. -/
  | name (x : String) (line : Nat)
  /-- A new local slot, with `live` locals alive before it. -/
  | slot (live : Nat) (line : Nat)
  /-- A jump over `distance` bytes. -/
  | jump (distance : Nat) (line : Nat)

namespace Demand

/-- The constant a demand adds to the pool, if any. -/
def value? : Demand → Option Value
  | constant v _ => some v
  | name x _ => some (.string x)
  | slot .. | jump .. => none

/-- The constants that demands add to the pool, in order. -/
def pool (ds : List Demand) : List Value := ds.filterMap value?

/-- The names that demands make global, newest first. -/
def newNames : List Demand → List String
  | [] => []
  | name x _ :: ds => newNames ds ++ [x]
  | _ :: ds => newNames ds

/-- The entries that demands add to the table of globals, newest first, from a pool of `k`
constants: each name with the index of its constant. -/
def interned : Nat → List Demand → List (String × Nat)
  | _, [] => []
  | k, constant .. :: ds => interned (k + 1) ds
  | k, name x _ :: ds => interned (k + 1) ds ++ [(x, k)]
  | k, slot .. :: ds | k, jump .. :: ds => interned k ds

/-- The first demand over its limit, met from a pool of `k` constants, as the error it raises. -/
def firstViolation : Nat → List Demand → Option CompileError
  | _, [] => none
  | k, constant _ line :: ds | k, name _ line :: ds =>
    if maxConstants ≤ k then some (.tooManyConstants line) else firstViolation (k + 1) ds
  | k, slot live line :: ds =>
    if maxLocals ≤ live then some (.tooManyLocals line) else firstViolation k ds
  | k, jump d line :: ds =>
    if maxJump < d then some (.jumpTooFar d line) else firstViolation k ds

/-- Demands stay within the limits, from a pool of `k` constants: at most `maxConstants`
constants in all, every slot asked for while one is free, and no jump too long. -/
def Within (k : Nat) (ds : List Demand) : Prop :=
  k + (pool ds).length ≤ maxConstants ∧ (∀ live line, slot live line ∈ ds → live < maxLocals) ∧
    ∀ d line, jump d line ∈ ds → d ≤ maxJump

/-- The demands of a global use of `x`: its name constant, unless `x` is already in `names`. -/
def ofName (names : List String) (x : String) (line : Nat) : List Demand :=
  if x ∈ names then [] else [name x line]

/-- The demands of a variable's use: none for a local, else those of its name. -/
def ofAccess (locals names : List String) (x : String) (line : Nat) : List Demand :=
  if x ∈ locals then [] else ofName names x line

end Demand

open Demand

/-! ## Sizes and demands of the tree -/

/-- The number of bytes an expression compiles to. -/
def Expr.codeSize : Expr → Nat
  | .number .. | .string .. | .var .. => 2
  | .bool .. | .nil _ => 1
  | .assign _ v _ => v.codeSize + 2
  | .binary o l r _ => l.codeSize + r.codeSize + if o.negated then 2 else 1
  | .unary _ e _ => e.codeSize + 1
  | .and l r _ => l.codeSize + r.codeSize + 4
  | .or l r _ => l.codeSize + r.codeSize + 7
  | .group e _ => e.codeSize

/-- The demands of an expression, with the locals `L` and the global names `N` known before it. -/
def Expr.demands (L : List String) : List String → Expr → List Demand
  | _, .number x s => [.constant (.number x) s.line]
  | _, .string v s => [.constant (.string v) s.line]
  | _, .bool .. | _, .nil _ => []
  | N, .var x s => ofAccess L N x s.line
  | N, .assign x v s =>
    let vs := v.demands L N
    vs ++ ofAccess L (newNames vs ++ N) x s.line
  | N, .binary _ l r _ =>
    let ls := l.demands L N
    ls ++ r.demands L (newNames ls ++ N)
  | N, .unary _ e _ | N, .group e _ => e.demands L N
  | N, .and l r s =>
    let ls := l.demands L N
    ls ++ r.demands L (newNames ls ++ N) ++ [.jump (r.codeSize + 1) s.line]
  | N, .or l r s =>
    let ls := l.demands L N
    ls ++ .jump 3 s.line :: r.demands L (newNames ls ++ N) ++ [.jump (r.codeSize + 1) s.line]

/-- The local a statement declares at block depth `d`: a declaration's, inside a block. -/
def Stmt.declared (d : Nat) : Stmt → List String
  | .declare x .. => if 0 < d then [x] else []
  | _ => []

mutual

/-- The number of bytes a statement compiles to at block depth `d`. -/
def Stmt.codeSize (d : Nat) : Stmt → Nat
  | .expression e _ | .print e _ => e.codeSize + 1
  | .declare _ _ init _ => (init.map Expr.codeSize).getD 1 + if 0 < d then 0 else 2
  | .block body _ => Stmt.codeSizeAll (d + 1) body + (body.flatMap (Stmt.declared (d + 1))).length
  | .ifElse c yes no _ => c.codeSize + yes.codeSize d + Stmt.codeSizeElse d no + 8
  | .whileLoop c body _ => c.codeSize + body.codeSize d + 8
  | .forLoop _ limit body _ => limit.codeSize + body.codeSize (d + 1) + 25

/-- The number of bytes an `else` branch compiles to. -/
def Stmt.codeSizeElse (d : Nat) : Option Stmt → Nat
  | some s => s.codeSize d
  | none => 0

/-- The number of bytes statements compile to. -/
def Stmt.codeSizeAll (d : Nat) : List Stmt → Nat
  | [] => 0
  | s :: rest => s.codeSize d + Stmt.codeSizeAll d rest

end

mutual

/-- The demands of a statement at block depth `d`, with the locals `L` and the global names `N`
known before it.  A `for` loop's limit and counter take two slots and are locals of its body. -/
def Stmt.demands (L : List String) (d : Nat) (N : List String) : Stmt → List Demand
  | .expression e _ | .print e _ => e.demands L N
  | .declare x _ init s =>
    let is := (init.map (Expr.demands L N)).getD []
    is ++ if 0 < d then [.slot L.length s.line] else ofName (newNames is ++ N) x s.line
  | .block body _ => Stmt.demandsAll L (d + 1) N body
  | .ifElse c yes no s =>
    let cs := c.demands L N
    let ys := yes.demands L d (newNames cs ++ N)
    cs ++ ys ++ .jump (yes.codeSize d + 4) s.line ::
      Stmt.demandsElse L d (newNames ys ++ newNames cs ++ N) no ++
      [.jump (Stmt.codeSizeElse d no + 1) s.line]
  | .whileLoop c body s =>
    let cs := c.demands L N
    cs ++ body.demands L d (newNames cs ++ N) ++
      [.jump (c.codeSize + body.codeSize d + 7) s.line, .jump (body.codeSize d + 4) s.line]
  | .forLoop x limit body s =>
    let ls := limit.demands L N
    ls ++ [.slot L.length s.line, .constant (.number 0) s.line, .slot (L.length + 1) s.line] ++
      body.demands (L ++ [limitSlotName, x]) (d + 1) (newNames ls ++ N) ++
      [.constant (.number 1) s.line, .jump (body.codeSize (d + 1) + 20) s.line,
        .jump (body.codeSize (d + 1) + 12) s.line]

/-- The demands of an `else` branch. -/
def Stmt.demandsElse (L : List String) (d : Nat) (N : List String) : Option Stmt → List Demand
  | some s => s.demands L d N
  | none => []

/-- The demands of statements in order, each seeing the locals and names of those before it. -/
def Stmt.demandsAll (L : List String) (d : Nat) (N : List String) : List Stmt → List Demand
  | [] => []
  | s :: rest =>
    let ds := s.demands L d N
    ds ++ Stmt.demandsAll (L ++ s.declared d) d (newNames ds ++ N) rest

end

/-- The demands of a program: its statements at the top, with no locals and no globals yet. -/
def Program.demands (p : Program) : List Demand := Stmt.demandsAll [] 0 [] p.body

/-! ## Demands in sequence -/

namespace Demand

@[simp] theorem pool_append (ds₁ ds₂ : List Demand) : pool (ds₁ ++ ds₂) = pool ds₁ ++ pool ds₂ :=
  List.filterMap_append

/-- The table entries of demands in sequence: those of the second part, numbered after the
constants of the first, above those of the first. -/
theorem interned_append (k : Nat) (ds₁ ds₂ : List Demand) :
    interned k (ds₁ ++ ds₂) = interned (k + (pool ds₁).length) ds₂ ++ interned k ds₁ := by
  induction ds₁ generalizing k with
  | nil => simp [interned, pool]
  | cons d ds ih =>
    cases d <;> simp [interned, pool, List.filterMap_cons, value?, ih, Nat.add_assoc, Nat.add_comm 1]

@[simp] theorem map_fst_interned (k : Nat) (ds : List Demand) :
    (interned k ds).map Prod.fst = newNames ds := by
  induction ds generalizing k with
  | nil => rfl
  | cons d ds ih => cases d <;> simp [interned, newNames, ih]

/-- The first violation of demands in sequence: the first part's, or else the second part's,
met with the constants of the first part in the pool. -/
theorem firstViolation_append (k : Nat) (ds₁ ds₂ : List Demand) :
    firstViolation k (ds₁ ++ ds₂) =
      (firstViolation k ds₁).or (firstViolation (k + (pool ds₁).length) ds₂) := by
  induction ds₁ generalizing k with
  | nil => simp [firstViolation, pool]
  | cons d ds ih =>
    cases d <;> simp only [List.cons_append, firstViolation] <;> split <;>
      simp [ih, pool, List.filterMap_cons, value?, Nat.add_assoc, Nat.add_comm 1]

/-- From a pool within its limit, demands meet no violation exactly when they stay within all
three limits. -/
theorem firstViolation_eq_none_iff {k : Nat} (hk : k ≤ maxConstants) (ds : List Demand) :
    firstViolation k ds = none ↔ Within k ds := by
  induction ds generalizing k with
  | nil => simpa [firstViolation, Within, pool] using hk
  | cons d ds ih =>
    cases d with
    | constant v line | name x line =>
      simp only [firstViolation]
      split
      · simp only [reduceCtorEq, false_iff, Within, pool, List.filterMap_cons, value?,
          List.length_cons]
        rintro ⟨h, -⟩
        omega
      · rw [ih (by omega)]
        simp [Within, pool, value?, Nat.add_assoc, Nat.add_comm 1]
    | slot live line =>
      simp only [firstViolation]
      split
      · simp only [reduceCtorEq, false_iff, Within]
        rintro ⟨-, h, -⟩
        have := h live line List.mem_cons_self
        omega
      · rw [ih hk]
        simp only [Within, pool, List.filterMap_cons, value?, List.mem_cons, reduceCtorEq,
          false_or, Demand.slot.injEq]
        constructor
        · rintro ⟨h₁, h₂, h₃⟩
          refine ⟨h₁, fun l n h => ?_, h₃⟩
          rcases h with ⟨hl, -⟩ | h
          · omega
          · exact h₂ l n h
        · rintro ⟨h₁, h₂, h₃⟩
          exact ⟨h₁, fun l n h => h₂ l n (.inr h), h₃⟩
    | jump dist line =>
      simp only [firstViolation]
      split
      · simp only [reduceCtorEq, false_iff, Within]
        rintro ⟨-, -, h⟩
        have := h dist line List.mem_cons_self
        omega
      · rw [ih hk]
        simp only [Within, pool, List.filterMap_cons, value?, List.mem_cons, reduceCtorEq,
          false_or, Demand.jump.injEq]
        constructor
        · rintro ⟨h₁, h₂, h₃⟩
          refine ⟨h₁, h₂, fun l n h => ?_⟩
          rcases h with ⟨hl, -⟩ | h
          · omega
          · exact h₃ l n h
        · rintro ⟨h₁, h₂, h₃⟩
          exact ⟨h₁, h₂, fun l n h => h₃ l n (.inr h)⟩

end Demand

/-! ## Compilation steps and their demands -/

namespace Emit

variable {α β : Type} {st : Emitter}

/-- `x` run from `st` meets the demands `ds`: it fails with the first of them over its limit,
and otherwise adds their constants to the pool and their names to the table of globals, and ends
in a state that `post` describes. -/
def Meets (x : Emit α) (st : Emitter) (ds : List Demand) (post : α → Emitter → Prop) : Prop :=
  match firstViolation st.chunk.constants.size ds with
  | some e => x.run st = .error e
  | none => ∃ a st', x.run st = .ok (a, st') ∧
      st'.chunk.constants = st.chunk.constants ++ (pool ds).toArray ∧
      st'.names = interned st.chunk.constants.size ds ++ st.names ∧ post a st'

/-- A step that always succeeds and leaves the pool and the table of globals alone. -/
def Quiet (x : Emit α) : Prop :=
  ∀ st, ∃ a st', x.run st = .ok (a, st') ∧ st'.chunk.constants = st.chunk.constants ∧
    st'.names = st.names

namespace Meets

variable {x : Emit α} {ds : List Demand} {P Q : α → Emitter → Prop}

theorem mono (h : x.Meets st ds P)
    (hPQ : ∀ a st', x.run st = .ok (a, st') → P a st' → Q a st') : x.Meets st ds Q := by
  unfold Meets at h ⊢
  rcases hv : firstViolation st.chunk.constants.size ds with _ | e <;> rw [hv] at h <;>
    dsimp only at h ⊢
  · obtain ⟨a, st', hrun, hc, hn, hp⟩ := h
    exact ⟨a, st', hrun, hc, hn, hPQ a st' hrun hp⟩
  · exact h

theorem bind {f : α → Emit β} {ds₁ ds₂ : List Demand} {Q : β → Emitter → Prop}
    (hx : x.Meets st ds₁ P)
    (hf : ∀ a st₁, x.run st = .ok (a, st₁) →
      st₁.names = interned st.chunk.constants.size ds₁ ++ st.names → P a st₁ →
        (f a).Meets st₁ ds₂ Q) :
    (x >>= f).Meets st (ds₁ ++ ds₂) Q := by
  unfold Meets at hx ⊢
  rw [firstViolation_append]
  rcases h₁ : firstViolation st.chunk.constants.size ds₁ with _ | e <;> rw [h₁] at hx <;>
    simp only [Option.none_or, Option.some_or]
  · obtain ⟨a, st₁, hrun, hc, hn, hp⟩ := hx
    have hk : st₁.chunk.constants.size = st.chunk.constants.size + (pool ds₁).length := by
      simp [hc]
    have h := hf a st₁ hrun hn hp
    unfold Meets at h
    rw [hk] at h
    rw [run_bind, hrun]
    dsimp only
    rcases h₂ : firstViolation (st.chunk.constants.size + (pool ds₁).length) ds₂ with _ | e <;>
      rw [h₂] at h <;> dsimp only at h ⊢
    · obtain ⟨b, st₂, hrun₂, hc₂, hn₂, hq⟩ := h
      exact ⟨b, st₂, hrun₂, by simp [hc₂, hc],
        by rw [hn₂, hn, interned_append, List.append_assoc], hq⟩
    · exact h
  · rw [run_bind, hx]

theorem bind_quiet {f : α → Emit β} {Q : β → Emitter → Prop} (hx : x.Meets st ds P)
    (hf : ∀ a st₁, x.run st = .ok (a, st₁) →
      st₁.names = interned st.chunk.constants.size ds ++ st.names → P a st₁ →
        (f a).Meets st₁ [] Q) :
    (x >>= f).Meets st ds Q := by
  simpa using hx.bind hf

/-- A quiet step first adds no demands. -/
theorem step {f : α → Emit β} {Q : β → Emitter → Prop} (hx : x.Quiet)
    (hf : ∀ a st₁, x.run st = .ok (a, st₁) → st₁.names = st.names → (f a).Meets st₁ ds Q) :
    (x >>= f).Meets st ds Q := by
  obtain ⟨a, st₁, hrun, hc, hn⟩ := hx st
  have h := hf a st₁ hrun hn
  unfold Meets at h ⊢
  rw [hc] at h
  rw [run_bind, hrun]
  dsimp only
  rcases hv : firstViolation st.chunk.constants.size ds with _ | e <;> rw [hv] at h <;>
    dsimp only at h ⊢
  · obtain ⟨b, st₂, hrun₂, hc₂, hn₂, hq⟩ := h
    exact ⟨b, st₂, hrun₂, hc₂, by rw [hn₂, hn], hq⟩
  · exact h

theorem last (hx : x.Quiet) (hq : ∀ a st', x.run st = .ok (a, st') → Q a st') :
    x.Meets st [] Q := by
  obtain ⟨a, st', hrun, hc, hn⟩ := hx st
  exact ⟨a, st', hrun, by simp [hc, pool], by simp [hn, interned], hq a st' hrun⟩

end Meets

theorem quiet_pure (a : α) : (pure a : Emit α).Quiet := fun st => ⟨a, st, rfl, rfl, rfl⟩

theorem quiet_get : (get : Emit Emitter).Quiet := fun st => ⟨st, st, rfl, rfl, rfl⟩

theorem quiet_op (o : Op) (line : Nat) : (op o line).Quiet := fun st =>
  ⟨(), _, op_run o line st, by simp, rfl⟩

theorem quiet_opWith (o : Op) (k line : Nat) : (opWith o k line).Quiet := fun st =>
  ⟨(), _, opWith_run o k line st, by simp, rfl⟩

theorem quiet_jump (o : Op) (line : Nat) : (jump o line).Quiet := fun st =>
  ⟨_, _, jump_run o line st, by simp, rfl⟩

theorem quiet_offset : offset.Quiet := fun st => ⟨_, _, offset_run st, rfl, rfl⟩

theorem quiet_beginScope : beginScope.Quiet := fun st => ⟨(), _, beginScope_run st, rfl, rfl⟩

theorem quiet_endScope (line : Nat) : (endScope line).Quiet := fun st =>
  ⟨(), _, endScope_run line st, rfl, rfl⟩

theorem loadConstant_meets (v : Value) (line : Nat) (st : Emitter) :
    (loadConstant v line).Meets st [.constant v line] fun _ _ => True := by
  unfold Meets
  by_cases h : maxConstants ≤ st.chunk.constants.size
  · simp only [firstViolation, h, ↓reduceIte, loadConstant_run]
  · simp only [firstViolation, h, ↓reduceIte, loadConstant_run]
    exact ⟨(), _, rfl, by simp [pool, value?], by simp [interned], trivial⟩

theorem lookup_eq_none_iff {names : List (String × Nat)} {x : String} :
    names.lookup x = none ↔ x ∉ names.map Prod.fst := by
  rw [List.lookup_eq_none_iff]
  simp only [bne_iff_ne, ne_eq, List.mem_map, not_exists, not_and]
  exact ⟨fun h p hp hx => h p hp hx.symm, fun h p hp hx => h p hp hx.symm⟩

theorem nameConstant_meets (x : String) (line : Nat) (st : Emitter) :
    (nameConstant x line).Meets st (ofName (st.names.map Prod.fst) x line) fun k st' =>
      st'.names.lookup x = some k := by
  unfold Meets
  rw [nameConstant_run]
  rcases hk : st.names.lookup x with _ | k
  · have hx : x ∉ st.names.map Prod.fst := lookup_eq_none_iff.mp hk
    by_cases h : maxConstants ≤ st.chunk.constants.size
    · simp only [ofName, hx, ↓reduceIte, firstViolation, h]
    · simp only [ofName, hx, ↓reduceIte, firstViolation, h]
      exact ⟨_, _, rfl, by simp [pool, value?], by simp [interned], by simp⟩
  · have hx : x ∈ st.names.map Prod.fst := by
      by_contra hx
      rw [lookup_eq_none_iff.mpr hx] at hk
      cases hk
    simp only [ofName, hx, ↓reduceIte, firstViolation]
    exact ⟨k, st, rfl, by simp [pool], by simp [interned], hk⟩

theorem slotOf?_eq_none_iff {locals : Array Local} {x : String} :
    slotOf? locals x = none ↔ x ∉ locals.toList.map Local.name := by
  rw [slotOf?, Option.map_eq_none_iff, List.findIdx?_eq_none_iff]
  simp only [List.mem_reverse, beq_eq_false_iff_ne, ne_eq, List.mem_map, not_exists, not_and]

theorem access_meets (x : String) (ops : Op × Op) (line : Nat) (st : Emitter) :
    (access x ops line).Meets st
      (ofAccess (st.locals.toList.map Local.name) (st.names.map Prod.fst) x line)
      fun _ _ => True := by
  rcases hs : slotOf? st.locals x with _ | slot
  · have hx := slotOf?_eq_none_iff.mp hs
    have h : (do let k ← nameConstant x line; opWith ops.2 k line).Meets st
        (ofName (st.names.map Prod.fst) x line) fun _ _ => True :=
      (nameConstant_meets x line st).bind_quiet fun k _ _ _ _ =>
        Meets.last (quiet_opWith ops.2 k line) fun _ _ _ => trivial
    unfold Meets at h ⊢
    simp only [ofAccess, hx, ↓reduceIte, access_run, hs]
    exact h
  · have hx : x ∈ st.locals.toList.map Local.name := by
      by_contra hx
      rw [slotOf?_eq_none_iff.mpr hx] at hs
      cases hs
    have h : (opWith ops.1 slot line).Meets st [] fun _ _ => True :=
      Meets.last (quiet_opWith ops.1 slot line) fun _ _ _ => trivial
    unfold Meets at h ⊢
    simp only [ofAccess, hx, ↓reduceIte, access_run, hs]
    exact h

theorem patch_meets (p line : Nat) (st : Emitter) :
    (patch p line).Meets st [.jump (st.chunk.size - p - 2) line] fun _ _ => True := by
  unfold Meets
  by_cases h : maxJump < st.chunk.size - p - 2
  · simp only [firstViolation, h, ↓reduceIte, patch_run]
  · simp only [firstViolation, h, ↓reduceIte, patch_run]
    exact ⟨(), _, rfl, by simp [pool, value?], by simp [interned], trivial⟩

theorem loopBack_meets (start line : Nat) (st : Emitter) :
    (loopBack start line).Meets st [.jump (st.chunk.size + 1 - start + 2) line]
      fun _ _ => True := by
  unfold Meets
  by_cases h : maxJump < st.chunk.size + 1 - start + 2
  · simp only [firstViolation, h, ↓reduceIte, loopBack_run]
  · simp only [firstViolation, h, ↓reduceIte, loopBack_run]
    exact ⟨(), _, rfl, by simp [pool, value?], by simp [interned], trivial⟩

theorem addLocal_meets (x : String) (line : Nat) (st : Emitter) :
    (addLocal x line).Meets st [.slot st.locals.size line] fun _ _ => True := by
  unfold Meets
  by_cases h : maxLocals ≤ st.locals.size
  · simp only [firstViolation, h, ↓reduceIte, addLocal_run]
  · simp only [firstViolation, h, ↓reduceIte, addLocal_run]
    exact ⟨_, _, rfl, by simp [pool, value?], by simp [interned], trivial⟩

end Emit

/-! ## Expressions -/

open Emit Emitter

theorem Emitter.names_after {st st' : Emitter} {k : Nat} {ds : List Demand}
    (h : st'.names = interned k ds ++ st.names) :
    st'.names.map Prod.fst = newNames ds ++ st.names.map Prod.fst := by
  simp [h]

/-- Compiling an expression meets its demands and writes `codeSize` bytes. -/
theorem Expr.emit_meets (e : Expr) {st : Emitter} (hv : st.Valid) {L N : List String}
    (hL : st.locals.toList.map Local.name = L) (hN : st.names.map Prod.fst = N) :
    e.emit.Meets st (e.demands L N) fun _ st' => st'.chunk.size = st.chunk.size + e.codeSize := by
  induction e generalizing st N with
  | number x s =>
    exact (loadConstant_meets _ _ st).mono fun _ _ h _ => size_of_loadConstant h
  | string v s =>
    exact (loadConstant_meets _ _ st).mono fun _ _ h _ => size_of_loadConstant h
  | bool b s =>
    cases b <;> exact Meets.last (quiet_op _ _) fun _ _ h => size_of_op h
  | nil s => exact Meets.last (quiet_op _ _) fun _ _ h => size_of_op h
  | var x s =>
    have h := access_meets x (.getLocal, .getGlobal) s.line st
    rw [hL, hN] at h
    exact h.mono fun _ _ h _ => (access_writes hv h).2.1
  | assign x v s ih =>
    simp only [Expr.emit, Expr.demands]
    refine (ih hv hL hN).bind fun _ st₁ h₁ hn₁ hs₁ => ?_
    have w₁ := Expr.emit_writes h₁ hv
    have h := access_meets x (.setLocal, .setGlobal) s.line st₁
    rw [w₁.locals, hL, names_after hn₁, hN] at h
    exact h.mono fun _ _ h₂ _ => by
      rw [(access_writes w₁.valid h₂).2.1, hs₁, Expr.codeSize, Nat.add_assoc]
  | binary o l r s ihl ihr =>
    simp only [Expr.emit_binary, Expr.demands]
    refine (ihl hv hL hN).bind fun _ st₁ h₁ hn₁ hs₁ => ?_
    have w₁ := Expr.emit_writes h₁ hv
    refine (ihr w₁.valid (by rw [w₁.locals, hL]) (by rw [names_after hn₁, hN])).bind_quiet
      fun _ st₂ h₂ _ hs₂ => ?_
    refine Meets.step (quiet_op _ _) fun _ st₃ h₃ _ => ?_
    have hs₃ := size_of_op h₃
    cases hn : o.negated
    · refine Meets.last (quiet_pure ()) fun _ _ h₄ => ?_
      obtain ⟨-, rfl⟩ := run_pure_ok.mp h₄
      simp only [hs₃, hs₂, hs₁, Expr.codeSize, hn, Bool.false_eq_true, ↓reduceIte]
      omega
    · refine Meets.last (quiet_op _ _) fun _ _ h₄ => ?_
      simp only [size_of_op h₄, hs₃, hs₂, hs₁, Expr.codeSize, hn, ↓reduceIte]
      omega
  | unary o e s ih =>
    rw [Expr.emit_unary]
    refine (ih hv hL hN).bind_quiet fun _ st₁ h₁ _ hs₁ => ?_
    exact Meets.last (quiet_op _ _) fun _ _ h₂ => by
      rw [size_of_op h₂, hs₁, Expr.codeSize, Nat.add_assoc]
  | and l r s ihl ihr =>
    simp only [Expr.emit, Expr.demands, List.append_assoc]
    refine (ihl hv hL hN).bind fun _ st₁ h₁ hn₁ hs₁ => ?_
    have w₁ := Expr.emit_writes h₁ hv
    refine Meets.step (quiet_jump _ _) fun p st₂ h₂ hn₂ => ?_
    obtain ⟨w₂, rfl⟩ := w₁.andJump h₂
    refine Meets.step (quiet_op _ _) fun _ st₃ h₃ hn₃ => ?_
    have w₃ := w₂.andOp h₃
    refine (ihr w₃.valid (by rw [w₃.locals, hL])
      (by rw [hn₃, hn₂, names_after hn₁, hN])).bind fun _ st₄ h₄ _ hs₄ => ?_
    have hdist : st₄.chunk.size - (st₁.chunk.size + 1) - 2 = r.codeSize + 1 := by
      rw [hs₄, size_of_op h₃, size_of_jump h₂]
      omega
    have h := patch_meets (st₁.chunk.size + 1) s.line st₄
    rw [hdist] at h
    exact h.mono fun _ _ h₅ _ => by
      rw [size_of_patch h₅, hs₄, size_of_op h₃, size_of_jump h₂, hs₁, Expr.codeSize]
      omega
  | or l r s ihl ihr =>
    simp only [Expr.emit, Expr.demands, List.append_assoc, List.cons_append]
    refine (ihl hv hL hN).bind fun _ st₁ h₁ hn₁ hs₁ => ?_
    have w₁ := Expr.emit_writes h₁ hv
    refine Meets.step (quiet_jump _ _) fun p st₂ h₂ hn₂ => ?_
    obtain ⟨w₂, rfl⟩ := w₁.andJump h₂
    refine Meets.step (quiet_jump _ _) fun q st₃ h₃ hn₃ => ?_
    obtain ⟨w₃, rfl⟩ := w₂.andJump h₃
    -- the jump past the right operand is three bytes long
    have h₄ := patch_meets (st₁.chunk.size + 1) s.line st₃
    rw [show st₃.chunk.size - (st₁.chunk.size + 1) - 2 = 3 by
      rw [size_of_jump h₃, size_of_jump h₂]; omega] at h₄
    refine h₄.bind fun _ st₄ h₄ hn₄ _ => ?_
    have w₄ := w₃.andPatch (by omega) h₄
    refine Meets.step (quiet_op _ _) fun _ st₅ h₅ hn₅ => ?_
    have w₅ := w₄.andOp h₅
    refine (ihr w₅.valid (by rw [w₅.locals, hL])
      (by simp [hn₅, hn₄, hn₃, hn₂, interned, names_after hn₁, hN])).bind
      fun _ st₆ h₆ _ hs₆ => ?_
    have hs₅ : st₅.chunk.size = st₁.chunk.size + 7 := by
      rw [size_of_op h₅, size_of_patch h₄, size_of_jump h₃, size_of_jump h₂]
    have h₇ := patch_meets (st₂.chunk.size + 1) s.line st₆
    rw [show st₆.chunk.size - (st₂.chunk.size + 1) - 2 = r.codeSize + 1 by
      rw [hs₆, hs₅, size_of_jump h₂]; omega] at h₇
    exact h₇.mono fun _ _ h₈ _ => by
      rw [size_of_patch h₈, hs₆, hs₅, hs₁, Expr.codeSize]
      omega
  | group e s ih => exact ih hv hL hN

/-! ## Statements -/

theorem Stmt.map_name_localsAfter (s : Stmt) (d : Nat) (locals : Array Local) :
    (s.localsAfter d locals).toList.map Local.name =
      locals.toList.map Local.name ++ s.declared d := by
  cases s <;> simp only [Stmt.localsAfter, Stmt.declared, List.append_nil]
  split <;> simp

theorem Stmt.init_meets (init : Option Expr) (line : Nat) {st : Emitter} (hv : st.Valid)
    {L N : List String} (hL : st.locals.toList.map Local.name = L)
    (hN : st.names.map Prod.fst = N) :
    ((init.map Expr.emit).getD (op .pushNil line)).Meets st ((init.map (Expr.demands L N)).getD [])
      fun _ st' => st'.chunk.size = st.chunk.size + (init.map Expr.codeSize).getD 1 ∧
        st.Writes st' := by
  cases init with
  | some e =>
    exact (Expr.emit_meets e hv hL hN).mono fun _ _ h hs => ⟨hs, Expr.emit_writes h hv⟩
  | none => exact Meets.last (quiet_op _ _) fun _ _ h => ⟨size_of_op h, OnlyWrites.op h hv⟩

/-- Compiling `s` from any valid state meets the demands of `s` and writes `codeSize` bytes. -/
def Stmt.MeetsDemands (s : Stmt) : Prop :=
  ∀ {st : Emitter}, st.Valid → ∀ {L N : List String}, st.locals.toList.map Local.name = L →
    st.names.map Prod.fst = N →
      s.emit.Meets st (s.demands L st.depth N) fun _ st' =>
        st'.chunk.size = st.chunk.size + s.codeSize st.depth

/-- Compiling an `else` branch meets its demands and writes `codeSizeElse` bytes. -/
def Stmt.MeetsDemandsElse (no : Option Stmt) : Prop :=
  ∀ {st : Emitter}, st.Valid → ∀ {L N : List String}, st.locals.toList.map Local.name = L →
    st.names.map Prod.fst = N →
      (Stmt.emitElse no).Meets st (Stmt.demandsElse L st.depth N no) fun _ st' =>
        st'.chunk.size = st.chunk.size + Stmt.codeSizeElse st.depth no

/-- Compiling statements in order meets their demands, writes `codeSizeAll` bytes and adds the
locals they declare. -/
def Stmt.MeetsDemandsAll (ss : List Stmt) : Prop :=
  ∀ {st : Emitter}, st.Valid → ∀ {L N : List String}, st.locals.toList.map Local.name = L →
    st.names.map Prod.fst = N →
      (Stmt.emitAll ss).Meets st (Stmt.demandsAll L st.depth N ss) fun _ st' =>
        st'.chunk.size = st.chunk.size + Stmt.codeSizeAll st.depth ss ∧
          st'.locals.toList.map Local.name = L ++ ss.flatMap (Stmt.declared st.depth)

namespace Stmt.MeetsDemands

theorem expression (e : Expr) (sp : Span) : (Stmt.expression e sp).MeetsDemands := by
  intro st hv L N hL hN
  simp only [Stmt.emit, Stmt.demands, Stmt.codeSize]
  refine (Expr.emit_meets e hv hL hN).bind_quiet fun _ st₁ _ _ hs₁ => ?_
  exact Meets.last (quiet_op _ _) fun _ _ h₂ => by rw [size_of_op h₂, hs₁, Nat.add_assoc]

theorem print (e : Expr) (sp : Span) : (Stmt.print e sp).MeetsDemands := by
  intro st hv L N hL hN
  simp only [Stmt.emit, Stmt.demands, Stmt.codeSize]
  refine (Expr.emit_meets e hv hL hN).bind_quiet fun _ st₁ _ _ hs₁ => ?_
  exact Meets.last (quiet_op _ _) fun _ _ h₂ => by rw [size_of_op h₂, hs₁, Nat.add_assoc]

theorem declare (x : String) (ty : Option TypeTag) (init : Option Expr) (sp : Span) :
    (Stmt.declare x ty init sp).MeetsDemands := by
  intro st hv L N hL hN
  simp only [Stmt.emit, Emit.declare, Stmt.demands, Stmt.codeSize]
  refine (Stmt.init_meets init sp.line hv hL hN).bind fun _ st₁ h₁ hn₁ hinit => ?_
  obtain ⟨hs₁, w₁⟩ := hinit
  refine Meets.step quiet_get fun e st₂ h₂ hn₂ => ?_
  obtain ⟨rfl, rfl⟩ : st₁ = e ∧ st₁ = st₂ := by
    simpa only [StateT.run_get, Pure.pure, Except.pure, Except.ok.injEq, Prod.mk.injEq] using h₂
  rw [w₁.depth]
  by_cases hd : 0 < st.depth
  · simp only [hd, ↓reduceIte]
    have h := addLocal_meets x sp.line st₁
    rw [show st₁.locals.size = L.length by rw [w₁.locals, ← hL]; simp] at h
    refine h.bind_quiet fun _ st₃ h₃ _ _ => Meets.last (quiet_pure ()) fun _ _ h₄ => ?_
    obtain ⟨-, rfl⟩ := run_pure_ok.mp h₄
    obtain ⟨-, -, rfl⟩ := addLocal_ok.mp h₃
    simpa using hs₁
  · simp only [hd, ↓reduceIte]
    have h := nameConstant_meets x sp.line st₁
    rw [names_after hn₁, hN] at h
    refine h.bind_quiet fun k st₃ h₃ _ _ => Meets.last (quiet_opWith _ _ _) fun _ _ h₄ => ?_
    have hs₃ : st₃.chunk.size = st₁.chunk.size := by
      simp [Chunk.size, (nameConstant_writes w₁.valid h₃).2.1]
    rw [size_of_opWith h₄, hs₃, hs₁, Nat.add_assoc]

/-- A block asks for what its statements ask, and pops one local for each declaration. -/
theorem block {body : List Stmt} (hb : Stmt.MeetsDemandsAll body)
    (hd : (Stmt.emitAll body).Declares) (sp : Span) : (Stmt.block body sp).MeetsDemands := by
  intro st hv L N hL hN
  simp only [Stmt.emit, Emit.block, Stmt.demands, Stmt.codeSize]
  refine Meets.step quiet_beginScope fun _ st₁ h₁ _ => ?_
  obtain ⟨-, rfl⟩ := by simpa only [beginScope_run, Except.ok.injEq, Prod.mk.injEq] using h₁
  refine (hb hv.beginScope hL hN).bind_quiet fun _ st₂ h₂ _ hbody => ?_
  obtain ⟨hs₂, hl₂⟩ := hbody
  obtain ⟨-, hd₂, newer, hl₂', hnewer⟩ := hd h₂ hv.beginScope
  refine Meets.last (quiet_endScope _) fun _ st₃ h₃ => ?_
  rw [Emit.endScope_newer hd₂ hl₂' hv.depth hnewer, Except.ok.injEq, Prod.mk.injEq] at h₃
  obtain ⟨-, rfl⟩ := h₃
  have hcount : newer.length = (body.flatMap (Stmt.declared (st.depth + 1))).length := by
    have := congrArg List.length hl₂
    simp only [hl₂', Array.toList_append, List.map_append, List.length_append, List.length_map,
      ← hL] at this
    simpa using this
  simp only [Chunk.size, Array.size_append, Array.size_replicate] at hs₂ ⊢
  rw [hs₂, hcount, Nat.add_assoc]

/-- An `if` asks for its condition, its branches and the distances of its two jumps. -/
theorem ifElse {c : Expr} {yes : Stmt} {no : Option Stmt} (hy : yes.MeetsDemands)
    (hyw : yes.emit.OnlyWrites) (hn : Stmt.MeetsDemandsElse no) (sp : Span) :
    (Stmt.ifElse c yes no sp).MeetsDemands := by
  intro st hv L N hL hN
  simp only [Stmt.emit, Emit.ifElse, Stmt.demands, Stmt.codeSize, List.append_assoc,
    List.cons_append]
  refine (Expr.emit_meets c hv hL hN).bind fun _ st₁ h₁ hn₁ hs₁ => ?_
  have w₁ := Expr.emit_writes h₁ hv
  refine Meets.step (quiet_jump _ _) fun p st₂ h₂ hn₂ => ?_
  obtain ⟨w₂, rfl⟩ := w₁.andJump h₂
  refine Meets.step (quiet_op _ _) fun _ st₃ h₃ hn₃ => ?_
  have w₃ := w₂.andOp h₃
  have hyes := hy w₃.valid (by rw [w₃.locals, hL])
    (by rw [hn₃, hn₂, names_after hn₁, hN])
  rw [w₃.depth] at hyes
  refine hyes.bind fun _ st₄ h₄ hn₄ hs₄ => ?_
  have w₄ := w₃.trans (hyw h₄ w₃.valid)
  refine Meets.step (quiet_jump _ _) fun q st₅ h₅ hn₅ => ?_
  obtain ⟨w₅, rfl⟩ := w₄.andJump h₅
  -- the jump past the first branch lands after the jump past the second
  have h₆ := patch_meets (st₁.chunk.size + 1) sp.line st₅
  rw [show st₅.chunk.size - (st₁.chunk.size + 1) - 2 = yes.codeSize st.depth + 4 by
    rw [size_of_jump h₅, hs₄, size_of_op h₃, size_of_jump h₂]; omega] at h₆
  refine h₆.bind fun _ st₆ h₆ hn₆ _ => ?_
  have w₆ := w₅.andPatch (by have := w₁.size; omega) h₆
  refine Meets.step (quiet_op _ _) fun _ st₇ h₇ hn₇ => ?_
  have w₇ := w₆.andOp h₇
  have hn₇₄ : st₇.names = st₄.names := by simp [hn₇, hn₆, interned, hn₅]
  have hno := hn w₇.valid (by rw [w₇.locals, hL])
    (by rw [hn₇₄, names_after hn₄, hn₃, hn₂, names_after hn₁, hN])
  rw [w₇.depth] at hno
  refine hno.bind fun _ st₈ h₈ _ hs₈ => ?_
  have hs₇ : st₇.chunk.size = st₄.chunk.size + 4 := by
    rw [size_of_op h₇, size_of_patch h₆, size_of_jump h₅]
  have h₉ := patch_meets (st₄.chunk.size + 1) sp.line st₈
  rw [show st₈.chunk.size - (st₄.chunk.size + 1) - 2 = Stmt.codeSizeElse st.depth no + 1 by
    rw [hs₈, hs₇]; omega] at h₉
  exact h₉.mono fun _ _ h₁₀ _ => by
    rw [size_of_patch h₁₀, hs₈, hs₇, hs₄, size_of_op h₃, size_of_jump h₂, hs₁]
    omega

theorem whileLoop {c : Expr} {body : Stmt} (hb : body.MeetsDemands) (sp : Span) :
    (Stmt.whileLoop c body sp).MeetsDemands := by
  intro st hv L N hL hN
  simp only [Stmt.emit, Emit.whileLoop, Stmt.demands, Stmt.codeSize, List.append_assoc]
  refine Meets.step quiet_offset fun start st₀ h₀ _ => ?_
  obtain ⟨rfl, rfl⟩ := by simpa only [offset_run, Except.ok.injEq, Prod.mk.injEq] using h₀
  refine (Expr.emit_meets c hv hL hN).bind fun _ st₁ h₁ hn₁ hs₁ => ?_
  have w₁ := Expr.emit_writes h₁ hv
  refine Meets.step (quiet_jump _ _) fun p st₂ h₂ hn₂ => ?_
  obtain ⟨w₂, rfl⟩ := w₁.andJump h₂
  refine Meets.step (quiet_op _ _) fun _ st₃ h₃ hn₃ => ?_
  have w₃ := w₂.andOp h₃
  have hbody := hb w₃.valid (by rw [w₃.locals, hL])
    (by rw [hn₃, hn₂, names_after hn₁, hN])
  rw [w₃.depth] at hbody
  refine hbody.bind fun _ st₄ h₄ _ hs₄ => ?_
  have hs₃ : st₃.chunk.size = st.chunk.size + c.codeSize + 4 := by
    rw [size_of_op h₃, size_of_jump h₂, hs₁]
  have h₅ := loopBack_meets st.chunk.size sp.line st₄
  rw [show st₄.chunk.size + 1 - st.chunk.size + 2 = c.codeSize + body.codeSize st.depth + 7 by
    rw [hs₄, hs₃]; omega] at h₅
  refine h₅.bind fun _ st₅ h₅ _ _ => ?_
  have h₆ := patch_meets (st₁.chunk.size + 1) sp.line st₅
  rw [show st₅.chunk.size - (st₁.chunk.size + 1) - 2 = body.codeSize st.depth + 4 by
    rw [size_of_loopBack h₅, hs₄, hs₃, hs₁]; omega] at h₆
  refine h₆.bind_quiet fun _ st₆ h₆ _ _ => Meets.last (quiet_op _ _) fun _ _ h₇ => ?_
  rw [size_of_op h₇, size_of_patch h₆, size_of_loopBack h₅, hs₄, hs₃]
  omega

theorem forLoop {x : String} {limit : Expr} {body : Stmt} (hb : body.MeetsDemands)
    (hbw : body.emit.OnlyWrites) (sp : Span) : (Stmt.forLoop x limit body sp).MeetsDemands := by
  intro st hv L N hL hN
  simp only [Stmt.emit, Emit.forLoop, Stmt.demands, Stmt.codeSize, List.append_assoc,
    List.cons_append, List.nil_append]
  refine Meets.step quiet_beginScope fun _ st₀ h₀ _ => ?_
  obtain ⟨-, rfl⟩ := by simpa only [beginScope_run, Except.ok.injEq, Prod.mk.injEq] using h₀
  refine (Expr.emit_meets limit hv.beginScope hL hN).bind fun _ st₁ h₁ hn₁ hs₁ => ?_
  have w₁ := Expr.emit_writes h₁ hv.beginScope
  have h₂ := addLocal_meets limitSlotName sp.line st₁
  rw [show st₁.locals.size = L.length by rw [w₁.locals, ← hL]; simp] at h₂
  refine h₂.bind fun limitSlot st₂ h₂ hn₂ _ => ?_
  obtain ⟨g₂, rfl, rfl⟩ := ((Grows.beginScope hv).andWrites w₁).andAddLocal h₂
  refine (loadConstant_meets _ sp.line _).bind fun _ st₃ h₃ hn₃ _ => ?_
  have w₃ := (Writes.refl g₂.valid).andLoadConstant h₃
  have h₄ := addLocal_meets x sp.line st₃
  rw [show st₃.locals.size = L.length + 1 by simp [w₃.locals, w₁.locals, ← hL]] at h₄
  refine h₄.bind fun counter st₄ h₄ hn₄ _ => ?_
  obtain ⟨g₄, rfl, rfl⟩ := (g₂.andWrites w₃).andAddLocal h₄
  refine Meets.step quiet_offset fun start st₅ h₅ _ => ?_
  obtain ⟨rfl, rfl⟩ := by simpa only [offset_run, Except.ok.injEq, Prod.mk.injEq] using h₅
  refine Meets.step (quiet_opWith _ _ _) fun _ st₆ h₆ hn₆ => ?_
  refine Meets.step (quiet_opWith _ _ _) fun _ st₇ h₇ hn₇ => ?_
  refine Meets.step (quiet_op _ _) fun _ st₈ h₈ hn₈ => ?_
  have w₈ := (((Writes.refl g₄.valid).andOpWith h₆).andOpWith h₇).andOp h₈
  refine Meets.step (quiet_jump _ _) fun p st₉ h₉ hn₉ => ?_
  obtain ⟨w₉, rfl⟩ := w₈.andJump h₉
  refine Meets.step (quiet_op _ _) fun _ st₁₀ h₁₀ hn₁₀ => ?_
  have w₁₀ := w₉.andOp h₁₀
  have hd₁₀ : st₁₀.depth = st.depth + 1 := by simp [w₁₀.depth, w₃.depth, w₁.depth]
  have hn₁₀₁ : st₁₀.names = st₁.names := by
    simp [hn₁₀, hn₉, hn₈, hn₇, hn₆, hn₃, interned]
  have hbody := hb w₁₀.valid
    (L := L ++ [limitSlotName, x]) (by simp [w₁₀.locals, w₃.locals, w₁.locals, hL])
    (by rw [hn₁₀₁, names_after hn₁, hN])
  rw [hd₁₀] at hbody
  refine hbody.bind fun _ st₁₁ h₁₁ _ hs₁₁ => ?_
  have w₁₁ := w₁₀.trans (hbw h₁₁ w₁₀.valid)
  refine Meets.step (quiet_opWith _ _ _) fun _ st₁₂ h₁₂ _ => ?_
  refine (loadConstant_meets _ sp.line _).bind fun _ st₁₃ h₁₃ _ _ => ?_
  refine Meets.step (quiet_op _ _) fun _ st₁₄ h₁₄ _ => ?_
  refine Meets.step (quiet_opWith _ _ _) fun _ st₁₅ h₁₅ _ => ?_
  refine Meets.step (quiet_op _ _) fun _ st₁₆ h₁₆ _ => ?_
  have hstart : st₃.chunk.size = st.chunk.size + limit.codeSize + 2 := by
    rw [size_of_loadConstant h₃, hs₁]
  have hs₈ : st₈.chunk.size = st₃.chunk.size + 5 := by
    simp [size_of_op h₈, size_of_opWith h₇, size_of_opWith h₆]
  have hs₁₀ : st₁₀.chunk.size = st₃.chunk.size + 9 := by
    rw [size_of_op h₁₀, size_of_jump h₉, hs₈]
  have hs₁₆ : st₁₆.chunk.size = st₁₁.chunk.size + 8 := by
    rw [size_of_op h₁₆, size_of_opWith h₁₅, size_of_op h₁₄, size_of_loadConstant h₁₃,
      size_of_opWith h₁₂]
  have h₁₇ := loopBack_meets st₃.chunk.size sp.line st₁₆
  rw [show st₁₆.chunk.size + 1 - st₃.chunk.size + 2 = body.codeSize (st.depth + 1) + 20 by
    rw [hs₁₆, hs₁₁, hs₁₀]; omega] at h₁₇
  refine h₁₇.bind fun _ st₁₇ h₁₇ _ _ => ?_
  have h₁₈ := patch_meets (st₈.chunk.size + 1) sp.line st₁₇
  rw [show st₁₇.chunk.size - (st₈.chunk.size + 1) - 2 = body.codeSize (st.depth + 1) + 12 by
    rw [size_of_loopBack h₁₇, hs₁₆, hs₁₁, hs₁₀, hs₈]; omega] at h₁₈
  refine h₁₈.bind_quiet fun _ st₁₈ h₁₈ _ _ => ?_
  refine Meets.step (quiet_op _ _) fun _ st₁₉ h₁₉ _ => ?_
  have hs₁₉ : st₁₉.chunk.size =
      st.chunk.size + limit.codeSize + body.codeSize (st.depth + 1) + 23 := by
    rw [size_of_op h₁₉, size_of_patch h₁₈, size_of_loopBack h₁₇, hs₁₆, hs₁₁, hs₁₀, hstart]
    omega
  refine Meets.last (quiet_endScope _) fun _ st₂₀ h₂₀ => ?_
  have w₁₉ := (((((((w₁₁.andOpWith h₁₂).andLoadConstant h₁₃).andOp h₁₄).andOpWith h₁₅).andOp
    h₁₆).andLoopBack h₁₇).andPatch (by have := w₈.size; omega) h₁₈).andOp h₁₉
  have hd₁₉ : st₁₉.depth = st.depth + 1 := by simp [w₁₉.depth, w₃.depth, w₁.depth]
  have hl₁₉ : st₁₉.locals =
      st.locals ++ [⟨limitSlotName, st.depth + 1⟩, ⟨x, st.depth + 1⟩].toArray := by
    apply Array.toList_inj.mp
    simp [w₁₉.locals, w₃.locals, w₁.locals, w₃.depth, w₁.depth]
  rw [Emit.endScope_newer hd₁₉ hl₁₉ hv.depth (by simp), Except.ok.injEq, Prod.mk.injEq] at h₂₀
  obtain ⟨-, rfl⟩ := h₂₀
  simp only [Chunk.size, Array.size_append, Array.size_replicate, List.length_cons,
    List.length_nil] at hs₁₉ ⊢
  omega

end Stmt.MeetsDemands

theorem Stmt.MeetsDemandsElse.none : Stmt.MeetsDemandsElse none := by
  intro st _ L N _ _
  refine Meets.last (quiet_pure ()) fun _ _ h => ?_
  obtain ⟨-, rfl⟩ := run_pure_ok.mp h
  rfl

theorem Stmt.MeetsDemandsElse.some {s : Stmt} (hs : s.MeetsDemands) :
    Stmt.MeetsDemandsElse (some s) := by
  intro st hv L N hL hN
  simp only [Stmt.emitElse, Stmt.demandsElse, Stmt.codeSizeElse]
  exact hs hv hL hN

theorem Stmt.MeetsDemandsAll.nil : Stmt.MeetsDemandsAll [] := by
  intro st _ L N hL _
  refine Meets.last (quiet_pure ()) fun _ _ h => ?_
  obtain ⟨-, rfl⟩ := run_pure_ok.mp h
  simp [Stmt.codeSizeAll, hL]

theorem Stmt.MeetsDemandsAll.cons {s : Stmt} {rest : List Stmt} (hs : s.MeetsDemands)
    (hp : s.placed true) (hr : Stmt.MeetsDemandsAll rest) : Stmt.MeetsDemandsAll (s :: rest) := by
  intro st hv L N hL hN
  simp only [Stmt.emitAll, Stmt.demandsAll]
  refine (hs hv hL hN).bind fun _ st₁ h₁ hn₁ hs₁ => ?_
  obtain ⟨g₁, hd₁, hl₁⟩ := Stmt.emit_scope hp h₁ hv
  have hL₁ : st₁.locals.toList.map Local.name = L ++ s.declared st.depth := by
    rw [hl₁, Stmt.map_name_localsAfter, hL]
  have h := hr g₁.valid hL₁ (by rw [names_after hn₁, hN])
  rw [hd₁] at h
  refine h.mono fun _ _ _ h₂ => ?_
  obtain ⟨hs₂, hl₂⟩ := h₂
  exact ⟨by rw [hs₂, hs₁, Stmt.codeSizeAll, Nat.add_assoc],
    by rw [hl₂, List.flatMap_cons, List.append_assoc]⟩

mutual

/-- Compiling a statement meets its demands and writes `codeSize` bytes. -/
theorem Stmt.emit_meets : ∀ (s : Stmt), s.placed true → s.MeetsDemands
  | .expression e sp, _ => Stmt.MeetsDemands.expression e sp
  | .print e sp, _ => Stmt.MeetsDemands.print e sp
  | .declare x ty init sp, _ => Stmt.MeetsDemands.declare x ty init sp
  | .block body sp, hs => by
    have hb : Stmt.allPlaced body := by simpa [Stmt.placed] using hs
    exact Stmt.MeetsDemands.block (Stmt.emitAll_meets body hb) (Stmt.emitAll_declares body hb) sp
  | .ifElse c yes no sp, hs => by
    simp only [Stmt.placed, Bool.and_eq_true] at hs
    exact Stmt.MeetsDemands.ifElse (Stmt.emit_meets yes (Stmt.placed_item hs.1))
      (Stmt.emit_onlyWrites yes hs.1) (Stmt.emitElse_meets no hs.2) sp
  | .whileLoop c body sp, hs => by
    have hb : body.placed false := by simpa [Stmt.placed] using hs
    exact Stmt.MeetsDemands.whileLoop (Stmt.emit_meets body (Stmt.placed_item hb)) sp
  | .forLoop x limit body sp, hs => by
    have hb : body.placed false := by simpa [Stmt.placed] using hs
    exact Stmt.MeetsDemands.forLoop (Stmt.emit_meets body (Stmt.placed_item hb))
      (Stmt.emit_onlyWrites body hb) sp

theorem Stmt.emitElse_meets : ∀ (no : Option Stmt), Stmt.elsePlaced no → Stmt.MeetsDemandsElse no
  | some s, hs => Stmt.MeetsDemandsElse.some
    (Stmt.emit_meets s (Stmt.placed_item (by simpa [Stmt.elsePlaced] using hs)))
  | none, _ => Stmt.MeetsDemandsElse.none

theorem Stmt.emitAll_meets : ∀ (ss : List Stmt), Stmt.allPlaced ss → Stmt.MeetsDemandsAll ss
  | [], _ => Stmt.MeetsDemandsAll.nil
  | s :: rest, hs => by
    simp only [Stmt.allPlaced, Bool.and_eq_true] at hs
    exact Stmt.MeetsDemandsAll.cons (Stmt.emit_meets s hs.1) hs.1 (Stmt.emitAll_meets rest hs.2)

end

/-! ## Programs -/

theorem Chunk.ofProgram_eq (p : Program) :
    ∃ line, Chunk.ofProgram p = match (Stmt.emitAll p.body).run ⟨Chunk.empty, #[], 0, []⟩ with
      | .ok ((), st) => .ok ((st.chunk.write Op.pushNil.byte line).write Op.ret.byte line)
      | .error e => .error e := by
  refine ⟨match p.body.getLast? with
    | some s => s.span.line
    | none => 0, ?_⟩
  simp only [Chunk.ofProgram, run_bind]
  rcases (Stmt.emitAll p.body).run ⟨Chunk.empty, #[], 0, []⟩ with e | ⟨⟨⟩, st⟩ <;> rfl

/-- The statements of a placed program meet the program's demands from the empty state. -/
theorem Program.emit_meets (p : Program) (hp : Stmt.allPlaced p.body) :
    (Stmt.emitAll p.body).Meets ⟨Chunk.empty, #[], 0, []⟩ p.demands fun _ _ => True :=
  (Stmt.emitAll_meets p.body hp valid_empty rfl rfl).mono fun _ _ _ _ => trivial

/-- A placed program fails to compile exactly with the first of its demands over its limit. -/
theorem Chunk.ofProgram_eq_error (p : Program) (hp : Stmt.allPlaced p.body) (e : CompileError) :
    Chunk.ofProgram p = .error e ↔ firstViolation 0 p.demands = some e := by
  have h := Program.emit_meets p hp
  unfold Meets at h
  rw [show (⟨Chunk.empty, #[], 0, []⟩ : Emitter).chunk.constants.size = 0 from rfl] at h
  obtain ⟨line, hc⟩ := Chunk.ofProgram_eq p
  rw [hc]
  rcases hv : firstViolation 0 p.demands with _ | e' <;> rw [hv] at h <;> dsimp only at h
  · obtain ⟨_, st, hrun, -⟩ := h
    rw [hrun]
    simp
  · rw [h]
    simp

/-- A placed program that compiles: the state its statements reach, whose pool holds exactly
the demanded constants and whose table of globals its demands intern, and its chunk, that state's
code with `NIL` and `RETURN` after it. -/
theorem Chunk.ofProgram_ok {p : Program} (hp : Stmt.allPlaced p.body) {c : Chunk}
    (h : Chunk.ofProgram p = .ok c) :
    ∃ st line, (Stmt.emitAll p.body).run ⟨Chunk.empty, #[], 0, []⟩ = .ok ((), st) ∧
      st.chunk.constants = (pool p.demands).toArray ∧ st.names = interned 0 p.demands ∧
      c = (st.chunk.write Op.pushNil.byte line).write Op.ret.byte line := by
  have hm := Program.emit_meets p hp
  unfold Meets at hm
  rw [show (⟨Chunk.empty, #[], 0, []⟩ : Emitter).chunk.constants.size = 0 from rfl] at hm
  obtain ⟨line, hc⟩ := Chunk.ofProgram_eq p
  rw [hc] at h
  rcases hv : firstViolation 0 p.demands with _ | e <;> rw [hv] at hm <;> dsimp only at hm
  · obtain ⟨_, st, hrun, hconst, hnames, -⟩ := hm
    rw [hrun] at h
    cases h
    exact ⟨st, line, hrun, by simpa [Chunk.empty] using hconst, by simpa using hnames, rfl⟩
  · rw [hm] at h
    cases h

/-- A placed program that compiles has exactly its demanded constants in its pool, in order. -/
theorem Chunk.ofProgram_constants {p : Program} (hp : Stmt.allPlaced p.body) {c : Chunk}
    (h : Chunk.ofProgram p = .ok c) : c.constants.toList = pool p.demands := by
  obtain ⟨st, line, -, hconst, -, rfl⟩ := Chunk.ofProgram_ok hp h
  simp [hconst]

/-! ## Each name once -/

namespace Demand

/-- Demands that ask for a name's constant only while the name is unknown, from the names `N`. -/
def Fresh : List String → List Demand → Prop
  | _, [] => True
  | N, name x _ :: ds => x ∉ N ∧ Fresh (x :: N) ds
  | N, constant .. :: ds | N, slot .. :: ds | N, jump .. :: ds => Fresh N ds

theorem fresh_append {N : List String} {ds₁ ds₂ : List Demand} :
    Fresh N (ds₁ ++ ds₂) ↔ Fresh N ds₁ ∧ Fresh (newNames ds₁ ++ N) ds₂ := by
  induction ds₁ generalizing N with
  | nil => simp [Fresh, newNames]
  | cons d ds ih => cases d <;> simp [Fresh, newNames, ih, and_assoc]

theorem Fresh.nodup {N : List String} {ds : List Demand} (h : Fresh N ds) (hN : N.Nodup) :
    (newNames ds ++ N).Nodup := by
  induction ds generalizing N with
  | nil => simpa [newNames] using hN
  | cons d ds ih =>
    cases d <;> simp only [Fresh, newNames] at h ⊢
    case name x line =>
      rw [List.append_assoc, List.singleton_append]
      exact ih h.2 (List.nodup_cons.mpr ⟨h.1, hN⟩)
    all_goals exact ih h hN

theorem fresh_ofName (N : List String) (x : String) (line : Nat) : Fresh N (ofName N x line) := by
  unfold ofName
  split <;> simp [Fresh, *]

theorem fresh_ofAccess (L N : List String) (x : String) (line : Nat) :
    Fresh N (ofAccess L N x line) := by
  unfold ofAccess
  split
  · trivial
  · exact fresh_ofName N x line

end Demand

theorem Expr.fresh_demands (L : List String) (N : List String) (e : Expr) :
    Fresh N (e.demands L N) := by
  induction e generalizing N with
  | number | string | bool | nil => simp [Expr.demands, Fresh]
  | var x s => exact fresh_ofAccess L N x s.line
  | assign x v s ih => simp [Expr.demands, fresh_append, ih, fresh_ofAccess]
  | binary o l r s ihl ihr => simp [Expr.demands, fresh_append, ihl, ihr]
  | unary o e s ih | group e s ih => exact ih N
  | and l r s ihl ihr => simp [Expr.demands, fresh_append, ihl, ihr, Fresh]
  | or l r s ihl ihr => simp [Expr.demands, fresh_append, ihl, ihr, Fresh]

mutual

theorem Stmt.fresh_demands (L : List String) (d : Nat) :
    ∀ (N : List String) (s : Stmt), Fresh N (s.demands L d N)
  | N, .expression e _ | N, .print e _ => Expr.fresh_demands L N e
  | N, .declare x _ init s => by
    have hi : Fresh N ((init.map (Expr.demands L N)).getD []) := by
      cases init with
      | some e => exact Expr.fresh_demands L N e
      | none => trivial
    simp only [Stmt.demands, fresh_append]
    refine ⟨hi, ?_⟩
    split
    · trivial
    · exact fresh_ofName ..
  | N, .block body _ => Stmt.fresh_demandsAll L (d + 1) N body
  | N, .ifElse c yes no s => by
    have hy := Stmt.fresh_demands L d (newNames (c.demands L N) ++ N) yes
    have hn := Stmt.fresh_demandsElse L d
      (newNames (yes.demands L d (newNames (c.demands L N) ++ N)) ++ newNames (c.demands L N) ++ N)
      no
    simp only [List.append_assoc] at hn
    simp [Stmt.demands, fresh_append, Expr.fresh_demands, hy, hn, Fresh]
  | N, .whileLoop c body s => by
    have hb := Stmt.fresh_demands L d (newNames (c.demands L N) ++ N) body
    simp [Stmt.demands, fresh_append, Expr.fresh_demands, hb, Fresh]
  | N, .forLoop x limit body s => by
    have hb := Stmt.fresh_demands (L ++ [limitSlotName, x]) (d + 1)
      (newNames (limit.demands L N) ++ N) body
    simp [Stmt.demands, fresh_append, Expr.fresh_demands, hb, Fresh]

theorem Stmt.fresh_demandsElse (L : List String) (d : Nat) :
    ∀ (N : List String) (no : Option Stmt), Fresh N (Stmt.demandsElse L d N no)
  | N, some s => Stmt.fresh_demands L d N s
  | _, none => trivial

theorem Stmt.fresh_demandsAll (L : List String) (d : Nat) :
    ∀ (N : List String) (ss : List Stmt), Fresh N (Stmt.demandsAll L d N ss)
  | _, [] => trivial
  | N, s :: rest => by
    simp only [Stmt.demandsAll, fresh_append]
    exact ⟨Stmt.fresh_demands L d N s, Stmt.fresh_demandsAll _ d _ rest⟩

end

/-- A program asks for the constant of each global name at most once. -/
theorem Program.nodup_newNames (p : Program) : (newNames p.demands).Nodup := by
  simpa [Program.demands] using (Stmt.fresh_demandsAll [] 0 [] p.body).nodup List.nodup_nil

end StackScript
