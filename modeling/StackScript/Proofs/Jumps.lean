import StackScript.Proofs.Decoding

/-!
# Every jump at its exact distance

A jump's operand is two bytes, and `Chunk.patchU16` keeps only the low sixteen bits of the
distance it is given: the compiler's check against `maxJump` is all that stands between a long
jump and a jump to the wrong place.  This module states what that check buys, from the tree alone.

`Expr.jumps` and `Stmt.jumps` list the jump instructions a node compiles to, each with its
offset, counted from the code sizes of `Stmt.codeSize`, its opcode and the distance to its target.
`Chunk.JumpsAt c js a b` says that reading `c` from `a` to `b` meets exactly the jumps `js`, each
with its distance as operand.  `Emit.Places` is the judgment that ties a compilation step to the
bytes it writes and the jumps among them, with one rule per construct (`Emit.ifElse_places`,
`Emit.whileLoop_places`, `Emit.block_places`, ...), and `Stmt.emit_places` proves it of every
statement.  The compiler's limit check sees the distances of exactly these jumps, each once
(`Program.distances_demands`).

So a compiled program holds exactly the jumps of `Program.jumps`, each at its full distance; a
program with a jump longer than `maxJump` gets no chunk, and when its constants and locals are
within their limits its error is `JUMP_TOO_FAR` with the distance of one of its long jumps
(`Chunk.ofProgram_wellFormed`).
-/

namespace StackScript

/-- A jump instruction of compiled code: its offset, its opcode and how far it goes. -/
structure Jump where
  pos : Nat
  op : Op
  distance : Nat
deriving DecidableEq, Repr

/-- The instructions that jump, with a two-byte distance as operand. -/
def Op.isJump : Op → Bool
  | .jump | .jumpIfFalse | .loop => true
  | _ => false

theorem Op.operandSize_of_isJump {o : Op} (h : o.isJump = true) : o.operandSize = 2 := by
  cases o <;> first | rfl | cases h

/-! ## The jumps of the tree -/

/-- The jumps of an expression's code written from offset `a`: `and` jumps over its right
operand, `or` over a `JUMP` to its right operand and then over it. -/
def Expr.jumps : Expr → Nat → List Jump
  | .assign _ v _, a => v.jumps a
  | .binary _ l r _, a => l.jumps a ++ r.jumps (a + l.codeSize)
  | .unary _ e _, a | .group e _, a => e.jumps a
  | .and l r _, a =>
    l.jumps a ++ ⟨a + l.codeSize, .jumpIfFalse, r.codeSize + 1⟩ :: r.jumps (a + l.codeSize + 4)
  | .or l r _, a =>
    l.jumps a ++ ⟨a + l.codeSize, .jumpIfFalse, 3⟩ ::
      ⟨a + l.codeSize + 3, .jump, r.codeSize + 1⟩ :: r.jumps (a + l.codeSize + 7)
  | _, _ => []

mutual

/-- The jumps of a statement's code written from offset `a` at block depth `d`.  An `if` jumps
from after its condition to its second branch and from the end of its first branch to its end; a
loop jumps from after its test past its end, and from its end back to its test. -/
def Stmt.jumps (d : Nat) : Stmt → Nat → List Jump
  | .expression e _, a | .print e _, a => e.jumps a
  | .declare _ _ init _, a => (init.map fun e => e.jumps a).getD []
  | .block body _, a => Stmt.jumpsAll (d + 1) body a
  | .ifElse c yes no _, a =>
    c.jumps a ++ ⟨a + c.codeSize, .jumpIfFalse, yes.codeSize d + 4⟩ ::
      yes.jumps d (a + c.codeSize + 4) ++
      ⟨a + c.codeSize + 4 + yes.codeSize d, .jump, Stmt.codeSizeElse d no + 1⟩ ::
      Stmt.jumpsElse d no (a + c.codeSize + yes.codeSize d + 8)
  | .whileLoop c body _, a =>
    c.jumps a ++ ⟨a + c.codeSize, .jumpIfFalse, body.codeSize d + 4⟩ ::
      body.jumps d (a + c.codeSize + 4) ++
      [⟨a + c.codeSize + 4 + body.codeSize d, .loop, c.codeSize + body.codeSize d + 7⟩]
  | .forLoop _ limit body _, a =>
    limit.jumps a ++ ⟨a + limit.codeSize + 7, .jumpIfFalse, body.codeSize (d + 1) + 12⟩ ::
      body.jumps (d + 1) (a + limit.codeSize + 11) ++
      [⟨a + limit.codeSize + body.codeSize (d + 1) + 19, .loop, body.codeSize (d + 1) + 20⟩]

/-- The jumps of an `else` branch. -/
def Stmt.jumpsElse (d : Nat) : Option Stmt → Nat → List Jump
  | some s, a => s.jumps d a
  | none, _ => []

/-- The jumps of statements compiled one after the other. -/
def Stmt.jumpsAll (d : Nat) : List Stmt → Nat → List Jump
  | [], _ => []
  | s :: rest, a => s.jumps d a ++ Stmt.jumpsAll d rest (a + s.codeSize d)

end

/-- The jumps of a program's code, from offset `0` at the top. -/
def Program.jumps (p : Program) : List Jump := Stmt.jumpsAll 0 p.body 0

/-! ## The distances the compiler checks -/

namespace Demand

/-- The distance a demand checks, if it is a jump's. -/
def distance? : Demand → Option Nat
  | jump d _ => some d
  | _ => none

/-- The jump distances that demands check, in order. -/
def distances (ds : List Demand) : List Nat := ds.filterMap distance?

@[simp] theorem distances_nil : distances [] = [] := rfl

@[simp] theorem distances_cons (x : Demand) (ds : List Demand) :
    distances (x :: ds) = (distance? x).toList ++ distances ds := by
  cases x <;> rfl

@[simp] theorem distances_append (ds₁ ds₂ : List Demand) :
    distances (ds₁ ++ ds₂) = distances ds₁ ++ distances ds₂ :=
  List.filterMap_append

@[simp] theorem distances_ofName (N : List String) (x : String) (line : Nat) :
    distances (ofName N x line) = [] := by
  unfold ofName
  split <;> rfl

@[simp] theorem distances_ofAccess (L N : List String) (x : String) (line : Nat) :
    distances (ofAccess L N x line) = [] := by
  unfold ofAccess
  split
  · rfl
  · exact distances_ofName N x line

theorem mem_distances {d : Nat} {ds : List Demand} :
    d ∈ distances ds ↔ ∃ line, jump d line ∈ ds := by
  simp only [distances, List.mem_filterMap]
  constructor
  · rintro ⟨x, hx, hd⟩
    cases x <;> simp only [distance?, reduceCtorEq, Option.some.injEq] at hd
    exact ⟨_, hd ▸ hx⟩
  · rintro ⟨line, h⟩
    exact ⟨_, h, rfl⟩

end Demand

open Demand

/-- The compiler checks the distance of every jump of an expression once, and no other. -/
theorem Expr.distances_demands (e : Expr) (L N : List String) (a : Nat) :
    (distances (e.demands L N)).Perm ((e.jumps a).map Jump.distance) := by
  induction e generalizing N a with
  | number | string | bool | nil | var => simp [Expr.demands, Expr.jumps, distance?]
  | assign x v s ih => simpa [Expr.demands, Expr.jumps] using ih N a
  | unary o e s ih | group e s ih => simpa [Expr.demands, Expr.jumps] using ih N a
  | binary o l r s ihl ihr =>
    simpa [Expr.demands, Expr.jumps] using (ihl N a).append (ihr _ (a + l.codeSize))
  | and l r s ihl ihr =>
    rw [List.perm_iff_count]
    intro x
    simp [Expr.demands, Expr.jumps, distance?, List.count_cons, (ihl N a).count_eq,
      (ihr _ (a + l.codeSize + 4)).count_eq]
  | or l r s ihl ihr =>
    rw [List.perm_iff_count]
    intro x
    simp [Expr.demands, Expr.jumps, distance?, List.count_cons, (ihl N a).count_eq,
      (ihr _ (a + l.codeSize + 7)).count_eq]

mutual

/-- The compiler checks the distance of every jump of a statement once, and no other. -/
theorem Stmt.distances_demands : ∀ (s : Stmt) (L : List String) (d : Nat) (N : List String)
    (a : Nat), (distances (s.demands L d N)).Perm ((s.jumps d a).map Jump.distance)
  | .expression e _, L, _, N, a | .print e _, L, _, N, a => by
    simpa [Stmt.demands, Stmt.jumps] using Expr.distances_demands e L N a
  | .declare x ty init sp, L, d, N, a => by
    cases init with
    | some e =>
      have h : distances (if 0 < d then [slot L.length sp.line] else
          ofName (newNames (e.demands L N) ++ N) x sp.line) = [] := by
        split <;> simp [distance?]
      simpa [Stmt.demands, Stmt.jumps, h] using Expr.distances_demands e L N a
    | none => cases Nat.eq_zero_or_pos d <;> simp_all [Stmt.demands, Stmt.jumps, distance?]
  | .block body _, L, d, N, a => by
    simpa [Stmt.demands, Stmt.jumps] using Stmt.distances_demandsAll body L (d + 1) N a
  | .ifElse c yes no sp, L, d, N, a => by
    rw [List.perm_iff_count]
    intro x
    simp [Stmt.demands, Stmt.jumps, distance?, List.count_cons,
      (Expr.distances_demands c L N a).count_eq,
      (Stmt.distances_demands yes L d _ (a + c.codeSize + 4)).count_eq,
      (Stmt.distances_demandsElse no L d _ (a + c.codeSize + yes.codeSize d + 8)).count_eq]
    ac_rfl
  | .whileLoop c body sp, L, d, N, a => by
    rw [List.perm_iff_count]
    intro x
    simp [Stmt.demands, Stmt.jumps, distance?, List.count_cons,
      (Expr.distances_demands c L N a).count_eq,
      (Stmt.distances_demands body L d _ (a + c.codeSize + 4)).count_eq]
    ac_rfl
  | .forLoop y limit body sp, L, d, N, a => by
    rw [List.perm_iff_count]
    intro x
    simp [Stmt.demands, Stmt.jumps, distance?, List.count_cons,
      (Expr.distances_demands limit L N a).count_eq,
      (Stmt.distances_demands body _ (d + 1) _ (a + limit.codeSize + 11)).count_eq]
    ac_rfl

theorem Stmt.distances_demandsElse : ∀ (no : Option Stmt) (L : List String) (d : Nat)
    (N : List String) (a : Nat),
    (distances (Stmt.demandsElse L d N no)).Perm ((Stmt.jumpsElse d no a).map Jump.distance)
  | some s, L, d, N, a => by
    simpa [Stmt.demandsElse, Stmt.jumpsElse] using Stmt.distances_demands s L d N a
  | none, _, _, _, _ => by simp [Stmt.demandsElse, Stmt.jumpsElse]

theorem Stmt.distances_demandsAll : ∀ (ss : List Stmt) (L : List String) (d : Nat)
    (N : List String) (a : Nat),
    (distances (Stmt.demandsAll L d N ss)).Perm ((Stmt.jumpsAll d ss a).map Jump.distance)
  | [], _, _, _, _ => by simp [Stmt.demandsAll, Stmt.jumpsAll]
  | s :: rest, L, d, N, a => by
    simpa [Stmt.demandsAll, Stmt.jumpsAll] using
      (Stmt.distances_demands s L d N a).append (Stmt.distances_demandsAll rest _ d _ _)

end

/-- The distances a program's compilation checks are those of its jumps, each once. -/
theorem Program.distances_demands (p : Program) :
    (distances p.demands).Perm (p.jumps.map Jump.distance) :=
  Stmt.distances_demandsAll p.body [] 0 [] 0

/-! ## Reading the jumps of a chunk -/

namespace Chunk

/-- Reading `c` from `a` lands on `b` and meets exactly the jumps `js`: each where it says, with
its opcode and its distance as operand, and no other. -/
structure JumpsAt (c : Chunk) (js : List Jump) (a b : Nat) : Prop where
  decodes : c.Decodes a b
  listed : ∀ j ∈ js, c.Decodes a j.pos ∧ j.pos < b ∧ c.opAt? j.pos = some j.op ∧
    c.readU16? (j.pos + 1) = some j.distance
  only : ∀ q o, c.Decodes a q → q < b → c.opAt? q = some o → o.isJump → ∃ j ∈ js, j.pos = q

namespace JumpsAt

variable {c : Chunk} {js js₁ js₂ : List Jump} {a b m : Nat}

theorem nil (a : Nat) : c.JumpsAt [] a a :=
  ⟨.refl a, by simp, fun _ _ hq hqa => absurd hq.le (by omega)⟩

theorem append (h₁ : c.JumpsAt js₁ a m) (h₂ : c.JumpsAt js₂ m b) : c.JumpsAt (js₁ ++ js₂) a b := by
  have hm := h₂.decodes.le
  refine ⟨h₁.decodes.trans h₂.decodes, fun j hj => ?_, fun q o hq hqb ho hjmp => ?_⟩
  · rcases List.mem_append.mp hj with hj | hj
    · obtain ⟨hd, hlt, ho, hr⟩ := h₁.listed j hj
      exact ⟨hd, by omega, ho, hr⟩
    · obtain ⟨hd, hlt, ho, hr⟩ := h₂.listed j hj
      exact ⟨h₁.decodes.trans hd, hlt, ho, hr⟩
  · -- reading is deterministic, so an offset past the seam is read from the seam
    by_cases hlt : q < m
    · obtain ⟨j, hj, rfl⟩ := h₁.only q o hq hlt ho hjmp
      exact ⟨j, List.mem_append_left _ hj, rfl⟩
    · obtain ⟨j, hj, rfl⟩ := h₂.only q o (h₁.decodes.tail hq (by omega)) hqb ho hjmp
      exact ⟨j, List.mem_append_right _ hj, rfl⟩

theorem cons {j : Jump} (h₁ : c.JumpsAt [j] a m) (h₂ : c.JumpsAt js m b) :
    c.JumpsAt (j :: js) a b :=
  h₁.append h₂

theorem skip (h₁ : c.JumpsAt [] a m) (h₂ : c.JumpsAt js m b) : c.JumpsAt js a b :=
  h₁.append h₂

theorem plain {o : Op} {v : Nat} (hb : c.byteAt? a = some o.byte)
    (hlast : c.byteAt? (a + o.operandSize) = some v) (hj : o.isJump = false)
    (hend : b = a + 1 + o.operandSize) : c.JumpsAt [] a b := by
  subst hend
  have ho := opAt?_of_byteAt? hb
  have hs := lt_size_of_byteAt? hlast
  refine ⟨.single ho (by omega), by simp, fun q o' hq hqb ho' hj' => ?_⟩
  rw [hq.eq_of_lt ho hqb, ho] at ho'
  cases ho'
  rw [hj] at hj'
  cases hj'

/-- One jump with the distance `d` as its operand. -/
theorem jump {o : Op} {d : Nat} (hb : c.byteAt? a = some o.byte) (hj : o.isJump = true)
    (hd : c.readU16? (a + 1) = some d) : c.JumpsAt [⟨a, o, d⟩] a (a + 3) := by
  have ho := opAt?_of_byteAt? hb
  have hn := Op.operandSize_of_isJump hj
  refine ⟨Decodes.jump hb hn hd, fun j hj => ?_, fun q _ hq hqb _ _ => ?_⟩
  · rw [List.mem_singleton] at hj
    subst hj
    exact ⟨.refl a, by dsimp only; omega, ho, hd⟩
  · exact ⟨_, List.mem_singleton_self _, (hq.eq_of_lt ho (by omega)).symm⟩

theorem pop (hb : c.byteAt? a = some Op.pop.byte) (hab : b = a + 1) : c.JumpsAt [] a b :=
  plain hb hb rfl hab

theorem pops : ∀ {a n : Nat}, (∀ i < n, c.byteAt? (a + i) = some Op.pop.byte) →
    c.JumpsAt [] a (a + n)
  | a, 0, _ => nil a
  | a, n + 1, h => by
    have hb : c.byteAt? a = some Op.pop.byte := h 0 (Nat.succ_pos n)
    have hr : c.JumpsAt [] (a + 1) (a + 1 + n) :=
      pops fun i hi => by rw [Nat.add_assoc, Nat.add_comm 1 i]; exact h (i + 1) (by omega)
    rw [show a + (n + 1) = a + 1 + n by omega]
    exact (pop hb rfl).append hr

end JumpsAt

end Chunk

/-! ## What a compilation step places -/

namespace Emit

open Emitter Chunk

variable {c : Chunk} {d : Nat} {line : Nat}

/-- Every run of `x` from a valid state at block depth `d` keeps what was written before it, ends
at depth `d` and writes `n` bytes; where `c` holds them, reading them meets exactly the jumps `js`
of their start. -/
def Places (c : Chunk) (d n : Nat) (js : Nat → List Jump) (x : Emit Unit) : Prop :=
  ∀ ⦃st st' : Emitter⦄, x.run st = .ok ((), st') → st.Valid → st.depth = d →
    st.Grows st' ∧ st'.depth = d ∧ st'.chunk.size = st.chunk.size + n ∧
      (c.Holds st'.chunk st.chunk.size st'.chunk.size →
        c.JumpsAt (js st.chunk.size) st.chunk.size st'.chunk.size)

variable {x y : Emit Unit} {n n₁ n₂ : Nat} {js j₁ j₂ : Nat → List Jump}

theorem Places.congr {n' : Nat} {js' : Nat → List Jump} (h : x.Places c d n js) (hn : n = n')
    (hj : ∀ a, js a = js' a) : x.Places c d n' js' := by
  intro st st' hr hv hd
  obtain ⟨g, hd', hs, r⟩ := h hr hv hd
  exact ⟨g, hd', hn ▸ hs, fun hc => hj st.chunk.size ▸ r hc⟩

theorem Places.seq (hx : x.Places c d n₁ j₁) (hy : y.Places c d n₂ j₂) :
    (do x; y).Places c d (n₁ + n₂) fun a => j₁ a ++ j₂ (a + n₁) := by
  intro st st' h hv hd
  obtain ⟨_, st₁, h₁, h₂⟩ := run_bind_ok.mp h
  obtain ⟨g₁, d₁, s₁, r₁⟩ := hx h₁ hv hd
  obtain ⟨g₂, d₂, s₂, r₂⟩ := hy h₂ g₁.valid d₁
  refine ⟨g₁.trans g₂, d₂, by omega, fun hc => ?_⟩
  have jx := r₁ (hc.of_grows g₂ (Nat.le_refl _) (by omega))
  have jy := r₂ (hc.mono (by omega) (Nat.le_refl _))
  dsimp only
  rw [← s₁]
  exact jx.append jy

theorem pure_places : (pure () : Emit Unit).Places c d 0 fun _ => [] := by
  intro st st' h hv hd
  obtain ⟨-, rfl⟩ := run_pure_ok.mp h
  exact ⟨(Writes.refl hv).grows, hd, rfl, fun _ => JumpsAt.nil _⟩

theorem op_places {o : Op} (hj : o.isJump = false) (h0 : o.operandSize = 0) :
    (op o line).Places c d 1 fun _ => [] := by
  intro st st' h hv hd
  have w := (Writes.refl hv).andOp h
  have hs := size_of_op h
  refine ⟨w.grows, w.depth.trans hd, hs, fun hc => ?_⟩
  obtain ⟨hb, -⟩ := hc.op h hv (Nat.le_refl _) (by omega)
  exact JumpsAt.plain hb (by simpa [h0] using hb) hj (by rw [hs, h0])

theorem opWith_places {o : Op} {k : Nat} (hj : o.isJump = false) (h1 : o.operandSize = 1) :
    (opWith o k line).Places c d 2 fun _ => [] := by
  intro st st' h hv hd
  have w := (Writes.refl hv).andOpWith h
  have hs := size_of_opWith h
  refine ⟨w.grows, w.depth.trans hd, hs, fun hc => ?_⟩
  obtain ⟨hb, hk, -, -⟩ := hc.opWith h hv (Nat.le_refl _) (by omega)
  exact JumpsAt.plain hb (by rw [h1]; exact hk) hj (by rw [hs, h1])

theorem loadConstant_places {v : Value} : (loadConstant v line).Places c d 2 fun _ => [] := by
  intro st st' h hv hd
  have w := (Writes.refl hv).andLoadConstant h
  have hs := size_of_loadConstant h
  refine ⟨w.grows, w.depth.trans hd, hs, fun hc => ?_⟩
  obtain ⟨k, hb, hk, -⟩ := hc.loadConstant h (Nat.le_refl _) (by omega)
  exact JumpsAt.plain hb hk rfl (by rw [hs]; rfl)

theorem access_places {name : String} {ops : Op × Op}
    (h₁ : ops.1.isJump = false ∧ ops.1.operandSize = 1)
    (h₂ : ops.2.isJump = false ∧ ops.2.operandSize = 1) :
    (access name ops line).Places c d 2 fun _ => [] := by
  intro st st' h hv hd
  obtain ⟨w, hs, -, -, hbytes⟩ := access_writes hv h
  refine ⟨w.grows, w.depth.trans hd, hs, fun hc => ?_⟩
  have hb₀ := hc.byteAt? (Nat.le_refl st.chunk.size) (by omega)
  have hb₁ := hc.byteAt? (Nat.le_succ st.chunk.size) (by omega)
  rcases hbytes with ⟨slot, -, hb, hk⟩ | ⟨-, k, -, hb, hk⟩
  · exact JumpsAt.plain (hb₀.trans hb) (by rw [h₁.2]; exact hb₁.trans hk) h₁.1 (by rw [hs, h₁.2])
  · exact JumpsAt.plain (hb₀.trans hb) (by rw [h₂.2]; exact hb₁.trans hk) h₂.1 (by rw [hs, h₂.2])

theorem addLocal_places {name : String} {f : Nat → Emit Unit}
    (hf : ∀ slot, (f slot).Places c d n js) : (addLocal name line >>= f).Places c d n js := by
  intro st st' h hv hd
  obtain ⟨slot, st₁, h₁, h₂⟩ := run_bind_ok.mp h
  obtain ⟨g₁, -, rfl⟩ := (Writes.refl hv).grows.andAddLocal h₁
  obtain ⟨g₂, d₂, s₂, r₂⟩ := hf slot h₂ g₁.valid hd
  exact ⟨g₁.trans g₂, d₂, s₂, r₂⟩

theorem declare_places {name : String} {init : Option (Emit Unit)}
    (hi : (init.getD (op .pushNil line)).Places c d n js) :
    (declare name init line).Places c d (n + if 0 < d then 0 else 2) js := by
  intro st st' h hv hd
  obtain ⟨_, st₁, h₁, _, st₂, h₂, h₃⟩ := by simpa only [declare, run_bind_ok] using h
  obtain ⟨g₁, d₁, s₁, r₁⟩ := hi h₁ hv hd
  obtain ⟨rfl, rfl⟩ : st₁ = _ ∧ st₁ = st₂ := by
    simpa only [StateT.run_get, Pure.pure, Except.pure, Except.ok.injEq, Prod.mk.injEq] using h₂
  by_cases hpos : 0 < d
  · obtain ⟨slot, st₃, h₄, h₅⟩ := by simpa only [d₁, hpos, ↓reduceIte, run_bind_ok] using h₃
    obtain ⟨-, rfl⟩ := run_pure_ok.mp h₅
    obtain ⟨g, -, rfl⟩ := g₁.andAddLocal h₄
    refine ⟨g, d₁, by simp [s₁, hpos], fun hc => ?_⟩
    simpa [hpos] using r₁ hc
  · obtain ⟨k, st₃, h₄, h₅⟩ := by simpa only [d₁, hpos, ↓reduceIte, run_bind_ok] using h₃
    obtain ⟨w₃, hcode, -, -⟩ := nameConstant_writes g₁.valid h₄
    have w := w₃.andOpWith h₅
    have s₃ : st₃.chunk.size = st₁.chunk.size := by simp [Chunk.size, hcode]
    have s' := size_of_opWith h₅
    refine ⟨g₁.andWrites w, by rw [w.depth, d₁], by simp [s', s₃, s₁, hpos]; omega, fun hc => ?_⟩
    obtain ⟨hb, hkb, -, -⟩ := hc.opWith h₅ w₃.valid (by omega) (by omega)
    rw [s₃] at hb hkb
    have jd : c.JumpsAt [] st₁.chunk.size st'.chunk.size :=
      JumpsAt.plain hb hkb rfl (by rw [s', s₃]; rfl)
    simpa using (r₁ (hc.of_grows w.grows (by omega) (by omega))).append jd

/-- A block: its body one level deeper, then the `POP`s of its locals, which do not jump. -/
theorem block_places {body : Emit Unit} {m : Nat} (hb : body.Places c (d + 1) n js)
    (hw : (block body line).OnlyWrites)
    (hsize : ∀ ⦃st st' : Emitter⦄, (block body line).run st = .ok ((), st') → st.Valid →
      st.depth = d → st'.chunk.size = st.chunk.size + m) :
    (block body line).Places c d m js := by
  intro st st' h hv hd
  have w := hw h hv
  have hs := hsize h hv hd
  obtain ⟨_, st₁, h₁, _, st₂, h₂, h₃⟩ := by simpa only [block, run_bind_ok] using h
  obtain ⟨-, rfl⟩ := by simpa only [beginScope_run, Except.ok.injEq, Prod.mk.injEq] using h₁
  obtain ⟨g₂, -, s₂, r₂⟩ := hb h₂ hv.beginScope (by simp [hd])
  replace s₂ : st₂.chunk.size = st.chunk.size + n := s₂
  obtain ⟨k, sk, hk, -, hpop⟩ := endScope_pops h₃ g₂.valid
  refine ⟨w.grows, w.depth.trans hd, hs, fun hc => ?_⟩
  have jb := r₂ (hc.trans (hk.mono (Nat.zero_le _) (Nat.le_refl _)) (Nat.le_refl _) (by omega))
  have jp : c.JumpsAt [] st₂.chunk.size st'.chunk.size := by
    rw [sk]
    exact JumpsAt.pops fun i hi => by
      rw [hc.byteAt? (by omega) (by omega)]
      exact hpop i hi
  simpa using jb.append jp

/-- `if`: the condition, `JUMP_IF_FALSE` over the first branch and the `JUMP` after it, `POP`,
the first branch, `JUMP` over the second branch, `POP`, the second branch. -/
theorem ifElse_places {cond yes no : Emit Unit} {nc ny nn : Nat} {jc jy jn : Nat → List Jump}
    (hc : cond.Places c d nc jc) (hy : yes.Places c d ny jy) (hn : no.Places c d nn jn) :
    (ifElse cond yes no line).Places c d (nc + ny + nn + 8) fun a =>
      jc a ++ ⟨a + nc, .jumpIfFalse, ny + 4⟩ :: jy (a + nc + 4) ++
        ⟨a + nc + 4 + ny, .jump, nn + 1⟩ :: jn (a + nc + ny + 8) := by
  intro st st' h hv hd
  obtain ⟨_, st₁, h₁, p, st₂, h₂, _, st₃, h₃, _, st₄, h₄, q, st₅, h₅, _, st₆, h₆, _, st₇, h₇,
    _, st₈, h₈, h₉⟩ := by simpa only [ifElse, run_bind_ok] using h
  obtain ⟨g₁, d₁, s₁, r₁⟩ := hc h₁ hv hd
  obtain ⟨w₂, rfl⟩ := (Writes.refl g₁.valid).andJump h₂
  have w₃ := (Writes.refl w₂.valid).andOp h₃
  obtain ⟨g₄, d₄, s₄, r₄⟩ := hy h₄ w₃.valid (by rw [w₃.depth, w₂.depth, d₁])
  obtain ⟨w₅, rfl⟩ := (Writes.refl g₄.valid).andJump h₅
  have g₆ : st₁.Grows st₆ :=
    (((w₂.trans w₃).grows.trans g₄).andWrites w₅).andPatch (Nat.le_succ _) h₆
  have w₇ := (Writes.refl g₆.valid).andOp h₇
  have e₆ : st₆.depth = st₅.depth := by obtain ⟨-, rfl⟩ := patch_ok.mp h₆; rfl
  obtain ⟨g₈, d₈, s₈, r₈⟩ := hn h₈ w₇.valid (by rw [w₇.depth, e₆, w₅.depth, d₄])
  have e₉ : st'.depth = st₈.depth := by obtain ⟨-, rfl⟩ := patch_ok.mp h₉; rfl
  have s₂ := size_of_jump h₂
  have s₃ := size_of_op h₃
  have s₅ := size_of_jump h₅
  have s₆ := size_of_patch h₆
  have s₇ := size_of_op h₇
  have s₉ := size_of_patch h₉
  refine ⟨g₁.trans (((g₆.andWrites w₇).trans g₈).andPatch (by omega) h₉), e₉.trans d₈,
    by omega, fun hcode => ?_⟩
  have hA : c.Holds st₆.chunk st.chunk.size (st₄.chunk.size + 1) :=
    ((hcode.mono (Nat.le_refl _) (by omega)).of_patch h₉ (.inl (Nat.le_refl _))).of_grows
      (w₇.grows.trans g₈) (by omega) (Nat.le_refl _)
  have hB : c.Holds st₈.chunk (st₄.chunk.size + 3) st₈.chunk.size :=
    (hcode.mono (by omega) (by omega)).of_patch h₉ (.inr (Nat.le_refl _))
  have hL : c.Holds st₄.chunk st.chunk.size (st₁.chunk.size + 1) :=
    ((hA.mono (Nat.le_refl _) (by omega)).of_patch h₆ (.inl (Nat.le_refl _))).of_writes w₅
      (by omega) (Nat.le_refl _)
  have hM : c.Holds st₅.chunk (st₁.chunk.size + 3) (st₄.chunk.size + 1) :=
    (hA.mono (by omega) (Nat.le_refl _)).of_patch h₆ (.inr (Nat.le_refl _))
  have jn' := r₈ (hB.mono (by omega) (Nat.le_refl _))
  obtain ⟨hqb, -⟩ := ((hB.mono (by omega) (Nat.le_refl _)).of_grows g₈ (Nat.le_refl _)
    (by omega)).op h₇ g₆.valid (Nat.le_refl _) (by omega)
  obtain ⟨hkb, -, hkd⟩ := jump_patched h₅ g₄.valid (hM.mono (by omega) (Nat.le_refl _)) h₉
    (by omega) (hcode.mono (by omega) (by omega))
  have hM₄ : c.Holds st₄.chunk st₂.chunk.size st₄.chunk.size :=
    (hM.of_writes w₅ (Nat.le_refl _) (by omega)).mono (by omega) (Nat.le_refl _)
  have jy' := r₄ (hM₄.mono (by omega) (Nat.le_refl _))
  obtain ⟨hpb, -⟩ := (hM₄.of_grows g₄ (Nat.le_refl _) (by omega)).op h₃ w₂.valid (Nat.le_refl _)
    (by omega)
  obtain ⟨hjb, -, hjd⟩ := jump_patched h₂ g₁.valid (((hL.mono (by omega) (Nat.le_refl _)).of_grows
    g₄ (by omega) (Nat.le_refl _)).of_writes w₃ (by omega) (Nat.le_refl _)) h₆ (by omega)
    (hA.mono (by omega) (by omega))
  have jc' := r₁ ((hL.of_grows g₄ (by omega) (Nat.le_refl _)).of_writes (w₂.trans w₃)
    (by omega) (by omega))
  have jp : c.JumpsAt [] (st₁.chunk.size + 3) st₃.chunk.size :=
    JumpsAt.pop (by rw [← s₂]; exact hpb) (by omega)
  have jq : c.JumpsAt [] (st₄.chunk.size + 3) st₇.chunk.size :=
    JumpsAt.pop (by rw [← s₅, ← s₆]; exact hqb) (by omega)
  dsimp only
  rw [show st.chunk.size + nc + 4 + ny = st₄.chunk.size by omega,
    show st.chunk.size + nc + ny + 8 = st₇.chunk.size by omega,
    show st.chunk.size + nc + 4 = st₃.chunk.size by omega,
    show st.chunk.size + nc = st₁.chunk.size by omega,
    show ny + 4 = st₅.chunk.size - (st₁.chunk.size + 3) by omega,
    show nn + 1 = st₈.chunk.size - (st₄.chunk.size + 3) by omega, s₉]
  exact (jc'.append ((JumpsAt.jump hjb rfl hjd).cons (jp.skip jy'))).append
    ((JumpsAt.jump hkb rfl hkd).cons (jq.skip jn'))

/-- `while`: the condition, `JUMP_IF_FALSE` past the loop, `POP`, the body, `LOOP` back to the
condition, `POP`. -/
theorem whileLoop_places {cond body : Emit Unit} {nc nb : Nat} {jc jb : Nat → List Jump}
    (hc : cond.Places c d nc jc) (hb : body.Places c d nb jb) :
    (whileLoop cond body line).Places c d (nc + nb + 8) fun a =>
      jc a ++ ⟨a + nc, .jumpIfFalse, nb + 4⟩ :: jb (a + nc + 4) ++
        [⟨a + nc + 4 + nb, .loop, nc + nb + 7⟩] := by
  intro st st' h hv hd
  obtain ⟨start, st₀, h₀, _, st₁, h₁, p, st₂, h₂, _, st₃, h₃, _, st₄, h₄, _, st₅, h₅, _, st₆, h₆,
    h₇⟩ := by simpa only [whileLoop, run_bind_ok] using h
  obtain ⟨rfl, rfl⟩ := by simpa only [offset_run, Except.ok.injEq, Prod.mk.injEq] using h₀
  obtain ⟨g₁, d₁, s₁, r₁⟩ := hc h₁ hv hd
  obtain ⟨w₂, rfl⟩ := (Writes.refl g₁.valid).andJump h₂
  have w₃ := (Writes.refl w₂.valid).andOp h₃
  obtain ⟨g₄, d₄, s₄, r₄⟩ := hb h₄ w₃.valid (by rw [w₃.depth, w₂.depth, d₁])
  have w₅ := (Writes.refl g₄.valid).andLoopBack h₅
  have g₆ : st₁.Grows st₆ :=
    (((w₂.trans w₃).grows.trans g₄).andWrites w₅).andPatch (Nat.le_succ _) h₆
  have w₇ := (Writes.refl g₆.valid).andOp h₇
  have e₆ : st₆.depth = st₅.depth := by obtain ⟨-, rfl⟩ := patch_ok.mp h₆; rfl
  have s₂ := size_of_jump h₂
  have s₃ := size_of_op h₃
  have s₅ := size_of_loopBack h₅
  have s₆ := size_of_patch h₆
  have s₇ := size_of_op h₇
  refine ⟨g₁.trans (g₆.andWrites w₇), by rw [w₇.depth, e₆, w₅.depth, d₄], by omega,
    fun hcode => ?_⟩
  have hA : c.Holds st₆.chunk st.chunk.size st₆.chunk.size :=
    hcode.of_writes w₇ (Nat.le_refl _) (by omega)
  have hL : c.Holds st₄.chunk st.chunk.size (st₁.chunk.size + 1) :=
    ((hA.mono (Nat.le_refl _) (by omega)).of_patch h₆ (.inl (Nat.le_refl _))).of_writes w₅
      (by omega) (Nat.le_refl _)
  have hR : c.Holds st₅.chunk (st₁.chunk.size + 3) st₅.chunk.size :=
    (hA.mono (by omega) (by omega)).of_patch h₆ (.inr (Nat.le_refl _))
  have hR₄ : c.Holds st₄.chunk st₂.chunk.size st₄.chunk.size :=
    (hR.of_writes w₅ (Nat.le_refl _) (by omega)).mono (by omega) (Nat.le_refl _)
  obtain ⟨hqb, -⟩ := hcode.op h₇ g₆.valid (by omega) (by omega)
  obtain ⟨hlb, -, hld⟩ := loop_written h₅ (hR.mono (by omega) (Nat.le_refl _)) (by omega)
  have jb' := r₄ (hR₄.mono (by omega) (Nat.le_refl _))
  obtain ⟨hpb, -⟩ := (hR₄.of_grows g₄ (Nat.le_refl _) (by omega)).op h₃ w₂.valid (Nat.le_refl _)
    (by omega)
  obtain ⟨hjb, -, hjd⟩ := jump_patched h₂ g₁.valid (((hL.mono (by omega) (Nat.le_refl _)).of_grows
    g₄ (by omega) (Nat.le_refl _)).of_writes w₃ (by omega) (Nat.le_refl _)) h₆ (by omega)
    (hA.mono (by omega) (by omega))
  have jc' := r₁ ((hL.of_grows g₄ (by omega) (Nat.le_refl _)).of_writes (w₂.trans w₃)
    (by omega) (by omega))
  have jp : c.JumpsAt [] (st₁.chunk.size + 3) st₃.chunk.size :=
    JumpsAt.pop (by rw [← s₂]; exact hpb) (by omega)
  have jq : c.JumpsAt [] (st₄.chunk.size + 3) st'.chunk.size :=
    JumpsAt.pop (by rw [← s₅, ← s₆]; exact hqb) (by omega)
  dsimp only
  rw [show st.chunk.size + nc + 4 + nb = st₄.chunk.size by omega,
    show st.chunk.size + nc + 4 = st₃.chunk.size by omega,
    show st.chunk.size + nc = st₁.chunk.size by omega,
    show nb + 4 = st₅.chunk.size - (st₁.chunk.size + 3) by omega,
    show nc + nb + 7 = st₄.chunk.size + 3 - st.chunk.size by omega]
  exact (jc'.append ((JumpsAt.jump hjb rfl hjd).cons (jp.skip jb'))).append
    ((JumpsAt.jump hlb rfl hld).cons jq)

/-- The inside of a `for` loop: the limit, `CONSTANT 0` for the counter, then a `while` loop whose
five-byte test compares the two locals and whose step adds eight bytes after the body. -/
theorem forBody_places {name : String} {limit body : Emit Unit} {nl nb : Nat}
    {jl jb : Nat → List Jump} (hl : limit.Places c d nl jl) (hb : body.Places c d nb jb) :
    (forBody name limit body line).Places c d (nl + nb + 23) fun a =>
      jl a ++ ⟨a + nl + 7, .jumpIfFalse, nb + 12⟩ :: jb (a + nl + 11) ++
        [⟨a + nl + nb + 19, .loop, nb + 20⟩] := by
  have htest : ∀ counter limitSlot : Nat, (do
      opWith .getLocal counter line
      opWith .getLocal limitSlot line
      op .less line : Emit Unit).Places c d 5 fun _ => [] := fun _ _ =>
    ((opWith_places rfl rfl).seq ((opWith_places rfl rfl).seq (op_places rfl rfl))).congr rfl
      fun _ => rfl
  have hstep : ∀ counter : Nat, (do
      body
      opWith .getLocal counter line
      loadConstant (.number 1) line
      op .add line
      opWith .setLocal counter line
      op .pop line : Emit Unit).Places c d (nb + 8) jb := fun _ =>
    (hb.seq ((opWith_places rfl rfl).seq (loadConstant_places.seq ((op_places rfl rfl).seq
      ((opWith_places rfl rfl).seq (op_places rfl rfl)))))).congr rfl fun _ => by simp
  unfold forBody
  refine (hl.seq (addLocal_places fun limitSlot => loadConstant_places.seq
    (addLocal_places fun counter =>
      whileLoop_places (htest counter limitSlot) (hstep counter)))).congr (by omega) fun a => ?_
  simp only [List.nil_append, List.append_assoc, List.cons_append]
  ring_nf

end Emit

/-! ## Expressions -/

open Emit Emitter Chunk

variable {c : Chunk} {d : Nat}

/-- `and`: the left operand, `JUMP_IF_FALSE` past the right operand, `POP`, the right operand. -/
theorem Expr.and_places {l r : Expr} {s : Span} {nl nr : Nat} {jl jr : Nat → List Jump}
    (hl : l.emit.Places c d nl jl) (hr : r.emit.Places c d nr jr) :
    (Expr.and l r s).emit.Places c d (nl + nr + 4) fun a =>
      jl a ++ ⟨a + nl, .jumpIfFalse, nr + 1⟩ :: jr (a + nl + 4) := by
  intro st st' h hv hd
  obtain ⟨_, st₁, h₁, p, st₂, h₂, _, st₃, h₃, _, st₄, h₄, h₅⟩ := by
    simpa only [Expr.emit, run_bind_ok] using h
  obtain ⟨g₁, d₁, s₁, r₁⟩ := hl h₁ hv hd
  obtain ⟨w₂, rfl⟩ := (Writes.refl g₁.valid).andJump h₂
  have w₃ := (Writes.refl w₂.valid).andOp h₃
  obtain ⟨g₄, d₄, s₄, r₄⟩ := hr h₄ w₃.valid (by rw [w₃.depth, w₂.depth, d₁])
  have e₅ : st'.depth = st₄.depth := by obtain ⟨-, rfl⟩ := patch_ok.mp h₅; rfl
  have s₂ := size_of_jump h₂
  have s₃ := size_of_op h₃
  have s₅ := size_of_patch h₅
  refine ⟨g₁.trans (((w₂.trans w₃).grows.trans g₄).andPatch (Nat.le_succ _) h₅), e₅.trans d₄,
    by omega, fun hc => ?_⟩
  have hA : c.Holds st₃.chunk st.chunk.size (st₁.chunk.size + 1) :=
    ((hc.mono (Nat.le_refl _) (by omega)).of_patch h₅ (.inl (Nat.le_refl _))).of_grows g₄
      (by omega) (Nat.le_refl _)
  have hB : c.Holds st₄.chunk (st₁.chunk.size + 3) st₄.chunk.size :=
    (hc.mono (by omega) (by omega)).of_patch h₅ (.inr (Nat.le_refl _))
  have jr' := r₄ (hB.mono (by omega) (Nat.le_refl _))
  obtain ⟨hpb, -⟩ := ((hB.mono (by omega) (Nat.le_refl _)).of_grows g₄ (Nat.le_refl _)
    (by omega)).op h₃ w₂.valid (Nat.le_refl _) (by omega)
  obtain ⟨hjb, -, hjd⟩ := jump_patched h₂ g₁.valid ((hA.mono (by omega) (Nat.le_refl _)).of_writes
    w₃ (by omega) (Nat.le_refl _)) h₅ (by omega) (hc.mono (by omega) (by omega))
  have jl' := r₁ (hA.of_writes (w₂.trans w₃) (by omega) (by omega))
  have jp : c.JumpsAt [] (st₁.chunk.size + 3) st₃.chunk.size :=
    JumpsAt.pop (by rw [← s₂]; exact hpb) (by omega)
  dsimp only
  rw [show st.chunk.size + nl + 4 = st₃.chunk.size by omega,
    show st.chunk.size + nl = st₁.chunk.size by omega,
    show nr + 1 = st₄.chunk.size - (st₁.chunk.size + 3) by omega, s₅]
  exact jl'.append ((JumpsAt.jump hjb rfl hjd).cons (jp.skip jr'))

/-- `or`: the left operand, `JUMP_IF_FALSE` over the next jump, `JUMP` past the right operand,
`POP`, the right operand. -/
theorem Expr.or_places {l r : Expr} {s : Span} {nl nr : Nat} {jl jr : Nat → List Jump}
    (hl : l.emit.Places c d nl jl) (hr : r.emit.Places c d nr jr) :
    (Expr.or l r s).emit.Places c d (nl + nr + 7) fun a =>
      jl a ++ ⟨a + nl, .jumpIfFalse, 3⟩ :: ⟨a + nl + 3, .jump, nr + 1⟩ :: jr (a + nl + 7) := by
  intro st st' h hv hd
  obtain ⟨_, st₁, h₁, p, st₂, h₂, q, st₃, h₃, _, st₄, h₄, _, st₅, h₅, _, st₆, h₆, h₇⟩ := by
    simpa only [Expr.emit, run_bind_ok] using h
  obtain ⟨g₁, d₁, s₁, r₁⟩ := hl h₁ hv hd
  obtain ⟨w₂, rfl⟩ := (Writes.refl g₁.valid).andJump h₂
  obtain ⟨w₃, rfl⟩ := (Writes.refl w₂.valid).andJump h₃
  have w₄ := (w₂.trans w₃).andPatch (Nat.le_succ _) h₄
  have w₅ := (Writes.refl w₄.valid).andOp h₅
  obtain ⟨g₆, d₆, s₆, r₆⟩ := hr h₆ w₅.valid (by rw [w₅.depth, w₄.depth, d₁])
  have e₇ : st'.depth = st₆.depth := by obtain ⟨-, rfl⟩ := patch_ok.mp h₇; rfl
  have s₂ := size_of_jump h₂
  have s₃ := size_of_jump h₃
  have s₄ := size_of_patch h₄
  have s₅ := size_of_op h₅
  have s₇ := size_of_patch h₇
  refine ⟨g₁.trans ((((w₄.trans w₅).grows).trans g₆).andPatch (by omega) h₇), e₇.trans d₆,
    by omega, fun hc => ?_⟩
  have hA : c.Holds st₄.chunk st.chunk.size (st₂.chunk.size + 1) :=
    (((hc.mono (Nat.le_refl _) (by omega)).of_patch h₇ (.inl (Nat.le_refl _))).of_grows g₆
      (by omega) (Nat.le_refl _)).of_writes w₅ (by omega) (Nat.le_refl _)
  have hB : c.Holds st₆.chunk (st₂.chunk.size + 3) st₆.chunk.size :=
    (hc.mono (by omega) (by omega)).of_patch h₇ (.inr (Nat.le_refl _))
  have hL : c.Holds st₃.chunk st.chunk.size (st₁.chunk.size + 1) :=
    (hA.mono (Nat.le_refl _) (by omega)).of_patch h₄ (.inl (Nat.le_refl _))
  have jr' := r₆ (hB.mono (by omega) (Nat.le_refl _))
  obtain ⟨hpb, -⟩ := ((hB.mono (by omega) (Nat.le_refl _)).of_grows g₆ (Nat.le_refl _)
    (by omega)).op h₅ w₄.valid (Nat.le_refl _) (by omega)
  obtain ⟨hkb, -, hkd⟩ := jump_patched h₃ w₂.valid ((hA.mono (by omega) (Nat.le_refl _)).of_patch
    h₄ (.inr (by omega))) h₇ (by omega) (hc.mono (by omega) (by omega))
  obtain ⟨hjb, -, hjd⟩ := jump_patched h₂ g₁.valid ((hL.mono (by omega) (Nat.le_refl _)).of_writes
    w₃ (by omega) (Nat.le_refl _)) h₄ (by omega) (hA.mono (by omega) (by omega))
  have jl' := r₁ (hL.of_writes (w₂.trans w₃) (by omega) (by omega))
  -- the first jump lands on the `POP`, right after the second
  have hjd' : c.readU16? (st₁.chunk.size + 1) = some 3 := by
    rw [hjd]
    congr 1
    omega
  have jp : c.JumpsAt [] (st₂.chunk.size + 3) st₅.chunk.size :=
    JumpsAt.pop (by rw [← s₃, ← s₄]; exact hpb) (by omega)
  rw [s₂] at hkb hkd jp
  dsimp only
  rw [show st.chunk.size + nl + 7 = st₅.chunk.size by omega,
    show st.chunk.size + nl = st₁.chunk.size by omega,
    show nr + 1 = st₆.chunk.size - (st₁.chunk.size + 3 + 3) by omega, s₇]
  exact jl'.append ((JumpsAt.jump hjb rfl hjd').cons ((JumpsAt.jump hkb rfl hkd).cons
    (jp.skip jr')))

/-- The code of an expression, at any block depth, writes `codeSize` bytes and holds exactly the
jumps of `Expr.jumps`. -/
theorem Expr.emit_places (e : Expr) (d : Nat) : e.emit.Places c d e.codeSize e.jumps := by
  induction e with
  | number x s => exact loadConstant_places
  | string v s => exact loadConstant_places
  | bool b s => cases b <;> exact op_places rfl rfl
  | nil s => exact op_places rfl rfl
  | var n s => exact access_places ⟨rfl, rfl⟩ ⟨rfl, rfl⟩
  | assign n v s ih =>
    exact (ih.seq (access_places ⟨rfl, rfl⟩ ⟨rfl, rfl⟩)).congr rfl fun a => by simp [Expr.jumps]
  | binary o l r s ihl ihr =>
    rw [Expr.emit_binary]
    have hop : (op o.instr s.line).Places c d 1 fun _ => [] :=
      op_places (by cases o <;> rfl) (by cases o <;> rfl)
    cases hn : o.negated
    · simp only [Bool.false_eq_true, ↓reduceIte]
      exact (ihl.seq (ihr.seq (hop.seq pure_places))).congr
        (by simp [Expr.codeSize, hn]; omega) fun a => by simp [Expr.jumps]
    · simp only [↓reduceIte]
      exact (ihl.seq (ihr.seq (hop.seq (op_places rfl rfl)))).congr
        (by simp [Expr.codeSize, hn]; omega) fun a => by simp [Expr.jumps]
  | unary o e s ih =>
    rw [Expr.emit_unary]
    exact (ih.seq (op_places (by cases o <;> rfl) (by cases o <;> rfl))).congr rfl
      fun a => by simp [Expr.jumps]
  | and l r s ihl ihr => exact Expr.and_places ihl ihr
  | or l r s ihl ihr => exact Expr.or_places ihl ihr
  | group e s ih => exact ih

/-! ## Statements -/

theorem Emit.Meets.post {α : Type} {x : Emit α} {st : Emitter} {ds : List Demand}
    {P : α → Emitter → Prop} (h : x.Meets st ds P) {a : α} {st' : Emitter}
    (hr : x.run st = .ok (a, st')) : P a st' := by
  unfold Meets at h
  split at h
  · rw [hr] at h
    cases h
  · obtain ⟨a', st'', hr', -, -, hp⟩ := h
    rw [hr] at hr'
    cases hr'
    exact hp

/-- A statement compiled at block depth `d` writes `codeSize d` bytes. -/
theorem Stmt.emit_size {s : Stmt} (hs : s.placed true) {st st' : Emitter}
    (h : s.emit.run st = .ok ((), st')) (hv : st.Valid) :
    st'.chunk.size = st.chunk.size + s.codeSize st.depth :=
  (Stmt.emit_meets s hs hv rfl rfl).post h

mutual

/-- Every statement compiles to exactly the jumps `Stmt.jumps` lists, at their full distances. -/
theorem Stmt.emit_places : ∀ (s : Stmt), s.placed true → ∀ d,
    s.emit.Places c d (s.codeSize d) (s.jumps d)
  | .expression e sp, _, d | .print e sp, _, d => by
    rw [Stmt.emit]
    exact ((Expr.emit_places e d).seq (op_places rfl rfl)).congr (by rw [Stmt.codeSize])
      fun a => by simp [Stmt.jumps]
  | .declare x ty init sp, _, d => by
    rw [Stmt.emit]
    cases init with
    | some e =>
      exact (declare_places (Expr.emit_places e d)).congr (by simp [Stmt.codeSize])
        fun a => by simp [Stmt.jumps]
    | none =>
      exact (declare_places (op_places rfl rfl)).congr (by simp [Stmt.codeSize])
        fun a => by simp [Stmt.jumps]
  | .block body sp, hs, d => by
    have hb : Stmt.allPlaced body := by simpa [Stmt.placed] using hs
    rw [Stmt.emit]
    refine (block_places (Stmt.emitAll_places body hb (d + 1))
      (block_onlyWrites (Stmt.emitAll_declares body hb)) fun st st' h hv hd => ?_).congr rfl
      fun a => by rw [Stmt.jumps]
    rw [← hd]
    exact Stmt.emit_size hs (by rw [Stmt.emit]; exact h) hv
  | .ifElse cnd yes no sp, hs, d => by
    simp only [Stmt.placed, Bool.and_eq_true] at hs
    rw [Stmt.emit]
    exact (ifElse_places (Expr.emit_places cnd d) (Stmt.emit_places yes (Stmt.placed_item hs.1) d)
      (Stmt.emitElse_places no hs.2 d)).congr (by rw [Stmt.codeSize]) fun a => by rw [Stmt.jumps]
  | .whileLoop cnd body sp, hs, d => by
    have hb : body.placed false := by simpa [Stmt.placed] using hs
    rw [Stmt.emit]
    exact (whileLoop_places (Expr.emit_places cnd d)
      (Stmt.emit_places body (Stmt.placed_item hb) d)).congr (by rw [Stmt.codeSize])
      fun a => by rw [Stmt.jumps]
  | .forLoop x limit body sp, hs, d => by
    have hb : body.placed false := by simpa [Stmt.placed] using hs
    have hw : (Emit.forLoop x limit.emit body.emit sp.line).OnlyWrites :=
      forLoop_onlyWrites (fun _ _ h hv => Expr.emit_writes h hv) (Stmt.emit_onlyWrites body hb)
    rw [Stmt.emit, forLoop_eq]
    rw [forLoop_eq] at hw
    refine (block_places (forBody_places (Expr.emit_places limit (d + 1))
      (Stmt.emit_places body (Stmt.placed_item hb) (d + 1))) hw
      fun st st' h hv hd => ?_).congr rfl fun a => by rw [Stmt.jumps]
    rw [← hd]
    exact Stmt.emit_size hs (by rw [Stmt.emit, forLoop_eq]; exact h) hv

theorem Stmt.emitElse_places : ∀ (no : Option Stmt), Stmt.elsePlaced no → ∀ d,
    (Stmt.emitElse no).Places c d (Stmt.codeSizeElse d no) (Stmt.jumpsElse d no)
  | some s, hs, d => by
    rw [Stmt.emitElse]
    exact (Stmt.emit_places s (Stmt.placed_item (by simpa [Stmt.elsePlaced] using hs)) d).congr
      (by rw [Stmt.codeSizeElse]) fun a => by rw [Stmt.jumpsElse]
  | none, _, d => by
    rw [Stmt.emitElse]
    exact pure_places.congr (by rw [Stmt.codeSizeElse]) fun a => by rw [Stmt.jumpsElse]

theorem Stmt.emitAll_places : ∀ (ss : List Stmt), Stmt.allPlaced ss → ∀ d,
    (Stmt.emitAll ss).Places c d (Stmt.codeSizeAll d ss) (Stmt.jumpsAll d ss)
  | [], _, d => by
    rw [Stmt.emitAll]
    exact pure_places.congr (by rw [Stmt.codeSizeAll]) fun a => by rw [Stmt.jumpsAll]
  | s :: rest, hs, d => by
    simp only [Stmt.allPlaced, Bool.and_eq_true] at hs
    rw [Stmt.emitAll]
    exact ((Stmt.emit_places s hs.1 d).seq (Stmt.emitAll_places rest hs.2 d)).congr
      (by rw [Stmt.codeSizeAll]) fun a => by rw [Stmt.jumpsAll]

end

/-! ## Programs -/

theorem Chunk.byteAt?_lt {c : Chunk} {q v : Nat} (h : c.byteAt? q = some v) : v < 256 := by
  simp only [Chunk.byteAt?, Option.map_eq_some_iff] at h
  obtain ⟨b, -, rfl⟩ := h
  exact b.toNat_lt

/-- A two-byte operand is at most `maxJump`. -/
theorem Chunk.readU16?_le {c : Chunk} {q v : Nat} (h : c.readU16? q = some v) : v ≤ maxJump := by
  simp only [Chunk.readU16?, Option.bind_eq_bind, Option.bind_eq_some_iff, Option.pure_def,
    Option.some.injEq] at h
  obtain ⟨hi, hhi, lo, hlo, rfl⟩ := h
  have := Chunk.byteAt?_lt hhi
  have := Chunk.byteAt?_lt hlo
  unfold maxJump
  omega

namespace Demand

theorem firstViolation_jumpTooFar {d line : Nat} :
    ∀ {k : Nat} {ds : List Demand}, firstViolation k ds = some (.jumpTooFar d line) →
      maxJump < d ∧ jump d line ∈ ds
  | _, [], h => by simp [firstViolation] at h
  | k, .constant _ l :: ds, h | k, .name _ l :: ds, h | k, .slot _ l :: ds, h => by
    simp only [firstViolation] at h
    split at h
    · cases h
    · obtain ⟨hd, hm⟩ := firstViolation_jumpTooFar h
      exact ⟨hd, List.mem_cons_of_mem _ hm⟩
  | k, .jump d' l :: ds, h => by
    simp only [firstViolation] at h
    split at h
    · cases h
      exact ⟨‹_›, List.mem_cons_self⟩
    · obtain ⟨hd, hm⟩ := firstViolation_jumpTooFar h
      exact ⟨hd, List.mem_cons_of_mem _ hm⟩

theorem firstViolation_of_room {e : CompileError} {k : Nat} {ds : List Demand}
    (hk : k + (pool ds).length ≤ maxConstants)
    (hs : ∀ live line, slot live line ∈ ds → live < maxLocals)
    (h : firstViolation k ds = some e) : ∃ d line, e = .jumpTooFar d line := by
  induction ds generalizing k with
  | nil => simp [firstViolation] at h
  | cons x ds ih =>
    have hs' : ∀ live line, slot live line ∈ ds → live < maxLocals :=
      fun live line hm => hs live line (List.mem_cons_of_mem _ hm)
    simp only [pool, List.filterMap_cons] at hk
    cases x with
    | constant _ l | name _ l =>
      simp only [value?, List.length_cons] at hk
      rw [firstViolation, if_neg (by omega)] at h
      exact ih (by simp only [pool]; omega) hs' h
    | slot live l =>
      have hl := hs live l List.mem_cons_self
      rw [firstViolation, if_neg (by omega)] at h
      exact ih hk hs' h
    | jump d l =>
      rw [firstViolation] at h
      split at h
      · cases h
        exact ⟨d, l, rfl⟩
      · exact ih hk hs' h

end Demand

/-- The chunk of a placed program holds exactly the program's jumps, each with its full distance
as operand. -/
theorem Chunk.jumpsAt_of_ofProgram {p : Program} (hp : Stmt.allPlaced p.body) {c : Chunk}
    (h : Chunk.ofProgram p = .ok c) : c.JumpsAt p.jumps 0 c.size := by
  obtain ⟨st, line, hrun, -, -, rfl⟩ := Chunk.ofProgram_ok hp h
  obtain ⟨g, -, -, r⟩ := Stmt.emitAll_places p.body hp 0 hrun Emitter.valid_empty rfl
  have hb : ((st.chunk.write Op.pushNil.byte line).write Op.ret.byte line).JumpsAt p.jumps 0
      st.chunk.size := r (Chunk.holds_finish g.valid.lines line)
  obtain ⟨hnil, hret⟩ := Chunk.byteAt?_finish st.chunk line
  have hn : ((st.chunk.write Op.pushNil.byte line).write Op.ret.byte line).JumpsAt []
      st.chunk.size (st.chunk.size + 1) := JumpsAt.plain hnil hnil rfl rfl
  have hr : ((st.chunk.write Op.pushNil.byte line).write Op.ret.byte line).JumpsAt []
      (st.chunk.size + 1) (st.chunk.size + 1 + 1) := JumpsAt.plain hret hret rfl rfl
  simpa using hb.append (hn.append hr)

/-- A program with a jump longer than `maxJump` gets no chunk: its operand could not hold it. -/
theorem Chunk.ofProgram_error_of_far {p : Program} (hp : Stmt.allPlaced p.body) {j : Jump}
    (hj : j ∈ p.jumps) (hd : maxJump < j.distance) : ∃ e, Chunk.ofProgram p = .error e := by
  cases hc : Chunk.ofProgram p with
  | error e => exact ⟨e, rfl⟩
  | ok c =>
    obtain ⟨-, -, -, hr⟩ := (Chunk.jumpsAt_of_ofProgram hp hc).listed j hj
    exact absurd (Chunk.readU16?_le hr) (Nat.not_le.mpr hd)

/-- A jump too far is reported with the distance of one of the program's jumps. -/
theorem Chunk.ofProgram_jumpTooFar {p : Program} (hp : Stmt.allPlaced p.body) {d line : Nat}
    (h : Chunk.ofProgram p = .error (.jumpTooFar d line)) :
    maxJump < d ∧ ∃ j ∈ p.jumps, j.distance = d := by
  obtain ⟨hd, hm⟩ := Demand.firstViolation_jumpTooFar ((Chunk.ofProgram_eq_error p hp _).mp h)
  obtain ⟨j, hj, rfl⟩ :=
    List.mem_map.mp ((Program.distances_demands p).subset (mem_distances.mpr ⟨line, hm⟩))
  exact ⟨hd, j, hj, rfl⟩

/-- With room for its constants and locals, a program with a jump too far fails with the error of
one of its jumps over `maxJump`. -/
theorem Chunk.ofProgram_far_jumpTooFar {p : Program} (hp : Stmt.allPlaced p.body)
    (hk : (pool p.demands).length ≤ maxConstants)
    (hs : ∀ live line, slot live line ∈ p.demands → live < maxLocals) {j : Jump}
    (hj : j ∈ p.jumps) (hd : maxJump < j.distance) :
    ∃ j' ∈ p.jumps, maxJump < j'.distance ∧
      ∃ line, Chunk.ofProgram p = .error (.jumpTooFar j'.distance line) := by
  obtain ⟨e, he⟩ := Chunk.ofProgram_error_of_far hp hj hd
  obtain ⟨d, line, rfl⟩ :=
    firstViolation_of_room (by simpa using hk) hs ((Chunk.ofProgram_eq_error p hp e).mp he)
  obtain ⟨hd', j', hj', rfl⟩ := Chunk.ofProgram_jumpTooFar hp he
  exact ⟨j', hj', hd', line, he⟩

/-- Every placed program that compiles gives a well-formed chunk, whose table of globals is the
one its demands intern, and reading it from its start meets exactly the program's jumps, each
with its full distance as operand.  No distance is cut to sixteen bits: a program with a jump
longer than `maxJump` gets no chunk, a jump too far is reported only with the distance of one of
its jumps, over `maxJump`, and with room for its constants and locals such a program fails with
that error. -/
theorem Chunk.ofProgram_wellFormed (p : Program) (hp : Stmt.allPlaced p.body) :
    (∀ c, Chunk.ofProgram p = .ok c →
        c.WellFormed (Demand.interned 0 p.demands) ∧ c.JumpsAt p.jumps 0 c.size) ∧
      (∀ j ∈ p.jumps, maxJump < j.distance → ∃ e, Chunk.ofProgram p = .error e) ∧
      (∀ d line, Chunk.ofProgram p = .error (.jumpTooFar d line) →
        maxJump < d ∧ ∃ j ∈ p.jumps, j.distance = d) ∧
      ((Demand.pool p.demands).length ≤ maxConstants →
        (∀ live line, Demand.slot live line ∈ p.demands → live < maxLocals) →
        ∀ j ∈ p.jumps, maxJump < j.distance →
          ∃ j' ∈ p.jumps, maxJump < j'.distance ∧
            ∃ line, Chunk.ofProgram p = .error (.jumpTooFar j'.distance line)) :=
  ⟨fun _ h => ⟨Chunk.wellFormed_of_ofProgram hp h, Chunk.jumpsAt_of_ofProgram hp h⟩,
    fun _ hj hd => Chunk.ofProgram_error_of_far hp hj hd,
    fun _ _ h => Chunk.ofProgram_jumpTooFar hp h,
    fun hk hs _ hj hd => Chunk.ofProgram_far_jumpTooFar hp hk hs hj hd⟩

/-- `loopsAndBranches` is placed and compiles, with seven jumps, and its chunk holds each of them
at its full distance. -/
theorem loopsAndBranches_jumps_exact :
    Stmt.allPlaced loopsAndBranches.body ∧ (Chunk.ofProgram loopsAndBranches).toBool = true ∧
      loopsAndBranches.jumps.length = 7 ∧
      ((∀ c, Chunk.ofProgram loopsAndBranches = .ok c →
          c.WellFormed (Demand.interned 0 loopsAndBranches.demands) ∧
            c.JumpsAt loopsAndBranches.jumps 0 c.size) ∧
        (∀ j ∈ loopsAndBranches.jumps, maxJump < j.distance →
          ∃ e, Chunk.ofProgram loopsAndBranches = .error e) ∧
        (∀ d line, Chunk.ofProgram loopsAndBranches = .error (.jumpTooFar d line) →
          maxJump < d ∧ ∃ j ∈ loopsAndBranches.jumps, j.distance = d) ∧
        ((Demand.pool loopsAndBranches.demands).length ≤ maxConstants →
          (∀ live line, Demand.slot live line ∈ loopsAndBranches.demands → live < maxLocals) →
          ∀ j ∈ loopsAndBranches.jumps, maxJump < j.distance →
            ∃ j' ∈ loopsAndBranches.jumps, maxJump < j'.distance ∧
              ∃ line, Chunk.ofProgram loopsAndBranches = .error (.jumpTooFar j'.distance line))) :=
  ⟨rfl, by decide +kernel, by decide +kernel, Chunk.ofProgram_wellFormed loopsAndBranches rfl⟩

end StackScript
