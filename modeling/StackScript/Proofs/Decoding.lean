import StackScript.Proofs.Limits
import StackScript.Proofs.Statements

/-!
# Compiled chunks decode

A chunk is read instruction by instruction: a byte that `Op.ofByte?` knows, then as many operand
bytes as `Op.operandSize` says.  `Chunk.Decodes c a b` says that reading from offset `a` meets
only known instructions with whole operands and lands exactly on `b`.  Reading is deterministic,
so two offsets reached from one start are reached from each other (`Decodes.tail`).

`Chunk.Operands` says what an instruction needs of its operand: a `CONSTANT` an index into the
pool, a global's instruction the index of the constant of its name, a jump a target where
reading lands.  `Chunk.Sound c names a b` says both of the code on `[a, b)`: it decodes, and its
jumps stay inside it.  Every statement's code is sound in the chunk the program compiles to
(`Stmt.emit_sound`), and the chunk as a whole is well formed (`Chunk.WellFormed`,
`Chunk.wellFormed_of_ofProgram`): it reads from its start to its end and ends on `NIL RETURN`, and
every jump lands on an instruction inside it.  Statements are handled one construct at a time,
each a rule for `Emit.Sound`; a `for` loop is a block around a `while` loop (`Emit.forLoop_eq`).
-/

namespace StackScript

@[simp] theorem Op.ofByte?_byte (o : Op) : Op.ofByte? o.byte = some o := by
  cases o <;> rfl

/-- An instruction that asks nothing of its operand: no constant, no global, no jump. -/
def Op.plain : Op → Bool
  | .constant | .getGlobal | .setGlobal | .defineGlobal | .jump | .jumpIfFalse | .loop => false
  | _ => true

namespace Chunk

/-- The instruction at an offset, if its byte is one. -/
def opAt? (c : Chunk) (q : Nat) : Option Op := (c.byteAt? q).bind Op.ofByte?

theorem opAt?_of_byteAt? {c : Chunk} {q : Nat} {o : Op} (h : c.byteAt? q = some o.byte) :
    c.opAt? q = some o := by
  simp [opAt?, h]

theorem lt_size_of_byteAt? {c : Chunk} {q b : Nat} (h : c.byteAt? q = some b) : q < c.size := by
  simp only [byteAt?, Option.map_eq_some_iff, Array.getElem?_eq_some_iff] at h
  obtain ⟨_, ⟨hq, -⟩, -⟩ := h
  exact hq

theorem lt_size_of_readU16? {c : Chunk} {q d : Nat} (h : c.readU16? q = some d) :
    q + 1 < c.size := by
  simp only [readU16?, Option.bind_eq_bind, Option.bind_eq_some_iff] at h
  obtain ⟨_, -, _, hlo, -⟩ := h
  exact lt_size_of_byteAt? hlo

/-- Reading instructions from `a` lands on `b`: each instruction on the way is known and has its
whole operand in the chunk. -/
inductive Decodes (c : Chunk) : Nat → Nat → Prop
  | refl (a : Nat) : Decodes c a a
  | step {a b : Nat} {o : Op} : c.opAt? a = some o → a + 1 + o.operandSize ≤ c.size →
      Decodes c (a + 1 + o.operandSize) b → Decodes c a b

namespace Decodes

variable {c : Chunk} {a b m q x y : Nat} {o : Op}

theorem le (h : Decodes c a b) : a ≤ b := by
  induction h with
  | refl => exact Nat.le_refl _
  | step _ _ _ ih => omega

theorem trans (h₁ : Decodes c a m) (h₂ : Decodes c m b) : Decodes c a b := by
  induction h₁ with
  | refl => exact h₂
  | step ho hs _ ih => exact .step ho hs (ih h₂)

theorem single (ho : c.opAt? a = some o) (hs : a + 1 + o.operandSize ≤ c.size) :
    Decodes c a (a + 1 + o.operandSize) :=
  .step ho hs (.refl _)

/-- A jump with its two-byte operand. -/
theorem jump {d : Nat} (hb : c.byteAt? a = some o.byte) (hj : o.operandSize = 2)
    (hd : c.readU16? (a + 1) = some d) : Decodes c a (a + 3) := by
  have hs := lt_size_of_readU16? hd
  simpa [hj] using single (opAt?_of_byteAt? hb) (by omega)

/-- Reading is deterministic: of two offsets reached from one start, the later is reached from
the earlier. -/
theorem tail (hx : Decodes c a x) (hy : Decodes c a y) (hxy : x ≤ y) : Decodes c x y := by
  induction hx generalizing y with
  | refl => exact hy
  | step ho _ hrest ih =>
    cases hy with
    | refl =>
      have := hrest.le
      omega
    | step ho' _ hrest' =>
      rw [ho] at ho'
      cases ho'
      exact ih hrest' hxy

theorem eq_of_lt (h : Decodes c a q) (ho : c.opAt? a = some o)
    (hq : q < a + 1 + o.operandSize) : q = a := by
  cases h with
  | refl => rfl
  | step ho' _ hrest =>
    rw [ho] at ho'
    cases ho'
    have := hrest.le
    omega

end Decodes

/-- What the instruction at `q` needs of its operand: a `CONSTANT` an index into the pool; a
global's instruction the index of a constant holding its name, which the table `names` gives that
name; a forward jump a target `q + 3 + d` and a loop a target `q + 3 - d`, where `d` is the
operand, on the way of reading from `lo` to `hi`. -/
structure Operands (c : Chunk) (names : List (String × Nat)) (lo hi q : Nat) : Prop where
  constant : c.opAt? q = some .constant →
    ∃ k, c.byteAt? (q + 1) = some k ∧ k < c.constants.size
  global : ∀ o, c.opAt? q = some o → o = .getGlobal ∨ o = .setGlobal ∨ o = .defineGlobal →
    ∃ x k, c.byteAt? (q + 1) = some k ∧ c.constants[k]? = some (.string x) ∧
      names.lookup x = some k
  forward : ∀ o, c.opAt? q = some o → o = .jump ∨ o = .jumpIfFalse →
    ∃ d, c.readU16? (q + 1) = some d ∧ Decodes c lo (q + 3 + d) ∧ Decodes c (q + 3 + d) hi
  back : c.opAt? q = some .loop →
    ∃ d, c.readU16? (q + 1) = some d ∧ d ≤ q + 3 ∧ Decodes c lo (q + 3 - d) ∧
      Decodes c (q + 3 - d) hi

namespace Operands

variable {c : Chunk} {names : List (String × Nat)} {lo hi lo' hi' q : Nat}

theorem widen (h : c.Operands names lo hi q) (hlo : Decodes c lo' lo) (hhi : Decodes c hi hi') :
    c.Operands names lo' hi' q := by
  refine ⟨h.constant, h.global, fun o ho hj => ?_, fun ho => ?_⟩
  · obtain ⟨d, hd, h₁, h₂⟩ := h.forward o ho hj
    exact ⟨d, hd, hlo.trans h₁, h₂.trans hhi⟩
  · obtain ⟨d, hd, hle, h₁, h₂⟩ := h.back ho
    exact ⟨d, hd, hle, hlo.trans h₁, h₂.trans hhi⟩

theorem plain {o : Op} (ho : c.opAt? q = some o) (hp : o.plain) : c.Operands names lo hi q := by
  refine ⟨fun h => ?_, fun o' h hg => ?_, fun o' h hj => ?_, fun h => ?_⟩ <;>
    rw [ho] at h <;> cases h
  · cases hp
  · rcases hg with rfl | rfl | rfl <;> cases hp
  · rcases hj with rfl | rfl <;> cases hp
  · cases hp

end Operands

/-- Every instruction that reading from `a` meets before `b` has the operand it needs, with its
jumps landing on the way from `lo` to `hi`. -/
def Fine (c : Chunk) (names : List (String × Nat)) (lo hi a b : Nat) : Prop :=
  ∀ q, Decodes c a q → q < b → c.Operands names lo hi q

namespace Fine

variable {c : Chunk} {names : List (String × Nat)} {lo hi a b m : Nat}

theorem nil (lo hi a : Nat) : c.Fine names lo hi a a := fun _ h hq => absurd h.le (by omega)

theorem append (hm : Decodes c a m) (h₁ : c.Fine names lo hi a m) (h₂ : c.Fine names lo hi m b) :
    c.Fine names lo hi a b := by
  intro q hq hqb
  by_cases hlt : q < m
  · exact h₁ q hq hlt
  · exact h₂ q (hm.tail hq (by omega)) hqb

theorem widen {lo' hi' : Nat} (h : c.Fine names lo hi a b) (hlo : Decodes c lo' lo)
    (hhi : Decodes c hi hi') : c.Fine names lo' hi' a b :=
  fun q hq hqb => (h q hq hqb).widen hlo hhi

theorem single {o : Op} (ho : c.opAt? a = some o) (h : c.Operands names lo hi a) :
    c.Fine names lo hi a (a + 1 + o.operandSize) := fun q hq hqb => by
  rw [hq.eq_of_lt ho hqb]
  exact h

end Fine

/-- The code on `[a, b)` decodes, and its instructions have the operands they need, with jumps
landing on the way from `lo` to `hi`. -/
def Lays (c : Chunk) (names : List (String × Nat)) (lo hi a b : Nat) : Prop :=
  Decodes c a b ∧ c.Fine names lo hi a b

/-- The code on `[a, b)` is sound: it decodes, and its instructions have the operands they need,
with its jumps landing inside it. -/
def Sound (c : Chunk) (names : List (String × Nat)) (a b : Nat) : Prop := c.Lays names a b a b

namespace Lays

variable {c : Chunk} {names : List (String × Nat)} {lo hi a b m : Nat}

theorem nil (lo hi a : Nat) : c.Lays names lo hi a a := ⟨.refl a, .nil lo hi a⟩

theorem append (h₁ : c.Lays names lo hi a m) (h₂ : c.Lays names lo hi m b) :
    c.Lays names lo hi a b :=
  ⟨h₁.1.trans h₂.1, .append h₁.1 h₁.2 h₂.2⟩

theorem of_sound (h : c.Sound names a b) (hlo : Decodes c lo a) (hhi : Decodes c b hi) :
    c.Lays names lo hi a b :=
  ⟨h.1, h.2.widen hlo hhi⟩

theorem within (h : c.Sound names a b) (hlo : Decodes c lo a) (hall : Decodes c lo hi)
    (hb : b ≤ hi) : c.Lays names lo hi a b :=
  of_sound h hlo (Decodes.tail (hlo.trans h.1) hall hb)

/-- Code laid out from its own start to its own end is sound. -/
theorem sound (h : c.Lays names a b a b) : c.Sound names a b := h

theorem single {o : Op} {v : Nat} (hb : c.byteAt? a = some o.byte)
    (hlast : c.byteAt? (a + o.operandSize) = some v) (h : c.Operands names lo hi a) :
    c.Lays names lo hi a (a + 1 + o.operandSize) := by
  have ho := opAt?_of_byteAt? hb
  have hs := lt_size_of_byteAt? hlast
  exact ⟨.single ho (by omega), .single ho h⟩

theorem sound_single {o : Op} {v : Nat} (hb : c.byteAt? a = some o.byte)
    (hlast : c.byteAt? (a + o.operandSize) = some v) (hend : b = a + 1 + o.operandSize)
    (h : c.Operands names a b a) : c.Sound names a b := by
  subst hend
  exact single hb hlast h

/-- A forward jump at `a` to `t`, on the way from `lo` to `hi`. -/
theorem forward {o : Op} {t : Nat} (hb : c.byteAt? a = some o.byte)
    (hj : o = .jump ∨ o = .jumpIfFalse) (hd : c.readU16? (a + 1) = some (t - (a + 3)))
    (ht : a + 3 ≤ t) (hlo : Decodes c lo t) (hhi : Decodes c t hi) :
    c.Lays names lo hi a (a + 3) := by
  have ho := opAt?_of_byteAt? hb
  have hs := lt_size_of_readU16? hd
  have hn : o.operandSize = 2 := by rcases hj with rfl | rfl <;> rfl
  have he : a + 3 + (t - (a + 3)) = t := by omega
  refine ⟨by simpa [hn] using Decodes.single ho (by omega), ?_⟩
  have hops : c.Operands names lo hi a := by
    refine ⟨fun h => ?_, fun o' h hg => ?_, fun o' h _ => ?_, fun h => ?_⟩ <;> rw [ho] at h <;>
      cases h
    · rcases hj with h | h <;> cases h
    · rcases hg with rfl | rfl | rfl <;> rcases hj with h | h <;> cases h
    · exact ⟨t - (a + 3), hd, by rw [he]; exact hlo, by rw [he]; exact hhi⟩
    · rcases hj with h | h <;> cases h
  simpa [hn] using Fine.single ho hops

/-- A loop at `a` back to `t`, on the way from `lo` to `hi`. -/
theorem back {t : Nat} (hb : c.byteAt? a = some Op.loop.byte)
    (hd : c.readU16? (a + 1) = some (a + 3 - t)) (ht : t ≤ a + 3) (hlo : Decodes c lo t)
    (hhi : Decodes c t hi) : c.Lays names lo hi a (a + 3) := by
  have ho := opAt?_of_byteAt? hb
  have hs := lt_size_of_readU16? hd
  have he : a + 3 - (a + 3 - t) = t := by omega
  refine ⟨Decodes.single ho (by simp [Op.operandSize]; omega), ?_⟩
  have hops : c.Operands names lo hi a := by
    refine ⟨fun h => ?_, fun o' h hg => ?_, fun o' h hj => ?_,
      fun _ => ⟨a + 3 - t, hd, Nat.sub_le _ _, by rw [he]; exact hlo, by rw [he]; exact hhi⟩⟩ <;>
      rw [ho] at h <;> cases h
    · rcases hg with h | h | h <;> cases h
    · rcases hj with h | h <;> cases h
  exact Fine.single ho hops

end Lays

theorem Sound.append {c : Chunk} {names : List (String × Nat)} {a m b : Nat}
    (h₁ : c.Sound names a m) (h₂ : c.Sound names m b) : c.Sound names a b :=
  (Lays.of_sound h₁ (.refl _) h₂.1).append (Lays.of_sound h₂ h₁.1 (.refl _))

theorem sound_pops {c : Chunk} {names : List (String × Nat)} {a : Nat} :
    ∀ {n : Nat}, (∀ i < n, c.byteAt? (a + i) = some Op.pop.byte) → c.Sound names a (a + n)
  | 0, _ => Lays.nil a a a
  | n + 1, h => by
    have hb : c.byteAt? a = some Op.pop.byte := h 0 (Nat.succ_pos n)
    have hp : c.Sound names a (a + 1) :=
      Lays.sound_single hb hb rfl (Operands.plain (opAt?_of_byteAt? hb) rfl)
    have hr : c.Sound names (a + 1) (a + 1 + n) :=
      sound_pops fun i hi => by rw [Nat.add_assoc, Nat.add_comm 1 i]; exact h (i + 1) (by omega)
    rw [show a + (n + 1) = a + 1 + n by omega]
    exact hp.append hr

end Chunk

/-- Every entry of the table of globals `t` is an entry of `t'`. -/
def TableGrows (t t' : List (String × Nat)) : Prop :=
  ∀ x k, t.lookup x = some k → t'.lookup x = some k

namespace TableGrows

theorem refl (t : List (String × Nat)) : TableGrows t t := fun _ _ h => h

theorem trans {t t' t'' : List (String × Nat)} (h₁ : TableGrows t t') (h₂ : TableGrows t' t'') :
    TableGrows t t'' := fun x k h => h₂ x k (h₁ x k h)

theorem of_eq {t t' : List (String × Nat)} (h : t' = t) : TableGrows t t' := fun _ _ hk => h ▸ hk

end TableGrows

theorem Emitter.Grows.andPatch {st st₁ st₂ : Emitter} (h : st.Grows st₁) {p line : Nat} {x : Unit}
    (hp : st.chunk.size ≤ p) (h' : (Emit.patch p line).run st₁ = .ok (x, st₂)) : st.Grows st₂ := by
  obtain ⟨-, rfl⟩ := Emit.patch_ok.mp h'
  refine ⟨h.valid.patch p _, by simpa using h.size, ?_⟩
  exact (Chunk.holds_patchU16 _ p _ 0 st.chunk.size fun i _ hi => ⟨by omega, by omega⟩).trans
    h.holds (Nat.le_refl _) (Nat.le_refl _)

namespace Emit

open Emitter Chunk

variable {α : Type} {x : Emit α} {st st₁ st₂ st₃ : Emitter} {a : α} {c : Chunk}
  {names : List (String × Nat)} {lo hi : Nat} {line : Nat}

theorem Quiet.names_eq (hq : x.Quiet) (h : x.run st = .ok (a, st')) : st'.names = st.names := by
  obtain ⟨a', st'', h', -, hn⟩ := hq st
  rw [h] at h'
  cases h'
  exact hn

theorem nameConstant_table {name : String} {k : Nat}
    (h : (nameConstant name line).run st₁ = .ok (k, st₂)) :
    st₂.names.lookup name = some k ∧ TableGrows st₁.names st₂.names := by
  rw [nameConstant_run] at h
  rcases hk : st₁.names.lookup name with _ | k'
  · rw [hk] at h
    by_cases hf : maxConstants ≤ st₁.chunk.constants.size
    · simp [hf] at h
    · simp only [hf, ↓reduceIte, Except.ok.injEq, Prod.mk.injEq] at h
      obtain ⟨rfl, rfl⟩ := h
      refine ⟨by simp [List.lookup], fun y j hy => ?_⟩
      have hne : (y == name) = false := by
        rcases Decidable.em (y = name) with rfl | hne
        · rw [hk] at hy
          cases hy
        · simpa using hne
      simp [List.lookup, hne, hy]
  · rw [hk] at h
    simp only [Except.ok.injEq, Prod.mk.injEq] at h
    obtain ⟨rfl, rfl⟩ := h
    exact ⟨hk, .refl _⟩

/-- The code a run from `st` to `st'` writes is sound in `c`, if `c` holds it, and the table of
globals only grows, with every entry of `st'` one of `names`. -/
def SoundRun (c : Chunk) (names : List (String × Nat)) (st st' : Emitter) : Prop :=
  c.Holds st'.chunk st.chunk.size st'.chunk.size → TableGrows st'.names names →
    c.Sound names st.chunk.size st'.chunk.size ∧ TableGrows st.names st'.names

theorem SoundRun.seq (h₁ : SoundRun c names st st₁) (h₂ : SoundRun c names st₁ st₂)
    (hg : st₁.Grows st₂) (hle : st.chunk.size ≤ st₁.chunk.size) : SoundRun c names st st₂ := by
  intro hc hn
  obtain ⟨s₂, g₂⟩ := h₂ (hc.mono hle (Nat.le_refl _)) hn
  obtain ⟨s₁, g₁⟩ := h₁ (hc.trans (hg.holds.mono (Nat.zero_le _) (Nat.le_refl _)) (Nat.le_refl _)
    hg.size) (g₂.trans hn)
  exact ⟨s₁.append s₂, g₁.trans g₂⟩

theorem sound_op {o : Op} {u : Unit} (h : (op o line).run st₁ = .ok (u, st₂)) (hv : st₁.Valid)
    (hp : o.plain) (h0 : o.operandSize = 0) : SoundRun c names st₁ st₂ := by
  intro hc _
  have hs := size_of_op h
  obtain ⟨hb, -⟩ := hc.op h hv (Nat.le_refl _) (by omega)
  exact ⟨Lays.sound_single hb (by simpa [h0] using hb) (by rw [hs, h0])
    (Operands.plain (opAt?_of_byteAt? hb) hp), .of_eq ((quiet_op o line).names_eq h)⟩

theorem sound_opWith {o : Op} {k : Nat} {u : Unit} (h : (opWith o k line).run st₁ = .ok (u, st₂))
    (hv : st₁.Valid) (hp : o.plain) (h1 : o.operandSize = 1) : SoundRun c names st₁ st₂ := by
  intro hc _
  have hs := size_of_opWith h
  obtain ⟨hb, hk, -, -⟩ := hc.opWith h hv (Nat.le_refl _) (by omega)
  exact ⟨Lays.sound_single hb (by simpa [h1] using hk) (by rw [hs, h1])
    (Operands.plain (opAt?_of_byteAt? hb) hp), .of_eq ((quiet_opWith o k line).names_eq h)⟩

theorem sound_loadConstant {v : Value} {u : Unit}
    (h : (loadConstant v line).run st₁ = .ok (u, st₂)) : SoundRun c names st₁ st₂ := by
  intro hc _
  have hs := size_of_loadConstant h
  obtain ⟨k, hb, hk, hv⟩ := hc.loadConstant h (Nat.le_refl _) (by omega)
  have ho := opAt?_of_byteAt? hb
  have hops : c.Operands names st₁.chunk.size st₂.chunk.size st₁.chunk.size := by
    refine ⟨fun _ => ⟨k, hk, (Array.getElem?_eq_some_iff.mp hv).1⟩, fun o' h' hg => ?_,
      fun o' h' hj => ?_, fun h' => ?_⟩ <;> rw [ho] at h' <;> cases h'
    · rcases hg with h | h | h <;> cases h
    · rcases hj with h | h <;> cases h
  exact ⟨Lays.sound_single hb hk (by rw [hs]; rfl) hops,
    .of_eq (by obtain ⟨-, rfl⟩ := loadConstant_ok.mp h; rfl)⟩

theorem sound_global {name : String} {o : Op} {k : Nat} {u : Unit}
    (hk : (nameConstant name line).run st₁ = .ok (k, st₂))
    (h : (opWith o k line).run st₂ = .ok (u, st₃)) (hv : st₁.Valid)
    (ho : o = .getGlobal ∨ o = .setGlobal ∨ o = .defineGlobal) : SoundRun c names st₁ st₃ := by
  intro hc hn
  obtain ⟨w₂, hcode, -, hname⟩ := nameConstant_writes hv hk
  obtain ⟨hlook, hgrow⟩ := nameConstant_table hk
  have hn₃ : st₃.names = st₂.names := (quiet_opWith o k line).names_eq h
  have hs₂ : st₂.chunk.size = st₁.chunk.size := by simp [Chunk.size, hcode]
  have hs := size_of_opWith h
  obtain ⟨hb, hkb, -, -⟩ := hc.opWith h w₂.valid (by omega) (by omega)
  have hk256 : k < 256 := by
    have := (Array.getElem?_eq_some_iff.mp hname).1
    have := w₂.valid.constants
    simp only [maxConstants] at this
    omega
  rw [Nat.mod_eq_of_lt hk256, hs₂] at hkb
  rw [hs₂] at hb
  have hops : c.Operands names st₁.chunk.size st₃.chunk.size st₁.chunk.size := by
    have hob := opAt?_of_byteAt? hb
    refine ⟨fun h' => ?_, fun o' h' _ => ?_, fun o' h' hj => ?_, fun h' => ?_⟩ <;>
      rw [hob] at h' <;> cases h'
    · rcases ho with h | h | h <;> cases h
    · refine ⟨name, k, hkb, ?_, hn name k (hn₃ ▸ hlook)⟩
      exact hc.constant (((Writes.refl w₂.valid).andOpWith h).constant hname)
    · rcases ho with rfl | rfl | rfl <;> rcases hj with h | h <;> cases h
    · rcases ho with h | h | h <;> cases h
  have h1 : o.operandSize = 1 := by rcases ho with rfl | rfl | rfl <;> rfl
  exact ⟨Lays.sound_single hb (by simpa [h1] using hkb) (by rw [hs, hs₂, h1]) hops,
    hgrow.trans (.of_eq hn₃)⟩

theorem sound_access {name : String} {ops : Op × Op} {u : Unit}
    (h : (access name ops line).run st₁ = .ok (u, st₂)) (hv : st₁.Valid)
    (h₁ : ops.1.plain ∧ ops.1.operandSize = 1)
    (h₂ : ops.2 = .getGlobal ∨ ops.2 = .setGlobal ∨ ops.2 = .defineGlobal) :
    SoundRun c names st₁ st₂ := by
  rw [access_run] at h
  rcases hs : slotOf? st₁.locals name with _ | slot <;> rw [hs] at h <;> dsimp only at h
  · obtain ⟨k, st', hk, hop⟩ := run_bind_ok.mp h
    exact sound_global hk hop hv h₂
  · exact sound_opWith h hv h₁.1 h₁.2

/-- A forward jump written from `st₁` and patched from `st₃`, once the code up to `st₃` is
written: its opcode, and as operand the distance from its end to `st₃`'s end. -/
theorem jump_patched {o : Op} {p line line' : Nat} {u : Unit} {st₄ : Emitter}
    (h₁ : (jump o line).run st₁ = .ok (p, st₂)) (hv : st₁.Valid)
    (hb : c.Holds st₂.chunk st₁.chunk.size (st₁.chunk.size + 1))
    (h₃ : (patch p line').run st₃ = .ok (u, st₄)) (hle : st₂.chunk.size ≤ st₃.chunk.size)
    (hc : c.Holds st₄.chunk (st₁.chunk.size + 1) (st₁.chunk.size + 3)) :
    c.byteAt? st₁.chunk.size = some o.byte ∧ st₂.chunk.size = st₁.chunk.size + 3 ∧
      c.readU16? (st₁.chunk.size + 1) = some (st₃.chunk.size - (st₁.chunk.size + 3)) := by
  have s₂ := size_of_jump h₁
  obtain ⟨hop, -, rfl⟩ := hb.jump h₁ hv (Nat.le_refl _) (Nat.lt_succ_self _)
  have hd := (hc.patch h₃ (Nat.le_refl _) (by omega) (by omega)).1
  refine ⟨hop, s₂, ?_⟩
  rw [hd, Nat.sub_sub]

/-- A jump back to `start`: its opcode, and as operand the distance from its end back to
`start`. -/
theorem loop_written {start : Nat} {u : Unit} (h : (loopBack start line).run st₁ = .ok (u, st₂))
    (hc : c.Holds st₂.chunk st₁.chunk.size st₂.chunk.size) (hs : start ≤ st₁.chunk.size) :
    c.byteAt? st₁.chunk.size = some Op.loop.byte ∧ st₂.chunk.size = st₁.chunk.size + 3 ∧
      c.readU16? (st₁.chunk.size + 1) = some (st₁.chunk.size + 3 - start) := by
  have s₂ := size_of_loopBack h
  obtain ⟨hop, hd, -⟩ := hc.loopBack h (Nat.le_refl _) (by omega)
  refine ⟨hop, s₂, ?_⟩
  rw [hd]
  congr 1
  omega

end Emit

/-! ## Expressions -/

open Emit Emitter Chunk

/-- The code of `e` is sound in `c` wherever the compiler writes it. -/
def Expr.Sound (c : Chunk) (names : List (String × Nat)) (e : Expr) : Prop :=
  ∀ ⦃st st' : Emitter⦄, e.emit.run st = .ok ((), st') → st.Valid → SoundRun c names st st'

theorem BinOp.instr_plain (o : BinOp) : o.instr.plain ∧ o.instr.operandSize = 0 := by
  cases o <;> exact ⟨rfl, rfl⟩

theorem UnOp.instr_plain (o : UnOp) : o.instr.plain ∧ o.instr.operandSize = 0 := by
  cases o <;> exact ⟨rfl, rfl⟩

namespace Expr.Sound

variable {c : Chunk} {names : List (String × Nat)}

theorem number (x : Float) (s : Span) : (Expr.number x s).Sound c names :=
  fun _ _ h _ => sound_loadConstant h

theorem string (v : String) (s : Span) : (Expr.string v s).Sound c names :=
  fun _ _ h _ => sound_loadConstant h

theorem bool (b : Bool) (s : Span) : (Expr.bool b s).Sound c names := by
  intro st st' h hv
  cases b <;> exact sound_op h hv rfl rfl

theorem nil (s : Span) : (Expr.nil s).Sound c names :=
  fun _ _ h hv => sound_op h hv rfl rfl

theorem var (n : String) (s : Span) : (Expr.var n s).Sound c names :=
  fun _ _ h hv => sound_access h hv ⟨rfl, rfl⟩ (.inl rfl)

theorem group {e : Expr} (he : e.Sound c names) (s : Span) : (Expr.group e s).Sound c names :=
  fun _ _ h hv => he h hv

theorem assign {e : Expr} (he : e.Sound c names) (n : String) (s : Span) :
    (Expr.assign n e s).Sound c names := by
  intro st st' h hv
  obtain ⟨_, st₁, h₁, h₂⟩ := by simpa only [Expr.emit, run_bind_ok] using h
  have w₁ := Expr.emit_writes h₁ hv
  exact (he h₁ hv).seq (sound_access h₂ w₁.valid ⟨rfl, rfl⟩ (.inr (.inl rfl)))
    (access_writes w₁.valid h₂).1.grows w₁.size

theorem unary {e : Expr} (he : e.Sound c names) (o : UnOp) (s : Span) :
    (Expr.unary o e s).Sound c names := by
  intro st st' h hv
  rw [Expr.emit_unary] at h
  obtain ⟨_, st₁, h₁, h₂⟩ := run_bind_ok.mp h
  have w₁ := Expr.emit_writes h₁ hv
  exact (he h₁ hv).seq (sound_op h₂ w₁.valid (UnOp.instr_plain o).1 (UnOp.instr_plain o).2)
    ((Writes.refl w₁.valid).andOp h₂).grows w₁.size

theorem binary {l r : Expr} (hl : l.Sound c names) (hr : r.Sound c names) (o : BinOp)
    (s : Span) : (Expr.binary o l r s).Sound c names := by
  intro st st' h hv
  rw [Expr.emit_binary] at h
  obtain ⟨_, st₁, h₁, _, st₂, h₂, _, st₃, h₃, h₄⟩ := by simpa only [run_bind_ok] using h
  have w₁ := Expr.emit_writes h₁ hv
  have w₂ := Expr.emit_writes h₂ w₁.valid
  have w₃ := (Writes.refl w₂.valid).andOp h₃
  have h₁₃ := ((hl h₁ hv).seq (hr h₂ w₁.valid) w₂.grows w₁.size).seq
    (sound_op h₃ w₂.valid (BinOp.instr_plain o).1 (BinOp.instr_plain o).2) w₃.grows
    (by have := w₁.size; have := w₂.size; omega)
  cases hn : o.negated <;> simp only [hn, Bool.false_eq_true, ↓reduceIte] at h₄
  · obtain ⟨-, rfl⟩ := run_pure_ok.mp h₄
    exact h₁₃
  · exact h₁₃.seq (sound_op h₄ w₃.valid rfl rfl) ((Writes.refl w₃.valid).andOp h₄).grows
      (by have := w₁.size; have := w₂.size; have := w₃.size; omega)

theorem and {l r : Expr} (hl : l.Sound c names) (hr : r.Sound c names) (s : Span) :
    (Expr.and l r s).Sound c names := by
  intro st st' h hv hc hn
  obtain ⟨_, st₁, h₁, p, st₂, h₂, _, st₃, h₃, _, st₄, h₄, h₅⟩ := by
    simpa only [Expr.emit, run_bind_ok] using h
  have w₁ := Expr.emit_writes h₁ hv
  obtain ⟨w₂, rfl⟩ := (Writes.refl w₁.valid).andJump h₂
  have w₃ := (Writes.refl w₂.valid).andOp h₃
  have w₄ := Expr.emit_writes h₄ w₃.valid
  have s₂ := size_of_jump h₂
  have s₃ := size_of_op h₃
  have s₅ := size_of_patch h₅
  have hle₁ := w₁.size
  have hle₄ := w₄.size
  have hn₅ : st'.names = st₄.names := by
    obtain ⟨-, rfl⟩ := patch_ok.mp h₅
    rfl
  have hn₃ : st₃.names = st₁.names := by
    rw [(quiet_op _ _).names_eq h₃, (quiet_jump _ _).names_eq h₂]
  have hcA : c.Holds st₄.chunk st.chunk.size (st₁.chunk.size + 1) :=
    (hc.mono (Nat.le_refl _) (by omega)).of_patch h₅ (.inl (Nat.le_refl _))
  have hcB : c.Holds st₄.chunk (st₁.chunk.size + 3) st₄.chunk.size :=
    (hc.mono (by omega) (by omega)).of_patch h₅ (.inr (Nat.le_refl _))
  have g₄ : TableGrows st₄.names names := (TableGrows.of_eq hn₅).trans hn
  obtain ⟨sr, gr⟩ := hr h₄ w₃.valid (hcB.mono (by omega) (Nat.le_refl _)) g₄
  have rp : SoundRun c names _ _ := sound_op h₃ w₂.valid rfl rfl
  obtain ⟨sp, -⟩ := rp (by rw [s₂]; exact hcB.of_writes w₄ (Nat.le_refl _) hle₄) (gr.trans g₄)
  obtain ⟨sl, gl⟩ := hl h₁ hv (hcA.of_writes (w₂.trans (w₃.trans w₄)) (by omega) (by omega))
    ((TableGrows.of_eq hn₃).trans (gr.trans g₄))
  obtain ⟨hjb, -, hjd⟩ := jump_patched h₂ w₁.valid
    ((hcA.mono hle₁ (Nat.le_refl _)).of_writes (w₃.trans w₄) (by omega) (Nat.le_refl _)) h₅
    (by omega) (hc.mono (by omega) (by omega))
  have dj : Decodes c st₁.chunk.size st₂.chunk.size := by
    rw [s₂]
    exact Decodes.jump hjb rfl hjd
  have lj : c.Lays names st.chunk.size st₄.chunk.size st₁.chunk.size st₂.chunk.size := by
    rw [s₂]
    exact Lays.forward hjb (.inr rfl) hjd (by omega) (sl.1.trans (dj.trans (sp.1.trans sr.1)))
      (.refl _)
  refine ⟨?_, gl.trans ((TableGrows.of_eq hn₃).trans (gr.trans (.of_eq hn₅)))⟩
  rw [s₅]
  exact (Lays.of_sound sl (.refl _) (dj.trans (sp.1.trans sr.1))).append (lj.append
    ((Lays.of_sound sp (sl.1.trans dj) sr.1).append
      (Lays.of_sound sr (sl.1.trans (dj.trans sp.1)) (.refl _))))

theorem or {l r : Expr} (hl : l.Sound c names) (hr : r.Sound c names) (s : Span) :
    (Expr.or l r s).Sound c names := by
  intro st st' h hv hc hn
  obtain ⟨_, st₁, h₁, p, st₂, h₂, q, st₃, h₃, _, st₄, h₄, _, st₅, h₅, _, st₆, h₆, h₇⟩ := by
    simpa only [Expr.emit, run_bind_ok] using h
  have w₁ := Expr.emit_writes h₁ hv
  obtain ⟨w₂, rfl⟩ := (Writes.refl w₁.valid).andJump h₂
  obtain ⟨w₃, rfl⟩ := (Writes.refl w₂.valid).andJump h₃
  have w₄ := (w₁.trans (w₂.trans w₃)).andPatch (by have := w₁.size; omega) h₄
  have w₅ := (Writes.refl w₄.valid).andOp h₅
  have w₆ := Expr.emit_writes h₆ w₅.valid
  have s₂ := size_of_jump h₂
  have s₃ := size_of_jump h₃
  have s₄ := size_of_patch h₄
  have s₅ := size_of_op h₅
  have s₇ := size_of_patch h₇
  have hle₁ := w₁.size
  have hle₆ := w₆.size
  have hn₇ : st'.names = st₆.names := by
    obtain ⟨-, rfl⟩ := patch_ok.mp h₇
    rfl
  have hn₅ : st₅.names = st₁.names := by
    obtain ⟨-, rfl⟩ := patch_ok.mp h₄
    rw [(quiet_op _ _).names_eq h₅, (quiet_jump _ _).names_eq h₃, (quiet_jump _ _).names_eq h₂]
  have hcA : c.Holds st₄.chunk st.chunk.size (st₂.chunk.size + 1) :=
    ((hc.mono (Nat.le_refl _) (by omega)).of_patch h₇ (.inl (Nat.le_refl _))).of_writes
      (w₅.trans w₆) (by omega) (Nat.le_refl _)
  have hcB : c.Holds st₆.chunk (st₂.chunk.size + 3) st₆.chunk.size :=
    (hc.mono (by omega) (by omega)).of_patch h₇ (.inr (Nat.le_refl _))
  have hcL : c.Holds st₃.chunk st.chunk.size (st₁.chunk.size + 1) :=
    (hcA.mono (Nat.le_refl _) (by omega)).of_patch h₄ (.inl (Nat.le_refl _))
  have g₆ : TableGrows st₆.names names := (TableGrows.of_eq hn₇).trans hn
  obtain ⟨sr, gr⟩ := hr h₆ w₅.valid (hcB.mono (by omega) (Nat.le_refl _)) g₆
  have rp : SoundRun c names _ _ := sound_op h₅ w₄.valid rfl rfl
  obtain ⟨sp, -⟩ := rp (by rw [s₄, s₃]; exact hcB.of_writes w₆ (by omega) hle₆) (gr.trans g₆)
  obtain ⟨sl, gl⟩ := hl h₁ hv (hcL.of_writes (w₂.trans w₃) (by omega) (by omega))
    ((TableGrows.of_eq hn₅).trans (gr.trans g₆))
  obtain ⟨hjb, -, hjd⟩ := jump_patched h₂ w₁.valid
    ((hcL.mono hle₁ (Nat.le_refl _)).of_writes w₃ (by omega) (Nat.le_refl _)) h₄ (by omega)
    (hcA.mono (by omega) (by omega))
  obtain ⟨hkb, -, hkd⟩ := jump_patched h₃ w₂.valid
    ((hcA.mono (by omega) (Nat.le_refl _)).of_patch h₄ (.inr (by omega))) h₇ (by omega)
    (hc.mono (by omega) (by omega))
  have dj : Decodes c st₁.chunk.size st₂.chunk.size := by
    rw [s₂]
    exact Decodes.jump hjb rfl hjd
  have dk : Decodes c st₂.chunk.size st₄.chunk.size := by
    rw [s₄, s₃]
    exact Decodes.jump hkb rfl hkd
  have lj : c.Lays names st.chunk.size st₆.chunk.size st₁.chunk.size st₂.chunk.size := by
    rw [s₂]
    exact Lays.forward hjb (.inr rfl) hjd (by omega) (by rw [← s₄]; exact sl.1.trans (dj.trans dk))
      (by rw [← s₄]; exact sp.1.trans sr.1)
  have lk : c.Lays names st.chunk.size st₆.chunk.size st₂.chunk.size st₄.chunk.size := by
    rw [s₄, s₃]
    exact Lays.forward hkb (.inl rfl) hkd (by omega)
      (sl.1.trans (dj.trans (dk.trans (sp.1.trans sr.1)))) (.refl _)
  refine ⟨?_, gl.trans ((TableGrows.of_eq hn₅).trans (gr.trans (.of_eq hn₇)))⟩
  rw [s₇]
  exact (Lays.of_sound sl (.refl _) (dj.trans (dk.trans (sp.1.trans sr.1)))).append (lj.append
    (lk.append ((Lays.of_sound sp (sl.1.trans (dj.trans dk)) sr.1).append
      (Lays.of_sound sr (sl.1.trans (dj.trans (dk.trans sp.1))) (.refl _)))))

end Expr.Sound

/-- The code the compiler writes for an expression is sound. -/
theorem Expr.sound (c : Chunk) (names : List (String × Nat)) (e : Expr) : e.Sound c names := by
  induction e with
  | number x s => exact .number x s
  | string v s => exact .string v s
  | bool b s => exact .bool b s
  | nil s => exact .nil s
  | var n s => exact .var n s
  | assign n e s ih => exact ih.assign n s
  | binary o l r s ihl ihr => exact ihl.binary ihr o s
  | unary o e s ih => exact ih.unary o s
  | and l r s ihl ihr => exact ihl.and ihr s
  | or l r s ihl ihr => exact ihl.or ihr s
  | group e s ih => exact ih.group s


/-! ## Statements -/

namespace Emit

variable {α β : Type} {c : Chunk} {names : List (String × Nat)} {line : Nat}

/-- Every run of `x` from a valid state keeps what was written before it, and the code it writes
is sound in `c`. -/
def Sound (c : Chunk) (names : List (String × Nat)) (x : Emit α) : Prop :=
  ∀ ⦃st : Emitter⦄ ⦃a : α⦄ ⦃st' : Emitter⦄, x.run st = .ok (a, st') → st.Valid →
    st.Grows st' ∧ SoundRun c names st st'

theorem SoundRun.nil {st st' : Emitter} (hs : st'.chunk.size = st.chunk.size)
    (hn : st'.names = st.names) : SoundRun c names st st' :=
  fun _ _ => ⟨by rw [hs]; exact Lays.nil _ _ _, .of_eq hn⟩

theorem Sound.bind {x : Emit α} {f : α → Emit β} (hx : x.Sound c names)
    (hf : ∀ a, (f a).Sound c names) : (x >>= f).Sound c names := by
  intro st b st' h hv
  obtain ⟨a, st₁, h₁, h₂⟩ := run_bind_ok.mp h
  obtain ⟨g₁, r₁⟩ := hx h₁ hv
  obtain ⟨g₂, r₂⟩ := hf a h₂ g₁.valid
  exact ⟨g₁.trans g₂, r₁.seq r₂ g₂ g₁.size⟩

theorem pure_sound (a : α) : (pure a : Emit α).Sound c names := by
  intro st b st' h hv
  obtain ⟨-, rfl⟩ := run_pure_ok.mp h
  exact ⟨(Writes.refl hv).grows, .nil rfl rfl⟩

theorem get_sound : (get : Emit Emitter).Sound c names := by
  intro st a st' h hv
  obtain ⟨-, rfl⟩ : st = a ∧ st = st' := by
    simpa only [StateT.run_get, Pure.pure, Except.pure, Except.ok.injEq, Prod.mk.injEq] using h
  exact ⟨(Writes.refl hv).grows, .nil rfl rfl⟩

theorem addLocal_sound {name : String} : (addLocal name line).Sound c names := by
  intro st slot st' h hv
  obtain ⟨g, -, rfl⟩ := (Writes.refl hv).grows.andAddLocal h
  exact ⟨g, .nil rfl rfl⟩

theorem op_sound {o : Op} (hp : o.plain) (h0 : o.operandSize = 0) :
    (op o line).Sound c names :=
  fun _ _ _ h hv => ⟨((Writes.refl hv).andOp h).grows, sound_op h hv hp h0⟩

theorem opWith_sound {o : Op} {k : Nat} (hp : o.plain) (h1 : o.operandSize = 1) :
    (opWith o k line).Sound c names :=
  fun _ _ _ h hv => ⟨((Writes.refl hv).andOpWith h).grows, sound_opWith h hv hp h1⟩

theorem loadConstant_sound {v : Value} : (loadConstant v line).Sound c names :=
  fun _ _ _ h hv => ⟨((Writes.refl hv).andLoadConstant h).grows, sound_loadConstant h⟩

theorem global_sound {name : String} {o : Op}
    (ho : o = .getGlobal ∨ o = .setGlobal ∨ o = .defineGlobal) :
    (do let k ← nameConstant name line; opWith o k line).Sound c names := by
  intro st u st' h hv
  obtain ⟨k, st₁, h₁, h₂⟩ := run_bind_ok.mp h
  exact ⟨((nameConstant_writes hv h₁).1.andOpWith h₂).grows, sound_global h₁ h₂ hv ho⟩

theorem endScope_pops {st st' : Emitter} {u : Unit} (h : (endScope line).run st = .ok (u, st'))
    (hv : st.Valid) :
    ∃ n, st'.chunk.size = st.chunk.size + n ∧ st'.chunk.Holds st.chunk 0 st.chunk.size ∧
      st'.names = st.names ∧ ∀ i < n, st'.chunk.byteAt? (st.chunk.size + i) = some Op.pop.byte := by
  rw [endScope_run, Except.ok.injEq, Prod.mk.injEq] at h
  obtain ⟨-, hst⟩ := h
  generalize deeperCount st.locals.toList (st.depth - 1) = n at hst
  have hcode : st'.chunk.code = st.chunk.code ++ Array.replicate n (UInt8.ofNat Op.pop.byte) := by
    rw [← hst]
  have hlines : st'.chunk.lines = st.chunk.lines ++ Array.replicate n line := by rw [← hst]
  have hl := hv.lines
  simp only [Chunk.size] at hl
  refine ⟨n, by simp [Chunk.size, hcode], ⟨fun i _ hi => ?_, fun i _ hi => ?_,
    fun _ _ => by rw [← hst]⟩, by rw [← hst], fun i hi => ?_⟩
  · simp only [Chunk.size] at hi
    simp [hcode, Array.getElem?_append_left hi]
  · simp only [Chunk.size] at hi
    simp [hlines, Array.getElem?_append_left (show i < st.chunk.lines.size by omega)]
  · simp [Chunk.byteAt?, Chunk.size, hcode, hi, Op.byte]

/-- The `POP`s that end a block, one for each of its locals. -/
theorem endScope_sound {st st' : Emitter} {u : Unit} (h : (endScope line).run st = .ok (u, st'))
    (hv : st.Valid) : st.chunk.size ≤ st'.chunk.size ∧ st'.chunk.Holds st.chunk 0 st.chunk.size ∧
      SoundRun c names st st' := by
  obtain ⟨n, hsize, hh, hn, hpop⟩ := endScope_pops h hv
  refine ⟨by omega, hh, fun hc _ => ⟨?_, .of_eq hn⟩⟩
  rw [hsize]
  refine Chunk.sound_pops fun i hi => ?_
  rw [hc.byteAt? (Nat.le_add_right _ _) (by omega)]
  exact hpop i hi

/-- A block: its body one level deeper, then the `POP`s of its locals. -/
theorem block_sound {body : Emit Unit} (hb : body.Sound c names)
    (hw : (block body line).OnlyWrites) : (block body line).Sound c names := by
  intro st u st' h hv
  have w := hw h hv
  obtain ⟨_, st₁, h₁, _, st₂, h₂, h₃⟩ := by simpa only [block, run_bind_ok] using h
  obtain ⟨-, rfl⟩ := by simpa only [beginScope_run, Except.ok.injEq, Prod.mk.injEq] using h₁
  obtain ⟨g₂, r₂⟩ := hb h₂ hv.beginScope
  obtain ⟨hs, hh, r₃⟩ := endScope_sound h₃ g₂.valid
  exact ⟨w.grows, r₂.seq r₃ ⟨w.valid, hs, hh⟩ g₂.size⟩

/-- `while`: the condition, a jump out past the loop, the body and a jump back to the
condition. -/
theorem whileLoop_sound {cond body : Emit Unit} (hc : cond.Sound c names)
    (hb : body.Sound c names) : (whileLoop cond body line).Sound c names := by
  intro st u st' h hv
  obtain ⟨start, st₀, h₀, _, st₁, h₁, p, st₂, h₂, _, st₃, h₃, _, st₄, h₄, _, st₅, h₅, _, st₆, h₆,
    h₇⟩ := by simpa only [whileLoop, run_bind_ok] using h
  obtain ⟨rfl, rfl⟩ := by simpa only [offset_run, Except.ok.injEq, Prod.mk.injEq] using h₀
  obtain ⟨g₁, r₁⟩ := hc h₁ hv
  obtain ⟨w₂, rfl⟩ := (Writes.refl g₁.valid).andJump h₂
  have w₃ := (Writes.refl w₂.valid).andOp h₃
  obtain ⟨g₄, r₄⟩ := hb h₄ w₃.valid
  have w₅ := (Writes.refl g₄.valid).andLoopBack h₅
  have g₆ : st₁.Grows st₆ :=
    (((w₂.trans w₃).grows.trans g₄).andWrites w₅).andPatch (Nat.le_succ _) h₆
  have w₇ := (Writes.refl g₆.valid).andOp h₇
  have s₂ := size_of_jump h₂
  have s₃ := size_of_op h₃
  have s₅ := size_of_loopBack h₅
  have s₆ := size_of_patch h₆
  have s₇ := size_of_op h₇
  have hle₁ := g₁.size
  have hle₄ := g₄.size
  refine ⟨g₁.trans (g₆.andWrites w₇), fun hcode hnames => ?_⟩
  have hn₇ : st'.names = st₆.names := (quiet_op _ _).names_eq h₇
  have hn₆ : st₆.names = st₄.names := by
    obtain ⟨-, rfl⟩ := patch_ok.mp h₆
    obtain ⟨-, rfl⟩ := loopBack_ok.mp h₅
    rfl
  have hn₃ : st₃.names = st₁.names := by
    rw [(quiet_op _ _).names_eq h₃, (quiet_jump _ _).names_eq h₂]
  have hA : c.Holds st₆.chunk st.chunk.size st₆.chunk.size :=
    hcode.of_writes w₇ (Nat.le_refl _) (by omega)
  have hL : c.Holds st₅.chunk st.chunk.size (st₁.chunk.size + 1) :=
    (hA.mono (Nat.le_refl _) (by omega)).of_patch h₆ (.inl (Nat.le_refl _))
  have hR : c.Holds st₅.chunk (st₁.chunk.size + 3) st₅.chunk.size :=
    (hA.mono (by omega) (by omega)).of_patch h₆ (.inr (Nat.le_refl _))
  have hL₄ : c.Holds st₄.chunk st.chunk.size (st₁.chunk.size + 1) :=
    hL.of_writes w₅ (by omega) (Nat.le_refl _)
  have hR₄ : c.Holds st₄.chunk (st₁.chunk.size + 3) st₄.chunk.size :=
    hR.of_writes w₅ (Nat.le_refl _) (by omega)
  obtain ⟨sq, -⟩ := (sound_op h₇ g₆.valid rfl rfl : SoundRun c names _ _)
    (hcode.mono (by omega) (Nat.le_refl _)) hnames
  obtain ⟨hlb, -, hld⟩ := loop_written h₅ (hR.mono (by omega) (Nat.le_refl _)) (by omega)
  have t₄ : TableGrows st₄.names names :=
    (TableGrows.of_eq hn₆).trans ((TableGrows.of_eq hn₇).trans hnames)
  obtain ⟨sb, gb⟩ := r₄ (hR₄.mono (by omega) (Nat.le_refl _)) t₄
  obtain ⟨sp, -⟩ := (sound_op h₃ w₂.valid rfl rfl : SoundRun c names _ _)
    ((hR₄.mono (by omega) (Nat.le_refl _)).of_grows g₄ (Nat.le_refl _) (by omega)) (gb.trans t₄)
  obtain ⟨hjb, -, hjd⟩ := jump_patched h₂ g₁.valid
    (((hL₄.mono hle₁ (Nat.le_refl _)).of_grows g₄ (by omega) (Nat.le_refl _)).of_writes w₃
      (by omega) (Nat.le_refl _)) h₆ (by omega) (hA.mono (by omega) (by omega))
  obtain ⟨sc, gc⟩ := r₁ ((hL₄.of_grows g₄ (by omega) (Nat.le_refl _)).of_writes (w₂.trans w₃)
    (by omega) (by omega)) ((TableGrows.of_eq hn₃).trans (gb.trans t₄))
  have dj : Decodes c st₁.chunk.size st₂.chunk.size := by
    rw [s₂]
    exact Decodes.jump hjb rfl hjd
  have dl : Decodes c st₄.chunk.size st₅.chunk.size := by
    rw [s₅]
    exact Decodes.jump hlb rfl hld
  rw [s₆] at sq
  have p₂ := sc.1.trans dj
  have p₄ := (p₂.trans sp.1).trans sb.1
  have dall : Decodes c st.chunk.size st'.chunk.size := (p₄.trans dl).trans sq.1
  have lj : c.Lays names st.chunk.size st'.chunk.size st₁.chunk.size st₂.chunk.size := by
    rw [s₂]
    exact Lays.forward hjb (.inr rfl) hjd (by omega) (p₄.trans dl) sq.1
  have ll : c.Lays names st.chunk.size st'.chunk.size st₄.chunk.size st₅.chunk.size := by
    rw [s₅]
    exact Lays.back hlb hld (by omega) (.refl _) dall
  refine ⟨(Lays.within sc (.refl _) dall (by omega)).append (lj.append
    ((Lays.within sp p₂ dall (by omega)).append ((Lays.within sb (p₂.trans sp.1) dall (by omega)).append
      (ll.append (Lays.within sq (p₄.trans dl) dall (Nat.le_refl _)))))), ?_⟩
  exact gc.trans ((TableGrows.of_eq hn₃).trans (gb.trans ((TableGrows.of_eq hn₆).trans
    (.of_eq hn₇))))

/-- `if`: the condition, a jump to the second branch, the first branch and a jump past the
second. -/
theorem ifElse_sound {cond yes no : Emit Unit} (hc : cond.Sound c names) (hy : yes.Sound c names)
    (hn : no.Sound c names) : (ifElse cond yes no line).Sound c names := by
  intro st u st' h hv
  obtain ⟨_, st₁, h₁, p, st₂, h₂, _, st₃, h₃, _, st₄, h₄, q, st₅, h₅, _, st₆, h₆, _, st₇, h₇,
    _, st₈, h₈, h₉⟩ := by simpa only [ifElse, run_bind_ok] using h
  obtain ⟨g₁, r₁⟩ := hc h₁ hv
  obtain ⟨w₂, rfl⟩ := (Writes.refl g₁.valid).andJump h₂
  have w₃ := (Writes.refl w₂.valid).andOp h₃
  obtain ⟨g₄, r₄⟩ := hy h₄ w₃.valid
  obtain ⟨w₅, rfl⟩ := (Writes.refl g₄.valid).andJump h₅
  have g₆ : st₁.Grows st₆ :=
    (((w₂.trans w₃).grows.trans g₄).andWrites w₅).andPatch (Nat.le_succ _) h₆
  have w₇ := (Writes.refl g₆.valid).andOp h₇
  obtain ⟨g₈, r₈⟩ := hn h₈ w₇.valid
  have s₂ := size_of_jump h₂
  have s₃ := size_of_op h₃
  have s₅ := size_of_jump h₅
  have s₆ := size_of_patch h₆
  have s₇ := size_of_op h₇
  have s₉ := size_of_patch h₉
  have hle₁ := g₁.size
  have hle₄ := g₄.size
  have hle₈ := g₈.size
  refine ⟨g₁.trans (((g₆.andWrites w₇).trans g₈).andPatch (by omega) h₉), fun hcode hnames => ?_⟩
  have hn₉ : st'.names = st₈.names := by
    obtain ⟨-, rfl⟩ := patch_ok.mp h₉
    rfl
  have hn₇ : st₇.names = st₄.names := by
    obtain ⟨-, rfl⟩ := patch_ok.mp h₆
    rw [(quiet_op _ _).names_eq h₇, (quiet_jump _ _).names_eq h₅]
  have hn₃ : st₃.names = st₁.names := by
    rw [(quiet_op _ _).names_eq h₃, (quiet_jump _ _).names_eq h₂]
  have hA : c.Holds st₆.chunk st.chunk.size (st₄.chunk.size + 1) :=
    ((hcode.mono (Nat.le_refl _) (by omega)).of_patch h₉ (.inl (Nat.le_refl _))).of_grows
      (w₇.grows.trans g₈) (by omega) (Nat.le_refl _)
  have hB : c.Holds st₈.chunk (st₄.chunk.size + 3) st₈.chunk.size :=
    (hcode.mono (by omega) (by omega)).of_patch h₉ (.inr (Nat.le_refl _))
  have hL : c.Holds st₅.chunk st.chunk.size (st₁.chunk.size + 1) :=
    (hA.mono (Nat.le_refl _) (by omega)).of_patch h₆ (.inl (Nat.le_refl _))
  have hM : c.Holds st₅.chunk (st₁.chunk.size + 3) (st₄.chunk.size + 1) :=
    (hA.mono (by omega) (Nat.le_refl _)).of_patch h₆ (.inr (Nat.le_refl _))
  have hL₄ : c.Holds st₄.chunk st.chunk.size (st₁.chunk.size + 1) :=
    hL.of_writes w₅ (by omega) (Nat.le_refl _)
  have hM₄ : c.Holds st₄.chunk (st₁.chunk.size + 3) st₄.chunk.size :=
    hM.of_writes w₅ (Nat.le_refl _) (by omega)
  have t₈ : TableGrows st₈.names names := (TableGrows.of_eq hn₉).trans hnames
  obtain ⟨sn, gn⟩ := r₈ (hB.mono (by omega) (Nat.le_refl _)) t₈
  obtain ⟨sq, -⟩ := (sound_op h₇ g₆.valid rfl rfl : SoundRun c names _ _)
    ((hB.mono (by omega) (Nat.le_refl _)).of_grows g₈ (Nat.le_refl _) (by omega)) (gn.trans t₈)
  obtain ⟨hkb, -, hkd⟩ := jump_patched h₅ g₄.valid (hM.mono (by omega) (Nat.le_refl _)) h₉
    (by omega) (hcode.mono (by omega) (by omega))
  have t₄ : TableGrows st₄.names names := (TableGrows.of_eq hn₇).trans (gn.trans t₈)
  obtain ⟨sy, gy⟩ := r₄ (hM₄.mono (by omega) (Nat.le_refl _)) t₄
  obtain ⟨sp, -⟩ := (sound_op h₃ w₂.valid rfl rfl : SoundRun c names _ _)
    ((hM₄.mono (by omega) (Nat.le_refl _)).of_grows g₄ (Nat.le_refl _) (by omega)) (gy.trans t₄)
  obtain ⟨hjb, -, hjd⟩ := jump_patched h₂ g₁.valid
    (((hL₄.mono hle₁ (Nat.le_refl _)).of_grows g₄ (by omega) (Nat.le_refl _)).of_writes w₃
      (by omega) (Nat.le_refl _)) h₆ (by omega) (hA.mono (by omega) (by omega))
  obtain ⟨sc, gc⟩ := r₁ ((hL₄.of_grows g₄ (by omega) (Nat.le_refl _)).of_writes (w₂.trans w₃)
    (by omega) (by omega)) ((TableGrows.of_eq hn₃).trans (gy.trans t₄))
  have dj : Decodes c st₁.chunk.size st₂.chunk.size := by
    rw [s₂]
    exact Decodes.jump hjb rfl hjd
  have dk : Decodes c st₄.chunk.size st₅.chunk.size := by
    rw [s₅]
    exact Decodes.jump hkb rfl hkd
  rw [s₆] at sq
  have p₂ := sc.1.trans dj
  have p₅ := ((p₂.trans sp.1).trans sy.1).trans dk
  have dall : Decodes c st.chunk.size st₈.chunk.size := (p₅.trans sq.1).trans sn.1
  have lj : c.Lays names st.chunk.size st₈.chunk.size st₁.chunk.size st₂.chunk.size := by
    rw [s₂]
    exact Lays.forward hjb (.inr rfl) hjd (by omega) p₅ (sq.1.trans sn.1)
  have lk : c.Lays names st.chunk.size st₈.chunk.size st₄.chunk.size st₅.chunk.size := by
    rw [s₅]
    exact Lays.forward hkb (.inl rfl) hkd (by omega) dall (.refl _)
  refine ⟨?_, gc.trans ((TableGrows.of_eq hn₃).trans (gy.trans ((TableGrows.of_eq hn₇).trans
    (gn.trans (.of_eq hn₉)))))⟩
  rw [s₉]
  exact (Lays.within sc (.refl _) dall (by omega)).append (lj.append
    ((Lays.within sp p₂ dall (by omega)).append
      ((Lays.within sy (p₂.trans sp.1) dall (by omega)).append (lk.append
        ((Lays.within sq p₅ dall (by omega)).append
          (Lays.within sn (p₅.trans sq.1) dall (Nat.le_refl _)))))))

theorem declare_sound {name : String} {init : Option (Emit Unit)}
    (hi : ∀ code, init = some code → code.Sound c names) : (declare name init line).Sound c names := by
  have h₀ : (init.getD (op .pushNil line)).Sound c names := by
    cases init with
    | some code => exact hi code rfl
    | none => exact op_sound rfl rfl
  refine Sound.bind h₀ fun _ => Sound.bind get_sound fun e => ?_
  split
  · exact Sound.bind addLocal_sound fun _ => pure_sound _
  · exact global_sound (.inr (.inr rfl))

/-- The inside of a `for` loop's block: the limit and a counter from `0` as the block's two
locals, then a `while` loop that compares them, runs the body and counts. -/
def forBody (name : String) (limit body : Emit Unit) (line : Nat) : Emit Unit := do
  limit
  let limitSlot ← addLocal limitSlotName line
  loadConstant (.number 0) line
  let counter ← addLocal name line
  whileLoop
    (do
      opWith .getLocal counter line
      opWith .getLocal limitSlot line
      op .less line)
    (do
      body
      opWith .getLocal counter line
      loadConstant (.number 1) line
      op .add line
      opWith .setLocal counter line
      op .pop line)
    line

/-- A `for` loop is a block around a `while` loop. -/
theorem forLoop_eq (name : String) (limit body : Emit Unit) (line : Nat) :
    forLoop name limit body line = block (forBody name limit body line) line := by
  simp only [forLoop, block, forBody, whileLoop, bind_assoc]

theorem forLoop_sound {name : String} {limit body : Emit Unit} (hl : limit.Sound c names)
    (hlw : limit.OnlyWrites) (hb : body.Sound c names) (hbw : body.OnlyWrites) :
    (forLoop name limit body line).Sound c names := by
  have hw : (forLoop name limit body line).OnlyWrites := forLoop_onlyWrites hlw hbw
  rw [forLoop_eq] at hw ⊢
  refine block_sound ?_ hw
  unfold forBody
  refine Sound.bind hl fun _ => Sound.bind addLocal_sound fun limitSlot =>
    Sound.bind loadConstant_sound fun _ => Sound.bind addLocal_sound fun counter =>
      whileLoop_sound ?_ ?_
  · exact Sound.bind (opWith_sound rfl rfl) fun _ => Sound.bind (opWith_sound rfl rfl) fun _ =>
      op_sound rfl rfl
  · exact Sound.bind hb fun _ => Sound.bind (opWith_sound rfl rfl) fun _ =>
      Sound.bind loadConstant_sound fun _ => Sound.bind (op_sound rfl rfl) fun _ =>
        Sound.bind (opWith_sound rfl rfl) fun _ => op_sound rfl rfl

end Emit

/-- The code of an expression is sound wherever the compiler writes it. -/
theorem Expr.emit_sound (c : Chunk) (names : List (String × Nat)) (e : Expr) :
    e.emit.Sound c names :=
  fun _ _ _ h hv => ⟨(Expr.emit_writes h hv).grows, Expr.sound c names e h hv⟩

section Statements

variable {c : Chunk} {names : List (String × Nat)}

open Emit

mutual

/-- The code of a placed statement is sound wherever the compiler writes it. -/
theorem Stmt.emit_sound : ∀ (s : Stmt), s.placed true → s.emit.Sound c names
  | .expression e sp, _ => by
    rw [Stmt.emit]
    exact Sound.bind (Expr.emit_sound c names e) fun _ => op_sound rfl rfl
  | .print e sp, _ => by
    rw [Stmt.emit]
    exact Sound.bind (Expr.emit_sound c names e) fun _ => op_sound rfl rfl
  | .declare n ty init sp, _ => by
    rw [Stmt.emit]
    refine declare_sound fun code hcode => ?_
    obtain ⟨e, -, rfl⟩ := Option.map_eq_some_iff.mp hcode
    exact Expr.emit_sound c names e
  | .block body sp, hs => by
    have hb : Stmt.allPlaced body := by simpa [Stmt.placed] using hs
    rw [Stmt.emit]
    exact block_sound (Stmt.emitAll_sound body hb)
      (block_onlyWrites (Stmt.emitAll_declares body hb))
  | .ifElse cnd yes no sp, hs => by
    simp only [Stmt.placed, Bool.and_eq_true] at hs
    rw [Stmt.emit]
    exact ifElse_sound (Expr.emit_sound c names cnd) (Stmt.emit_sound yes (Stmt.placed_item hs.1))
      (Stmt.emitElse_sound no hs.2)
  | .whileLoop cnd body sp, hs => by
    have hb : body.placed false := by simpa [Stmt.placed] using hs
    rw [Stmt.emit]
    exact whileLoop_sound (Expr.emit_sound c names cnd) (Stmt.emit_sound body (Stmt.placed_item hb))
  | .forLoop n limit body sp, hs => by
    have hb : body.placed false := by simpa [Stmt.placed] using hs
    rw [Stmt.emit]
    exact forLoop_sound (Expr.emit_sound c names limit) (fun _ _ h hv => Expr.emit_writes h hv)
      (Stmt.emit_sound body (Stmt.placed_item hb)) (Stmt.emit_onlyWrites body hb)

theorem Stmt.emitElse_sound : ∀ (no : Option Stmt), Stmt.elsePlaced no →
    (Stmt.emitElse no).Sound c names
  | some s, hs => by
    have hs' : s.placed false := by simpa [Stmt.elsePlaced] using hs
    rw [Stmt.emitElse]
    exact Stmt.emit_sound s (Stmt.placed_item hs')
  | none, _ => by
    rw [Stmt.emitElse]
    exact pure_sound ()

theorem Stmt.emitAll_sound : ∀ (ss : List Stmt), Stmt.allPlaced ss →
    (Stmt.emitAll ss).Sound c names
  | [], _ => by
    rw [Stmt.emitAll]
    exact pure_sound ()
  | s :: rest, hs => by
    simp only [Stmt.allPlaced, Bool.and_eq_true] at hs
    rw [Stmt.emitAll]
    exact Sound.bind (Stmt.emit_sound s hs.1) fun _ => Stmt.emitAll_sound rest hs.2

end

end Statements

/-! ## Compiled programs -/

/-- A chunk that reads whole, with `names` its table of globals: a line for every byte; reading
from `0` meets only known instructions with whole operands and ends at the end, the last two
being `NIL` and `RETURN`; every operand is what its instruction needs, and every jump lands on an
instruction read on the way from `0` to the final `NIL`. -/
structure Chunk.WellFormed (c : Chunk) (names : List (String × Nat)) : Prop where
  lines : c.lines.size = c.size
  decodes : c.Decodes 0 c.size
  body : c.Decodes 0 (c.size - 2)
  nil : c.opAt? (c.size - 2) = some .pushNil
  ret : c.opAt? (c.size - 1) = some .ret
  operands : ∀ q, c.Decodes 0 q → q < c.size → c.Operands names 0 (c.size - 2) q

theorem Chunk.byteAt?_finish (c : Chunk) (line : Nat) :
    ((c.write Op.pushNil.byte line).write Op.ret.byte line).byteAt? c.size = some Op.pushNil.byte ∧
      ((c.write Op.pushNil.byte line).write Op.ret.byte line).byteAt? (c.size + 1) =
        some Op.ret.byte := by
  simp [Chunk.byteAt?_write, Op.byte]

theorem Chunk.holds_finish {c : Chunk} (hl : c.lines.size = c.size) (line : Nat) :
    ((c.write Op.pushNil.byte line).write Op.ret.byte line).Holds c 0 c.size :=
  (Chunk.holds_write (by simp [hl]) _ _).trans (Chunk.holds_write hl _ _) (Nat.le_refl _) (by simp)

/-- Sound code from offset `0`, followed by `NIL RETURN`, is a well-formed chunk. -/
theorem Emitter.wellFormed_of_sound {st : Emitter} {line : Nat} (hv : st.Valid)
    (hs : ((st.chunk.write Op.pushNil.byte line).write Op.ret.byte line).Sound st.names 0
      st.chunk.size) :
    ((st.chunk.write Op.pushNil.byte line).write Op.ret.byte line).WellFormed st.names := by
  have hsize : ((st.chunk.write Op.pushNil.byte line).write Op.ret.byte line).size =
      st.chunk.size + 2 := by simp
  obtain ⟨hnil, hret⟩ := Chunk.byteAt?_finish st.chunk line
  have dn := Decodes.single (opAt?_of_byteAt? hnil) (by simp [hsize, Op.operandSize])
  have dr := Decodes.single (opAt?_of_byteAt? hret) (by simp [hsize, Op.operandSize])
  simp only [Op.operandSize, Nat.add_zero] at dn dr
  refine ⟨by simp [hv.lines], ?_, ?_, ?_, ?_, fun q hq hlt => ?_⟩
  · rw [hsize]
    exact hs.1.trans (dn.trans dr)
  · rw [hsize, Nat.add_sub_cancel]
    exact hs.1
  · rw [hsize, Nat.add_sub_cancel]
    exact opAt?_of_byteAt? hnil
  · rw [hsize]
    exact opAt?_of_byteAt? hret
  · rw [hsize, Nat.add_sub_cancel]
    by_cases hq' : q < st.chunk.size
    · exact hs.2 q hq hq'
    · rw [hsize] at hlt
      rcases (show q = st.chunk.size ∨ q = st.chunk.size + 1 by omega) with rfl | rfl
      · exact Operands.plain (opAt?_of_byteAt? hnil) rfl
      · exact Operands.plain (opAt?_of_byteAt? hret) rfl

/-- The chunk of a placed program is well formed, with the table of globals its demands
intern. -/
theorem Chunk.wellFormed_of_ofProgram {p : Program} (hp : Stmt.allPlaced p.body) {c : Chunk}
    (h : Chunk.ofProgram p = .ok c) : c.WellFormed (Demand.interned 0 p.demands) := by
  obtain ⟨st, line, hrun, -, hnames, rfl⟩ := Chunk.ofProgram_ok hp h
  obtain ⟨g, r⟩ := (Stmt.emitAll_sound p.body hp :
    (Stmt.emitAll p.body).Sound ((st.chunk.write Op.pushNil.byte line).write Op.ret.byte line)
      st.names) hrun Emitter.valid_empty
  rw [← hnames]
  exact Emitter.wellFormed_of_sound g.valid (r (Chunk.holds_finish g.valid.lines line) (.refl _)).1

/-- Compiling a placed program fails exactly with the first of its demands over a limit, and so
fails iff its demands exceed the limits.  On success the pool holds exactly the demanded
constants, in order; no global name is interned twice; and every global's instruction reads the
index that the table gives its name, a constant holding that name. -/
theorem Chunk.ofProgram_limits (p : Program) (hp : Stmt.allPlaced p.body) :
    (∀ e, Chunk.ofProgram p = .error e ↔ Demand.firstViolation 0 p.demands = some e) ∧
      ((∃ e, Chunk.ofProgram p = .error e) ↔ ¬ Demand.Within 0 p.demands) ∧
      ∀ c, Chunk.ofProgram p = .ok c →
        c.constants.toList = Demand.pool p.demands ∧
        ((Demand.interned 0 p.demands).map Prod.fst).Nodup ∧
        ∀ q o, c.Decodes 0 q → c.opAt? q = some o →
          (o = .getGlobal ∨ o = .setGlobal ∨ o = .defineGlobal) →
          ∃ x k, c.byteAt? (q + 1) = some k ∧ c.constants[k]? = some (.string x) ∧
            (Demand.interned 0 p.demands).lookup x = some k := by
  refine ⟨Chunk.ofProgram_eq_error p hp, ?_, fun c h =>
    ⟨Chunk.ofProgram_constants hp h, ?_, fun q o hq ho hg => ?_⟩⟩
  · rw [← Demand.firstViolation_eq_none_iff (Nat.zero_le _)]
    constructor
    · rintro ⟨e, he⟩
      rw [(Chunk.ofProgram_eq_error p hp e).mp he]
      exact Option.some_ne_none e
    · intro hn
      obtain ⟨e, he⟩ := Option.ne_none_iff_exists'.mp hn
      exact ⟨e, (Chunk.ofProgram_eq_error p hp e).mpr he⟩
  · rw [Demand.map_fst_interned]
    exact Program.nodup_newNames p
  · have hlt := lt_size_of_byteAt? (Option.bind_eq_some_iff.mp ho).choose_spec.1
    exact ((Chunk.wellFormed_of_ofProgram hp h).operands q hq hlt).global o ho hg

/-- `loopsAndBranches` is placed and compiles, and its constants and globals are as its demands
say. -/
theorem loopsAndBranches_within_limits :
    Stmt.allPlaced loopsAndBranches.body ∧ (Chunk.ofProgram loopsAndBranches).toBool = true ∧
      ((∀ e, Chunk.ofProgram loopsAndBranches = .error e ↔
          Demand.firstViolation 0 loopsAndBranches.demands = some e) ∧
        ((∃ e, Chunk.ofProgram loopsAndBranches = .error e) ↔
          ¬ Demand.Within 0 loopsAndBranches.demands) ∧
        ∀ c, Chunk.ofProgram loopsAndBranches = .ok c →
          c.constants.toList = Demand.pool loopsAndBranches.demands ∧
            ((Demand.interned 0 loopsAndBranches.demands).map Prod.fst).Nodup ∧
            ∀ q o, c.Decodes 0 q → c.opAt? q = some o →
              (o = .getGlobal ∨ o = .setGlobal ∨ o = .defineGlobal) →
              ∃ x k, c.byteAt? (q + 1) = some k ∧ c.constants[k]? = some (.string x) ∧
                (Demand.interned 0 loopsAndBranches.demands).lookup x = some k) :=
  ⟨rfl, by decide +kernel, Chunk.ofProgram_limits loopsAndBranches rfl⟩

end StackScript
