import Mathlib
import StackScript.Syntax.Parser

/-!
# Where declarations stand

A `var` declaration stands at the top of a program or directly in a block, never alone as a
branch of an `if` or the body of a loop: the reader takes declarations only where a program or a
block lists its items (`Parser.declaration`), and reads every other statement with
`Parser.statement`, which has no declarations.  `Stmt.placed` says so of a statement.

The compiler relies on it: a local declared as the body of a loop would get one slot at compile
time and a new stack value in every round.

Every program the reader returns is placed (`Program.ofTokens_placed`).  The proof follows the
reader's productions with `Parser.Yields x P`: every value that the production `x` answers, from
any state, satisfies `P`.
-/

namespace StackScript

mutual

/-- Whether every declaration inside a statement stands directly in a block; `item` says whether
the statement itself is an item of a block or of a program, where it may be a declaration. -/
def Stmt.placed (item : Bool) : Stmt → Bool
  | .declare .. => item
  | .block body _ => Stmt.allPlaced body
  | .ifElse _ yes no _ => yes.placed false && Stmt.elsePlaced no
  | .whileLoop _ body _ => body.placed false
  | .forLoop _ _ body _ => body.placed false
  | .expression .. | .print .. => true

/-- Whether the `else` branch of an `if`, if any, is placed. -/
def Stmt.elsePlaced : Option Stmt → Bool
  | some s => s.placed false
  | none => true

/-- Whether every statement of a list is placed as an item. -/
def Stmt.allPlaced : List Stmt → Bool
  | [] => true
  | s :: rest => s.placed true && Stmt.allPlaced rest

end

/-- A statement placed anywhere is placed as an item. -/
theorem Stmt.placed_item {s : Stmt} {item : Bool} (h : s.placed item) : s.placed true := by
  cases s with
  | declare | expression | print => rfl
  | _ => simpa only [Stmt.placed] using h

theorem Stmt.placed_of_item {s : Stmt} (h : s.placed true)
    (hs : ∀ name ty init span, s ≠ .declare name ty init span) : s.placed false := by
  cases s with
  | declare name ty init span => exact absurd rfl (hs name ty init span)
  | expression | print => rfl
  | _ => simpa only [Stmt.placed] using h

theorem Stmt.allPlaced_iff (ss : List Stmt) : Stmt.allPlaced ss ↔ ∀ s ∈ ss, s.placed true := by
  induction ss with
  | nil => simp [Stmt.allPlaced]
  | cons s rest ih => simp [Stmt.allPlaced, ih]

/-! ## What the reader answers -/

namespace Parser

/-- Every value that the production `x` answers, from any state, satisfies `P`. -/
def Yields {α : Type} (x : M α) (P : α → Prop) : Prop :=
  ∀ s a s', x.run.run s = (.ok a, s') → P a

namespace Yields

variable {α β : Type} {P : β → Prop}

theorem run_bind (x : M α) (f : α → M β) (s : State) :
    (x >>= f).run.run s = match x.run.run s with
      | (.ok a, s') => (f a).run.run s'
      | (.error e, s') => (.error e, s') := by
  simp only [ExceptT.run_bind, StateT.run_bind]
  rcases x.run.run s with ⟨_ | a, s'⟩ <;> rfl

theorem pure {b : β} (h : P b) : Yields (Pure.pure b : M β) P := by
  intro s a s' hr
  cases hr
  exact h

theorem throw {e : Stop} : Yields (MonadExcept.throw e : M β) P := by
  intro s a s' hr
  cases hr

theorem bind {x : M α} {f : α → M β} {Q : α → Prop} (hx : Yields x Q)
    (hf : ∀ a, Q a → Yields (f a) P) : Yields (x >>= f) P := by
  intro s b s' hr
  rw [run_bind] at hr
  rcases h₁ : x.run.run s with ⟨_ | a, s₁⟩ <;> rw [h₁] at hr
  · cases hr
  · exact hf a (hx s a s₁ h₁) s₁ b s' hr

theorem mono {x : M β} {Q : β → Prop} (h : Yields x Q) (hq : ∀ b, Q b → P b) : Yields x P :=
  fun s b s' hr => hq b (h s b s' hr)

theorem seq {x : M α} {f : α → M β} (hf : ∀ a, Yields (f a) P) : Yields (x >>= f) P :=
  bind (Q := fun _ => True) (fun _ _ _ _ => trivial) fun a _ => hf a

theorem map {x : M α} {f : α → β} {Q : α → Prop} (hx : Yields x Q) (hf : ∀ a, Q a → P (f a)) :
    Yields (f <$> x) P := by
  rw [← bind_pure_comp]
  exact bind hx fun a ha => pure (hf a ha)

theorem run_tryCatch (x : M β) (h : Stop → M β) (s : State) :
    (tryCatch x h).run.run s = match x.run.run s with
      | (.ok a, s') => (.ok a, s')
      | (.error e, s') => (h e).run.run s' := by
  show (ExceptT.tryCatch x h).run.run s = _
  simp only [ExceptT.tryCatch, ExceptT.run_mk, StateT.run_bind]
  rw [show StateT.run x s = x.run.run s from rfl]
  rcases x.run.run s with ⟨_ | a, s'⟩ <;> rfl

theorem tryCatch {x : M β} {h : Stop → M β} (hx : Yields x P) (hh : ∀ e, Yields (h e) P) :
    Yields (tryCatch x h) P := by
  intro s b s' hr
  rw [run_tryCatch] at hr
  rcases h₁ : x.run.run s with ⟨e | a, s₁⟩ <;> rw [h₁] at hr
  · exact hh e s₁ b s' hr
  · cases hr
    exact hx s b s' h₁

end Yields

theorem placed_pushRead {acc : Array Stmt} {s? : Option Stmt} (hacc : ∀ s ∈ acc, s.placed true)
    (hs? : ∀ s ∈ s?, s.placed true) :
    ∀ s ∈ (match s? with | some s => acc.push s | none => acc), s.placed true := by
  cases s? with
  | none => exact hacc
  | some s =>
    intro t ht
    rcases Array.mem_push.mp ht with ht | rfl
    · exact hacc t ht
    · exact hs? t (by simp)

variable (ts : Array Token)

/-- The reader's productions, with any fuel: a statement is placed anywhere, and a declaration
and the items of blocks and programs are placed as items. -/
theorem yields_placed : ∀ n,
    (∀ depth, Yields (statement ts n depth) (·.placed false)) ∧
    (∀ depth, Yields (declaration ts n depth) (·.placed true)) ∧
    (∀ depth, Yields (recovering ts n depth) fun s? => ∀ s ∈ s?, s.placed true) ∧
    (∀ depth acc, (∀ s ∈ acc, s.placed true) →
      Yields (blockItems ts n depth acc) fun ss => ∀ s ∈ ss, s.placed true) ∧
    (∀ acc, (∀ s ∈ acc, s.placed true) →
      Yields (topItems ts n acc) fun ss => ∀ s ∈ ss, s.placed true)
  | 0 => by
    refine ⟨fun _ => ?_, fun _ => ?_, fun _ => ?_, fun _ _ _ => ?_, fun _ _ => ?_⟩ <;>
      simp only [statement, declaration, recovering, blockItems, topItems] <;> exact Yields.throw
  | n + 1 => by
    obtain ⟨hs, hd, hr, hb, ht⟩ := yields_placed n
    refine ⟨fun depth => ?_, fun depth => ?_, fun depth => ?_, fun depth acc hacc => ?_,
      fun acc hacc => ?_⟩
    · rw [statement]
      dsimp only
      refine Yields.seq fun _ => Yields.seq fun _ => Yields.seq fun b => ?_
      split
      · -- `print`
        exact Yields.seq fun _ => Yields.seq fun _ => Yields.seq fun _ => Yields.seq fun _ =>
          Yields.pure rfl
      refine Yields.seq fun b => ?_
      split
      · -- `if`: both branches are statements
        refine Yields.seq fun _ => Yields.seq fun _ => Yields.seq fun _ => Yields.seq fun _ =>
          Yields.bind (hs _) fun yes hyes => Yields.seq fun b => ?_
        split
        · exact Yields.bind (Yields.map (P := fun no => Stmt.elsePlaced no) (hs _) fun _ h => h) fun no hno =>
            Yields.seq fun _ => Yields.pure (by simp [Stmt.placed, hyes, hno])
        · exact Yields.bind (Yields.pure (P := fun no => Stmt.elsePlaced no) rfl) fun no hno =>
            Yields.seq fun _ => Yields.pure (by simp [Stmt.placed, hyes, hno])
      refine Yields.seq fun b => ?_
      split
      · -- `while`: the body is a statement
        exact Yields.seq fun _ => Yields.seq fun _ => Yields.seq fun _ => Yields.seq fun _ =>
          Yields.bind (hs _) fun body hbody => Yields.seq fun _ =>
            Yields.pure (by simpa [Stmt.placed] using hbody)
      refine Yields.seq fun b => ?_
      split
      · -- `for`: the body is a statement
        exact Yields.seq fun _ => Yields.seq fun _ => Yields.seq fun _ => Yields.seq fun _ =>
          Yields.bind (hs _) fun body hbody => Yields.seq fun _ =>
            Yields.pure (by simpa [Stmt.placed] using hbody)
      refine Yields.seq fun b => ?_
      split
      · -- a block: its items
        exact Yields.seq fun _ => Yields.bind (hb _ _ (by simp)) fun body hbody =>
          Yields.seq fun _ => Yields.seq fun _ =>
            Yields.pure (by simpa [Stmt.placed, Stmt.allPlaced_iff] using hbody)
      · exact Yields.seq fun _ => Yields.seq fun _ => Yields.seq fun _ => Yields.pure rfl
    · rw [declaration]
      dsimp only
      refine Yields.seq fun b => ?_
      split
      · -- `var`: a declaration, placed as an item
        refine Yields.seq fun _ => Yields.seq fun _ => Yields.seq fun _ => Yields.seq fun _ =>
          Yields.seq fun b => ?_
        split <;> exact Yields.seq fun _ => Yields.seq fun _ => Yields.seq fun _ => Yields.pure rfl
      · exact (hs depth).mono fun _ h => Stmt.placed_item h
    · rw [recovering]
      dsimp only
      refine Yields.seq fun _ =>
        Yields.tryCatch (Yields.map (hd depth) fun s hs t ht => by cases ht; exact hs) fun e => ?_
      cases e with
      | exhausted => exact Yields.throw
      | error e =>
        refine Yields.seq fun _ => Yields.seq fun _ => ?_
        split
        · exact Yields.seq fun _ => Yields.seq fun _ => Yields.pure (by simp)
        · exact Yields.seq fun _ => Yields.pure (by simp)
    · rw [blockItems]
      refine Yields.seq fun _ => Yields.seq fun _ => ?_
      split
      · exact Yields.pure hacc
      · exact Yields.bind (hr depth) fun _ hs? => hb depth _ (placed_pushRead hacc hs?)
    · rw [topItems]
      refine Yields.seq fun _ => ?_
      split
      · exact Yields.pure hacc
      · exact Yields.bind (hr 0) fun _ hs? => ht _ (placed_pushRead hacc hs?)

end Parser

/-- Every program the reader returns is placed: its declarations stand where the program or a
block lists its items. -/
theorem Program.ofTokens_placed {tokens : List Token} {p : Program}
    (h : Program.ofTokens tokens = .ok p) : Stmt.allPlaced p.body := by
  simp only [Program.ofTokens, Parser.run] at h
  split at h
  · cases h
  · cases h
  · rename_i body s hrun
    split at h
    · cases h
      have hitems := (Parser.yields_placed _ _).2.2.2.2 #[] (by simp) _ _ _ hrun
      exact (Stmt.allPlaced_iff _).mpr fun s hs => hitems s (by simpa using hs)
    · cases h

/-! ## A program with every kind of jump -/

/-- The tokens of

    var n = 0;
    { var a = true; while (n < 2) n = n + 1; for i in 3 if (a and i < 2) print i; else print n; }

written on one line, as the scanner reads them: a global, a block with a local, a `while` and a
`for` loop, and an `if` with an `else` whose condition is an `and`. -/
def loopsAndBranchesTokens : List Token :=
  [⟨.kwVar, ⟨0, 3, 1, 1⟩⟩, ⟨.identifier "n", ⟨4, 5, 1, 5⟩⟩, ⟨.equal, ⟨6, 7, 1, 7⟩⟩,
    ⟨.number 0, ⟨8, 9, 1, 9⟩⟩, ⟨.semicolon, ⟨9, 10, 1, 10⟩⟩, ⟨.leftBrace, ⟨11, 12, 1, 12⟩⟩,
    ⟨.kwVar, ⟨13, 16, 1, 14⟩⟩, ⟨.identifier "a", ⟨17, 18, 1, 18⟩⟩, ⟨.equal, ⟨19, 20, 1, 20⟩⟩,
    ⟨.bool true, ⟨21, 25, 1, 22⟩⟩, ⟨.semicolon, ⟨25, 26, 1, 26⟩⟩, ⟨.kwWhile, ⟨27, 32, 1, 28⟩⟩,
    ⟨.leftParen, ⟨33, 34, 1, 34⟩⟩, ⟨.identifier "n", ⟨34, 35, 1, 35⟩⟩, ⟨.less, ⟨36, 37, 1, 37⟩⟩,
    ⟨.number 2, ⟨38, 39, 1, 39⟩⟩, ⟨.rightParen, ⟨39, 40, 1, 40⟩⟩,
    ⟨.identifier "n", ⟨41, 42, 1, 42⟩⟩, ⟨.equal, ⟨43, 44, 1, 44⟩⟩,
    ⟨.identifier "n", ⟨45, 46, 1, 46⟩⟩, ⟨.plus, ⟨47, 48, 1, 48⟩⟩, ⟨.number 1, ⟨49, 50, 1, 50⟩⟩,
    ⟨.semicolon, ⟨50, 51, 1, 51⟩⟩, ⟨.kwFor, ⟨52, 55, 1, 53⟩⟩, ⟨.identifier "i", ⟨56, 57, 1, 57⟩⟩,
    ⟨.kwIn, ⟨58, 60, 1, 59⟩⟩, ⟨.number 3, ⟨61, 62, 1, 62⟩⟩, ⟨.kwIf, ⟨63, 65, 1, 64⟩⟩,
    ⟨.leftParen, ⟨66, 67, 1, 67⟩⟩, ⟨.identifier "a", ⟨67, 68, 1, 68⟩⟩, ⟨.kwAnd, ⟨69, 72, 1, 70⟩⟩,
    ⟨.identifier "i", ⟨73, 74, 1, 74⟩⟩, ⟨.less, ⟨75, 76, 1, 76⟩⟩, ⟨.number 2, ⟨77, 78, 1, 78⟩⟩,
    ⟨.rightParen, ⟨78, 79, 1, 79⟩⟩, ⟨.kwPrint, ⟨80, 85, 1, 81⟩⟩,
    ⟨.identifier "i", ⟨86, 87, 1, 87⟩⟩, ⟨.semicolon, ⟨87, 88, 1, 88⟩⟩, ⟨.kwElse, ⟨89, 93, 1, 90⟩⟩,
    ⟨.kwPrint, ⟨94, 99, 1, 95⟩⟩, ⟨.identifier "n", ⟨100, 101, 1, 101⟩⟩,
    ⟨.semicolon, ⟨101, 102, 1, 102⟩⟩, ⟨.rightBrace, ⟨103, 104, 1, 104⟩⟩]

/-- The program `loopsAndBranchesTokens` reads as, every span left at its default. -/
def loopsAndBranches : Program :=
  ⟨[.declare "n" none (some (.number 0 default)) default,
    .block
      [.declare "a" none (some (.bool true default)) default,
        .whileLoop (.binary .lt (.var "n" default) (.number 2 default) default)
          (.expression (.assign "n" (.binary .add (.var "n" default) (.number 1 default) default)
            default) default) default,
        .forLoop "i" (.number 3 default)
          (.ifElse (.and (.var "a" default) (.binary .lt (.var "i" default) (.number 2 default)
              default) default)
            (.print (.var "i" default) default) (some (.print (.var "n" default) default)) default)
          default]
      default]⟩

end StackScript
