import StackScript.Syntax.Scope

/-!
# What the scope checks report

`Program.scopeErrors` walks a program with a stack of block scopes whose entries flip from
declared to initialised.  This module states the rules it enforces without that machinery:
`Stmt.mistakes` keeps only the names declared so far in the innermost block, and reports

* a declaration of a name the innermost block already declares, and
* each read of a name in the initialiser of its own first declaration in a block,

in the order of a left-to-right walk; at top level nothing is checked, and a `for` loop's
variable lives in a scope of its own.  `Program.scopeErrors_eq_mistakes` proves that the walk
reports exactly these.  The link is `Tracks`: the innermost scope holds the names the rules
see, each already initialised, and between two statements nothing else; the only name ever
seen uninitialised is the one whose initialiser is being checked.
-/

namespace StackScript

/-- The places where an expression reads the name `n`, in order.  An assignment to `n` is no
read of it; its value is. -/
def Expr.readsOf (n : String) : Expr → List Span
  | .number _ _ | .string _ _ | .bool _ _ | .nil _ => []
  | .var m s => if m = n then [s] else []
  | .assign _ v _ => v.readsOf n
  | .binary _ l r _ | .and l r _ | .or l r _ => l.readsOf n ++ r.readsOf n
  | .unary _ e _ | .group e _ => e.readsOf n

mutual

/-- The scope mistakes of a statement by the rules: `names` are the names declared so far in
the innermost block (`none` at top level, where nothing is checked).  Answers those names
after the statement, and the mistakes in order. -/
def Stmt.mistakes (names : Option (List String)) : Stmt → Option (List String) × List ScopeError
  | .expression _ _ | .print _ _ => (names, [])
  | .declare n _ init span =>
    match names with
    | none => (none, [])
    | some names =>
      if n ∈ names then (some names, [.redeclared n span])
      else
        let reads := match init with
          | some e => (e.readsOf n).map (.selfReference n)
          | none => []
        (some (n :: names), reads)
  | .block body _ => (names, (Stmt.mistakesAll (some []) body).2)
  | .ifElse _ yes no _ =>
    let (names, e1) := yes.mistakes names
    match no with
    | some s =>
      let (names, e2) := s.mistakes names
      (names, e1 ++ e2)
    | none => (names, e1)
  | .whileLoop _ body _ => body.mistakes names
  | .forLoop n _ body _ => (names, (body.mistakes (some [n])).2)

/-- The scope mistakes of statements in order, threading the names of the innermost block. -/
def Stmt.mistakesAll (names : Option (List String)) :
    List Stmt → Option (List String) × List ScopeError
  | [] => (names, [])
  | s :: rest =>
    let (names, e1) := s.mistakes names
    let (names, e2) := Stmt.mistakesAll names rest
    (names, e1 ++ e2)

end

/-! ## Looking names up -/

namespace Scope

@[simp] theorem lookup?_nil (x : String) : Scope.lookup? [] x = none := rfl

theorem lookup?_cons (m x : String) (b : Bool) (sc : Scope) :
    Scope.lookup? ((m, b) :: sc) x = if m = x then some b else sc.lookup? x := by
  by_cases h : m = x <;> simp [Scope.lookup?, h]

end Scope

/-! ## Reads in an expression -/

theorem Expr.selfReads_eq_nil {innermost : Option Scope}
    (h : ∀ sc ∈ innermost, ∀ x, sc.lookup? x ≠ some false) :
    ∀ e : Expr, e.selfReads innermost = []
  | .number _ _ | .string _ _ | .bool _ _ | .nil _ => rfl
  | .var n s => by
    cases innermost with
    | none => rfl
    | some sc => simp [Expr.selfReads, h sc rfl n]
  | .assign _ v _ => v.selfReads_eq_nil h
  | .binary _ l r _ | .and l r _ | .or l r _ => by
    simp only [Expr.selfReads, l.selfReads_eq_nil h, r.selfReads_eq_nil h, List.append_nil]
  | .unary _ e _ | .group e _ => e.selfReads_eq_nil h

/-- A scope whose one uninitialised name is `n` reports the reads of `n`. -/
theorem Expr.selfReads_eq_readsOf {sc : Scope} {n : String}
    (h : ∀ x, sc.lookup? x = some false ↔ x = n) :
    ∀ e : Expr, e.selfReads (some sc) = (e.readsOf n).map (.selfReference n)
  | .number _ _ | .string _ _ | .bool _ _ | .nil _ => rfl
  | .var m s => by
    by_cases hm : m = n
    · subst hm
      simp [Expr.selfReads, Expr.readsOf, (h m).mpr rfl]
    · simp [Expr.selfReads, Expr.readsOf, hm, mt (h m).mp hm]
  | .assign _ v _ => v.selfReads_eq_readsOf h
  | .binary _ l r _ | .and l r _ | .or l r _ => by
    simp only [Expr.selfReads, Expr.readsOf, l.selfReads_eq_readsOf h, r.selfReads_eq_readsOf h,
      List.map_append]
  | .unary _ e _ | .group e _ => e.selfReads_eq_readsOf h

/-! ## The walk tracks the rules -/

/-- The walk's scopes track the names the rules see: no scope at top level, and otherwise an
innermost scope that holds exactly those names, each initialised.  Outer scopes are never
consulted. -/
def Tracks : List Scope → Option (List String) → Prop
  | [], none => True
  | sc :: _, some names => ∀ x, sc.lookup? x = if x ∈ names then some true else none
  | _, _ => False

theorem Tracks.top : Tracks [] none := trivial

theorem Tracks.block (scopes : List Scope) : Tracks ([] :: scopes) (some []) := fun x => by
  simp

theorem Tracks.loop (n : String) (scopes : List Scope) :
    Tracks ([(n, true)] :: scopes) (some [n]) :=
  fun x => by simp [Scope.lookup?_cons, eq_comm]

theorem Tracks.initialised {scopes : List Scope} {names : Option (List String)}
    (h : Tracks scopes names) : ∀ sc ∈ scopes.head?, ∀ x, sc.lookup? x ≠ some false := by
  intro sc hsc x
  match scopes, names, h with
  | sc' :: _, some names, h =>
    obtain rfl : sc' = sc := Option.some.inj hsc
    rw [h x]
    split <;> simp

theorem declare_tracks {sc : Scope} {outer : List Scope} {names : List String} {n : String}
    {ty : Option TypeTag} {init : Option Expr} {span : Span}
    (h : Tracks (sc :: outer) (some names)) :
    Tracks ((Stmt.declare n ty init span).checkScopes (sc :: outer)).1
        ((Stmt.declare n ty init span).mistakes (some names)).1 ∧
      ((Stmt.declare n ty init span).checkScopes (sc :: outer)).2 =
        ((Stmt.declare n ty init span).mistakes (some names)).2 := by
  by_cases hn : n ∈ names
  · have hsome : sc.lookup? n = some true := by rw [h n, if_pos hn]
    simp only [Stmt.checkScopes, Stmt.mistakes, hsome, Option.isSome_some, ↓reduceIte, if_pos hn]
    refine ⟨fun x => ?_, ?_⟩
    · rw [Scope.lookup?_cons]
      by_cases hx : n = x
      · subst hx
        simp [hn]
      · simp [hx, h x]
    · cases init with
      | none => rfl
      | some e =>
        have hinit : ∀ sc' ∈ some sc, ∀ x, sc'.lookup? x ≠ some false := h.initialised
        simp [e.selfReads_eq_nil hinit]
  · have hnone : sc.lookup? n = none := by rw [h n, if_neg hn]
    simp only [Stmt.checkScopes, Stmt.mistakes, hnone, Option.isSome_none, Bool.false_eq_true,
      ↓reduceIte, if_neg hn, List.nil_append]
    refine ⟨fun x => ?_, ?_⟩
    · rw [Scope.lookup?_cons, Scope.lookup?_cons]
      by_cases hx : n = x
      · subst hx
        simp
      · simp [hx, h x, Ne.symm hx]
    · -- while the initialiser is checked, the new name is the one uninitialised name
      have hfalse : ∀ x, Scope.lookup? ((n, false) :: sc) x = some false ↔ x = n := fun x => by
        rw [Scope.lookup?_cons, h x]
        by_cases hx : n = x
        · simp [hx]
        · simp [hx, Ne.symm hx]
      cases init with
      | none => rfl
      | some e => exact e.selfReads_eq_readsOf hfalse

mutual

/-- One statement: the walk and the rules answer the same mistakes, and the walk's scopes go on
tracking the rules' names. -/
theorem Stmt.checkScopes_tracks : ∀ (s : Stmt) {scopes : List Scope}
    {names : Option (List String)}, Tracks scopes names →
      Tracks (s.checkScopes scopes).1 (s.mistakes names).1 ∧
        (s.checkScopes scopes).2 = (s.mistakes names).2
  | .expression e _, _, _, h | .print e _, _, _, h => ⟨h, e.selfReads_eq_nil h.initialised⟩
  | .declare n _ init span, scopes, names, h => by
    match scopes, names, h with
    | [], none, _ => exact ⟨trivial, rfl⟩
    | sc :: outer, some names, h => exact declare_tracks h
  | .block body _, scopes, _, h => ⟨h, (Stmt.checkAll_tracks body (Tracks.block scopes)).2⟩
  | .ifElse c yes none _, _, _, h => by
    have hyes := Stmt.checkScopes_tracks yes h
    simp only [Stmt.checkScopes, Stmt.mistakes, c.selfReads_eq_nil h.initialised, List.nil_append]
    exact hyes
  | .ifElse c yes (some no) _, _, _, h => by
    have hyes := Stmt.checkScopes_tracks yes h
    have hno := Stmt.checkScopes_tracks no hyes.1
    simp only [Stmt.checkScopes, Stmt.mistakes, c.selfReads_eq_nil h.initialised, List.nil_append]
    exact ⟨hno.1, by rw [hyes.2, hno.2]⟩
  | .whileLoop c body _, _, _, h => by
    simp only [Stmt.checkScopes, Stmt.mistakes, c.selfReads_eq_nil h.initialised, List.nil_append]
    exact Stmt.checkScopes_tracks body h
  | .forLoop n limit body _, scopes, _, h => by
    simp only [Stmt.checkScopes, Stmt.mistakes, limit.selfReads_eq_nil h.initialised,
      List.nil_append]
    exact ⟨h, (Stmt.checkScopes_tracks body (Tracks.loop n scopes)).2⟩

theorem Stmt.checkAll_tracks : ∀ (ss : List Stmt) {scopes : List Scope}
    {names : Option (List String)}, Tracks scopes names →
      Tracks (Stmt.checkAll scopes ss).1 (Stmt.mistakesAll names ss).1 ∧
        (Stmt.checkAll scopes ss).2 = (Stmt.mistakesAll names ss).2
  | [], _, _, h => ⟨h, rfl⟩
  | s :: rest, _, _, h => by
    have hs := Stmt.checkScopes_tracks s h
    have hrest := Stmt.checkAll_tracks rest hs.1
    simp only [Stmt.checkAll, Stmt.mistakesAll]
    exact ⟨hrest.1, by rw [hs.2, hrest.2]⟩

end

/-- The scope checks report exactly the mistakes of the rules, in the order of a left-to-right
walk: a redeclaration in a block, and each read of a name in the initialiser of its first
declaration in a block. -/
theorem Program.scopeErrors_eq_mistakes (p : Program) :
    p.scopeErrors = (Stmt.mistakesAll none p.body).2 :=
  (Stmt.checkAll_tracks p.body Tracks.top).2

end StackScript
