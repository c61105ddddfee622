import StackScript.Proofs.Stepping

/-!
# Instruction budgets

A run of the machine is a sequence of dispatches.  `Machine.Steps c n m m'` says that `n`
dispatches lead from `m` to `m'`, none of them ending the run, and `Machine.Stops c m r m'` that
the dispatch from `m` ends it, by `RETURN` (`r = .ok ()`) or by a runtime error (`r = .error e`).
Together they describe the run with no budget at all, however long it is.

The main statement is `Machine.execute_budget`: with a budget of `n` instructions, `execute`
ends as the run does when the run ends within its first `n` dispatches, in the same machine; and
otherwise it fails with `budgetExhausted n` at the line of the offset reached after `n`
dispatches, in the machine reached there.  Dispatches are deterministic (`Steps.det`,
`Stops.not_steps`), so the two cases exclude each other.
-/

namespace StackScript

namespace Machine

variable {c : Chunk}

/-- `n` dispatches lead from `m` to `m'`, none of them returning or failing. -/
inductive Steps (c : Chunk) : Nat → Machine → Machine → Prop
  | refl (m : Machine) : Steps c 0 m m
  | step {m m₁ m₂ : Machine} {n : Nat} : next c m = (.ok false, m₁) → Steps c n m₁ m₂ →
      Steps c (n + 1) m m₂

/-- The dispatch from `m` ends the run in `m'`: `RETURN` ends it with `ok`, a failure with its
error. -/
def Stops (c : Chunk) (m : Machine) (r : Except RuntimeError Unit) (m' : Machine) : Prop :=
  (next c m = (.ok true, m') ∧ r = .ok ()) ∨ ∃ e, next c m = (.error e, m') ∧ r = .error e

/-- How `execute` reports an outcome of `run` with a budget of `n`. -/
def Outcome.report (n : Nat) (c : Chunk) : Outcome × Machine → Except RuntimeError Unit × Machine
  | (.finished, m) => (.ok (), m)
  | (.failed e, m) => (.error e, m)
  | (.outOfSteps, m) => (.error (.budgetExhausted n (c.lineAt m.ip)), m)

theorem execute_eq (trace : Bool) (n : Nat) (c : Chunk) (m : Machine) :
    execute ⟨trace, some n⟩ c m = Outcome.report n c (run c n { m with stack := #[], ip := 0 }) := by
  simp only [execute, Option.getD_some]
  rcases run c n { m with stack := #[], ip := 0 } with ⟨_ | _ | _, _⟩ <;> rfl

namespace Steps

variable {m m₁ m₂ : Machine} {n k : Nat}

theorem trans (h₁ : Steps c n m m₁) (h₂ : Steps c k m₁ m₂) : Steps c (n + k) m m₂ := by
  induction h₁ with
  | refl => simpa using h₂
  | step hnext _ ih =>
    rw [Nat.add_right_comm]
    exact .step hnext (ih h₂)

/-- Dispatches are deterministic. -/
theorem det (h₁ : Steps c n m m₁) (h₂ : Steps c n m m₂) : m₁ = m₂ := by
  induction h₁ with
  | refl => cases h₂; rfl
  | step hnext _ ih =>
    cases h₂ with
    | step hnext' h₂' =>
      rw [hnext] at hnext'
      cases hnext'
      exact ih h₂'

theorem split (h : Steps c n m m₂) (hk : k ≤ n) : ∃ m₁, Steps c k m m₁ ∧ Steps c (n - k) m₁ m₂ := by
  induction h generalizing k with
  | refl =>
    obtain rfl := Nat.le_zero.mp hk
    exact ⟨_, .refl _, .refl _⟩
  | @step m m₁ m₂ n hnext _ ih =>
    cases k with
    | zero => exact ⟨m, .refl m, .step hnext ‹_›⟩
    | succ k =>
      obtain ⟨m', h₁, h₂⟩ := ih (Nat.le_of_succ_le_succ hk)
      exact ⟨m', .step hnext h₁, by simpa using h₂⟩

theorem run_add (h : Steps c n m m₁) (j : Nat) : run c (n + j) m = run c j m₁ := by
  induction h with
  | refl => simp
  | @step m m₁ m₂ n hnext _ ih =>
    rw [Nat.add_right_comm, run_succ, hnext]
    exact ih

end Steps

/-- A machine whose dispatch ends the run takes no further step. -/
theorem Stops.not_steps {m m₁ m' : Machine} {r : Except RuntimeError Unit}
    (hs : Stops c m r m') (h : next c m = (.ok false, m₁)) : False := by
  rcases hs with ⟨hn, -⟩ | ⟨e, hn, -⟩ <;> rw [hn] at h <;> cases h

theorem Stops.not_steps_after {m m₁ m₂ m' : Machine} {k n : Nat} {r : Except RuntimeError Unit}
    (hk : Steps c k m m₁) (hs : Stops c m₁ r m') (hn : Steps c n m m₂) (hkn : k < n) : False := by
  obtain ⟨m₃, h₁, h₂⟩ := hn.split (Nat.le_of_lt hkn)
  obtain rfl := hk.det h₁
  obtain ⟨j, hj⟩ : ∃ j, n - k = j + 1 := ⟨n - k - 1, by omega⟩
  rw [hj] at h₂
  cases h₂ with
  | step hnext _ => exact hs.not_steps hnext

theorem Stops.run {m m' : Machine} {r : Except RuntimeError Unit} (hs : Stops c m r m')
    (n : Nat) (b : Nat) : Outcome.report b c (run c (n + 1) m) = (r, m') := by
  rw [run_succ]
  rcases hs with ⟨hn, rfl⟩ | ⟨e, hn, rfl⟩ <;> rw [hn] <;> rfl

/-- Every run of `n` steps either stops within its first `n` dispatches or makes all `n`. -/
theorem run_cases (n : Nat) (m : Machine) :
    (∃ k < n, ∃ m₁ r m', Steps c k m m₁ ∧ Stops c m₁ r m') ∨ Steps c n m (run c n m).2 ∧
      (run c n m).1 = .outOfSteps := by
  induction n generalizing m with
  | zero => exact .inr ⟨.refl m, rfl⟩
  | succ n ih =>
    rcases hnext : next c m with ⟨_ | returned, m₁⟩
    · exact .inl ⟨0, Nat.zero_lt_succ n, m, _, m₁, .refl m, .inr ⟨_, hnext, rfl⟩⟩
    · cases returned
      · rcases ih m₁ with ⟨k, hk, m₂, r, m', h₁, h₂⟩ | ⟨h₁, h₂⟩
        · exact .inl ⟨k + 1, by omega, m₂, r, m', .step hnext h₁, h₂⟩
        · rw [run_succ, hnext]
          exact .inr ⟨.step hnext h₁, h₂⟩
      · exact .inl ⟨0, Nat.zero_lt_succ n, m, _, m₁, .refl m, .inl ⟨hnext, rfl⟩⟩

/-- With a budget of `n` instructions, a run is the run without a budget cut after `n`
dispatches: it ends as that run ends within its first `n` dispatches, with the same globals,
stack and printed lines, and otherwise fails with `budgetExhausted n` at the line of the offset
the `n` dispatches reach (`0` past the end), with the globals, stack and printed lines they
leave. -/
theorem execute_budget (trace : Bool) (n : Nat) (c : Chunk) (m : Machine)
    (r : Except RuntimeError Unit) (m' : Machine) :
    execute ⟨trace, some n⟩ c m = (r, m') ↔
      (∃ k < n, ∃ m₁, Steps c k { m with stack := #[], ip := 0 } m₁ ∧ Stops c m₁ r m') ∨
        (Steps c n { m with stack := #[], ip := 0 } m' ∧
          r = .error (.budgetExhausted n (c.lineAt m'.ip))) := by
  rw [execute_eq]
  generalize { m with stack := #[], ip := 0 } = m₀
  rcases run_cases (c := c) n m₀ with ⟨k, hk, m₁, r₁, m₂, h₁, h₂⟩ | ⟨h₁, h₂⟩
  · -- the run stops at dispatch `k + 1 ≤ n`: the budget sees the same ending
    have hrun : Outcome.report n c (run c n m₀) = (r₁, m₂) := by
      obtain ⟨j, rfl⟩ : ∃ j, n = k + (j + 1) := ⟨n - k - 1, by omega⟩
      rw [h₁.run_add, h₂.run]
    rw [hrun]
    constructor
    · rintro ⟨rfl, rfl⟩
      exact .inl ⟨k, hk, m₁, h₁, h₂⟩
    · rintro (⟨k', hk', m₁', h₁', h₂'⟩ | ⟨hn, -⟩)
      · -- the two stopping points are the same dispatch
        rcases Nat.lt_trichotomy k k' with hlt | rfl | hlt
        · exact (h₂.not_steps_after h₁ (h₁'.trans (.refl _)) hlt).elim
        · obtain rfl := h₁.det h₁'
          rcases h₂ with ⟨hn, rfl⟩ | ⟨e, hn, rfl⟩ <;>
            rcases h₂' with ⟨hn', rfl⟩ | ⟨e', hn', rfl⟩ <;> rw [hn] at hn' <;> cases hn' <;> rfl
        · exact (h₂'.not_steps_after h₁' h₁ hlt).elim
      · exact (h₂.not_steps_after h₁ hn hk).elim
  · -- the run makes all `n` dispatches: the budget runs out where they lead
    rcases hr : run c n m₀ with ⟨o, m₂⟩
    rw [hr] at h₁ h₂
    dsimp only at h₁ h₂
    subst h₂
    constructor
    · rintro ⟨rfl, rfl⟩
      exact .inr ⟨h₁, rfl⟩
    · rintro (⟨k, hk, m₁, h₁', h₂'⟩ | ⟨hn, rfl⟩)
      · exact (h₂'.not_steps_after h₁' h₁ hk).elim
      · obtain rfl := h₁.det hn
        rfl

/-- A run that stops within `n` dispatches ends the same with a budget of `n` instructions as
with none. -/
theorem execute_budget_of_stops {trace trace' : Bool} {n k : Nat} {c : Chunk} {m m₁ m' : Machine}
    {r : Except RuntimeError Unit} (hk : k < n) (hn : n ≤ unboundedSteps)
    (h₁ : Steps c k { m with stack := #[], ip := 0 } m₁) (h₂ : Stops c m₁ r m') :
    execute ⟨trace, some n⟩ c m = (r, m') ∧ execute ⟨trace', none⟩ c m = (r, m') := by
  have hnone : execute ⟨trace', none⟩ c m = execute ⟨trace', some unboundedSteps⟩ c m := rfl
  rw [hnone, execute_budget, execute_budget]
  exact ⟨.inl ⟨k, hk, m₁, h₁, h₂⟩, .inl ⟨k, by omega, m₁, h₁, h₂⟩⟩

end Machine

end StackScript
