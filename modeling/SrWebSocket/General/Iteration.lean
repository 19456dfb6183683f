import Mathlib.Data.Nat.Notation
import Mathlib.Logic.Relation
import Mathlib.Tactic.Common

/-! # Loops as iterated steps

The body of a loop either continues with a new state or leaves the loop with a
result. `run` executes a body for a bounded number of iterations; `none` says
that the bound was reached, never that the loop failed. Every larger bound gives
the same result.
-/
namespace SrWebSocket.Iteration
variable {σ ρ : Type*}

/-- At most `fuel` iterations of the body `step` from state `s`. -/
def run (step : σ → σ ⊕ ρ) : ℕ → σ → Option ρ
  | 0, _ => none
  | fuel + 1, s =>
    match step s with
    | .inl t => run step fuel t
    | .inr r => some r

variable {step : σ → σ ⊕ ρ} {s t : σ} {r : ρ}

theorem run_continue (h : step s = .inl t) (fuel : ℕ) : run step (fuel + 1) s = run step fuel t := by
  simp only [run, h]

theorem run_exit (h : step s = .inr r) (fuel : ℕ) : run step (fuel + 1) s = some r := by
  simp only [run, h]

/-- More fuel never changes a result. -/
theorem run_mono {n m : ℕ} (h : run step n s = some r) (hnm : n ≤ m) : run step m s = some r := by
  induction n generalizing s m with
  | zero => simp [run] at h
  | succ n ih =>
    obtain ⟨m, rfl⟩ : ∃ k, m = k + 1 := ⟨m - 1, by omega⟩
    cases hs : step s with
    | inl t =>
      rw [run_continue hs] at h ⊢
      exact ih h (by omega)
    | inr q =>
      rw [run_exit hs] at h ⊢
      exact h

theorem run_unique {n m : ℕ} {q : ρ} (h : run step n s = some r) (hq : run step m s = some q) : r = q := by
  have hr := run_mono h (Nat.le_max_left n m)
  rw [run_mono hq (Nat.le_max_right n m)] at hr
  exact (Option.some.inj hr).symm

/-- The states in which the body is started. -/
def Visits (step : σ → σ ⊕ ρ) : σ → σ → Prop := Relation.ReflTransGen fun s t => step s = .inl t

theorem visits_invariant (I : σ → Prop) (hstep : ∀ s t, I s → step s = .inl t → I t) (hs : I s)
    (h : Visits step s t) : I t := by
  induction h with
  | refl => exact hs
  | tail _ he ih => exact hstep _ _ ih he

end SrWebSocket.Iteration
