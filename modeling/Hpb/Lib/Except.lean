import Mathlib.Tactic.Common
import Mathlib.Tactic.Linarith

/-!
# Computations that may fail

What a computation in `Except` that returned has done, step by step.
-/

namespace Except

variable {ε α β σ : Type}

/-- From `x = .ok a` and what follows it, for peeling a monadic computation. -/
theorem bind_eq_ok {x : Except ε α} {f : α → Except ε β} {b : β} :
    (x >>= f) = .ok b ↔ ∃ a, x = .ok a ∧ f a = .ok b := by
  cases x with
  | error e => simp [bind, Except.bind]
  | ok a => simp [bind, Except.bind]

theorem map_eq_ok {x : Except ε α} {f : α → β} {b : β} : x.map f = .ok b ↔ ∃ a, x = .ok a ∧ f a = b := by
  cases x with
  | error e => simp [Except.map]
  | ok a => simp [Except.map]

/-- **A fold that returned** keeps a relation between its state and what another fold computes. -/
theorem foldlM_ok {τ : Type} {step : σ → α → Except ε σ} {next : τ → α → τ} {R : σ → τ → Prop}
    (h : ∀ s t a s', R s t → step s a = .ok s' → R s' (next t a)) (l : List α) {s s' : σ} {t : τ} (hR : R s t)
    (hrun : l.foldlM step s = .ok s') : R s' (l.foldl next t) := by
  induction l generalizing s t with
  | nil =>
    cases hrun
    exact hR
  | cons a l ih =>
    rw [List.foldlM_cons] at hrun
    obtain ⟨s₁, hstep, hrun⟩ := bind_eq_ok.mp hrun
    exact ih (h _ _ _ _ hR hstep) hrun

end Except
