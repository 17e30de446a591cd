import Mathlib.Tactic.Common
import Mathlib.Tactic.Linarith

/-!
# Systems that answer calls

A `CallSystem` is a component with a state that its clients call: what a call returns and the state after it,
which calls a client may make in a state, and what an abstract state would answer.

* `CallSystem.Reached`: the states that clients reach; `Reached.invariant` is the induction.
* `CallSystem.Behaves`: from a state, every sequence of allowed calls is answered as by an abstract state, up to
  a call that the system gives up. `CallSystem.Simulates.behaves` derives it from one step.
-/

/-- A component with concrete states `σ`, abstract states `τ`, calls `C` and results `E`. -/
structure CallSystem (σ τ C E : Type) where
  /-- The result and the state after a call; `none` is a call that goes wrong. -/
  step : σ → C → Option (E × σ)
  /-- The calls that a client may make. -/
  Allowed : σ → C → Prop
  /-- The calls that the system gives up. -/
  GivesUp : σ → C → Prop
  /-- The abstract state after a call. -/
  next : σ → τ → C → τ
  /-- The results that an abstract state gives. -/
  Answers : σ → τ → C → E → Prop

namespace CallSystem

variable {σ τ C E : Type} (S : CallSystem σ τ C E)

/-- The states that clients reach from some states. -/
inductive Reached (start : σ → Prop) : σ → Prop
  | start {s : σ} : start s → Reached start s
  | call {s s' : σ} {c : C} {e : E} : Reached start s → S.Allowed s c → S.step s c = some (e, s') → Reached start s'

/-- The calls are answered as by an abstract state, as long as they are allowed. -/
def Behaves : σ → τ → List C → Prop
  | _, _, [] => True
  | s, m, c :: cs =>
    S.Allowed s c → ¬S.GivesUp s c →
      ∃ e s', S.step s c = some (e, s') ∧ S.Answers s m c e ∧ Behaves s' (S.next s m c) cs

/-- Related states stay related, and give the same answers. -/
def Simulates (R : σ → τ → Prop) : Prop :=
  ∀ s m c, R s m → S.Allowed s c → ¬S.GivesUp s c →
    ∃ e s', S.step s c = some (e, s') ∧ S.Answers s m c e ∧ R s' (S.next s m c)

variable {S}

/-- **What every allowed call keeps holds in every state that is reached.** -/
theorem Reached.invariant {start I : σ → Prop} (hstart : ∀ s, start s → I s)
    (hstep : ∀ s c e s', I s → S.Allowed s c → S.step s c = some (e, s') → I s') {s : σ} (h : S.Reached start s) :
    I s := by
  induction h with
  | start hs => exact hstart _ hs
  | call _ hallowed hcall ih => exact hstep _ _ _ _ ih hallowed hcall

/-- **Related states behave alike.** -/
theorem Simulates.behaves {R : σ → τ → Prop} (h : S.Simulates R) {s : σ} {m : τ} (hR : R s m) (cs : List C) :
    S.Behaves s m cs := by
  induction cs generalizing s m with
  | nil => trivial
  | cons c cs ih =>
    intro hallowed hgives
    obtain ⟨e, s', hstep, hanswers, hnext⟩ := h s m c hR hallowed hgives
    exact ⟨e, s', hstep, hanswers, ih hnext⟩

end CallSystem
