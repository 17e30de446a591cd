import Mathlib.Order.Basic
import Mathlib.Order.Lattice
import Mathlib.Tactic.Linarith

/-!
# Metered computations

A computation that can fail, with a record of how it ran: the most levels of nesting that were open at
once, and which events of `κ` happened on the way. The record is kept when the computation fails.

* `Metered.level`: the computation, one level deeper.
* `Metered.mark`: the event happens.
* `Metered.Capped`: a computation that stops with an error where another one goes deeper than `d` levels.
* `Metered.Reports`: a computation that does what another one does and reports a condition.
-/

namespace Hpb

/-- A computation over the events `κ` that fails with an `ε` or returns an `α`. -/
structure Metered (κ ε α : Type) where
  /-- The most levels that were open at once. -/
  peak : Nat
  /-- Whether an event happened. -/
  marked : κ → Bool
  result : Except ε α

namespace Metered

variable {κ ε α β γ : Type}

@[ext] theorem ext {x y : Metered κ ε α} (hpeak : x.peak = y.peak) (hmarked : x.marked = y.marked)
    (hresult : x.result = y.result) : x = y := by
  cases x
  cases y
  simp_all

protected def pure (a : α) : Metered κ ε α := ⟨0, fun _ => false, .ok a⟩

protected def bind (x : Metered κ ε α) (f : α → Metered κ ε β) : Metered κ ε β :=
  match x.result with
  | .error e => ⟨x.peak, x.marked, .error e⟩
  | .ok a => ⟨max x.peak (f a).peak, fun k => x.marked k || (f a).marked k, (f a).result⟩

instance : Monad (Metered κ ε) where
  pure := Metered.pure
  bind := Metered.bind

instance : MonadExceptOf ε (Metered κ ε) where
  throw e := ⟨0, fun _ => false, .error e⟩
  tryCatch x h := match x.result with
    | .error e => ⟨max x.peak (h e).peak, fun k => x.marked k || (h e).marked k, (h e).result⟩
    | .ok _ => x

/-- The computation, one level deeper. -/
def level (x : Metered κ ε α) : Metered κ ε α := { x with peak := x.peak + 1 }

/-- The event `k` happens. -/
def mark [DecidableEq κ] (k : κ) : Metered κ ε Unit := ⟨0, fun j => decide (j = k), .ok ()⟩

section Record

variable {x : Metered κ ε α} {f : α → Metered κ ε β} {a : α} {b : β} {e : ε}

@[simp] theorem result_pure : (pure a : Metered κ ε α).result = .ok a := rfl

@[simp] theorem peak_pure : (pure a : Metered κ ε α).peak = 0 := rfl

@[simp] theorem marked_pure : (pure a : Metered κ ε α).marked = fun _ => false := rfl

@[simp] theorem result_throw : (throw e : Metered κ ε α).result = .error e := rfl

@[simp] theorem peak_throw : (throw e : Metered κ ε α).peak = 0 := rfl

@[simp] theorem marked_throw : (throw e : Metered κ ε α).marked = fun _ => false := rfl

@[simp] theorem result_level : x.level.result = x.result := rfl

@[simp] theorem peak_level : x.level.peak = x.peak + 1 := rfl

@[simp] theorem marked_level : x.level.marked = x.marked := rfl

@[simp] theorem pure_bind : (pure a >>= f : Metered κ ε β) = f a := by
  change Metered.bind (Metered.pure a) f = f a
  simp [Metered.bind, Metered.pure]

theorem bind_of_ok (h : x.result = .ok a) :
    x >>= f = ⟨max x.peak (f a).peak, fun k => x.marked k || (f a).marked k, (f a).result⟩ := by
  change Metered.bind x f = _
  simp only [Metered.bind, h]

theorem bind_of_error (h : x.result = .error e) : x >>= f = ⟨x.peak, x.marked, .error e⟩ := by
  change Metered.bind x f = _
  simp only [Metered.bind, h]

/-- **A sequence returns if both parts do.** -/
theorem result_bind_eq_ok :
    (x >>= f).result = .ok b ↔ ∃ a, x.result = .ok a ∧ (f a).result = .ok b := by
  cases h : x.result with
  | error e => simp [bind_of_error h]
  | ok a => simp [bind_of_ok h]

theorem bind_assoc {g : β → Metered κ ε γ} : x >>= f >>= g = x >>= fun a => f a >>= g := by
  cases h : x.result with
  | error e => simp [bind_of_error h, bind_of_error]
  | ok a =>
    rw [bind_of_ok h, bind_of_ok h]
    cases hf : (f a).result with
    | error e => simp [bind_of_error hf, bind_of_error]
    | ok b => simp [bind_of_ok hf, bind_of_ok, Nat.max_assoc, Bool.or_assoc]

end Record

section Marked

variable [DecidableEq κ] {k : κ} {x : Metered κ ε α} {f : α → Metered κ ε β}

@[simp] theorem result_mark : (mark k : Metered κ ε Unit).result = .ok () := rfl

@[simp] theorem peak_mark : (mark k : Metered κ ε Unit).peak = 0 := rfl

@[simp] theorem marked_mark (j : κ) : (mark k : Metered κ ε Unit).marked j = decide (j = k) := rfl

omit [DecidableEq κ] in
/-- An event did not happen in a sequence, so it did not happen in its parts. -/
theorem marked_of_bind (h : (x >>= f).marked k = false) :
    x.marked k = false ∧ ∀ a, x.result = .ok a → (f a).marked k = false := by
  cases hx : x.result with
  | error e =>
    rw [bind_of_error hx] at h
    exact ⟨h, fun a ha => nomatch ha⟩
  | ok a =>
    rw [bind_of_ok hx] at h
    obtain ⟨h₁, h₂⟩ := Bool.or_eq_false_iff.mp h
    refine ⟨h₁, fun b hb => ?_⟩
    cases hb
    exact h₂

theorem marked_mark_bind {f : Unit → Metered κ ε β} : (mark k >>= f).marked k = true := by
  rw [bind_of_ok result_mark]
  simp

end Marked

/-! ### What a computation returns -/

/-- What the computation returns satisfies `P`. -/
def Ensures (x : Metered κ ε α) (P : α → Prop) : Prop := ∀ a, x.result = .ok a → P a

/-- What the computation returns satisfies `P`, unless the event `k` happened. -/
def EnsuresUnless (k : κ) (x : Metered κ ε α) (P : α → Prop) : Prop := x.marked k = false → x.Ensures P

section Ensures

variable {x : Metered κ ε α} {f : α → Metered κ ε β} {P P' : α → Prop} {Q : β → Prop} {a : α} {e : ε}
  {k : κ}

theorem Ensures.pure (h : P a) : (pure a : Metered κ ε α).Ensures P := by
  intro b hb
  cases hb
  exact h

theorem Ensures.throw : (throw e : Metered κ ε α).Ensures P := fun _ hb => nomatch hb

theorem Ensures.bind (hx : x.Ensures P) (hf : ∀ a, P a → (f a).Ensures Q) : (x >>= f).Ensures Q := by
  intro b hb
  obtain ⟨a, ha, hfa⟩ := result_bind_eq_ok.mp hb
  exact hf a (hx a ha) b hfa

/-- Only the last part decides. -/
theorem Ensures.of_bind (hf : ∀ a, (f a).Ensures Q) : (x >>= f).Ensures Q :=
  Ensures.bind (P := fun _ => True) (fun _ _ => trivial) fun a _ => hf a

theorem Ensures.mono (hx : x.Ensures P) (h : ∀ a, P a → P' a) : x.Ensures P' :=
  fun a ha => h a (hx a ha)

theorem Ensures.level (hx : x.Ensures P) : x.level.Ensures P := hx

theorem Ensures.unless (hx : x.Ensures P) : EnsuresUnless k x P := fun _ => hx

theorem EnsuresUnless.bind (hx : EnsuresUnless k x P) (hf : ∀ a, P a → EnsuresUnless k (f a) Q) :
    EnsuresUnless k (x >>= f) Q := by
  intro hmark b hb
  obtain ⟨hmx, hmf⟩ := marked_of_bind hmark
  obtain ⟨a, ha, hfa⟩ := result_bind_eq_ok.mp hb
  exact hf a (hx hmx a ha) (hmf a ha) b hfa

theorem EnsuresUnless.pure (h : P a) : EnsuresUnless k (pure a : Metered κ ε α) P := (Ensures.pure h).unless

theorem EnsuresUnless.throw : EnsuresUnless k (throw e : Metered κ ε α) P := Ensures.throw.unless

theorem EnsuresUnless.of_bind (hf : ∀ a, EnsuresUnless k (f a) Q) : EnsuresUnless k (x >>= f) Q :=
  EnsuresUnless.bind (P := fun _ => True) (fun _ _ _ => trivial) fun a _ => hf a

theorem EnsuresUnless.level (hx : EnsuresUnless k x P) : EnsuresUnless k x.level P := hx

theorem EnsuresUnless.mark_bind [DecidableEq κ] {f : Unit → Metered κ ε β} :
    EnsuresUnless k (mark k >>= f) Q := by
  intro h
  rw [marked_mark_bind] at h
  exact nomatch h

end Ensures

/-- The computation returns `a`, and the event `k` does not happen. -/
def Yields (k : κ) (x : Metered κ ε α) (a : α) : Prop := x.result = .ok a ∧ x.marked k = false

section Yields

variable {x : Metered κ ε α} {f : α → Metered κ ε β} {k : κ} {a : α} {b : β}

theorem Yields.pure : Yields k (pure a : Metered κ ε α) a := ⟨rfl, rfl⟩

theorem yields_pure_iff {a' : α} : Yields k (Pure.pure a : Metered κ ε α) a' ↔ a = a' := by
  constructor
  · intro h
    exact Except.ok.inj h.1
  · rintro rfl
    exact Yields.pure

theorem not_yields_throw {e : ε} : ¬Yields k (throw e : Metered κ ε α) a := fun h => nomatch h.1

theorem yields_level_iff : Yields k x.level a ↔ Yields k x a := Iff.rfl

/-- **A sequence yields if both parts do.** -/
theorem yields_bind_iff : Yields k (x >>= f) b ↔ ∃ a, Yields k x a ∧ Yields k (f a) b := by
  constructor
  · rintro ⟨hres, hmark⟩
    obtain ⟨a, hx, hf⟩ := result_bind_eq_ok.mp hres
    obtain ⟨hmx, hmf⟩ := marked_of_bind hmark
    exact ⟨a, ⟨hx, hmx⟩, hf, hmf a hx⟩
  · rintro ⟨a, ⟨hx, hmx⟩, hf, hmf⟩
    rw [Yields, bind_of_ok hx]
    exact ⟨hf, Bool.or_eq_false_iff.mpr ⟨hmx, hmf⟩⟩

end Yields

/-! ### How deep a computation goes -/

/-- `x` is `y`, stopped with the error `e` where it goes deeper than `n` levels; nothing is said about
the runs in which the event `k` happened. -/
def Capped (k : κ) (e : ε) (n : Nat) (x y : Metered κ ε α) : Prop :=
  x.marked k = false →
    (y.peak ≤ n ∧ x = y) ∨ (n < y.peak ∧ x.peak ≤ n ∧ x.result = .error e)

section Capped

variable {k : κ} {e : ε} {n : Nat} {x y : Metered κ ε α} {f g : α → Metered κ ε β}

/-- A computation that enters no level. -/
theorem Capped.of_peak (h : x.peak = 0) : Capped k e n x x :=
  fun _ => .inl ⟨h ▸ Nat.zero_le n, rfl⟩

theorem Capped.mark_bind [DecidableEq κ] {f : Unit → Metered κ ε β} {y : Metered κ ε β} :
    Capped k e n (mark k >>= f) y := by
  intro h
  rw [marked_mark_bind] at h
  exact nomatch h

/-- A level of its own makes the cap one lower inside. -/
theorem Capped.level (h : Capped k e n x y) : Capped k e (n + 1) x.level y.level := by
  intro hmark
  obtain ⟨hle, rfl⟩ | ⟨hlt, hle, herr⟩ := h hmark
  · exact .inl ⟨Nat.succ_le_succ hle, rfl⟩
  · exact .inr ⟨Nat.succ_lt_succ hlt, Nat.succ_le_succ hle, herr⟩

/-- No level may be entered. -/
theorem Capped.throw_level : Capped k e 0 (throw e) y.level :=
  fun _ => .inr ⟨Nat.succ_pos _, Nat.le_refl _, rfl⟩

/-- What follows may look at how the first part ran. -/
theorem Capped.bind_of_eq (hx : Capped k e n x y) (hf : x = y → ∀ a, Capped k e n (f a) (g a)) :
    Capped k e n (x >>= f) (y >>= g) := by
  intro hmark
  obtain ⟨hmx, hmf⟩ := marked_of_bind hmark
  obtain ⟨hle, rfl⟩ | ⟨hlt, hle, herr⟩ := hx hmx
  · cases hres : x.result with
    | error e' =>
      rw [bind_of_error hres, bind_of_error hres]
      exact .inl ⟨hle, rfl⟩
    | ok a =>
      rw [bind_of_ok hres, bind_of_ok hres]
      obtain ⟨hle', heq⟩ | ⟨hlt', hle', herr'⟩ := hf rfl a (hmf a hres)
      · exact .inl ⟨Nat.max_le.mpr ⟨hle, hle'⟩, by rw [heq]⟩
      · exact .inr ⟨Nat.lt_of_lt_of_le hlt' (Nat.le_max_right _ _), Nat.max_le.mpr ⟨hle, hle'⟩, herr'⟩
  · rw [bind_of_error herr]
    refine .inr ⟨?_, hle, rfl⟩
    cases hres : y.result with
    | error e' => rwa [bind_of_error hres]
    | ok a =>
      rw [bind_of_ok hres]
      exact Nat.lt_of_lt_of_le hlt (Nat.le_max_left _ _)

theorem Capped.bind (hx : Capped k e n x y) (hf : ∀ a, Capped k e n (f a) (g a)) :
    Capped k e n (x >>= f) (y >>= g) := hx.bind_of_eq fun _ => hf

theorem peak_bind_eq_zero (hx : x.peak = 0) (hf : ∀ a, (f a).peak = 0) : (x >>= f).peak = 0 := by
  cases hres : x.result with
  | error e' => rwa [bind_of_error hres]
  | ok a =>
    rw [bind_of_ok hres]
    exact Nat.max_eq_zero_iff.mpr ⟨hx, hf a⟩

end Capped

/-! ### A condition that is reported -/

/-- Where `x` returns, `y` returns the same or fails with `e`; and `P` is the condition under which it
fails so or the event `k` happens. -/
def Reports (k : κ) (e : ε) (P : Prop) (x y : Metered κ ε α) : Prop :=
  ∀ a, x.result = .ok a →
    (y.result = .ok a ∨ y.result = .error e) ∧ ((y.marked k = true ∨ y.result = .error e) ↔ P)

section Reports

variable {k : κ} {e : ε} {P P' : Prop} {x y : Metered κ ε α} {f g : α → Metered κ ε β} {Q : α → Prop}

theorem Reports.congr (h : Reports k e P x y) (hP : P ↔ P') : Reports k e P' x y :=
  fun a ha => ⟨(h a ha).1, (h a ha).2.trans hP⟩

/-- Nothing is reported by a computation in which the event does not happen. -/
theorem Reports.same (h : x.marked k = false) : Reports k e False x x := by
  intro a ha
  refine ⟨.inl ha, ?_, False.elim⟩
  rintro (hmark | herr)
  · rw [h] at hmark
    exact nomatch hmark
  · rw [ha] at herr
    exact nomatch herr

theorem Reports.throw {e' : ε} : Reports k e P (throw e') y := fun _ ha => nomatch ha

theorem Reports.level (h : Reports k e P x y) : Reports k e P x.level y.level := h

theorem Reports.bind (hx : Reports k e P x y)
    (hf : ∀ a, x.result = .ok a → Reports k e (Q a) (f a) (g a)) :
    Reports k e (P ∨ ∃ a, x.result = .ok a ∧ Q a) (x >>= f) (y >>= g) := by
  intro b hb
  obtain ⟨a, ha, hfa⟩ := result_bind_eq_ok.mp hb
  obtain ⟨hres, hiff⟩ := hx a ha
  obtain hok | herr := hres
  · obtain ⟨hres', hiff'⟩ := hf a ha b hfa
    rw [bind_of_ok hok]
    refine ⟨hres', ?_⟩
    have hP : y.marked k = true ↔ P := by
      rw [← hiff, hok]
      exact ⟨.inl, fun h => h.resolve_right fun herr => nomatch herr⟩
    have hQ : (∃ a, x.result = .ok a ∧ Q a) ↔ Q a := by
      constructor
      · rintro ⟨a', ha', hQ⟩
        rw [ha] at ha'
        cases ha'
        exact hQ
      · exact fun hQ => ⟨a, ha, hQ⟩
    rw [hQ, ← hP, ← hiff', Bool.or_eq_true, or_assoc]
  · rw [bind_of_error herr]
    have hP : P := hiff.mp (.inr herr)
    exact ⟨.inr rfl, fun _ => .inl hP, fun _ => .inr rfl⟩

/-- What comes first reports nothing. -/
theorem Reports.bind_same (hx : x.marked k = false)
    (hf : ∀ a, x.result = .ok a → Reports k e (Q a) (f a) (g a)) :
    Reports k e (∃ a, x.result = .ok a ∧ Q a) (x >>= f) (x >>= g) :=
  ((Reports.same hx).bind hf).congr (false_or _ ▸ Iff.rfl)

/-- What comes first reports nothing, and does not decide. -/
theorem Reports.of_bind (hx : x.marked k = false) (hf : ∀ a, Reports k e P (f a) (g a)) :
    Reports k e P (x >>= f) (x >>= g) := by
  intro b hb
  obtain ⟨a, ha, -⟩ := result_bind_eq_ok.mp hb
  refine (Reports.bind_same hx fun a _ => hf a).congr ?_ b hb
  exact ⟨fun ⟨_, _, hP⟩ => hP, fun hP => ⟨a, ha, hP⟩⟩

/-- What comes last reports nothing. -/
theorem Reports.bind_last (hx : Reports k e P x y) (hf : ∀ a, Reports k e False (f a) (g a)) :
    Reports k e P (x >>= f) (y >>= g) := by
  refine (hx.bind fun a _ => hf a).congr ?_
  simp

theorem marked_bind_eq_false (hx : x.marked k = false) (hf : ∀ a, (f a).marked k = false) :
    (x >>= f).marked k = false := by
  cases hres : x.result with
  | error e' => rwa [bind_of_error hres]
  | ok a =>
    rw [bind_of_ok hres]
    exact Bool.or_eq_false_iff.mpr ⟨hx, hf a⟩

end Reports

end Metered

end Hpb
