import Mathlib.Tactic.Common
import Mathlib.Tactic.Linarith

/-!
# Programs that call a service

A `Client` is a program that computes on its own and, now and then, makes a call to a service and goes on
with the reply. It ends with a value or with an error. What the service does with a call is said
separately (`Serve`), as a function on the service's state, which keeps its effects when a call fails.

The program is data, so that a fact about what any program can do to the state is one induction:

* `Client.run_preorder`, `Client.run_keeps`: what every call does to the state, a whole program does;
* `Client.run_simulates`: a program cannot tell two states apart that no call tells apart;
* `Client.run_refines`: a program does the same with two services that are related by a simulation;
* `Client.Wp`: what a program returns, and in which state;
* `Client.Returns`: what a program returns, whatever the service replies.
-/

/-- A program over the calls of a service. -/
inductive Client (Call : Type) (Reply : Call → Type) (ε α : Type) : Type where
  | done (a : α)
  | fail (e : ε)
  | call (c : Call) (next : Reply c → Client Call Reply ε α)

/-- A service: what it replies to a call, and its state after it. -/
abbrev Serve (Call : Type) (Reply : Call → Type) (ε σ : Type) : Type :=
  (c : Call) → σ → Except ε (Reply c) × σ

namespace Client

variable {Call : Type} {Reply : Call → Type} {ε α β σ : Type}

/-- One program after another. -/
def bind : Client Call Reply ε α → (α → Client Call Reply ε β) → Client Call Reply ε β
  | done a, f => f a
  | fail e, _ => fail e
  | call c next, f => call c fun r => (next r).bind f

instance : Monad (Client Call Reply ε) where
  pure := done
  bind := bind

/-- A single call. -/
def request (c : Call) : Client Call Reply ε (Reply c) := call c done

/-- A program with a service. -/
def run (serve : Serve Call Reply ε σ) : Client Call Reply ε α → σ → Except ε α × σ
  | done a, s => (.ok a, s)
  | fail e, s => (.error e, s)
  | call c next, s =>
    match serve c s with
    | (.ok r, s) => (next r).run serve s
    | (.error e, s) => (.error e, s)

theorem run_call (serve : Serve Call Reply ε σ) (c : Call) (next : Reply c → Client Call Reply ε α)
    (s : σ) :
    (call c next).run serve s = match serve c s with
      | (.ok r, s) => (next r).run serve s
      | (.error e, s) => (.error e, s) := by
  rw [run]

/-- The calls that a program makes. -/
def calls (serve : Serve Call Reply ε σ) : Client Call Reply ε α → σ → List Call
  | done _, _ => []
  | fail _, _ => []
  | call c next, s =>
    c :: match serve c s with
      | (.ok r, s) => (next r).calls serve s
      | (.error _, _) => []

theorem calls_call (serve : Serve Call Reply ε σ) (c : Call) (next : Reply c → Client Call Reply ε α)
    (s : σ) :
    (call c next).calls serve s = c :: match serve c s with
      | (.ok r, s) => (next r).calls serve s
      | (.error _, _) => [] := by
  rw [calls]

section Preorder

variable {serve : Serve Call Reply ε σ} {R : σ → σ → Prop} (refl : ∀ s, R s s)
  (trans : ∀ {s s' s''}, R s s' → R s' s'' → R s s'')

include refl trans

/-- **What each call does to the state that a program makes, the program does.** -/
theorem run_keeps {P : Call → Prop} (step : ∀ c s, P c → R s (serve c s).2)
    (x : Client Call Reply ε α) (s : σ) (h : ∀ c ∈ x.calls serve s, P c) : R s (x.run serve s).2 := by
  induction x generalizing s with
  | done a => exact refl s
  | fail e => exact refl s
  | call c next ih =>
    rw [calls_call] at h
    have hc := step c s (h c List.mem_cons_self)
    rw [run_call]
    match serve c s, hc, h with
    | (.ok r, s'), hc, h => exact trans hc (ih r s' fun c' hc' => h c' (List.mem_cons_of_mem c hc'))
    | (.error e, s'), hc, _ => exact hc

/-- **What every call does to the state, a whole program does.** -/
theorem run_preorder (step : ∀ c s, R s (serve c s).2) (x : Client Call Reply ε α) (s : σ) :
    R s (x.run serve s).2 :=
  run_keeps (P := fun _ => True) refl trans (fun c s _ => step c s) x s fun _ _ => trivial

/-- A call that is made is made in some state on the way; it ends the program if it fails. -/
theorem exists_of_mem_calls (step : ∀ c s, R s (serve c s).2) {x : Client Call Reply ε α} {s : σ} {c : Call}
    (hc : c ∈ x.calls serve s) :
    ∃ t, R s t ∧ ((∃ r, (serve c t).1 = .ok r) ∧ R (serve c t).2 (x.run serve s).2 ∨
      ∃ e, (serve c t).1 = .error e ∧ (x.run serve s).1 = .error e) := by
  induction x generalizing s with
  | done a => cases hc
  | fail e => cases hc
  | call c' next ih =>
    rw [calls_call] at hc
    rw [run_call]
    have hstep := step c' s
    by_cases hcc : c' = c
    · subst hcc
      refine ⟨s, refl s, ?_⟩
      match serve c' s with
      | (.ok r, s') => exact .inl ⟨⟨r, rfl⟩, run_preorder refl trans step (next r) s'⟩
      | (.error e, s') => exact .inr ⟨e, rfl, rfl⟩
    · have hrest := (List.mem_cons.mp hc).resolve_left fun heq => hcc heq.symm
      match serve c' s, hrest, hstep with
      | (.ok r, s'), hrest, hstep =>
        obtain ⟨t, ht, hend⟩ := ih r hrest
        exact ⟨t, trans hstep ht, hend⟩
      | (.error e, s'), hrest, _ => cases hrest

end Preorder

/-- **A program cannot tell apart what no call tells apart**, as long as the states that it goes through
are good ones. -/
theorem run_simulates {serve : Serve Call Reply ε σ} {I Good : σ → Prop} {Rel : σ → σ → Prop}
    (inv : ∀ c s, I s → I (serve c s).2 ∧ (Good (serve c s).2 → Good s))
    (step : ∀ c s s', Rel s s' → Good (serve c s).2 → Good (serve c s').2 →
      (serve c s).1 = (serve c s').1 ∧ Rel (serve c s).2 (serve c s').2)
    (x : Client Call Reply ε α) {s s' : σ} (hi : I s) (hi' : I s') (h : Rel s s')
    (hs : Good (x.run serve s).2) (hs' : Good (x.run serve s').2) :
    (x.run serve s).1 = (x.run serve s').1 ∧ Rel (x.run serve s).2 (x.run serve s').2 := by
  -- a good end was reached through good states
  have hback : ∀ (y : Client Call Reply ε α) (t : σ), I t → Good (y.run serve t).2 → Good t := fun y t ht =>
    (run_preorder (R := fun t t' => I t → I t' ∧ (Good t' → Good t)) (fun _ h => ⟨h, id⟩)
      (fun h h' ht => ⟨(h' (h ht).1).1, fun hg => (h ht).2 ((h' (h ht).1).2 hg)⟩) inv y t ht).2
  induction x generalizing s s' with
  | done a => exact ⟨rfl, h⟩
  | fail e => exact ⟨rfl, h⟩
  | call c next ih =>
    have hstep := step c s s' h
    have hc := (inv c s hi).1
    have hc' := (inv c s' hi').1
    rw [run_call] at hs hs' ⊢
    rw [run_call]
    match serve c s, serve c s', hstep, hc, hc', hs, hs' with
    | (.ok r, t), (.ok r', t'), hstep, hc, hc', hs, hs' =>
      obtain ⟨heq, hrel⟩ := hstep (hback _ _ hc hs) (hback _ _ hc' hs')
      cases heq
      exact ih r hc hc' hrel hs hs'
    | (.ok r, t), (.error e, t'), hstep, hc, _, hs, hs' =>
      obtain ⟨heq, -⟩ := hstep (hback _ _ hc hs) hs'
      cases heq
    | (.error e, t), (.ok r, t'), hstep, _, hc', hs, hs' =>
      obtain ⟨heq, -⟩ := hstep hs (hback _ _ hc' hs')
      cases heq
    | (.error e, t), (.error e', t'), hstep, _, _, hs, hs' =>
      obtain ⟨heq, hrel⟩ := hstep hs hs'
      cases heq
      exact ⟨rfl, hrel⟩

/-- **A program does the same with two services that are related by a simulation.** -/
theorem run_refines {τ : Type} {serve : Serve Call Reply ε σ} {serve' : Serve Call Reply ε τ} {Rel : σ → τ → Prop}
    (step : ∀ c s t, Rel s t → (serve c s).1 = (serve' c t).1 ∧ Rel (serve c s).2 (serve' c t).2)
    (x : Client Call Reply ε α) {s : σ} {t : τ} (h : Rel s t) :
    (x.run serve s).1 = (x.run serve' t).1 ∧ Rel (x.run serve s).2 (x.run serve' t).2 := by
  induction x generalizing s t with
  | done a => exact ⟨rfl, h⟩
  | fail e => exact ⟨rfl, h⟩
  | call c next ih =>
    have hstep := step c s t h
    rw [run_call, run_call]
    match serve c s, serve' c t, hstep with
    | (.ok r, s'), (.ok r', t'), ⟨heq, hrel⟩ =>
      cases heq
      exact ih r hrel
    | (.error e, s'), (.error e', t'), ⟨heq, hrel⟩ =>
      cases heq
      exact ⟨rfl, hrel⟩
    | (.ok r, s'), (.error e, t'), ⟨heq, _⟩ => cases heq
    | (.error e, s'), (.ok r, t'), ⟨heq, _⟩ => cases heq

theorem run_bind (serve : Serve Call Reply ε σ) (x : Client Call Reply ε α) (f : α → Client Call Reply ε β)
    (s : σ) :
    (x >>= f).run serve s = match x.run serve s with
      | (.ok a, s) => (f a).run serve s
      | (.error e, s) => (.error e, s) := by
  induction x generalizing s with
  | done a => rfl
  | fail e => rfl
  | call c next ih =>
    change (call c fun r => (next r).bind f).run serve s = _
    rw [run_call, run_call]
    match serve c s with
    | (.ok r, s') => exact ih r s'
    | (.error e, s') => rfl

/-- From a state, a program returns a value and a state with `Q`, or fails with an error with `E`. -/
def Wp (serve : Serve Call Reply ε σ) (E : ε → Prop) (x : Client Call Reply ε α) (s : σ) (Q : α → σ → Prop) :
    Prop :=
  match x.run serve s with
  | (.ok a, s') => Q a s'
  | (.error e, _) => E e

namespace Wp

variable {serve : Serve Call Reply ε σ} {E : ε → Prop} {x : Client Call Reply ε α} {s s' : σ}
  {P Q : α → σ → Prop} {R : β → σ → Prop}

theorem pure {a : α} (h : Q a s) : Wp serve E (pure a) s Q := h

theorem fail {e : ε} (h : E e) : Wp serve E (Client.fail e) s Q := h

theorem bind {f : α → Client Call Reply ε β} (hx : Wp serve E x s Q)
    (hf : ∀ a s', Q a s' → Wp serve E (f a) s' R) : Wp serve E (x >>= f) s R := by
  unfold Wp at hx ⊢
  rw [run_bind]
  match x.run serve s, hx with
  | (.ok a, s'), hx => exact hf a s' hx
  | (.error e, s'), hx => exact hx

theorem imp (hx : Wp serve E x s P) (h : ∀ a s', P a s' → Q a s') : Wp serve E x s Q := by
  unfold Wp at hx ⊢
  match x.run serve s, hx with
  | (.ok a, s'), hx => exact h a s' hx
  | (.error e, s'), hx => exact hx

/-- A call that succeeds. -/
theorem request {c : Call} {r : Reply c} {Q : Reply c → σ → Prop} (hc : serve c s = (.ok r, s')) (h : Q r s') :
    Wp serve E (request c) s Q := by
  unfold Wp Client.request
  rw [run_call, hc]
  exact h

/-- A call that succeeds, and a program after it. -/
theorem request_bind {c : Call} {r : Reply c} {t : σ} {f : Reply c → Client Call Reply ε β}
    (hc : serve c s = (.ok r, t)) (hf : Wp serve E (f r) t R) : Wp serve E (Client.request c >>= f) s R :=
  bind (Q := fun a u => a = r ∧ u = t) (request hc ⟨rfl, rfl⟩) fun _ _ ⟨ha, ht⟩ => ha ▸ ht ▸ hf

theorem of_run {a : α} (hx : Wp serve E x s Q) (h : x.run serve s = (.ok a, s')) : Q a s' := by
  rw [Wp, h] at hx
  exact hx

theorem error_of_run {e : ε} (hx : Wp serve E x s Q) (h : x.run serve s = (.error e, s')) : E e := by
  rw [Wp, h] at hx
  exact hx

end Wp

/-- What a program returns has `Q`, whatever the replies to its calls are. -/
def Returns (Q : α → Prop) : Client Call Reply ε α → Prop
  | done a => Q a
  | fail _ => True
  | call _ next => ∀ r, (next r).Returns Q

namespace Returns

variable {x : Client Call Reply ε α} {P Q : α → Prop} {R : β → Prop}

theorem bind {f : α → Client Call Reply ε β} (hx : x.Returns Q) (hf : ∀ a, Q a → (f a).Returns R) :
    (x >>= f).Returns R := by
  induction x with
  | done a => exact hf a hx
  | fail e => trivial
  | call c next ih => exact fun r => ih r (hx r)

theorem imp (hx : x.Returns P) (h : ∀ a, P a → Q a) : x.Returns Q := by
  induction x with
  | done a => exact h a hx
  | fail e => trivial
  | call c next ih => exact fun r => ih r (hx r)

/-- With a service that replies to its calls, a program returns what it does with any. -/
theorem of_run {serve : Serve Call Reply ε σ} {s s' : σ} {a : α} (hx : x.Returns Q) (h : x.run serve s = (.ok a, s')) :
    Q a := by
  induction x generalizing s with
  | done a =>
    cases h
    exact hx
  | fail e => cases h
  | call c next ih =>
    rw [run_call] at h
    split at h
    · exact ih _ (hx _) h
    · cases h

theorem wp (hx : x.Returns Q) (serve : Serve Call Reply ε σ) (s : σ) : Wp serve (fun _ => True) x s fun a _ => Q a := by
  unfold Wp
  match hrun : x.run serve s with
  | (.ok a, s') => exact hx.of_run hrun
  | (.error e, s') => trivial

end Returns

end Client
