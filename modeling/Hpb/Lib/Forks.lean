import Mathlib.Data.List.Flatten
import Mathlib.Tactic.Linarith

/-!
# Lists that fork, and lists of the same length in pieces

Two lists fork if there is a place in both where they differ, after the same entries. A list that forks from
another one does so whatever comes after the two.

* `Forks`, with its rules for `++`.
* `length_flatMap_eq_iff`: two lists in pieces, the pieces of the one not longer than those of the other, are
  of the same length if the pieces are.
-/

namespace Hpb

variable {α β : Type}

/-- The lists differ at some place, after the same entries. -/
def Forks (l l' : List α) : Prop :=
  ∃ same x y rest rest', x ≠ y ∧ l = same ++ x :: rest ∧ l' = same ++ y :: rest'

section Forks

variable {l l' : List α}

theorem Forks.head {x y : α} (h : x ≠ y) (rest rest' : List α) : Forks (x :: rest) (y :: rest') :=
  ⟨[], x, y, rest, rest', h, rfl, rfl⟩

theorem Forks.append (h : Forks l l') (t t' : List α) : Forks (l ++ t) (l' ++ t') := by
  obtain ⟨same, x, y, rest, rest', hne, rfl, rfl⟩ := h
  exact ⟨same, x, y, rest ++ t, rest' ++ t', hne, by rw [List.append_assoc, List.cons_append],
    by rw [List.append_assoc, List.cons_append]⟩

theorem Forks.prepend (h : Forks l l') (p : List α) : Forks (p ++ l) (p ++ l') := by
  obtain ⟨same, x, y, rest, rest', hne, rfl, rfl⟩ := h
  exact ⟨p ++ same, x, y, rest, rest', hne, by rw [List.append_assoc], by rw [List.append_assoc]⟩

theorem Forks.ne (h : Forks l l') : l ≠ l' := by
  obtain ⟨same, x, y, rest, rest', hne, rfl, rfl⟩ := h
  intro heq
  exact hne (List.cons.inj (List.append_cancel_left heq)).1

end Forks

variable {f g : α → List β} {l : List α}

theorem length_flatMap_le (h : ∀ x ∈ l, (f x).length ≤ (g x).length) :
    (l.flatMap f).length ≤ (l.flatMap g).length := by
  induction l with
  | nil => exact Nat.le_refl 0
  | cons x l ih =>
    obtain ⟨hx, hl⟩ := List.forall_mem_cons.mp h
    rw [List.flatMap_cons, List.flatMap_cons, List.length_append, List.length_append]
    exact Nat.add_le_add hx (ih hl)

theorem length_flatMap_eq_iff (h : ∀ x ∈ l, (f x).length ≤ (g x).length) :
    (l.flatMap f).length = (l.flatMap g).length ↔ ∀ x ∈ l, (f x).length = (g x).length := by
  induction l with
  | nil => exact iff_of_true rfl (List.forall_mem_nil _)
  | cons x l ih =>
    obtain ⟨hx, hl⟩ := List.forall_mem_cons.mp h
    have hle := length_flatMap_le hl
    rw [List.flatMap_cons, List.flatMap_cons, List.length_append, List.length_append, List.forall_mem_cons,
      ← ih hl]
    omega

end Hpb
