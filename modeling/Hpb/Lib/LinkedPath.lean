import Mathlib.Data.List.Nodup
import Mathlib.Tactic.Common
import Mathlib.Tactic.Linarith

/-!
# Singly linked lists in a store

A store of nodes is given by its `next` pointers, `nxt : α → Option α`. `LinkedPath nxt x l z` says
that following the pointers from `x` visits the nodes of `l` in order and arrives at `z`; a whole
list is a path that arrives at `none`.

* `LinkedPath.append_iff`: paths compose and split,
* `LinkedPath.congr`: the frame rule, only the nodes on a path matter,
* `LinkedPath.unique`, `LinkedPath.nodup`: a list that ends is determined by its start and repeats
  no node.
-/

/-- Following `nxt` from `x` visits `l` and arrives at `z`. -/
def LinkedPath {α : Type*} (nxt : α → Option α) : Option α → List α → Option α → Prop
  | x, [], z => x = z
  | x, a :: l, z => x = some a ∧ LinkedPath nxt (nxt a) l z

namespace LinkedPath

variable {α : Type*} {nxt nxt' : α → Option α} {x y z : Option α} {a b : α} {l l₁ l₂ : List α}

@[simp] theorem nil_iff : LinkedPath nxt x [] z ↔ x = z := Iff.rfl

@[simp] theorem cons_iff :
    LinkedPath nxt x (a :: l) z ↔ x = some a ∧ LinkedPath nxt (nxt a) l z := Iff.rfl

theorem append_iff :
    LinkedPath nxt x (l₁ ++ l₂) z ↔ ∃ y, LinkedPath nxt x l₁ y ∧ LinkedPath nxt y l₂ z := by
  induction l₁ generalizing x with
  | nil => simp
  | cons a l₁ ih => simp [ih, and_assoc]

/-- **Frame rule**: a path survives changes to the pointers of other nodes. -/
theorem congr (h : ∀ a ∈ l, nxt a = nxt' a) (p : LinkedPath nxt x l z) : LinkedPath nxt' x l z := by
  induction l generalizing x with
  | nil => exact p
  | cons a l ih =>
    obtain ⟨rfl, p⟩ := p
    refine ⟨rfl, ?_⟩
    rw [← h a List.mem_cons_self]
    exact ih (fun b hb => h b (List.mem_cons_of_mem _ hb)) p

theorem unique (p : LinkedPath nxt x l₁ none) (q : LinkedPath nxt x l₂ none) : l₁ = l₂ := by
  induction l₁ generalizing x l₂ with
  | nil =>
    cases p
    cases l₂ with
    | nil => rfl
    | cons b l₂ => exact absurd q.1 (by simp)
  | cons a l₁ ih =>
    obtain ⟨rfl, p⟩ := p
    cases l₂ with
    | nil => exact absurd q (by simp)
    | cons b l₂ =>
      obtain ⟨hb, q⟩ := q
      cases hb
      rw [ih p q]

/-- A list that ends repeats no node: the rest of the list after a node is determined by it. -/
theorem nodup (p : LinkedPath nxt x l none) : l.Nodup := by
  induction l generalizing x with
  | nil => exact List.nodup_nil
  | cons a l ih =>
    obtain ⟨-, p⟩ := p
    refine List.nodup_cons.mpr ⟨fun ha => ?_, ih p⟩
    obtain ⟨s, t, rfl⟩ := List.append_of_mem ha
    obtain ⟨y, ps, rfl, pt⟩ := append_iff.mp p
    -- the tail after the second visit of `a` is the tail after the first
    have heq : s ++ a :: t = t := unique p pt
    have := congrArg List.length heq
    simp only [List.length_append, List.length_cons] at this
    omega

/-- The start of a nonempty path is on it. -/
theorem start_mem (p : LinkedPath nxt (some a) l z) (h : l ≠ []) : a ∈ l := by
  cases l with
  | nil => exact absurd rfl h
  | cons b l =>
    obtain ⟨hb, -⟩ := p
    cases hb
    exact List.mem_cons_self

/-- A node other than the start has a predecessor on the path. -/
theorem exists_prev (p : LinkedPath nxt (some a) l none) (hb : b ∈ l) (hne : b ≠ a) :
    ∃ l₁ c l₂, l = l₁ ++ c :: b :: l₂ ∧ nxt c = some b := by
  obtain ⟨s, t, rfl⟩ := List.append_of_mem hb
  obtain ⟨y, ps, rfl, -⟩ := append_iff.mp p
  rcases List.eq_nil_or_concat s with rfl | ⟨s, c, rfl⟩
  · exact absurd (Option.some.inj ps).symm hne
  · rw [List.concat_eq_append] at ps ⊢
    obtain ⟨_, -, rfl, hc⟩ := append_iff.mp ps
    exact ⟨s, c, t, by simp, hc⟩

/-- A list that ends is closed under `next`. -/
theorem next_mem (p : LinkedPath nxt x l none) (ha : a ∈ l) (hb : nxt a = some b) : b ∈ l := by
  obtain ⟨s, t, rfl⟩ := List.append_of_mem ha
  obtain ⟨y, -, rfl, pt⟩ := append_iff.mp p
  rw [hb] at pt
  refine List.mem_append_right _ (List.mem_cons_of_mem _ (pt.start_mem ?_))
  rintro rfl
  cases pt

end LinkedPath
