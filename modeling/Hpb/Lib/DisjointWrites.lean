import Mathlib.Data.List.Basic
import Mathlib.Tactic.Common
import Mathlib.Tactic.Linarith

/-!
# Writes to disjoint places of a list

`WritesAt S w fs fs'` says that `fs'` is `fs` with `w` applied at the places in `S` and nowhere else.
A loop whose steps write at pairwise disjoint places leaves at each place what one step wrote there,
in whatever order the steps are made (`foldl_writesAt`). A step may need its own places untouched
until it is made (`Ready`), as one that follows links stored in them does.
-/

/-- `fs'` is `fs` with `w` applied at the places in `S`. -/
def WritesAt {F : Type*} (S : List Nat) (w : F → F) (fs fs' : List F) : Prop :=
  ∀ j : Nat, fs'[j]? = if j ∈ S then (fs[j]?).map w else fs[j]?

namespace WritesAt

variable {F : Type*} {S : List Nat} {w : F → F} {fs fs' : List F} {j : Nat}

theorem mem (h : WritesAt S w fs fs') (hj : j ∈ S) : fs'[j]? = (fs[j]?).map w := by
  rw [h j, if_pos hj]

theorem not_mem (h : WritesAt S w fs fs') (hj : j ∉ S) : fs'[j]? = fs[j]? := by
  rw [h j, if_neg hj]

theorem refl : WritesAt [] w fs fs := fun j => by simp

/-- One place. -/
theorem set {i : Nat} {f : F} (h : fs[i]? = some f) : WritesAt [i] w fs (fs.set i (w f)) := by
  intro j
  have hlt : i < fs.length := (List.getElem?_eq_some_iff.mp h).1
  by_cases hj : i = j
  · subst hj
    rw [List.getElem?_set_self hlt, if_pos (List.mem_singleton_self i), h, Option.map_some]
  · simp [List.getElem?_set_ne hj, Ne.symm hj]

/-- One place, then others. -/
theorem cons {i : Nat} {f : F} {fs'' : List F} (h : fs[i]? = some f) (hi : i ∉ S)
    (hr : WritesAt S w (fs.set i (w f)) fs'') : WritesAt (i :: S) w fs fs'' := by
  intro j
  by_cases hj : j = i
  · subst hj
    rw [hr.not_mem hi, (set h).mem (List.mem_singleton_self j), if_pos List.mem_cons_self]
  · have hset : (fs.set i (w f))[j]? = fs[j]? := (set h).not_mem (by simpa using hj)
    rw [hr j, hset]
    simp [hj]

end WritesAt

/-- **A loop that writes at disjoint places.** -/
theorem foldl_writesAt {F ι : Type*} {step : List F → ι → List F} {S : ι → List Nat}
    {w : ι → F → F} {Ready : List F → ι → Prop}
    (hstep : ∀ fs a, Ready fs a → WritesAt (S a) (w a) fs (step fs a))
    (hframe : ∀ fs fs' a, Ready fs a → (∀ j ∈ S a, fs'[j]? = fs[j]?) → Ready fs' a)
    {items : List ι} (hd : items.Pairwise fun a b => List.Disjoint (S a) (S b)) {fs : List F}
    (hr : ∀ a ∈ items, Ready fs a) :
    (∀ a ∈ items, ∀ j ∈ S a, (items.foldl step fs)[j]? = (fs[j]?).map (w a)) ∧
      ∀ j, (∀ a ∈ items, j ∉ S a) → (items.foldl step fs)[j]? = fs[j]? := by
  induction items generalizing fs with
  | nil => simp
  | cons b items ih =>
    obtain ⟨hb, hd⟩ := List.pairwise_cons.mp hd
    have hw := hstep fs b (hr b List.mem_cons_self)
    -- the first step leaves the places of the others alone
    have hsame : ∀ a ∈ items, ∀ j ∈ S a, (step fs b)[j]? = fs[j]? := fun a ha j hj =>
      hw.not_mem fun hjb => hb a ha hjb hj
    obtain ⟨ihw, iho⟩ := ih hd fun a ha =>
      hframe fs _ a (hr a (List.mem_cons_of_mem _ ha)) (hsame a ha)
    refine ⟨fun a ha j hj => ?_, fun j hj => ?_⟩
    · obtain rfl | ha := List.mem_cons.mp ha
      · rw [List.foldl_cons, iho j fun c hc hjc => hb c hc hj hjc]
        exact hw.mem hj
      · rw [List.foldl_cons, ihw a ha j hj, hsame a ha j hj]
    · rw [List.foldl_cons, iho j fun a ha => hj a (List.mem_cons_of_mem _ ha)]
      exact hw.not_mem (hj b List.mem_cons_self)
