import Mathlib.Data.List.Forall2
import Mathlib.Data.List.Perm.Basic
import Mathlib.Tactic.Linarith

/-!
# Lists of pairs with other values

`Revalued g l l'`: the pairs of `l'` have the keys of those of `l`, in this order, and the values that `g`
gives for them. If the keys differ, two such lists can be compared by looking up their keys, in any order.
-/

variable {K V W : Type*} [BEq K] [LawfulBEq K] {l : List (K × V)} {l' : List (K × W)} {k : K} {v : V} {w : W}
  {g : K → V → Option W}

/-- A pair that a list finds is in it. -/
theorem List.mem_of_lookup_eq_some (h : l.lookup k = some v) : (k, v) ∈ l := by
  obtain ⟨l₁, l₂, rfl, -⟩ := List.lookup_eq_some_iff.mp h
  exact List.mem_append_right l₁ List.mem_cons_self

/-- A pair of a list with distinct keys is found. -/
theorem List.lookup_eq_some_of_mem (hnd : (l.map Prod.fst).Nodup) (h : (k, v) ∈ l) :
    l.lookup k = some v := by
  induction l with
  | nil => exact nomatch h
  | cons e l ih =>
    rw [List.map_cons, List.nodup_cons] at hnd
    rw [List.lookup_cons]
    obtain rfl | h := List.mem_cons.mp h
    · rw [beq_self_eq_true]
    · have hne : (k == e.1) = false := by
        refine beq_false_of_ne fun hk => hnd.1 ?_
        exact hk ▸ List.mem_map.mpr ⟨(k, v), h, rfl⟩
      rw [hne]
      exact ih hnd.2 h

/-- The list with other values. -/
def Revalued (g : K → V → Option W) (l : List (K × V)) (l' : List (K × W)) : Prop :=
  List.Forall₂ (fun e e' => e'.1 = e.1 ∧ g e.1 e.2 = some e'.2) l l'

namespace Revalued

omit [BEq K] [LawfulBEq K]

theorem keys (h : Revalued g l l') : l'.map Prod.fst = l.map Prod.fst := by
  induction h with
  | nil => rfl
  | cons he _ ih => rw [List.map_cons, List.map_cons, he.1, ih]

theorem mem (h : Revalued g l l') (hmem : (k, v) ∈ l) : ∃ w, g k v = some w ∧ (k, w) ∈ l' := by
  induction h with
  | nil => exact nomatch hmem
  | @cons e e' l l' he _ ih =>
    obtain rfl | hmem := List.mem_cons.mp hmem
    · exact ⟨e'.2, he.2, List.mem_cons.mpr (.inl (Prod.ext he.1.symm rfl))⟩
    · obtain ⟨w, hw, hmem'⟩ := ih hmem
      exact ⟨w, hw, List.mem_cons_of_mem _ hmem'⟩

theorem of_forall (h : ∀ k v, (k, v) ∈ l → ∃ w, g k v = some w) : ∃ l', Revalued g l l' := by
  induction l with
  | nil => exact ⟨[], .nil⟩
  | cons e l ih =>
    obtain ⟨w, hw⟩ := h e.1 e.2 List.mem_cons_self
    obtain ⟨l', hl'⟩ := ih fun k v hmem => h k v (List.mem_cons_of_mem _ hmem)
    exact ⟨(e.1, w) :: l', .cons ⟨rfl, hw⟩ hl'⟩

end Revalued

/-- **The list and one with other values**, in another order, have related values at each key if and only if
each value and the one that `g` gives for it are related. -/
theorem revalued_related_iff {R : V → W → Prop} {order : List (K × W) → List (K × W)}
    (horder : ∀ l', (order l').Perm l') (hnd : (l.map Prod.fst).Nodup) :
    (∃ l', Revalued g l l' ∧ (l.map Prod.fst).Perm ((order l').map Prod.fst) ∧
      ∀ k v w, l.lookup k = some v → (order l').lookup k = some w → R v w) ↔
      ∀ k v, (k, v) ∈ l → ∃ w, g k v = some w ∧ R v w := by
  have hkeys : ∀ {l'}, Revalued g l l' → (l.map Prod.fst).Perm ((order l').map Prod.fst) := fun h => by
    rw [← h.keys]
    exact ((horder _).map Prod.fst).symm
  constructor
  · rintro ⟨l', hrev, hperm, hrel⟩ k v hmem
    obtain ⟨w, hw, hmem'⟩ := hrev.mem hmem
    refine ⟨w, hw, hrel k v w (List.lookup_eq_some_of_mem hnd hmem) ?_⟩
    exact List.lookup_eq_some_of_mem (hperm.nodup_iff.mp hnd) ((horder l').mem_iff.mpr hmem')
  · intro h
    obtain ⟨l', hrev⟩ := Revalued.of_forall fun k v hmem => (h k v hmem).imp fun _ hw => hw.1
    refine ⟨l', hrev, hkeys hrev, fun k v w hv hw => ?_⟩
    have hmem := List.mem_of_lookup_eq_some hv
    obtain ⟨w', hw', hrel⟩ := h k v hmem
    obtain ⟨w'', hg, hmem'⟩ := hrev.mem hmem
    have hfound := List.lookup_eq_some_of_mem ((hkeys hrev).nodup_iff.mp hnd) ((horder l').mem_iff.mpr hmem')
    have hsame : w = w' := by
      rw [hfound] at hw
      rw [hg] at hw'
      exact (Option.some.inj hw).symm.trans (Option.some.inj hw')
    exact hsame ▸ hrel
