import Mathlib.Order.Basic
import Hpb.MiniTable.Table

/-!
# Finding a field by its number

The fields of a table are in the order of their numbers, and the first `denseBelow` have the numbers
from 1 on (`Searchable`). Then `findFieldByNumber` finds exactly the fields that are there.
-/

namespace Hpb

namespace MiniTable

/-- What `findFieldByNumber` relies on. -/
structure Searchable (fields : List MiniTableField) (denseBelow : Nat) : Prop where
  ascending : fields.Pairwise fun f g => f.number < g.number
  dense : ∀ i < denseBelow, ∃ f : MiniTableField, fields[i]? = some f ∧ f.number = i + 1

section

variable {fields : List MiniTableField} {denseBelow number i : Nat} {f : MiniTableField}

theorem Searchable.number_lt (h : Searchable fields denseBelow) {j : Nat} {g : MiniTableField}
    (hf : fields[i]? = some f) (hg : fields[j]? = some g) (hij : i < j) : f.number < g.number := by
  obtain ⟨hi, rfl⟩ := List.getElem?_eq_some_iff.mp hf
  obtain ⟨hj, rfl⟩ := List.getElem?_eq_some_iff.mp hg
  exact List.pairwise_iff_getElem.mp h.ascending i j hi hj hij

/-- A search over a range that has the field's index finds it. -/
theorem searchField_eq (h : Searchable fields denseBelow) (hf : fields[i]? = some f) {fuel : Nat}
    {lo hi : Int} (hlo : 0 ≤ lo) (h₁ : lo ≤ i) (h₂ : (i : Int) ≤ hi) (hhi : hi < fields.length)
    (hfuel : hi - lo < fuel) : searchField fields f.number fuel lo hi = some i := by
  induction fuel generalizing lo hi with
  | zero => omega
  | succ fuel ih =>
    rw [searchField, if_pos (by omega)]
    have hmid : ((lo + hi) / 2).toNat < fields.length := by omega
    obtain ⟨g, hg⟩ : ∃ g, fields[((lo + hi) / 2).toNat]? = some g :=
      ⟨_, List.getElem?_eq_getElem hmid⟩
    simp only [hg]
    obtain hlt | heq | hgt := Nat.lt_trichotomy ((lo + hi) / 2).toNat i
    · rw [if_pos (h.number_lt hg hf hlt)]
      exact ih (by omega) (by omega) h₂ hhi (by omega)
    · rw [heq, hf] at hg
      cases hg
      rw [if_neg (Nat.lt_irrefl _), if_neg (Nat.lt_irrefl _), heq]
    · have hlt := h.number_lt hf hg hgt
      rw [if_neg (Nat.lt_asymm hlt), if_pos hlt]
      exact ih hlo h₁ (by omega) (by omega) (by omega)

/-- **Every field is found by its number.** -/
theorem findFieldByNumber_eq (h : Searchable fields denseBelow) (hf : fields[i]? = some f) :
    findFieldByNumber fields denseBelow fields.length f.number = some i := by
  have hi := (List.getElem?_eq_some_iff.mp hf).1
  have hnumber : i < denseBelow → f.number = i + 1 := by
    intro hlt
    obtain ⟨g, hg, hgn⟩ := h.dense i hlt
    rw [hf] at hg
    cases hg
    exact hgn
  rw [findFieldByNumber]
  by_cases hd : i < denseBelow
  · rw [hnumber hd, if_pos ⟨Nat.succ_ne_zero i, hd⟩]
    rfl
  · -- the number is past the dense ones: otherwise it would be one of them
    have hpast : ¬(f.number ≠ 0 ∧ f.number - 1 < denseBelow) := by
      rintro ⟨hne, hlt⟩
      obtain ⟨g, hg, hgn⟩ := h.dense _ hlt
      have := h.number_lt hg hf (by omega)
      omega
    rw [if_neg hpast]
    exact searchField_eq h hf (by omega) (by omega) (by omega) (by omega) (by omega)

/-- A search finds nothing but the number. -/
theorem searchField_some {fuel : Nat} {lo hi : Int} (h : searchField fields number fuel lo hi = some i) :
    ∃ f, fields[i]? = some f ∧ f.number = number := by
  induction fuel generalizing lo hi with
  | zero => cases h
  | succ fuel ih =>
    rw [searchField] at h
    split at h
    · dsimp only at h
      split at h
      · cases h
      · next f hf =>
        split at h
        · exact ih h
        · split at h
          · exact ih h
          · cases h
            exact ⟨f, hf, by omega⟩
    · cases h

/-- **What is found by a number has it.** -/
theorem findFieldByNumber_some (h : Searchable fields denseBelow) {fieldCount : Nat}
    (hi : findFieldByNumber fields denseBelow fieldCount number = some i) :
    ∃ f, fields[i]? = some f ∧ f.number = number := by
  rw [findFieldByNumber] at hi
  split at hi
  · next hdense =>
    cases hi
    obtain ⟨f, hf, hnumber⟩ := h.dense _ hdense.2
    exact ⟨f, hf, by omega⟩
  · exact searchField_some hi

end

end MiniTable

end Hpb
