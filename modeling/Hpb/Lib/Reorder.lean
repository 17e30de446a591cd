import Mathlib.Data.List.Basic
import Mathlib.Order.Defs.LinearOrder
import Mathlib.Tactic.Common
import Mathlib.Tactic.Linarith

/-!
# Reordering the entries of different keys

`Reorder key l l'`: the lists are equal up to exchanges of neighbours with different keys, so the entries of
one key keep their order. A list is determined, up to this, by its entries of each key
(`reorder_iff_filter`), and one that is sorted is the stable sort of every list that it is a reordering of
(`eq_stableSort`).
-/

variable {α K : Type*} [LinearOrder K]

/-- The lists are equal up to exchanges of neighbours with different keys. -/
inductive Reorder (key : α → K) : List α → List α → Prop where
  | nil : Reorder key [] []
  | cons (a : α) {l l' : List α} (h : Reorder key l l') : Reorder key (a :: l) (a :: l')
  | swap {a b : α} (h : key a ≠ key b) (l : List α) : Reorder key (a :: b :: l) (b :: a :: l)
  | trans {l l' l'' : List α} (h : Reorder key l l') (h' : Reorder key l' l'') : Reorder key l l''

/-- The entries of one key. -/
def ofKey (key : α → K) (k : K) (l : List α) : List α := l.filter fun a => key a = k

/-- The stable sort by a key. -/
def stableSort (key : α → K) (l : List α) : List α := l.mergeSort fun a b => key a ≤ key b

/-- The keys do not decrease. -/
def SortedBy (key : α → K) (l : List α) : Prop := l.Pairwise fun a b => key a ≤ key b

variable {key : α → K} {l l' l₁ l₂ : List α} {a b : α} {k : K}

theorem ofKey_cons : ofKey key k (a :: l) = if key a = k then a :: ofKey key k l else ofKey key k l := by
  unfold ofKey
  rw [List.filter_cons]
  simp only [decide_eq_true_eq]

theorem ofKey_append : ofKey key k (l₁ ++ l₂) = ofKey key k l₁ ++ ofKey key k l₂ := List.filter_append ..

theorem mem_ofKey : a ∈ ofKey key k l ↔ a ∈ l ∧ key a = k := by simp [ofKey]

theorem ofKey_eq_nil (h : ∀ a ∈ l, key a ≠ k) : ofKey key k l = [] := by
  refine List.filter_eq_nil_iff.mpr fun a ha => ?_
  simpa using h a ha

namespace Reorder

omit [LinearOrder K] in
theorem refl (l : List α) : Reorder key l l := by
  induction l with
  | nil => exact .nil
  | cons a l ih => exact .cons a ih

omit [LinearOrder K] in
theorem symm (h : Reorder key l l') : Reorder key l' l := by
  induction h with
  | nil => exact .nil
  | cons a _ ih => exact .cons a ih
  | swap h l => exact .swap (Ne.symm h) l
  | trans _ _ ih ih' => exact .trans ih' ih

theorem ofKey_eq (h : Reorder key l l') (k : K) : ofKey key k l = ofKey key k l' := by
  induction h with
  | nil => rfl
  | cons a _ ih => rw [ofKey_cons, ofKey_cons, ih]
  | @swap a b h l =>
    simp only [ofKey_cons]
    by_cases ha : key a = k
    · have hb : key b ≠ k := fun hb => h (ha.trans hb.symm)
      simp only [if_pos ha, if_neg hb]
    · simp only [if_neg ha]
  | trans _ _ ih ih' => exact ih.trans ih'

omit [LinearOrder K] in
/-- An entry moves to the front past entries of other keys. -/
theorem move_front (h : ∀ b ∈ l₁, key b ≠ key a) : Reorder key (l₁ ++ a :: l₂) (a :: (l₁ ++ l₂)) := by
  induction l₁ with
  | nil => exact .refl _
  | cons b l₁ ih =>
    obtain ⟨hb, hl₁⟩ := List.forall_mem_cons.mp h
    exact .trans (.cons b (ih hl₁)) (.swap hb _)

end Reorder

/-- **The entries of each key** determine a list up to reordering. -/
theorem reorder_iff_ofKey : Reorder key l l' ↔ ∀ k, ofKey key k l = ofKey key k l' := by
  refine ⟨fun h k => h.ofKey_eq k, fun h => ?_⟩
  induction l generalizing l' with
  | nil =>
    cases l' with
    | nil => exact .nil
    | cons b l' =>
      have hb := h (key b)
      rw [ofKey_cons, if_pos rfl] at hb
      exact nomatch hb
  | cons a l ih =>
    -- the first entry of its key in the other list
    have hmem : a ∈ l' := by
      have ha := h (key a)
      rw [ofKey_cons, if_pos rfl] at ha
      exact (mem_ofKey.mp (ha ▸ List.mem_cons_self)).1
    have hfirst : ∃ l₁ b l₂, l' = l₁ ++ b :: l₂ ∧ (∀ c ∈ l₁, key c ≠ key a) ∧ key b = key a := by
      obtain ⟨b, hb⟩ : ∃ b, l'.find? (fun c => key c = key a) = some b :=
        Option.isSome_iff_exists.mp (List.find?_isSome.mpr ⟨a, hmem, by simp⟩)
      obtain ⟨hkey, l₁, l₂, hl', hl₁⟩ := List.find?_eq_some_iff_append.mp hb
      exact ⟨l₁, b, l₂, hl', fun c hc => by simpa using hl₁ c hc, by simpa using hkey⟩
    obtain ⟨l₁, b, l₂, rfl, hl₁, hkey⟩ := hfirst
    have hmove : Reorder key (l₁ ++ b :: l₂) (b :: (l₁ ++ l₂)) := .move_front (hkey ▸ hl₁)
    have hkeys : ∀ k, ofKey key k (a :: l) = ofKey key k (b :: (l₁ ++ l₂)) := fun k =>
      (h k).trans (hmove.ofKey_eq k)
    have hhead := hkeys (key a)
    rw [ofKey_cons, if_pos rfl, ofKey_cons, if_pos hkey, List.cons.injEq] at hhead
    obtain ⟨rfl, -⟩ := hhead
    refine .trans (.cons a (ih fun k => ?_)) hmove.symm
    have hk := hkeys k
    rw [ofKey_cons, ofKey_cons] at hk
    split at hk
    next => exact (List.cons.inj hk).2
    next => exact hk

/-! ### Sorting -/

theorem sortedBy_stableSort (key : α → K) (l : List α) : SortedBy key (stableSort key l) := by
  have h : (stableSort key l).Pairwise fun a b => decide (key a ≤ key b) = true := List.pairwise_mergeSort
    (fun a b c hab hbc => by simp only [decide_eq_true_eq] at *; exact le_trans hab hbc)
    (fun a b => by simpa using le_total (key a) (key b)) l
  exact h.imp fun h => by simpa using h

theorem ofKey_stableSort (key : α → K) (l : List α) (k : K) :
    ofKey key k (stableSort key l) = ofKey key k l := by
  have hsub : (ofKey key k l).Sublist (stableSort key l) := by
    refine List.sublist_mergeSort
      (fun a b c hab hbc => by simp only [decide_eq_true_eq] at *; exact le_trans hab hbc)
      (fun a b => by simpa using le_total (key a) (key b)) ?_ List.filter_sublist
    refine List.pairwise_of_forall_mem_list fun a ha b hb => ?_
    rw [(mem_ofKey.mp ha).2, (mem_ofKey.mp hb).2]
    simp
  have hfilter : (ofKey key k l).Sublist (ofKey key k (stableSort key l)) := by
    have := hsub.filter fun a => key a = k
    rwa [ofKey, List.filter_filter, show (fun a => decide (key a = k) && decide (key a = k)) =
      fun a => decide (key a = k) by simp] at this
  have hlen : (ofKey key k (stableSort key l)).length = (ofKey key k l).length :=
    ((List.mergeSort_perm l _).filter _).length_eq
  exact (hfilter.eq_of_length hlen.symm).symm

/-- Two sorted lists with the same entries of each key. -/
theorem SortedBy.eq_of_ofKey (h : SortedBy key l) (h' : SortedBy key l')
    (hkeys : ∀ k, ofKey key k l = ofKey key k l') : l = l' := by
  induction l generalizing l' with
  | nil =>
    cases l' with
    | nil => rfl
    | cons b l' =>
      have hb := hkeys (key b)
      rw [ofKey_cons, if_pos rfl] at hb
      exact nomatch hb
  | cons a l ih =>
    obtain ⟨ha, hl⟩ := List.pairwise_cons.mp h
    have hmem : a ∈ l' := by
      have hk := hkeys (key a)
      rw [ofKey_cons, if_pos rfl] at hk
      exact (mem_ofKey.mp (hk ▸ List.mem_cons_self)).1
    cases l' with
    | nil => exact nomatch hmem
    | cons b l' =>
      obtain ⟨hb, hl'⟩ := List.pairwise_cons.mp h'
      have hba : key b ≤ key a := by
        obtain rfl | hmem := List.mem_cons.mp hmem
        · exact le_refl _
        · exact hb a hmem
      have hab : key a ≤ key b := by
        have hk := hkeys (key b)
        rw [ofKey_cons (a := b), if_pos rfl] at hk
        have hmem' : b ∈ a :: l := (mem_ofKey.mp (hk ▸ List.mem_cons_self)).1
        obtain rfl | hmem' := List.mem_cons.mp hmem'
        · exact le_refl _
        · exact ha b hmem'
      have hkey : key a = key b := le_antisymm hab hba
      have hhead := hkeys (key b)
      rw [ofKey_cons, if_pos hkey, ofKey_cons, if_pos rfl, List.cons.injEq] at hhead
      obtain ⟨rfl, -⟩ := hhead
      refine congrArg (a :: ·) (ih hl hl' fun k => ?_)
      have hk := hkeys k
      rw [ofKey_cons, ofKey_cons] at hk
      split at hk
      next => exact (List.cons.inj hk).2
      next => exact hk

/-- **A stable sort** is the only sorted list with the same entries of each key. -/
theorem eq_stableSort (h : SortedBy key l') (hkeys : ∀ k, ofKey key k l' = ofKey key k l) :
    l' = stableSort key l :=
  h.eq_of_ofKey (sortedBy_stableSort key l) fun k => (hkeys k).trans (ofKey_stableSort key l k).symm

theorem reorder_stableSort (key : α → K) (l : List α) : Reorder key l (stableSort key l) :=
  reorder_iff_ofKey.mpr fun k => (ofKey_stableSort key l k).symm

theorem stableSort_eq_iff : stableSort key l = stableSort key l' ↔ ∀ k, ofKey key k l = ofKey key k l' := by
  constructor
  · intro h k
    rw [← ofKey_stableSort key l, h, ofKey_stableSort]
  · intro h
    exact eq_stableSort (sortedBy_stableSort key l) fun k => (ofKey_stableSort key l k).trans (h k)

/-- Lists with the same entries of each key have the same entries. -/
theorem mem_of_ofKey (h : ∀ k, ofKey key k l = ofKey key k l') : a ∈ l ↔ a ∈ l' := by
  have hiff : ∀ {l : List α}, a ∈ l ↔ a ∈ ofKey key (key a) l := by simp [mem_ofKey]
  rw [hiff, h, ← hiff]
