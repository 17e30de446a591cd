import Mathlib.Data.Finmap
import Mathlib.Data.List.Perm.Basic
import Mathlib.Tactic.Linarith

/-!
# Lists of pairs as finite maps

`Listing l m`: the list `l` names every entry of the finite map `m` exactly once, in some order. It
relates what an implementation stores or enumerates to the map it stands for; one entry more or one
less in the list, wherever it is, is `Finmap.insert` or `Finmap.erase`.
-/

variable {K V : Type*} [DecidableEq K]

/-- `l` lists the entries of `m`, each once. -/
structure Listing (l : List (K × V)) (m : Finmap fun _ : K => V) : Prop where
  nodup : (l.map Prod.fst).Nodup
  mem_iff : ∀ k v, (k, v) ∈ l ↔ m.lookup k = some v

/-- Erasing an absent key changes nothing. -/
theorem Finmap.erase_of_notMem {m : Finmap fun _ : K => V} {k : K} (hk : k ∉ m) : m.erase k = m := by
  refine Finmap.ext_lookup fun k' => ?_
  by_cases hkk : k' = k
  · rw [hkk, Finmap.lookup_erase, Finmap.lookup_eq_none.mpr hk]
  · rw [Finmap.lookup_erase_ne hkk]

/-- A list without the entry whose place its first entry takes. -/
theorem List.perm_cons_tail_set {α : Type*} {l : List α} {i : Nat} {a b : α} (ha : l[0]? = some a)
    (hb : l[i]? = some b) : l.Perm (b :: (l.set i a).tail) := by
  cases l with
  | nil => simp at ha
  | cons x t =>
    obtain rfl : x = a := by simpa using ha
    cases i with
    | zero =>
      obtain rfl : x = b := by simpa using hb
      exact List.Perm.refl _
    | succ j =>
      rw [List.getElem?_cons_succ] at hb
      obtain ⟨hlt, rfl⟩ := List.getElem?_eq_some_iff.mp hb
      have hset : (t.set j x).Perm (x :: t.eraseIdx j) := List.set_perm_cons_eraseIdx hlt x
      calc (x :: t).Perm (x :: t[j] :: t.eraseIdx j) :=
            (List.getElem_cons_eraseIdx_perm hlt).symm.cons x
        _ |>.Perm (t[j] :: x :: t.eraseIdx j) := List.Perm.swap _ _ _
        _ |>.Perm (t[j] :: t.set j x) := hset.symm.cons _

namespace Listing

variable {l l' : List (K × V)} {m : Finmap fun _ : K => V} {k : K} {v : V}

theorem nil : Listing ([] : List (K × V)) ∅ where
  nodup := List.nodup_nil
  mem_iff := by simp

theorem mem_keys (h : Listing l m) : k ∈ l.map Prod.fst ↔ k ∈ m := by
  simp only [List.mem_map, Prod.exists, exists_and_right, exists_eq_right, Finmap.mem_iff,
    h.mem_iff]

theorem perm (h : Listing l m) (p : l'.Perm l) : Listing l' m where
  nodup := (p.map Prod.fst).nodup_iff.mpr h.nodup
  mem_iff k v := p.mem_iff.trans (h.mem_iff k v)

/-- One entry more. -/
theorem insert (h : Listing l m) (hk : k ∉ m) (p : l'.Perm ((k, v) :: l)) :
    Listing l' (m.insert k v) := by
  refine perm ⟨?_, fun k' v' => ?_⟩ p
  · exact List.nodup_cons.mpr ⟨mt h.mem_keys.mp hk, h.nodup⟩
  · rw [List.mem_cons, Prod.mk.injEq, h.mem_iff]
    by_cases hkk : k' = k
    · subst hkk
      simp [Finmap.lookup_eq_none.mpr hk, eq_comm]
    · simp [hkk, Finmap.lookup_insert_of_ne]

/-- A list without repeated keys lists a finite map. -/
theorem exists_of_nodup (h : (l.map Prod.fst).Nodup) : ∃ m, Listing l m := by
  induction l with
  | nil => exact ⟨∅, nil⟩
  | cons p l ih =>
    obtain ⟨hp, hl⟩ := List.nodup_cons.mp h
    obtain ⟨m, hm⟩ := ih hl
    exact ⟨_, hm.insert (mt hm.mem_keys.mpr hp) (List.Perm.refl _)⟩

/-- One entry less. -/
theorem erase (h : Listing l m) (p : l.Perm ((k, v) :: l')) : Listing l' (m.erase k) := by
  have hnd := (p.map Prod.fst).nodup_iff.mp h.nodup
  rw [List.map_cons, List.nodup_cons] at hnd
  refine ⟨hnd.2, fun k' v' => ?_⟩
  by_cases hkk : k' = k
  · subst hkk
    rw [Finmap.lookup_erase]
    simp only [reduceCtorEq, iff_false]
    exact fun hm => hnd.1 (List.mem_map.mpr ⟨_, hm, rfl⟩)
  · rw [Finmap.lookup_erase_ne hkk, ← h.mem_iff, p.mem_iff]
    simp [hkk]

/-- The value of one entry replaced. -/
theorem replace {r : List (K × V)} {w : V} (h : Listing l m) (p : l.Perm ((k, w) :: r))
    (p' : l'.Perm ((k, v) :: r)) : Listing l' (m.insert k v) := by
  have heq : (m.erase k).insert k v = m.insert k v := by
    refine Finmap.ext_lookup fun k' => ?_
    by_cases hk : k' = k
    · subst hk
      rw [Finmap.lookup_insert, Finmap.lookup_insert]
    · rw [Finmap.lookup_insert_of_ne _ hk, Finmap.lookup_insert_of_ne _ hk,
        Finmap.lookup_erase_ne hk]
  rw [← heq]
  exact (h.erase p).insert Finmap.notMem_erase_self p'

theorem lookup_of_perm (h : Listing l m) (p : l.Perm ((k, v) :: l')) : m.lookup k = some v :=
  (h.mem_iff k v).mp (p.mem_iff.mpr List.mem_cons_self)

theorem length_eq (h : Listing l m) : l.length = m.keys.card := by
  have : m.keys = (l.map Prod.fst).toFinset := by
    ext k
    rw [List.mem_toFinset, h.mem_keys, Finmap.mem_keys]
  rw [this, List.toFinset_card_of_nodup h.nodup, List.length_map]

/-- Two lists of one map are equal up to order. -/
theorem perm_of_listing (h : Listing l m) (h' : Listing l' m) : l.Perm l' :=
  (List.perm_ext_iff_of_nodup (List.Nodup.of_map _ h.nodup) (List.Nodup.of_map _ h'.nodup)).mpr
    fun ⟨k, v⟩ => by rw [h.mem_iff, h'.mem_iff]

end Listing
