import Hpb.Lib.LinkedPath
import Mathlib.Data.Finset.Card

/-!
# Forests given by predecessor pointers

`π : α → Option α` gives each node at most one predecessor; the roots have none. `Anc π a x` says that
`a` is `x` or one of its ancestors. In a forest (`Grounded`: from every node the predecessors lead to
a root) the ancestors of a node form a chain, and being an ancestor is antisymmetric.

The one change is to hang a subtree somewhere else, `Function.update π c (some v)` with `v` outside of
the subtree of `c`. If `v` is below the old predecessor of `c` (or `c` was a root), ancestors only
grow (`anc_rehang_iff`), and the result is a forest again (`Grounded.rehang`).
-/

/-- `a` is an ancestor of `x`, or `x` itself. -/
inductive Anc {α : Type*} (π : α → Option α) (a : α) : α → Prop
  | refl : Anc π a a
  | up {x y : α} : π x = some y → Anc π a y → Anc π a x

/-- From every node the predecessors lead to a root. -/
def Grounded {α : Type*} (π : α → Option α) : Prop := ∀ x, ∃ r, π r = none ∧ Anc π r x

namespace Anc

variable {α : Type*} {π : α → Option α} {a b c v x y : α}

theorem trans (h : Anc π a b) (h' : Anc π b c) : Anc π a c := by
  induction h' with
  | refl => exact h
  | up hp _ ih => exact .up hp ih

theorem of_pred (h : π x = some a) : Anc π a x := .up h .refl

/-- A proper ancestor is above the predecessor. -/
theorem pred (h : Anc π a x) (hne : a ≠ x) : ∃ y, π x = some y ∧ Anc π a y := by
  cases h with
  | refl => exact absurd rfl hne
  | up hp h => exact ⟨_, hp, h⟩

theorem pred_of (h : Anc π a x) (hne : a ≠ x) (hx : π x = some y) : Anc π a y := by
  obtain ⟨y', hy', h⟩ := h.pred hne
  rw [hx] at hy'
  cases hy'
  exact h

theorem eq_of_root (h : Anc π a x) (hx : π x = none) : a = x := by
  cases h with
  | refl => rfl
  | up hp _ =>
    rw [hx] at hp
    cases hp

/-- The ancestors of a node form a chain. -/
theorem comparable (h : Anc π a x) (h' : Anc π b x) : Anc π a b ∨ Anc π b a := by
  induction h with
  | refl => exact .inr h'
  | @up x y hp h ih =>
    by_cases hb : b = x
    · subst hb
      exact .inl (.up hp h)
    · exact ih (h'.pred_of hb hp)

/-- A property that predecessors inherit holds of all ancestors. -/
theorem inherit {P : α → Prop} (hP : ∀ x y, P x → π x = some y → P y) (h : Anc π a x) (hx : P x) :
    P a := by
  induction h with
  | refl => exact hx
  | up hp _ ih => exact ih (hP _ _ hx hp)

end Anc

namespace Grounded

variable {α : Type*} {π : α → Option α} {a b c v x y : α}

theorem antisymm (hg : Grounded π) (h : Anc π a b) (h' : Anc π b a) : a = b := by
  obtain ⟨r, hr, hra⟩ := hg a
  -- along the path from `a` up to its root
  suffices ∀ x, Anc π r x → ∀ y, Anc π x y → Anc π y x → y = x from (this a hra b h h').symm
  intro x hx
  induction hx with
  | refl => exact fun y _ hy => hy.eq_of_root hr
  | up hp hc ih =>
    intro y hxy hyx
    by_contra hne
    have hyc := hyx.pred_of hne hp
    have := ih y ((Anc.of_pred hp).trans hxy) hyc
    subst this
    exact hne (ih _ (Anc.of_pred hp) hxy).symm

/-- No node is an ancestor of its own predecessor. -/
theorem not_anc_pred (hg : Grounded π) (hx : π x = some y) : ¬Anc π x y := by
  intro h
  obtain rfl := hg.antisymm (Anc.of_pred hx) h
  -- a node that is its own predecessor never reaches a root
  obtain ⟨r, hr, hra⟩ := hg y
  have : ∀ z, Anc π r z → z ≠ y := by
    intro z hz
    induction hz with
    | refl =>
      rintro rfl
      rw [hx] at hr
      cases hr
    | up hp _ ih =>
      rintro rfl
      rw [hx] at hp
      cases hp
      exact ih rfl
  exact this y hra rfl

/-- The subtrees of siblings are disjoint. -/
theorem not_anc_sibling (hg : Grounded π) (ha : π a = some x) (hb : π b = some x) (hne : a ≠ b)
    (h : Anc π a y) : ¬Anc π b y := by
  intro h'
  obtain hab | hba := h.comparable h'
  · exact hg.not_anc_pred ha (hab.pred_of hne hb)
  · exact hg.not_anc_pred hb (hba.pred_of (Ne.symm hne) ha)

end Grounded

section Restrict

variable {α : Type*} {π π' : α → Option α} {P : α → Prop}

/-- Where `π'` agrees with `π` on an upward closed set, it has the same ancestors there. -/
theorem anc_restrict (hP : ∀ x y, P x → π x = some y → P y) (he : ∀ x, P x → π' x = π x) {a x : α}
    (hx : P x) : Anc π' a x ↔ Anc π a x := by
  constructor
  · intro h
    induction h with
    | refl => exact .refl
    | up hp _ ih =>
      rw [he _ hx] at hp
      exact .up hp (ih (hP _ _ hx hp))
  · intro h
    induction h with
    | refl => exact .refl
    | up hp _ ih => exact .up ((he _ hx).trans hp) (ih (hP _ _ hx hp))

theorem Grounded.restrict (hg : Grounded π) (hP : ∀ x y, P x → π x = some y → P y)
    (he : ∀ x, P x → π' x = π x) (hn : ∀ x, ¬P x → π' x = none) : Grounded π' := by
  intro x
  by_cases hx : P x
  · obtain ⟨r, hr, hrx⟩ := hg x
    exact ⟨r, (he r (hrx.inherit hP hx)).trans hr, (anc_restrict hP he hx).mpr hrx⟩
  · exact ⟨x, hn x hx, .refl⟩

end Restrict

section Rehang

variable {α : Type*} [DecidableEq α] {π : α → Option α} {b c n p v x y : α}

/-- Above a node outside of the subtree of `c` nothing changes. -/
theorem anc_rehang_of_not (hx : ¬Anc π c x) :
    Anc (Function.update π c (some v)) y x ↔ Anc π y x := by
  constructor
  · intro h
    induction h with
    | refl => exact .refl
    | up hp _ ih =>
      have hne : _ ≠ c := fun h => hx (h ▸ .refl)
      rw [Function.update_of_ne hne] at hp
      exact .up hp (ih fun h => hx (.up hp h))
  · intro h
    induction h with
    | refl => exact .refl
    | up hp _ ih =>
      have hne : _ ≠ c := fun h => hx (h ▸ .refl)
      refine .up ?_ (ih fun h => hx (.up hp h))
      rwa [Function.update_of_ne hne]

/-- In the subtree of `c` the ancestors are those up to `c`, then those of `v`. -/
theorem anc_rehang_of_anc (hg : Grounded π) (hv : ¬Anc π c v) (hx : Anc π c x) :
    Anc (Function.update π c (some v)) y x ↔ (Anc π y x ∧ Anc π c y) ∨ Anc π y v := by
  induction hx with
  | refl =>
    constructor
    · intro h
      by_cases hy : y = c
      · subst hy
        exact .inl ⟨.refl, .refl⟩
      · obtain ⟨z, hz, h⟩ := h.pred hy
        rw [Function.update_self] at hz
        cases hz
        exact .inr ((anc_rehang_of_not hv).mp h)
    · rintro (⟨h, h'⟩ | h)
      · rw [hg.antisymm h h']
        exact .refl
      · exact .up (Function.update_self ..) ((anc_rehang_of_not hv).mpr h)
  | @up x z hp hc ih =>
    have hne : x ≠ c := by
      rintro rfl
      exact hg.not_anc_pred hp hc
    have hp' : Function.update π c (some v) x = some z := by rwa [Function.update_of_ne hne]
    by_cases hy : y = x
    · subst hy
      exact ⟨fun _ => .inl ⟨.refl, .up hp hc⟩, fun _ => .refl⟩
    · constructor
      · intro h
        exact (ih.mp (h.pred_of hy hp')).imp_left fun ⟨h, h'⟩ => ⟨.up hp h, h'⟩
      · rintro (⟨h, h'⟩ | h)
        · exact .up hp' (ih.mpr (.inl ⟨h.pred_of hy hp, h'⟩))
        · exact .up hp' (ih.mpr (.inr h))

/-- The subtree of `c` hangs below `v`, which is below the old predecessor of `c`, if any. -/
theorem anc_rehang_iff (hg : Grounded π) (hv : ¬Anc π c v) (hb : ∀ b, π c = some b → Anc π b v) :
    Anc (Function.update π c (some v)) y x ↔ Anc π y x ∨ (Anc π c x ∧ Anc π y v) := by
  by_cases hx : Anc π c x
  · rw [anc_rehang_of_anc hg hv hx]
    constructor
    · rintro (⟨h, -⟩ | h)
      exacts [.inl h, .inr ⟨hx, h⟩]
    · rintro (h | ⟨-, h⟩)
      · obtain hyc | hcy := h.comparable hx
        · by_cases hne : y = c
          · subst hne
            exact .inl ⟨h, .refl⟩
          · obtain ⟨b, hcb, h⟩ := hyc.pred hne
            exact .inr (h.trans (hb b hcb))
        · exact .inl ⟨h, hcy⟩
      · exact .inr h
  · rw [anc_rehang_of_not hx]
    simp [hx]

theorem Grounded.rehang (hg : Grounded π) (hv : ¬Anc π c v) :
    Grounded (Function.update π c (some v)) := by
  intro x
  by_cases hx : Anc π c x
  · obtain ⟨r, hr, hrv⟩ := hg v
    refine ⟨r, ?_, (anc_rehang_of_anc hg hv hx).mpr (.inr hrv)⟩
    rw [Function.update_of_ne, hr]
    rintro rfl
    exact hv hrv
  · obtain ⟨r, hr, hrx⟩ := hg x
    refine ⟨r, ?_, (anc_rehang_of_not hx).mpr hrx⟩
    rw [Function.update_of_ne, hr]
    rintro rfl
    exact hx hrx

/-- Moving `c` below its sibling `n` adds only `n` to the ancestors. -/
theorem anc_rehang_sibling (hg : Grounded π) (hc : π c = some p) (hn : π n = some p) (hne : c ≠ n) :
    ¬Anc π c n ∧ (Anc (Function.update π c (some n)) y x ↔ Anc π y x ∨ (y = n ∧ Anc π c x)) := by
  have hcn : ¬Anc π c n := fun h => hg.not_anc_pred hc (h.pred_of hne hn)
  refine ⟨hcn, ?_⟩
  rw [anc_rehang_iff hg hcn fun b hb => ?_]
  · constructor
    · rintro (h | ⟨hcx, h⟩)
      · exact .inl h
      · by_cases hy : y = n
        · exact .inr ⟨hy, hcx⟩
        · exact .inl (((h.pred_of hy hn).trans (.of_pred hc)).trans hcx)
    · rintro (h | ⟨rfl, h⟩)
      exacts [.inl h, .inr ⟨h, .refl⟩]
  · rw [hc] at hb
    cases hb
    exact .of_pred hn

/-- **Moving `c` from `b` down to `v`** leaves a node `y` outside of the subtree of `d`, when `y` is
below the predecessor of `d` and `d` is not on the way from `b` to `v`. -/
theorem not_anc_rehang (hg : Grounded π) {d : α} (hc : π c = some b) (hbv : Anc π b v)
    (hv : ¬Anc π c v) (hd : π d = some x) (hxy : Anc π x y) (hdy : ¬Anc π d y)
    (hb : x = b → ¬Anc π d v) : ¬Anc (Function.update π c (some v)) d y := by
  intro h
  rw [anc_rehang_iff hg hv fun b' hb' => by rw [hc] at hb'; cases hb'; exact hbv] at h
  obtain h | ⟨hcy, hdv⟩ := h
  · exact hdy h
  have hcx : ¬Anc π c x := fun h => hv (h.trans ((Anc.of_pred hd).trans hdv))
  have hxc : Anc π x c := (hcy.comparable hxy).resolve_left hcx
  have hxb : Anc π x b := hxc.pred_of (fun h => hcx (h ▸ .refl)) hc
  obtain hdb | hbd := hdv.comparable hbv
  · exact hdy (hdb.trans ((Anc.of_pred hc).trans hcy))
  · by_cases hbd' : b = d
    · subst hbd'
      exact hdy ((Anc.of_pred hc).trans hcy)
    · exact hb (hg.antisymm hxb (hbd.pred_of hbd' hd)) hdv

end Rehang

section Paths

variable {α : Type*} {π nxt : α → Option α} {N : Finset α} {r x : α}

/-- Pointers down a forest lead to an end: every step has one more ancestor. -/
theorem Grounded.exists_linkedPath (hg : Grounded π)
    (hn : ∀ x ∈ N, ∀ y, nxt x = some y → y ∈ N ∧ π y = some x) (hr : r ∈ N) :
    ∃ l, LinkedPath nxt (some r) l none ∧ ∀ x ∈ l, x ∈ N := by
  classical
  induction hk : (N.filter fun x => ¬Anc π x r).card using Nat.strong_induction_on generalizing r with
  | _ k ih =>
    cases hy : nxt r with
    | none => exact ⟨[r], ⟨rfl, hy⟩, fun x hx => List.mem_singleton.mp hx ▸ hr⟩
    | some y =>
      obtain ⟨hyN, hyr⟩ := hn r hr y hy
      have hlt : (N.filter fun x => ¬Anc π x y).card < k := by
        rw [← hk]
        have hsub : N.filter (fun x => ¬Anc π x y) ⊆ N.filter fun x => ¬Anc π x r := fun x hx => by
          obtain ⟨hxN, hx⟩ := Finset.mem_filter.mp hx
          exact Finset.mem_filter.mpr ⟨hxN, fun h => hx (h.trans (.of_pred hyr))⟩
        refine Finset.card_lt_card ((Finset.ssubset_iff_of_subset hsub).mpr
          ⟨y, Finset.mem_filter.mpr ⟨hyN, hg.not_anc_pred hyr⟩, fun h => ?_⟩)
        exact (Finset.mem_filter.mp h).2 .refl
      obtain ⟨l, hl, hlN⟩ := ih _ hlt hyN rfl
      refine ⟨r :: l, ⟨rfl, hy ▸ hl⟩, fun x hx => ?_⟩
      obtain rfl | hx := List.mem_cons.mp hx
      exacts [hr, hlN x hx]

/-- Where every node but `r` is the next of its predecessor, the path from `r` visits all below it. -/
theorem LinkedPath.mem_of_anc {l : List α} (hp : LinkedPath nxt (some r) l none)
    (hN : ∀ x ∈ N, x ≠ r → ∀ y, π x = some y → y ∈ N ∧ nxt y = some x) (hx : x ∈ N)
    (h : Anc π r x) : x ∈ l := by
  have hrl : r ∈ l := by
    refine hp.start_mem ?_
    rintro rfl
    cases hp
  induction h with
  | refl => exact hrl
  | @up x y hxy _ ih =>
    by_cases hne : x = r
    · exact hne ▸ hrl
    · obtain ⟨hy, hyx⟩ := hN x hx hne y hxy
      exact hp.next_mem (ih hy) hyx

end Paths
