import Hpb.Util.Compare

/-!
# The sort of unknown fields (`hpb/util/compare.c`)

The merge of two sorted halves is right unless the left half is used up first, after a field of the right
one was taken: what remains of the right half is then replaced by its first fields.

* `Mergeable`, `Sortable`: that this does not happen, as a condition on the tags.
* `sortedBy_merge_iff`: the merge of two sorted halves is sorted if and only if they are mergeable.
* `sort_eq_stableSort`: the sort of sortable fields is the stable sort by tags.
-/

namespace Hpb.UnknownField

/-- No field of the right half comes before one of the left half, or a field of the left half comes after
all of the right half. -/
def Mergeable (left right : List UnknownField) : Prop :=
  (∀ f ∈ left, ∀ g ∈ right, f.tag ≤ g.tag) ∨ ∃ f ∈ left, ∀ g ∈ right, g.tag < f.tag

/-- The halves that `sortRecursive` merges are mergeable. -/
def Sortable : Nat → List UnknownField → Prop
  | 0, _ => True
  | fuel + 1, fields =>
    fields.length > 1 →
      Mergeable (fields.take (fields.length / 2)) (fields.drop (fields.length / 2)) ∧
        Sortable fuel (fields.take (fields.length / 2)) ∧ Sortable fuel (fields.drop (fields.length / 2))

/-- The fields of one group come in the order of their tags, or are sortable. -/
def SortsRight (fields : List UnknownField) : Prop :=
  isSorted 0 fields = true ∨ Sortable fields.length fields

variable {left right fs gs rest : List UnknownField}

theorem isSorted_iff {lastTag : Nat} :
    isSorted lastTag fs = true ↔ (∀ f ∈ fs, lastTag ≤ f.tag) ∧ SortedBy tag fs := by
  induction fs generalizing lastTag with
  | nil => simp [isSorted, SortedBy]
  | cons f fs ih =>
    simp only [isSorted, Bool.and_eq_true, Bool.not_eq_true', decide_eq_false_iff_not, Nat.not_lt, ih,
      List.forall_mem_cons, SortedBy, List.pairwise_cons]
    constructor
    · rintro ⟨hlast, hf, hfs⟩
      exact ⟨⟨hlast, fun g hg => Nat.le_trans hlast (hf g hg)⟩, hf, hfs⟩
    · rintro ⟨⟨hlast, -⟩, hf, hfs⟩
      exact ⟨hlast, hf, hfs⟩

/-! ### The merge -/

/-- Halves that are in order are put one after the other. -/
theorem mergeLoop_of_le (h : ∀ f ∈ left, ∀ g ∈ rest, f.tag ≤ g.tag) :
    mergeLoop right left rest = left ++ right.take rest.length := by
  induction left with
  | nil => rw [mergeLoop, List.nil_append]
  | cons f fs ih =>
    obtain ⟨hf, hfs⟩ := List.forall_mem_cons.mp h
    cases rest with
    | nil => rw [mergeLoop, List.length_nil, List.take_zero, List.append_nil]
    | cons g gs =>
      rw [mergeLoop, if_pos (hf g List.mem_cons_self), ih hfs]
      rfl

/-- A sorted list with the fields of two others, those of one tag in this order. -/
structure MergesTo (left rest merged : List UnknownField) : Prop where
  sorted : SortedBy tag merged
  entries : ∀ k, ofKey tag k merged = ofKey tag k (left ++ rest)

theorem MergesTo.cons {f : UnknownField} {merged : List UnknownField} (h : MergesTo fs gs merged)
    (hf : ∀ g ∈ fs ++ gs, f.tag ≤ g.tag) : SortedBy tag (f :: merged) :=
  List.pairwise_cons.mpr ⟨fun g hg => hf g ((mem_of_ofKey h.entries).mp hg), h.sorted⟩

/-- The right half is used up first. -/
theorem mergeLoop_of_exists (hl : SortedBy tag left) (hr : SortedBy tag rest)
    (h : ∃ f ∈ left, ∀ g ∈ rest, g.tag < f.tag) : MergesTo left rest (mergeLoop right left rest) := by
  fun_induction mergeLoop right left rest with
  | case1 rest =>
    obtain ⟨f, hf, -⟩ := h
    exact nomatch hf
  | case2 f fs => exact ⟨hl, fun k => by rw [List.append_nil]⟩
  | case3 f fs g gs hle ih =>
    obtain ⟨hf, hfs⟩ := List.pairwise_cons.mp hl
    obtain ⟨hg, -⟩ := List.pairwise_cons.mp hr
    obtain ⟨f', hf', hlast⟩ := h
    -- the last field of the left half is not the one that is taken
    have hrest : f' ∈ fs := by
      obtain rfl | hf' := List.mem_cons.mp hf'
      · exact absurd (hlast g List.mem_cons_self) (Nat.not_lt.mpr hle)
      · exact hf'
    have hmerge := ih hfs hr ⟨f', hrest, hlast⟩
    refine ⟨hmerge.cons fun x hx => ?_, fun k => ?_⟩
    · obtain hx | hx := List.mem_append.mp hx
      · exact hf x hx
      · obtain rfl | hx := List.mem_cons.mp hx
        · exact hle
        · exact Nat.le_trans hle (hg x hx)
    · rw [ofKey_cons, hmerge.entries, List.cons_append, ofKey_cons]
  | case4 f fs g gs hle ih =>
    obtain ⟨hf, -⟩ := List.pairwise_cons.mp hl
    obtain ⟨hg, hgs⟩ := List.pairwise_cons.mp hr
    obtain ⟨f', hf', hlast⟩ := h
    have hmerge := ih hl hgs ⟨f', hf', fun x hx => hlast x (List.mem_cons_of_mem _ hx)⟩
    have hleft : ∀ x ∈ f :: fs, g.tag < x.tag := by
      refine List.forall_mem_cons.mpr ⟨Nat.not_le.mp hle, fun x hx => ?_⟩
      exact Nat.lt_of_lt_of_le (Nat.not_le.mp hle) (hf x hx)
    refine ⟨hmerge.cons fun x hx => ?_, fun k => ?_⟩
    · obtain hx | hx := List.mem_append.mp hx
      · exact Nat.le_of_lt (hleft x hx)
      · exact hg x hx
    · rw [ofKey_cons, hmerge.entries, ofKey_append, ofKey_append, ofKey_cons (a := g)]
      by_cases hk : g.tag = k
      · have hnil : ofKey tag k (f :: fs) = [] :=
          ofKey_eq_nil fun x hx => Nat.ne_of_gt (hk ▸ hleft x hx)
        rw [if_pos hk, if_pos hk, hnil, List.nil_append, List.nil_append]
      · rw [if_neg hk, if_neg hk]

/-- The left half is used up first: then come the first fields of the right half. -/
theorem mergeLoop_of_forall (hl : SortedBy tag left) (hne : rest ≠ [])
    (h : ∀ f ∈ left, ∃ g ∈ rest, f.tag ≤ g.tag) :
    ∃ p n, mergeLoop right left rest = p ++ right.take (n + 1) ∧ ∀ f ∈ left, f ∈ p := by
  fun_induction mergeLoop right left rest with
  | case1 rest =>
    obtain ⟨n, hn⟩ := Nat.exists_eq_succ_of_ne_zero fun hlen => hne (List.length_eq_zero_iff.mp hlen)
    exact ⟨[], n, by rw [hn]; rfl, List.forall_mem_nil _⟩
  | case2 f fs => exact absurd rfl hne
  | case3 f fs g gs hle ih =>
    obtain ⟨-, hfs⟩ := List.pairwise_cons.mp hl
    obtain ⟨p, n, heq, hmem⟩ := ih hfs hne (List.forall_mem_cons.mp h).2
    refine ⟨f :: p, n, by rw [heq]; rfl, List.forall_mem_cons.mpr ⟨List.mem_cons_self, ?_⟩⟩
    exact fun x hx => List.mem_cons_of_mem _ (hmem x hx)
  | case4 f fs g gs hle ih =>
    obtain ⟨hf, -⟩ := List.pairwise_cons.mp hl
    have hnext : ∀ x ∈ f :: fs, ∃ y ∈ gs, x.tag ≤ y.tag := by
      intro x hx
      obtain ⟨y, hy, hxy⟩ := h x hx
      obtain rfl | hy := List.mem_cons.mp hy
      · have hfx : f.tag ≤ x.tag := by
          obtain rfl | hx := List.mem_cons.mp hx
          · exact Nat.le_refl _
          · exact hf x hx
        exact absurd (Nat.le_trans hfx hxy) hle
      · exact ⟨y, hy, hxy⟩
    have hgs : gs ≠ [] := by
      obtain ⟨y, hy, -⟩ := hnext f List.mem_cons_self
      exact List.ne_nil_of_mem hy
    obtain ⟨p, n, heq, hmem⟩ := ih hl hgs hnext
    exact ⟨g :: p, n, by rw [heq]; rfl, fun x hx => List.mem_cons_of_mem _ (hmem x hx)⟩

theorem mergesTo_of_mergeable (hl : SortedBy tag left) (hr : SortedBy tag right)
    (h : Mergeable left right) : MergesTo left right (merge left right) := by
  unfold merge
  obtain hle | hex := h
  · rw [mergeLoop_of_le hle, List.take_length]
    exact ⟨List.pairwise_append.mpr ⟨hl, hr, hle⟩, fun _ => rfl⟩
  · exact mergeLoop_of_exists hl hr hex

/-- **The merge** of two sorted halves is sorted if and only if they are mergeable. -/
theorem sortedBy_merge_iff (hl : SortedBy tag left) (hr : SortedBy tag right) :
    SortedBy tag (merge left right) ↔ Mergeable left right := by
  refine ⟨fun hsorted => ?_, fun h => (mergesTo_of_mergeable hl hr h).sorted⟩
  by_contra hno
  unfold Mergeable at hno
  push Not at hno
  obtain ⟨⟨f, hf, g, hg, hlt⟩, hall⟩ := hno
  cases right with
  | nil => exact nomatch hg
  | cons g₀ gs =>
    obtain ⟨p, n, heq, hmem⟩ := mergeLoop_of_forall hl (List.cons_ne_nil g₀ gs) hall
    rw [merge, heq] at hsorted
    have hle : f.tag ≤ g₀.tag := (List.pairwise_append.mp hsorted).2.2 f (hmem f hf) g₀ List.mem_cons_self
    have hfirst : g₀.tag ≤ g.tag := by
      obtain rfl | hg := List.mem_cons.mp hg
      · exact Nat.le_refl _
      · exact (List.pairwise_cons.mp hr).1 g hg
    omega

/-! ### The sort -/

theorem Mergeable.congr (h : Mergeable left right) (hl : ∀ f, f ∈ fs ↔ f ∈ left)
    (hr : ∀ g, g ∈ gs ↔ g ∈ right) : Mergeable fs gs := by
  unfold Mergeable at h ⊢
  simpa only [hl, hr] using h

theorem sortRecursive_mergesTo {fuel : Nat} (hfuel : fs.length ≤ fuel) (h : Sortable fuel fs) :
    SortedBy tag (sortRecursive fuel fs) ∧ ∀ k, ofKey tag k (sortRecursive fuel fs) = ofKey tag k fs := by
  induction fuel generalizing fs with
  | zero =>
    obtain rfl := List.length_eq_zero_iff.mp (Nat.le_zero.mp hfuel)
    exact ⟨List.Pairwise.nil, fun _ => rfl⟩
  | succ fuel ih =>
    rw [sortRecursive]
    split
    next hlong =>
      obtain ⟨hmerge, hleft, hright⟩ := h hlong
      obtain ⟨hlsorted, hlkeys⟩ := ih (by rw [List.length_take]; omega) hleft
      obtain ⟨hrsorted, hrkeys⟩ := ih (by rw [List.length_drop]; omega) hright
      obtain ⟨hsorted, hkeys⟩ := mergesTo_of_mergeable hlsorted hrsorted
        (hmerge.congr (fun _ => mem_of_ofKey hlkeys) fun _ => mem_of_ofKey hrkeys)
      refine ⟨hsorted, fun k => ?_⟩
      rw [hkeys, ofKey_append, hlkeys, hrkeys, ← ofKey_append, List.take_append_drop]
    next hshort =>
      refine ⟨?_, fun _ => rfl⟩
      match fs, hshort with
      | [], _ => exact List.Pairwise.nil
      | [f], _ => exact List.pairwise_singleton _ _
      | _ :: _ :: _, hshort => simp at hshort

/-- **The sort** of fields that are in order or sortable is the stable sort by their tags. -/
theorem sort_eq_stableSort (h : SortsRight fs) : sort fs = stableSort tag fs := by
  unfold sort
  split
  next hsorted => exact eq_stableSort (isSorted_iff.mp hsorted).2 fun _ => rfl
  next hsorted =>
    obtain ⟨hsort, hkeys⟩ := sortRecursive_mergesTo (Nat.le_refl _) (h.resolve_left hsorted)
    exact eq_stableSort hsort hkeys

end Hpb.UnknownField
