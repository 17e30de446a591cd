import Hpb.Lib.Block
import Hpb.Util.CompareSort

/-!
# The sort of unknown fields in its array (`hpb_UnknownFields_Sort`)

The recursion sorts a range of the array, and every merge copies its range to the start of one temporary array and reads it
there. A read or a write is checked here: the result is `none` if a cell is read that was not copied for the current
merge, or one is written outside of the array.

* `mergeArr`, `sortArr`, `sortFields`: the functions of the source on arrays,
* `sortArr_eq`: on a range they do what `merge` and `sortRecursive` do on lists,
* `sortable_of_sortedBy`: if the result is in order, every merge was right,
* `sortFields_right_iff`: no read is outside, and for which fields the result is right.

Sizes do not wrap around, and `realloc` does not fail.
-/

namespace Hpb.UnknownField

/-- The array, and the temporary array. -/
structure SortState where
  arr : List UnknownField
  tmp : List UnknownField

/-- A read of the temporary array, of which some cells were copied for the current merge. -/
def readTmp (tmp : List UnknownField) (copied i : Nat) : Option UnknownField := if i < copied then tmp[i]? else none

/-- A write to the array. -/
def writeArr (arr : List UnknownField) (out : Nat) (f : UnknownField) : Option (List UnknownField) :=
  if out < arr.length then some (arr.set out f) else none

/-- `memcpy(out, ptr, n * sizeof(*out))`, from the temporary array to the array. -/
def copyBack (tmp : List UnknownField) (copied ptr n out : Nat) (arr : List UnknownField) : Option (List UnknownField) :=
  if ptr + n ≤ copied ∧ out + n ≤ arr.length then some (overwrite arr out (readAt tmp ptr n)) else none

/-- The loop of `hpb_UnknownFields_Merge`: `ptr1`, `ptr2`, `out` and the array at its end. Each round takes a field, so the
fuel of one more than the fields is not used up. -/
def mergeWhile (tmp : List UnknownField) (copied end1 : Nat) :
    Nat → Nat → Nat → Nat → List UnknownField → Option (Nat × Nat × Nat × List UnknownField)
  | 0, _, _, _, _ => none
  | fuel + 1, ptr1, ptr2, out, arr =>
    if ptr1 < end1 ∧ ptr2 < copied then do
      let f ← readTmp tmp copied ptr1
      let g ← readTmp tmp copied ptr2
      if f.tag ≤ g.tag then mergeWhile tmp copied end1 fuel (ptr1 + 1) ptr2 (out + 1) (← writeArr arr out f)
      else mergeWhile tmp copied end1 fuel ptr1 (ptr2 + 1) (out + 1) (← writeArr arr out g)
    else some (ptr1, ptr2, out, arr)

/-- What follows the loop. What is left of the right half is copied from `ptr1`. -/
def mergeRest (tmp : List UnknownField) (copied end1 : Nat) :
    Nat × Nat × Nat × List UnknownField → Option (List UnknownField)
  | (ptr1, ptr2, out, arr) =>
    if ptr1 < end1 then copyBack tmp copied ptr1 (end1 - ptr1) out arr
    else if ptr2 < copied then copyBack tmp copied ptr1 (copied - ptr2) out arr
    else some arr

/-- `hpb_UnknownFields_Merge`. -/
def mergeArr (start mid stop : Nat) (s : SortState) : Option SortState :=
  if stop ≤ s.arr.length ∧ stop - start ≤ s.tmp.length then do
    let tmp := overwrite s.tmp 0 (readAt s.arr start (stop - start))
    let r ← mergeWhile tmp (stop - start) (mid - start) (stop - start + 1) 0 (mid - start) start s.arr
    let arr ← mergeRest tmp (stop - start) (mid - start) r
    return ⟨arr, tmp⟩
  else none

/-- `hpb_UnknownFields_SortRecursive`. The halves are shorter, so the fuel of one more than the fields is not used up. -/
def sortArr : Nat → Nat → Nat → SortState → Option SortState
  | 0, _, _, _ => none
  | fuel + 1, start, stop, s =>
    if stop - start > 1 then do
      let mid := start + (stop - start) / 2
      let s ← sortArr fuel start mid s
      let s ← sortArr fuel mid stop s
      mergeArr start mid stop s
    else some s

/-- `while (ctx->tmp_size < fields->size) ctx->tmp_size *= 2`. As many rounds as there are fields are enough. -/
def doubleTmp (size : Nat) : Nat → Nat → Nat
  | 0, tmpSize => tmpSize
  | rounds + 1, tmpSize => if tmpSize < size then doubleTmp size rounds (tmpSize * 2) else tmpSize

/-- The temporary array with room for some fields; `fresh` is what `realloc` leaves in the cells behind the old ones. -/
def growTmp (fresh : Nat → UnknownField) (size : Nat) (tmp : List UnknownField) : List UnknownField :=
  if tmp.length < size then tmp ++ (List.range (doubleTmp size size (max 8 tmp.length) - tmp.length)).map fresh else tmp

/-- `hpb_UnknownFields_Sort`. -/
def sortFields (fresh : Nat → UnknownField) (fields tmp : List UnknownField) : Option SortState :=
  sortArr (fields.length + 1) 0 fields.length ⟨fields, growTmp fresh fields.length tmp⟩

/-- **The result is right**: the same fields, in the order of their tags, those of one tag as they were. -/
structure SortRight (fields result : List UnknownField) : Prop where
  perm : fields.Perm result
  sorted : SortedBy tag result
  stable : ∀ k, ofKey tag k result = ofKey tag k fields

/-! ### The merge of a range -/

section Merge

variable {tmp arr : List UnknownField} {copied end1 : Nat}

theorem readAt_cons {i n : Nat} {f : UnknownField} (h : tmp[i]? = some f) (hi : i < n) :
    readAt tmp i (n - i) = f :: readAt tmp (i + 1) (n - (i + 1)) := by
  obtain ⟨hlt, rfl⟩ := List.getElem?_eq_some_iff.mp h
  obtain ⟨m, hm⟩ : ∃ m, n - i = m + 1 := ⟨n - (i + 1), by omega⟩
  rw [readAt, readAt, List.drop_eq_getElem_cons hlt, hm, List.take_succ_cons, show n - (i + 1) = m by omega]

theorem readAt_nil {i n : Nat} (h : n ≤ i) : readAt tmp i (n - i) = [] := by
  rw [readAt, Nat.sub_eq_zero_of_le h, List.take_zero]

/-- What the loop and the copies after it make of the array. -/
theorem mergeWhile_rest (htmp : copied ≤ tmp.length) (hend : end1 ≤ copied) {fuel ptr1 ptr2 out : Nat}
    (h1 : ptr1 ≤ end1) (h2 : end1 ≤ ptr2) (h2' : ptr2 ≤ copied) (hfuel : (end1 - ptr1) + (copied - ptr2) < fuel)
    (hout : out + ((end1 - ptr1) + (copied - ptr2)) ≤ arr.length) :
    (mergeWhile tmp copied end1 fuel ptr1 ptr2 out arr).bind (mergeRest tmp copied end1) =
      some (arr.take out ++
        mergeLoop (readAt tmp end1 (copied - end1)) (readAt tmp ptr1 (end1 - ptr1)) (readAt tmp ptr2 (copied - ptr2)) ++
        arr.drop (out + ((end1 - ptr1) + (copied - ptr2)))) := by
  induction fuel generalizing ptr1 ptr2 out arr with
  | zero => omega
  | succ fuel ih =>
    rw [mergeWhile]
    split
    next hboth =>
      obtain ⟨f, hf⟩ : ∃ f, tmp[ptr1]? = some f := ⟨_, List.getElem?_eq_getElem (by omega)⟩
      obtain ⟨g, hg⟩ : ∃ g, tmp[ptr2]? = some g := ⟨_, List.getElem?_eq_getElem (by omega)⟩
      have hread1 : readTmp tmp copied ptr1 = some f := by rw [readTmp, if_pos (by omega), hf]
      have hread2 : readTmp tmp copied ptr2 = some g := by rw [readTmp, if_pos (by omega), hg]
      have hwrite : ∀ x, writeArr arr out x = some (arr.set out x) := fun x => if_pos (by omega)
      have htake : ∀ x, (arr.set out x).take (out + 1) = arr.take out ++ [x] := by
        intro x
        rw [List.take_add_one, List.take_set_of_le (Nat.le_refl _), List.getElem?_set_self (by omega)]
        rfl
      have hdrop : ∀ x n, out < n → (arr.set out x).drop n = arr.drop n := fun x n hn => List.drop_set_of_lt hn
      rw [hread1, hread2, readAt_cons hf hboth.1, readAt_cons hg hboth.2, mergeLoop]
      dsimp only [Option.bind_some, Option.bind_eq_bind]
      split
      · rw [hwrite, Option.bind_some, ih (by omega) h2 h2' (by omega) (by rw [List.length_set]; omega), htake,
          hdrop _ _ (by omega), readAt_cons hg hboth.2, List.append_assoc (arr.take out)]
        congr 3
        omega
      · rw [hwrite, Option.bind_some, ih h1 (by omega) (by omega) (by omega) (by rw [List.length_set]; omega), htake,
          hdrop _ _ (by omega), readAt_cons hf hboth.1, List.append_assoc (arr.take out)]
        congr 3
        omega
    next hdone =>
      rw [Option.bind_some, mergeRest]
      split
      next hleft =>
        obtain rfl : ptr2 = copied := by omega
        obtain ⟨f, hf⟩ : ∃ f, tmp[ptr1]? = some f := ⟨_, List.getElem?_eq_getElem (by omega)⟩
        have hlen : (readAt tmp ptr1 (end1 - ptr1)).length = end1 - ptr1 := length_readAt (by omega)
        rw [copyBack, if_pos (by omega), overwrite, hlen, readAt_nil (Nat.le_refl _), readAt_cons hf hleft, mergeLoop,
          Nat.sub_self]
        rfl
      next hleft =>
        obtain rfl : ptr1 = end1 := by omega
        rw [readAt_nil (Nat.le_refl _), mergeLoop, length_readAt (by omega), Nat.sub_self, Nat.zero_add]
        split
        next hright =>
          have hlen : (readAt tmp ptr1 (copied - ptr2)).length = copied - ptr2 := length_readAt (by omega)
          rw [copyBack, if_pos (by omega), overwrite, hlen]
          congr 3
          rw [readAt, readAt, List.take_take, Nat.min_eq_left (by omega)]
        next hright =>
          obtain rfl : ptr2 = copied := by omega
          rw [Nat.sub_self, List.take_zero, List.append_nil, Nat.add_zero, List.take_append_drop]

end Merge

theorem length_mergeLoop {right left rest : List UnknownField} (h : rest.length ≤ right.length) :
    (mergeLoop right left rest).length = left.length + rest.length := by
  fun_induction mergeLoop right left rest with
  | case1 rest => rw [List.length_take, Nat.min_eq_left h, List.length_nil, Nat.zero_add]
  | case2 f fs => rfl
  | case3 f fs g gs hle ih =>
    have hrest := ih h
    simp only [List.length_cons] at hrest ⊢
    omega
  | case4 f fs g gs hle ih =>
    rw [List.length_cons] at h
    have hrest := ih (Nat.le_of_succ_le h)
    simp only [List.length_cons] at hrest ⊢
    omega

theorem length_merge (left right : List UnknownField) : (merge left right).length = left.length + right.length :=
  length_mergeLoop (Nat.le_refl _)

theorem length_sortRecursive (fuel : Nat) (fields : List UnknownField) :
    (sortRecursive fuel fields).length = fields.length := by
  induction fuel generalizing fields with
  | zero => rfl
  | succ fuel ih =>
    rw [sortRecursive]
    split
    · rw [length_merge, ih, ih, ← List.length_append, List.take_append_drop]
    · rfl

section Range

variable {arr tmp : List UnknownField} {start mid stop : Nat}

/-- **The merge** of two ranges of the array is the merge of their lists. -/
theorem mergeArr_eq (hmid : start ≤ mid) (hstop : mid ≤ stop) (harr : stop ≤ arr.length)
    (htmp : stop - start ≤ tmp.length) :
    mergeArr start mid stop ⟨arr, tmp⟩ =
      some ⟨overwrite arr start (merge (readAt arr start (mid - start)) (readAt arr mid (stop - mid))),
        overwrite tmp 0 (readAt arr start (stop - start))⟩ := by
  have hlen : (readAt arr start (stop - start)).length = stop - start := length_readAt (by omega)
  have hread : ∀ i n, i + n ≤ stop - start →
      readAt (overwrite tmp 0 (readAt arr start (stop - start))) i n = readAt arr (start + i) n := by
    intro i n hi
    have hinside : readAt (overwrite tmp 0 (readAt arr start (stop - start))) (0 + i) n =
        readAt (readAt arr start (stop - start)) i n := readAt_overwrite_inside (Nat.zero_le _) (by omega)
    rw [Nat.zero_add] at hinside
    rw [hinside, readAt_readAt hi]
  have hcopied : stop - start ≤ (overwrite tmp 0 (readAt arr start (stop - start))).length := by
    rw [length_overwrite (by omega)]
    exact htmp
  have hmerge : start + (merge (readAt arr start (mid - start)) (readAt arr mid (stop - mid))).length = stop := by
    rw [length_merge, length_readAt (by omega), length_readAt (by omega)]
    omega
  have hout : overwrite arr start (merge (readAt arr start (mid - start)) (readAt arr mid (stop - mid))) =
      arr.take start ++ merge (readAt arr start (mid - start)) (readAt arr mid (stop - mid)) ++ arr.drop stop := by
    rw [overwrite, hmerge]
  have hrun := @mergeWhile_rest _ arr _ (mid - start) hcopied (by omega) (stop - start + 1) 0 (mid - start) start
    (Nat.zero_le _) (Nat.le_refl _) (by omega) (by omega) (by omega)
  rw [hread _ _ (by omega), hread _ _ (by omega), Nat.add_zero start, Nat.sub_zero, Nat.add_sub_cancel' hmid,
    show stop - start - (mid - start) = stop - mid by omega,
    show start + (mid - start + (stop - mid)) = stop by omega] at hrun
  obtain ⟨r, hr, hrest⟩ := Option.bind_eq_some_iff.mp hrun
  rw [mergeArr, if_pos ⟨harr, htmp⟩]
  dsimp only [Option.bind_eq_bind]
  rw [hr, Option.bind_some, hrest, hout]
  rfl

/-- **The recursion** on a range of the array is that on its list. -/
theorem sortArr_eq {fuel : Nat} (hstart : start ≤ stop) (harr : stop ≤ arr.length) (hfuel : stop - start ≤ fuel)
    (htmp : stop - start ≤ tmp.length) :
    ∃ tmp', tmp'.length = tmp.length ∧ sortArr (fuel + 1) start stop ⟨arr, tmp⟩ =
      some ⟨overwrite arr start (sortRecursive fuel (readAt arr start (stop - start))), tmp'⟩ := by
  have hself : overwrite arr start (readAt arr start (stop - start)) = arr := overwrite_readAt (by omega)
  induction fuel generalizing start stop arr tmp with
  | zero => exact ⟨tmp, rfl, by rw [sortArr, if_neg (by omega), sortRecursive, hself]⟩
  | succ fuel ih =>
    rw [sortArr, sortRecursive, length_readAt (by omega)]
    split
    next hlong =>
      generalize hn : (stop - start) / 2 = n
      have hhalf : n ≤ stop - start := by omega
      have hleft : (readAt arr start (stop - start)).take n = readAt arr start n := by
        rw [readAt, List.take_take, Nat.min_eq_left hhalf, readAt]
      have hright : (readAt arr start (stop - start)).drop n = readAt arr (start + n) (stop - (start + n)) := by
        rw [readAt, readAt, List.drop_take, List.drop_drop, Nat.sub_sub]
      obtain ⟨tmp₁, hlen₁, hrun₁⟩ := @ih arr tmp start (start + n) (by omega) (by omega) (by omega) (by omega)
        (overwrite_readAt (by omega))
      rw [Nat.add_sub_cancel_left] at hrun₁
      generalize hl : sortRecursive fuel (readAt arr start n) = l at hrun₁
      have hllen : l.length = n := by rw [← hl, length_sortRecursive, length_readAt (by omega)]
      have hlarr : (overwrite arr start l).length = arr.length := length_overwrite (by omega)
      obtain ⟨tmp₂, hlen₂, hrun₂⟩ := @ih (overwrite arr start l) tmp₁ (start + n) stop (by omega) (by omega) (by omega)
        (by omega) (overwrite_readAt (by omega))
      rw [readAt_overwrite_after (by omega) (by omega)] at hrun₂
      generalize hr : sortRecursive fuel (readAt arr (start + n) (stop - (start + n))) = r at hrun₂
      have hrlen : r.length = stop - (start + n) := by rw [← hr, length_sortRecursive, length_readAt (by omega)]
      have hboth : overwrite (overwrite arr start l) (start + n) r = overwrite arr start (l ++ r) := by
        rw [← hllen]
        exact overwrite_append (by omega)
      have hbothlen : (overwrite arr start (l ++ r)).length = arr.length :=
        length_overwrite (by rw [List.length_append]; omega)
      have hreadl : readAt (overwrite arr start (l ++ r)) start n = l := by
        have hinside : readAt (overwrite arr start (l ++ r)) (start + 0) n = readAt (l ++ r) 0 n :=
          readAt_overwrite_inside (by omega) (by rw [List.length_append]; omega)
        have hcells : readAt (l ++ r) 0 n = l := by rw [readAt, List.drop_zero, ← hllen, List.take_left]
        rwa [Nat.add_zero, hcells] at hinside
      have hreadr : readAt (overwrite arr start (l ++ r)) (start + n) (stop - (start + n)) = r := by
        rw [readAt_overwrite_inside (by omega) (by rw [List.length_append]; omega), readAt, ← hllen, List.drop_left,
          List.take_of_length_le (by omega)]
      have hmerge := @mergeArr_eq (overwrite arr start (l ++ r)) tmp₂ start (start + n) stop (by omega) (by omega)
        (by omega) (by omega)
      rw [Nat.add_sub_cancel_left, hreadl, hreadr,
        overwrite_overwrite (by omega) (by rw [length_merge, List.length_append])] at hmerge
      refine ⟨overwrite tmp₂ 0 (readAt (overwrite arr start (l ++ r)) start (stop - start)), ?_, ?_⟩
      · rw [length_overwrite (by rw [length_readAt (by omega)]; omega), hlen₂, hlen₁]
      · dsimp only [Option.bind_eq_bind]
        rw [hleft, hright, hl, hr, hrun₁, Option.bind_some, hrun₂, Option.bind_some, hboth, hmerge]
    next hshort => exact ⟨tmp, rfl, by rw [hself]⟩

end Range

theorem le_doubleTmp (size rounds : Nat) {n : Nat} (hn : 0 < n) (h : size ≤ n + rounds) :
    size ≤ doubleTmp size rounds n := by
  induction rounds generalizing n with
  | zero => exact h
  | succ rounds ih =>
    rw [doubleTmp]
    split
    · exact ih (by omega) (by omega)
    · omega

theorem le_length_growTmp (fresh : Nat → UnknownField) (size : Nat) (tmp : List UnknownField) :
    size ≤ (growTmp fresh size tmp).length := by
  rw [growTmp]
  split
  · have := le_doubleTmp size size (n := max 8 tmp.length) (by omega) (by omega)
    rw [List.length_append, List.length_map, List.length_range]
    omega
  · omega

/-- **The sort of an array** is the recursion on its list: no cell is read that was not copied. -/
theorem sortFields_eq (fresh : Nat → UnknownField) (fields tmp : List UnknownField) :
    ∃ tmp', sortFields fresh fields tmp = some ⟨sortRecursive fields.length fields, tmp'⟩ := by
  have hgrow := le_length_growTmp fresh fields.length tmp
  obtain ⟨tmp', -, hrun⟩ := @sortArr_eq fields (growTmp fresh fields.length tmp) 0 fields.length fields.length
    (Nat.zero_le _) (Nat.le_refl _) (Nat.le_refl _) hgrow
  rw [Nat.sub_zero, readAt_self rfl, overwrite, List.take_zero, List.nil_append, length_sortRecursive, Nat.zero_add,
    List.drop_length, List.append_nil] at hrun
  exact ⟨tmp', hrun⟩

/-! ### Results that are in order -/

section Ordered

variable {left right fs : List UnknownField}

theorem sublist_mergeLoop (right left rest : List UnknownField) : left.Sublist (mergeLoop right left rest) := by
  fun_induction mergeLoop right left rest with
  | case1 rest => exact List.nil_sublist _
  | case2 f fs => exact List.Sublist.refl _
  | case3 f fs g gs hle ih => exact ih.cons_cons f
  | case4 f fs g gs hle ih => exact ih.cons g

/-- The right half is all in the result, or the left half was used up first: then first fields of the right half come
behind the left half and the fields that were taken from the right one. -/
theorem mergeLoop_cases (right left rest : List UnknownField) : rest.Sublist (mergeLoop right left rest) ∨
    ∃ p taken others, rest = taken ++ others ∧ others ≠ [] ∧ mergeLoop right left rest = p ++ right.take others.length ∧
      (∀ f ∈ left, f ∈ p) ∧ ∀ g ∈ taken, ∃ f ∈ left, g.tag < f.tag := by
  fun_induction mergeLoop right left rest with
  | case1 rest =>
    by_cases hrest : rest = []
    · exact .inl (hrest ▸ List.nil_sublist _)
    · exact .inr ⟨[], [], rest, rfl, hrest, rfl, List.forall_mem_nil _, List.forall_mem_nil _⟩
  | case2 f fs => exact .inl (List.nil_sublist _)
  | case3 f fs g gs hle ih =>
    obtain hsub | ⟨p, taken, others, hrest, hne, heq, hmem, htaken⟩ := ih
    · exact .inl (hsub.cons f)
    · refine .inr ⟨f :: p, taken, others, hrest, hne, by rw [heq, List.cons_append], ?_, fun x hx => ?_⟩
      · exact List.forall_mem_cons.mpr ⟨List.mem_cons_self, fun x hx => List.mem_cons_of_mem _ (hmem x hx)⟩
      · obtain ⟨y, hy, hlt⟩ := htaken x hx
        exact ⟨y, List.mem_cons_of_mem _ hy, hlt⟩
  | case4 f fs g gs hle ih =>
    obtain hsub | ⟨p, taken, others, hrest, hne, heq, hmem, htaken⟩ := ih
    · exact .inl (hsub.cons_cons g)
    · refine .inr ⟨g :: p, g :: taken, others, by rw [hrest, List.cons_append], hne, by rw [heq, List.cons_append],
        fun x hx => List.mem_cons_of_mem _ (hmem x hx), ?_⟩
      exact List.forall_mem_cons.mpr ⟨⟨f, List.mem_cons_self, Nat.not_le.mp hle⟩, htaken⟩

/-- If a merge is in order, both halves are. -/
theorem sortedBy_of_merge (h : SortedBy tag (merge left right)) : SortedBy tag left ∧ SortedBy tag right := by
  refine ⟨h.sublist (sublist_mergeLoop right left right), ?_⟩
  obtain hsub | ⟨p, taken, others, hright, hne, heq, hmem, htaken⟩ := mergeLoop_cases right left right
  · exact h.sublist hsub
  · rw [merge, heq] at h
    cases taken with
    | nil =>
      rw [hright, List.nil_append, List.take_length] at h
      rw [hright, List.nil_append]
      exact (List.pairwise_append.mp h).2.1
    | cons g gs =>
      -- a field of the left half comes before the second copy of one that is below it
      obtain ⟨f, hf, hlt⟩ := htaken g List.mem_cons_self
      obtain ⟨n, hn⟩ := Nat.exists_eq_succ_of_ne_zero fun hlen => hne (List.length_eq_zero_iff.mp hlen)
      have hcopy : g ∈ right.take others.length := by
        rw [hn, hright, List.cons_append, List.take_succ_cons]
        exact List.mem_cons_self
      exact absurd ((List.pairwise_append.mp h).2.2 f (hmem f hf) g hcopy) (Nat.not_le.mpr hlt)

/-- **If the result is in order, every merge was right.** -/
theorem sortable_of_sortedBy {fuel : Nat} (hfuel : fs.length ≤ fuel) (h : SortedBy tag (sortRecursive fuel fs)) :
    Sortable fuel fs := by
  induction fuel generalizing fs with
  | zero => exact trivial
  | succ fuel ih =>
    intro hlong
    rw [sortRecursive, if_pos hlong] at h
    obtain ⟨hl, hr⟩ := sortedBy_of_merge h
    have hleft : (fs.take (fs.length / 2)).length ≤ fuel := by rw [List.length_take]; omega
    have hright : (fs.drop (fs.length / 2)).length ≤ fuel := by rw [List.length_drop]; omega
    have hsl := ih hleft hl
    have hsr := ih hright hr
    refine ⟨((sortedBy_merge_iff hl hr).mp h).congr (fun f => ?_) fun g => ?_, hsl, hsr⟩
    · exact (mem_of_ofKey (sortRecursive_mergesTo hleft hsl).2).symm
    · exact (mem_of_ofKey (sortRecursive_mergesTo hright hsr).2).symm

/-- The recursion is right if and only if its merges are. -/
theorem sortRight_sortRecursive_iff (fs : List UnknownField) :
    SortRight fs (sortRecursive fs.length fs) ↔ Sortable fs.length fs := by
  refine ⟨fun h => sortable_of_sortedBy (Nat.le_refl _) h.sorted, fun h => ?_⟩
  obtain ⟨hsorted, hkeys⟩ := sortRecursive_mergesTo (Nat.le_refl _) h
  refine ⟨?_, hsorted, hkeys⟩
  rw [eq_stableSort hsorted hkeys]
  exact (List.mergeSort_perm fs _).symm

end Ordered

/-- **The sort of an array** reads only cells that were copied for the current merge. Its result is the stable sort by tags
if and only if no merge uses up its left half first after it took a field of the right one. -/
theorem sortFields_right_iff (fresh : Nat → UnknownField) (fields tmp : List UnknownField) :
    ∃ s, sortFields fresh fields tmp = some s ∧ (SortRight fields s.arr ↔ Sortable fields.length fields) := by
  obtain ⟨tmp', hrun⟩ := sortFields_eq fresh fields tmp
  exact ⟨_, hrun, sortRight_sortRecursive_iff fields⟩

/-- The fields with the numbers 2, 1 and 3: the left half is used up first, and the field 1 comes twice. -/
theorem not_sortFields_right : ¬∀ (fresh : Nat → UnknownField) (fields tmp : List UnknownField),
    ∃ s, sortFields fresh fields tmp = some s ∧ SortRight fields s.arr := by
  intro h
  obtain ⟨s, hrun, hright⟩ := h (fun _ => varint 0 0) [varint 2 0, varint 1 0, varint 3 0] []
  obtain ⟨tmp', hrun'⟩ := sortFields_eq (fun _ => varint 0 0) [varint 2 0, varint 1 0, varint 3 0] []
  obtain rfl := Option.some.inj (hrun.symm.trans hrun')
  obtain ⟨hmerge, -⟩ := (sortRight_sortRecursive_iff _).mp hright (by decide)
  obtain hle | ⟨f, hf, hlt⟩ := hmerge
  · exact absurd (hle (varint 2 0) (.head _) (varint 1 0) (.head _)) (by decide)
  · obtain rfl := List.mem_singleton.mp hf
    exact absurd (hlt (varint 3 0) (.tail _ (.head _))) (by decide)

end Hpb.UnknownField
