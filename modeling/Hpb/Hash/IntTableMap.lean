import Hpb.Hash.IntTable
import Hpb.Lib.Listing

/-!
# The contents of an `hpb_inttable`

The contents of the table are the used array slots, then the pairs of the hash part
(`IntTable.pairs`), which is also the order of the iteration (`IntTable.forAll_run`).
`IntTable.Stands t m` relates a table to the finite map it holds; `insert_run`, `lookup_run`,
`replace_run` and `remove_run` say what each operation makes of it.
-/

namespace Hpb

namespace IntTable

section Array

/-- The used slots of an array part, from slot `n` on. -/
def arrayPairs : List UInt64 → Nat → List (Nat × UInt64)
  | [], _ => []
  | v :: l, n => if arrHas v then (n, v) :: arrayPairs l (n + 1) else arrayPairs l (n + 1)

variable {l : List UInt64} {n k : Nat} {v w : UInt64}

theorem mem_arrayPairs : (k, v) ∈ arrayPairs l n ↔ n ≤ k ∧ l[k - n]? = some v ∧ arrHas v := by
  induction l generalizing n with
  | nil => simp [arrayPairs]
  | cons w l ih =>
    have hrest : (k, v) ∈ arrayPairs l (n + 1) ↔ n < k ∧ (w :: l)[k - n]? = some v ∧ arrHas v := by
      rw [ih]
      refine and_congr_right fun h => ?_
      rw [show k - n = k - (n + 1) + 1 by omega, List.getElem?_cons_succ]
    rw [arrayPairs]
    obtain hk | rfl | hk := Nat.lt_trichotomy k n
    · have : k ≠ n := by omega
      split <;> simp [hrest, this] <;> omega
    · have hhead : (w :: l)[k - k]? = some w := by simp
      rw [hhead, Option.some.injEq] at hrest ⊢
      split <;> rename_i hw
      · simp only [List.mem_cons, Prod.mk.injEq, true_and, hrest, Nat.lt_irrefl, false_and, or_false,
          Nat.le_refl]
        constructor
        · rintro rfl
          exact ⟨rfl, hw⟩
        · rintro ⟨rfl, -⟩
          rfl
      · simp only [hrest, Nat.lt_irrefl, false_and, false_iff, Nat.le_refl, true_and, not_and]
        rintro rfl
        exact hw
    · have : k ≠ n := by omega
      split <;> simp [hrest, this] <;> omega

theorem arrayPairs_append (l₁ l₂ : List UInt64) :
    arrayPairs (l₁ ++ l₂) n = arrayPairs l₁ n ++ arrayPairs l₂ (n + l₁.length) := by
  induction l₁ generalizing n with
  | nil => simp [arrayPairs]
  | cons w l₁ ih =>
    simp only [List.cons_append, arrayPairs, ih, List.length_cons]
    rw [show n + (l₁.length + 1) = n + 1 + l₁.length by omega]
    split <;> rfl

/-- A slot and the rest of the array. -/
theorem arrayPairs_split (h : l[k]? = some w) (v : UInt64) :
    ∃ ps qs, arrayPairs l 0 = ps ++ (if arrHas w then [(k, w)] else []) ++ qs ∧
      arrayPairs (l.set k v) 0 = ps ++ (if arrHas v then [(k, v)] else []) ++ qs := by
  obtain ⟨hk, rfl⟩ := List.getElem?_eq_some_iff.mp h
  refine ⟨arrayPairs (l.take k) 0, arrayPairs (l.drop (k + 1)) (k + 1), ?_, ?_⟩
  · conv_lhs => rw [← List.take_append_drop k l, List.drop_eq_getElem_cons hk, arrayPairs_append]
    rw [List.length_take, Nat.min_eq_left (by omega), Nat.zero_add, arrayPairs, List.append_assoc]
    split <;> rfl
  · rw [List.set_eq_take_append_cons_drop, if_pos hk, arrayPairs_append, List.length_take,
      Nat.min_eq_left (by omega), Nat.zero_add, arrayPairs, List.append_assoc]
    split <;> rfl

end Array

/-- The keys and values of the table, in the order of the iteration. -/
def pairs (t : IntTable) : List (Nat × UInt64) := arrayPairs t.array 0 ++ t.t.pairs

/-- The representation invariant. -/
structure Inv (t : IntTable) : Prop where
  table : t.t.Inv intHash
  load : t.t.count ≤ t.t.maxCount
  array_pos : 1 ≤ t.arraySize
  array_len : t.array.length = t.arraySize
  array_count : t.arrayCount = (arrayPairs t.array 0).length
  high : ∀ k ∈ t.t.keys, t.arraySize ≤ k

/-- `t` holds the finite map `m`, of `uintptr_t` keys and values other than the sentinel. -/
structure Stands (t : IntTable) (m : Finmap fun _ : Nat => UInt64) : Prop where
  inv : t.Inv
  listing : Listing t.pairs m
  values : ∀ k v, m.lookup k = some v → arrHas v
  words : ∀ k ∈ m, k < 2 ^ 64

section Iterate

variable {t : IntTable}

/-- What is left of the iteration at an iterator. -/
def rest (t : IntTable) (iter : Int) : List (Nat × UInt64) :=
  if (iter + 1).toNat ≤ t.arraySize then
    arrayPairs (t.array.drop (iter + 1).toNat) (iter + 1).toNat ++ t.t.pairs
  else (t.t.entries.drop (iter + 1 - t.arraySize).toNat).filterMap TabEnt.pair

theorem arrayScan_run (hlen : t.array.length = t.arraySize) (n i : Nat) (hn : n + i = t.arraySize) :
    (t.arrayScan n i = some none ∧ arrayPairs (t.array.drop i) i = []) ∨
      ∃ k v, t.arrayScan n i = some (some (k, v)) ∧ k < t.arraySize ∧
        arrayPairs (t.array.drop i) i = (k, v) :: arrayPairs (t.array.drop (k + 1)) (k + 1) := by
  induction n generalizing i with
  | zero => exact .inl ⟨rfl, by rw [List.drop_eq_nil_of_le (by omega), arrayPairs]⟩
  | succ n ih =>
    have hi : i < t.array.length := by omega
    have he := List.getElem?_eq_getElem hi
    rw [List.drop_eq_getElem_cons hi, arrayPairs, arrayScan, he]
    by_cases hv : arrHas t.array[i] = true
    · exact .inr ⟨i, t.array[i], by simp [hv], by omega, by simp [hv]⟩
    · simpa [hv] using ih (i + 1) (by omega)

theorem nextHash_run (h : t.Inv) (n : Nat) :
    (t.nextHash ((n : Int) - 1) = some none ∧
        (t.t.entries.drop n).filterMap TabEnt.pair = []) ∨
      ∃ k v, ∃ j : Nat,
        t.nextHash ((n : Int) - 1) = some (some (k, v, ((j + t.arraySize : Nat) : Int))) ∧
        (t.t.entries.drop n).filterMap TabEnt.pair =
          (k, v) :: (t.t.entries.drop (j + 1)).filterMap TabEnt.pair := by
  obtain ⟨hnext, hrest⟩ | ⟨j, p, hnext, -, -, hp, hrest⟩ := Table.next_spec h.table.length_eq n
  · exact .inl ⟨by simp [nextHash, hnext], hrest⟩
  · exact .inr ⟨p.1, p.2, j, by simp [nextHash, hnext, hp], hrest⟩

/-- **The iteration crosses from the array to the hash part without skipping or repeating.** -/
theorem next_run (h : t.Inv) {iter : Int} (hi : -1 ≤ iter) :
    (t.next iter = some none ∧ t.rest iter = []) ∨
      ∃ k v iter', t.next iter = some (some (k, v, iter')) ∧ -1 ≤ iter' ∧
        t.rest iter = (k, v) :: t.rest iter' := by
  have hhash : ∀ j : Nat, t.rest ((j + t.arraySize : Nat) : Int) =
      (t.t.entries.drop (j + 1)).filterMap TabEnt.pair := fun j => by
    rw [rest, if_neg (by omega)]
    congr 2
    omega
  by_cases hle : (iter + 1).toNat ≤ t.arraySize
  · rw [next, if_pos hle]
    obtain ⟨hscan, hnil⟩ | ⟨k, v, hscan, hk, hcons⟩ :=
      arrayScan_run h.array_len (t.arraySize - (iter + 1).toNat) (iter + 1).toNat (by omega)
    · rw [hscan, rest, if_pos hle, hnil, List.nil_append]
      obtain ⟨hnext, hr⟩ | ⟨k, v, j, hnext, hr⟩ := nextHash_run h 0
      · exact .inl ⟨by simpa using hnext, hr⟩
      · refine .inr ⟨k, v, ((j + t.arraySize : Nat) : Int), by simpa using hnext, by omega, ?_⟩
        rw [hhash]
        exact hr
    · refine .inr ⟨k, v, k, by simp [hscan], by omega, ?_⟩
      rw [rest, if_pos hle, hcons, rest, if_pos (by omega)]
      rfl
  · rw [next, if_neg hle]
    have hsub : iter - t.arraySize = ((iter + 1 - t.arraySize).toNat : Int) - 1 := by omega
    rw [rest, if_neg hle, hsub]
    obtain ⟨hnext, hr⟩ | ⟨k, v, j, hnext, hr⟩ := nextHash_run h (iter + 1 - t.arraySize).toNat
    · exact .inl ⟨hnext, hr⟩
    · refine .inr ⟨k, v, _, hnext, by omega, ?_⟩
      rw [hr, hhash]

theorem forEach_run {σ : Type} (h : t.Inv) (body : σ → Nat × UInt64 → Option σ) (n : Nat)
    {iter : Int} (hi : -1 ≤ iter) (hn : (t.rest iter).length < n) (s : σ) :
    t.forEach body n iter s = (t.rest iter).foldlM body s := by
  induction n generalizing iter s with
  | zero => omega
  | succ n ih =>
    obtain ⟨hnext, hnil⟩ | ⟨k, v, iter', hnext, hi', hcons⟩ := next_run h hi
    · simp [forEach, hnext, hnil]
    · rw [hcons, List.length_cons] at hn
      rw [hcons, List.foldlM_cons, forEach, hnext]
      simp only [Option.bind_eq_bind, Option.bind_some]
      congr 1
      funext s'
      exact ih hi' (by omega) s'

theorem arrayPairs_length_le (l : List UInt64) (n : Nat) : (arrayPairs l n).length ≤ l.length := by
  induction l generalizing n with
  | nil => simp [arrayPairs]
  | cons v l ih =>
    have := ih (n + 1)
    rw [arrayPairs]
    split <;> simp only [List.length_cons] <;> omega

theorem forAll_run {σ : Type} (h : t.Inv) (body : σ → Nat × UInt64 → Option σ) (s : σ) :
    t.forAll body s = t.pairs.foldlM body s := by
  have hrest : t.rest (-1) = t.pairs := by
    rw [rest, if_pos (by simp)]
    rfl
  rw [forAll, forEach_run h body _ (by omega) ?_, hrest]
  have h₁ := arrayPairs_length_le t.array 0
  have h₂ : t.t.pairs.length ≤ t.t.entries.length := List.length_filterMap_le _ _
  rw [h.table.length_eq] at h₂
  rw [h.array_len] at h₁
  rw [hrest, pairs, List.length_append]
  omega

end Iterate

section Insert

variable {t : IntTable} {k : Nat} {v : UInt64}

/-- Doubling the hash part keeps its pairs. -/
theorem rehash_run {t : Table Nat UInt64} (h : t.Inv intHash) (hs : t.sizeLg2 + 1 ≤ 30)
    (hload : t.count ≤ t.maxCount) :
    ∃ t', rehash t (Table.empty (t.sizeLg2 + 1)) = some t' ∧ t'.Inv intHash ∧
      t'.pairs.Perm t.pairs ∧ t'.sizeLg2 = t.sizeLg2 + 1 := by
  have hgrow := Table.maxCount_double hs
  have hmax := h.max_eq
  rw [Table.size] at hmax
  have hempty : (Table.empty (t.sizeLg2 + 1) : Table Nat UInt64).Inv intHash := Table.empty_inv hs
  obtain ⟨t', hrun, hinv, hp, hs'⟩ := Table.insertAll_run t.pairs hempty (by simp [Table.empty])
    (by simpa [Table.keys] using h.nodup) (by
      rw [← h.count_eq]
      simp only [Table.empty, Table.size]
      omega)
  refine ⟨t', ?_, hinv, by simpa using hp, hs'⟩
  rw [rehash, Table.forEach_spec h.length_eq]
  exact hrun

/-- The other half of the invariant stays when the hash part is replaced. -/
theorem Inv.with_table (h : t.Inv) {tab : Table Nat UInt64} (ht : tab.Inv intHash)
    (hload : tab.count ≤ tab.maxCount) (hhigh : ∀ k ∈ tab.keys, t.arraySize ≤ k) :
    Inv { t with t := tab } :=
  { h with table := ht, load := hload, high := hhigh }

/-- A new key in a hash part below its load limit. -/
theorem insertHash_run (h : t.Inv) (hk : k ∉ t.t.keys) (hka : t.arraySize ≤ k)
    (hroom : t.t.count < t.t.maxCount) (v : UInt64) :
    ∃ tab, insertHash t.t k v = some tab ∧ Inv { t with t := tab } ∧
      tab.pairs.Perm ((k, v) :: t.t.pairs) ∧ tab.sizeLg2 = t.t.sizeLg2 ∧ tab.count = t.t.count + 1 := by
  have hmax := h.table.max_eq
  have h0 : t.t.sizeLg2 ≠ 0 := fun h0 => by
    have hsize : t.t.size = 0 := by simp [Table.size, tableSize, h0]
    omega
  obtain ⟨tab, hrun, hinv, hp, hs, hc⟩ := Table.insert_spec h.table h0 (by omega) hk v
  have hmax' : tab.maxCount = t.t.maxCount := by
    rw [hinv.max_eq, hmax, Table.size, Table.size, hs]
  refine ⟨tab, hrun, h.with_table hinv (by omega) fun k' hk' => ?_, hp, hs, hc⟩
  rw [Table.keys, (hp.map Prod.fst).mem_iff, List.map_cons, List.mem_cons] at hk'
  obtain rfl | hk' := hk'
  exacts [hka, h.high k' hk']

theorem array_get (h : t.Inv) (hk : k < t.arraySize) : ∃ w, t.array[k]? = some w :=
  ⟨_, List.getElem?_eq_getElem (by rw [h.array_len]; exact hk)⟩

/-- Writing a value into an array slot. -/
theorem Inv.with_slot (h : t.Inv) {n : Nat} (hn : n = (arrayPairs (t.array.set k v) 0).length) :
    Inv { t with arrayCount := n, array := t.array.set k v } :=
  { table := h.table
    load := h.load
    array_pos := h.array_pos
    array_len := by rw [List.length_set, h.array_len]
    array_count := hn
    high := h.high }

/-- **One insertion of an absent key**: into the array, into the hash part, or into a hash part of
twice the size. -/
theorem insert_run (h : t.Inv) (hk : k ∉ t.pairs.map Prod.fst) (hv : arrHas v) (a : Alloc) :
    ∃ r t' a', insert t k v a = (some (r, t'), a') ∧ t'.Inv ∧ t'.arraySize = t.arraySize ∧
      ((a'.failed = true ∧ t' = t) ∨
        (r = true ∧ a'.failed = a.failed ∧ t'.pairs.Perm ((k, v) :: t.pairs))) := by
  have hkt : k ∉ t.t.keys := fun hm => hk (by
    rw [pairs, List.map_append]
    exact List.mem_append_right _ hm)
  by_cases hka : k < t.arraySize
  · obtain ⟨w, hw⟩ := array_get h hka
    have hfree : arrHas w = false := by
      cases hwh : arrHas w with
      | false => rfl
      | true =>
        have hmem : (k, w) ∈ t.pairs :=
          List.mem_append_left _ (mem_arrayPairs.mpr ⟨Nat.zero_le _, hw, hwh⟩)
        exact absurd (List.mem_map_of_mem hmem) hk
    obtain ⟨ps, qs, hold, hnew⟩ := arrayPairs_split hw v
    rw [hfree] at hold
    rw [hv] at hnew
    have hp : (arrayPairs (t.array.set k v) 0).Perm ((k, v) :: arrayPairs t.array 0) := by
      rw [hold, hnew]
      simp
    refine ⟨true, { t with arrayCount := t.arrayCount + 1, array := t.array.set k v }, a,
      by simp [insert, hka, hw], h.with_slot ?_, rfl, .inr ⟨rfl, rfl, hp.append_right _⟩⟩
    rw [hp.length_eq, List.length_cons, h.array_count]
  · have hka' : t.arraySize ≤ k := Nat.le_of_not_lt hka
    have happ : ∀ {tab : Table Nat UInt64}, tab.pairs.Perm ((k, v) :: t.t.pairs) →
        (pairs { t with t := tab }).Perm ((k, v) :: t.pairs) := fun hp =>
      (hp.append_left _).trans List.perm_middle
    by_cases hroom : t.t.count < t.t.maxCount
    · have hfull : t.t.isFull = false := by
        rw [Table.isFull, decide_eq_false_iff_not]
        omega
      obtain ⟨tab, hrun, hinv, hp, -⟩ := insertHash_run h hkt hka' hroom v
      exact ⟨true, _, a, by simp [insert, hka, hfull, hrun], hinv, rfl, .inr ⟨rfl, rfl, happ hp⟩⟩
    · have hcount : t.t.count = t.t.maxCount := Nat.le_antisymm h.load (Nat.le_of_not_lt hroom)
      have hfull : t.t.isFull = true := by rw [Table.isFull, hcount, decide_eq_true_eq]
      have hlg := h.table.lg2_le
      have hmod : (t.t.sizeLg2 + 1) % 256 = t.t.sizeLg2 + 1 := by omega
      obtain ⟨a', ha, hf⟩ | ⟨hs30, a', ha, hf⟩ := Table.init_spec (K := Nat) (V := UInt64)
        (s := t.t.sizeLg2 + 1) (by omega) a
      · exact ⟨false, t, a', by simp [insert, hka, hfull, hmod, ha], h, rfl, .inl ⟨hf, rfl⟩⟩
      · obtain ⟨tab, hrun, hinv, hp, hs⟩ := rehash_run h.table hs30 h.load
        have hmax : tab.maxCount = tableSize (t.t.sizeLg2 + 1) * 17 / 20 := by
          rw [hinv.max_eq, Table.size, hs]
        have hgrow := Table.maxCount_double hs30
        have hc : tab.count = t.t.maxCount := by
          rw [hinv.count_eq, hp.length_eq, ← h.table.count_eq, hcount]
        have hold := h.table.max_eq
        rw [Table.size] at hold
        have hkeys : tab.keys.Perm t.t.keys := hp.map Prod.fst
        have h₁ : Inv { t with t := tab } := h.with_table hinv (by omega) fun k' hk' =>
          h.high k' (hkeys.mem_iff.mp hk')
        obtain ⟨tab', hrun', hinv', hp', -⟩ := insertHash_run (k := k) h₁ (mt hkeys.mem_iff.mp hkt) hka'
          (by simp only; omega) v
        refine ⟨true, _, a', by simp [insert, hka, hfull, hmod, ha, hrun, hrun'], hinv', rfl,
          .inr ⟨rfl, hf, happ (hp'.trans (hp.cons _))⟩⟩

end Insert

section Access

variable {t : IntTable} {m : Finmap fun _ : Nat => UInt64} {k : Nat} {v : UInt64}

/-- Where the table keeps a key. -/
theorem Stands.lookup_array (h : t.Stands m) {w : UInt64} (hk : k < t.arraySize)
    (hw : t.array[k]? = some w) : m.lookup k = if arrHas w then some w else none := by
  refine Option.ext fun v => ?_
  rw [← h.listing.mem_iff, pairs, List.mem_append, mem_arrayPairs, Nat.sub_zero, hw]
  have hhash : (k, v) ∉ t.t.pairs := fun hm => by
    have := h.inv.high k (List.mem_map_of_mem hm)
    omega
  simp only [hhash, Nat.zero_le, true_and, or_false, Option.some.injEq]
  split <;> rename_i hwh
  · exact ⟨fun ⟨h, _⟩ => by rw [h], fun h => by cases h; exact ⟨rfl, hwh⟩⟩
  · simp only [reduceCtorEq, iff_false, not_and]
    rintro rfl
    exact hwh

theorem Stands.mem_hash (h : t.Stands m) (hk : t.arraySize ≤ k) :
    (k, v) ∈ t.t.pairs ↔ m.lookup k = some v := by
  rw [← h.listing.mem_iff, pairs, List.mem_append, mem_arrayPairs]
  refine ⟨.inr, fun hm => hm.resolve_left ?_⟩
  rintro ⟨-, hget, -⟩
  have := (List.getElem?_eq_some_iff.mp hget).1
  rw [h.inv.array_len] at this
  omega

/-- `hpb_inttable_lookup` sees the value of the map. -/
theorem lookup_run (h : t.Stands m) (k : Nat) : t.lookup k = some (m.lookup k) := by
  by_cases hk : k < t.arraySize
  · obtain ⟨w, hw⟩ := array_get h.inv hk
    simp [lookup, hk, hw, h.lookup_array hk hw]
  · obtain ⟨r, hrun, hr⟩ := Table.lookup_spec h.inv.table k
    rw [lookup, if_neg hk, hrun]
    congr 1
    exact Option.ext fun v => by rw [hr, h.mem_hash (Nat.le_of_not_lt hk)]

/-- `hpb_inttable_replace` replaces the value of a key that is there. -/
theorem replace_run (h : t.Stands m) (k : Nat) (hv : arrHas v) :
    ∃ t', t.replace k v = some (decide (k ∈ m), t') ∧
      t'.Stands (if k ∈ m then m.insert k v else m) := by
  have hnew : ∀ {t' : IntTable}, t'.Inv → k ∈ m → Listing t'.pairs (m.insert k v) →
      t'.Stands (if k ∈ m then m.insert k v else m) := fun hinv hk hl => by
    rw [if_pos hk]
    refine ⟨hinv, hl, fun k' v' hm => ?_, fun k' hk' => ?_⟩
    · by_cases hkk : k' = k
      · subst hkk
        rw [Finmap.lookup_insert] at hm
        cases hm
        exact hv
      · rw [Finmap.lookup_insert_of_ne _ hkk] at hm
        exact h.values k' v' hm
    · rw [Finmap.mem_insert] at hk'
      obtain rfl | hk' := hk'
      exacts [h.words _ hk, h.words _ hk']
  by_cases hka : k < t.arraySize
  · obtain ⟨w, hw⟩ := array_get h.inv hka
    have hlook := h.lookup_array hka hw
    cases hwh : arrHas w with
    | false =>
      rw [hwh] at hlook
      have hk : k ∉ m := Finmap.lookup_eq_none.mp hlook
      exact ⟨t, by simp [replace, hka, hw, hwh, hk], by rwa [if_neg hk]⟩
    | true =>
      rw [hwh] at hlook
      have hk : k ∈ m := Finmap.mem_of_lookup_eq_some hlook
      obtain ⟨ps, qs, hold, hset⟩ := arrayPairs_split hw v
      simp only [hwh, hv, if_true, List.append_assoc, List.cons_append, List.nil_append] at hold hset
      refine ⟨{ t with array := t.array.set k v }, by simp [replace, hka, hw, hwh, hk],
        hnew (h.inv.with_slot ?_) hk ?_⟩
      · rw [h.inv.array_count, hold, hset, List.length_append, List.length_append, List.length_cons,
          List.length_cons]
      · refine h.listing.replace (k := k) (w := w) (r := ps ++ qs ++ t.t.pairs) ?_ ?_
        · rw [pairs, hold, List.append_assoc, List.append_assoc]
          exact List.perm_middle
        · rw [pairs, hset, List.append_assoc, List.append_assoc]
          exact List.perm_middle
  · obtain ⟨r, hrun, hfound, hnone⟩ := Table.findEntry_spec h.inv.table k
    have hmem := fun v => h.mem_hash (v := v) (Nat.le_of_not_lt hka)
    cases r with
    | none =>
      have hk : k ∉ m := fun hk => by
        obtain ⟨w, hw⟩ := Finmap.mem_iff.mp hk
        exact hnone rfl (List.mem_map_of_mem ((hmem w).mpr hw))
      exact ⟨t, by simp [replace, hka, hrun, hk], by rwa [if_neg hk]⟩
    | some i =>
      obtain ⟨e, he, hek⟩ := Table.get_of_keyAt (hfound i rfl)
      have hk : k ∈ m := Finmap.mem_of_lookup_eq_some
        ((hmem e.val).mp (Table.mem_pairs.mpr ⟨i, e, he, hek, rfl⟩))
      obtain ⟨hinv, r, hr, hr'⟩ := Table.setVal_run h.inv.table he hek v
      refine ⟨_, by simp [replace, hka, hrun, hk, he], hnew (h.inv.with_table hinv h.inv.load ?_) hk ?_⟩
      · intro k' hk'
        refine h.inv.high k' ?_
        rw [Table.keys, (hr.map Prod.fst).mem_iff]
        exact (hr'.map Prod.fst).mem_iff.mp hk'
      · refine h.listing.replace (k := k) (w := e.val) (r := arrayPairs t.array 0 ++ r) ?_ ?_
        · exact (hr.append_left _).trans List.perm_middle
        · exact (hr'.append_left _).trans List.perm_middle

theorem Stands.erase {t' : IntTable} (h : t.Stands m) (hinv : t'.Inv) (hl : Listing t'.pairs (m.erase k)) :
    t'.Stands (m.erase k) := by
  refine ⟨hinv, hl, fun k' v' hm => ?_, fun k' hk' => h.words _ (Finmap.mem_erase.mp hk').2⟩
  by_cases hkk : k' = k
  · subst hkk
    rw [Finmap.lookup_erase] at hm
    cases hm
  · rw [Finmap.lookup_erase_ne hkk] at hm
    exact h.values k' v' hm

/-- The hash part with one pair less. -/
theorem Inv.less_hash (h : t.Inv) {tab : Table Nat UInt64} (hinv : tab.Inv intHash)
    (hp : t.t.pairs.Perm ((k, v) :: tab.pairs)) (hs : tab.sizeLg2 = t.t.sizeLg2) : Inv { t with t := tab } := by
  refine h.with_table hinv ?_ ?_
  · have hload := h.load
    have hc := hp.length_eq
    rw [List.length_cons, ← hinv.count_eq, ← h.table.count_eq] at hc
    rw [hinv.max_eq, Table.size, hs]
    rw [h.table.max_eq, Table.size] at hload
    omega
  · intro k' hk'
    refine h.high k' ?_
    rw [Table.keys, (hp.map Prod.fst).mem_iff]
    exact List.mem_cons_of_mem _ hk'

/-- An array slot that is emptied. -/
theorem Stands.empty_slot (h : t.Stands m) {w : UInt64} (hw : t.array[k]? = some w) (hwh : arrHas w = true) :
    Stands { t with arrayCount := t.arrayCount - 1, array := t.array.set k tabvalEmpty } (m.erase k) := by
  obtain ⟨ps, qs, hold, hset⟩ := arrayPairs_split hw tabvalEmpty
  have hempty : arrHas tabvalEmpty = false := rfl
  simp only [hwh, hempty, if_true, List.append_assoc, List.cons_append, List.nil_append,
    Bool.false_eq_true, if_false] at hold hset
  refine h.erase (h.inv.with_slot ?_) ?_
  · rw [h.inv.array_count, hold, hset, List.length_append, List.length_append, List.length_cons]
    omega
  · refine h.listing.erase (k := k) (v := w) ?_
    rw [pairs, pairs, hold, hset, List.append_assoc, List.append_assoc]
    exact List.perm_middle

/-- `hpb_inttable_remove` takes out a key that is there. -/
theorem remove_run (h : t.Stands m) (hk : k ∈ m) :
    ∃ t', t.remove k = some (m.lookup k, t') ∧ t'.Stands (m.erase k) := by
  by_cases hka : k < t.arraySize
  · obtain ⟨w, hw⟩ := array_get h.inv hka
    have hlook := h.lookup_array hka hw
    have hwh : arrHas w = true := by
      by_contra hwh
      rw [if_neg hwh] at hlook
      exact Finmap.lookup_eq_none.mp hlook hk
    rw [hwh] at hlook
    exact ⟨{ t with arrayCount := t.arrayCount - 1, array := t.array.set k tabvalEmpty },
      by simp [remove, hka, hw, hwh, hlook], h.empty_slot hw hwh⟩
  · have hmem := fun v => h.mem_hash (v := v) (Nat.le_of_not_lt hka)
    obtain ⟨w, hw⟩ := Finmap.mem_iff.mp hk
    have hkt : k ∈ t.t.keys := List.mem_map_of_mem ((hmem w).mpr hw)
    have h0 : t.t.sizeLg2 ≠ 0 := fun h0 => by
      obtain ⟨i, hi⟩ := Table.mem_keys.mp hkt
      have := Table.lt_of_keyAt hi
      rw [h.inv.table.length_eq, Table.size, tableSize, if_pos h0] at this
      omega
    obtain ⟨-, hnk⟩ | ⟨v, tab, hrun, hinv, hp, hs⟩ := Table.rm_spec h.inv.table h0 k
    · exact absurd hkt hnk
    · have hlook : m.lookup k = some v := (hmem v).mp (hp.mem_iff.mpr List.mem_cons_self)
      refine ⟨_, by simp [remove, hka, hrun, hlook], h.erase (h.inv.less_hash hinv hp hs) ?_⟩
      refine h.listing.erase (k := k) (v := v) ?_
      exact (hp.append_left _).trans List.perm_middle

end Access

end IntTable

end Hpb
