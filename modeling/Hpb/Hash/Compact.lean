import Hpb.Hash.IntTableRun

/-!
# The layout that `hpb_inttable_compact` chooses

`compact` sorts the keys into buckets by their power of two, takes the largest power of two of which one key in
ten (`MIN_DENSITY`) is there, and makes the array as long as the largest key of that bucket asks for. All keys
above `2 ^ 15` share the last bucket, so there the power of two does not bound the keys.

* `Compacted`: what a compaction promises about sizes;
* `compact_layout_iff`: it keeps the promise if and only if the table has fewer than 6554 keys or no key is more
  than ten times their number.
-/

namespace Hpb

namespace IntTable

section Buckets

variable {ps : List (Nat × UInt64)} {p : Nat × UInt64} {s v w : Nat}

/-- A bucket below the last one ends at its power of two. -/
theorem log2ceil_le_iff (hs : s < 16) : log2ceil v ≤ s ↔ v ≤ 2 ^ s := by
  have hmin : ∀ n, min 16 n ≤ s ↔ n ≤ s := fun n => by omega
  rw [log2ceil, maxArrSize, hmin]
  by_cases h0 : v = 0
  · subst h0
    simp [isPow2]
  · have hlo : 2 ^ v.log2 ≤ v := Nat.log2_self_le h0
    have hhi : v < 2 ^ (v.log2 + 1) := Nat.lt_log2_self
    have hpow : isPow2 v = true ↔ v.isPowerOfTwo := by
      simp [isPow2, h0, Nat.and_sub_one_eq_zero_iff_isPowerOfTwo h0]
    by_cases hp : isPow2 v = true
    · obtain ⟨n, rfl⟩ := hpow.mp hp
      rw [if_pos hp, Nat.log2_two_pow]
      exact (Nat.pow_le_pow_iff_right (by decide)).symm
    · rw [if_neg hp]
      constructor
      · intro hle
        have := Nat.pow_le_pow_right (n := 2) (by decide) hle
        omega
      · intro hle
        by_contra hlt
        have hge : 2 ^ s ≤ 2 ^ v.log2 := Nat.pow_le_pow_right (by decide) (by omega)
        exact hp (hpow.mpr ⟨v.log2, by omega⟩)

theorem log2ceil_mono (h : v ≤ w) : log2ceil v ≤ log2ceil w := by
  by_cases hw : log2ceil w < 16
  · exact (log2ceil_le_iff hw).mpr (Nat.le_trans h ((log2ceil_le_iff hw).mp (Nat.le_refl _)))
  · have := log2ceil_le v
    omega

/-- The number of keys in the buckets up to `s`. -/
def upTo (ps : List (Nat × UInt64)) (s : Nat) : Nat := ps.countP fun p => log2ceil p.1 ≤ s

theorem upTo_succ (ps : List (Nat × UInt64)) (s : Nat) :
    upTo ps (s + 1) = upTo ps s + (histogram ps).counts (s + 1) := by
  rw [histogram_counts]
  induction ps with
  | nil => rfl
  | cons q ps ih =>
    simp only [upTo, List.countP_cons, decide_eq_true_eq] at ih ⊢
    split <;> split <;> split <;> omega

theorem upTo_last (ps : List (Nat × UInt64)) : upTo ps 16 = ps.length :=
  List.countP_eq_length.mpr fun p _ => decide_eq_true (log2ceil_le p.1)

/-- What the search for the array's bucket finds: `size_lg2` and `arr_count`. -/
structure Chosen (ps : List (Nat × UInt64)) (top : Nat) (r : Nat × Nat) : Prop where
  le : r.1 ≤ top
  count : r.2 = upTo ps r.1
  dense : r.1 = 0 ∨ 0 < (histogram ps).counts r.1 ∧ 2 ^ r.1 ≤ 10 * r.2
  /-- Only a sparse table leaves keys to the hash part. -/
  rejected : r.2 = upTo ps top ∨ 10 * upTo ps top < 2 ^ top

theorem arrayLg2_chosen (ps : List (Nat × UInt64)) (top : Nat) :
    Chosen ps top (arrayLg2 (histogram ps).counts top (upTo ps top)) := by
  induction top with
  | zero => exact ⟨Nat.le_refl _, rfl, .inl rfl, .inl rfl⟩
  | succ top ih =>
    have hpow : 2 ^ (top + 1) = 2 * 2 ^ top := Nat.pow_succ'
    have hsucc := upTo_succ ps top
    rw [arrayLg2]
    split
    next h0 =>
      rw [h0, Nat.add_zero] at hsucc
      rw [hsucc]
      refine ⟨Nat.le_succ_of_le ih.le, ih.count, ih.dense, ?_⟩
      rw [hsucc]
      exact ih.rejected.imp_right fun h => by omega
    next h0 =>
      split
      next hd => exact ⟨Nat.le_refl _, rfl, .inr ⟨Nat.pos_of_ne_zero h0, hd⟩, .inl rfl⟩
      next hd =>
        rw [hsucc, Nat.add_sub_cancel]
        exact ⟨Nat.le_succ_of_le ih.le, ih.count, ih.dense, .inr (by omega)⟩

/-- The keys of the chosen buckets are those up to the maximum of the last one. -/
theorem le_max_iff (hs : s = 0 ∨ 0 < (histogram ps).counts s) (hle : s ≤ 16) (hp : p ∈ ps) :
    p.1 ≤ (histogram ps).max s ↔ log2ceil p.1 ≤ s := by
  constructor
  · intro hmax
    obtain h0 | ⟨q, -, hq, hqmax⟩ := histogram_max ps s
    · have : p.1 = 0 := by omega
      rw [this]
      exact Nat.zero_le s
    · rw [← hq]
      exact log2ceil_mono (hqmax ▸ hmax)
  · intro hlog
    obtain heq | hlt := Nat.eq_or_lt_of_le hlog
    · exact heq ▸ le_histogram_max hp
    · have hpos := hs.resolve_left (by omega)
      rw [histogram_counts] at hpos
      obtain ⟨q, hq, hqs⟩ := List.countP_pos_iff.mp hpos
      have hqs := of_decide_eq_true hqs
      have hqmax := le_histogram_max hq
      have hpow : p.1 ≤ 2 ^ (s - 1) := (log2ceil_le_iff (by omega)).mp (by omega)
      have hqpow : ¬q.1 ≤ 2 ^ (s - 1) := fun h => by
        have := (log2ceil_le_iff (by omega)).mpr h
        omega
      rw [hqs] at hqmax
      omega

/-- Below the last bucket the largest key is at most ten times the number of keys. -/
theorem Chosen.max_le {r : Nat × Nat} (h : Chosen ps 16 r) (hs : r.1 < 16) :
    (histogram ps).max r.1 ≤ 10 * r.2 := by
  obtain h0 | ⟨q, hq, hqs, hqmax⟩ := histogram_max ps r.1
  · omega
  · have hpow := (log2ceil_le_iff hs).mp (Nat.le_of_eq hqs)
    obtain hz | ⟨-, hd⟩ := h.dense
    · have hpos : 0 < r.2 := by
        rw [h.count]
        exact List.countP_pos_iff.mpr ⟨q, hq, decide_eq_true (Nat.le_of_eq hqs)⟩
      rw [hz] at hpow
      omega
    · omega

end Buckets

section Room

variable {t : IntTable} {k : Nat} {v : UInt64}

/-- An insertion that does not grow the hash part. -/
theorem insert_room (h : t.Inv) (hk : k ∉ t.pairs.map Prod.fst) (hv : arrHas v)
    (hroom : k < t.arraySize ∨ t.t.count < t.t.maxCount) (a : Alloc) :
    ∃ t', insert t k v a = (some (true, t'), a) ∧ t'.Inv ∧ t'.pairs.Perm ((k, v) :: t.pairs) ∧
      t'.arraySize = t.arraySize ∧ t'.t.sizeLg2 = t.t.sizeLg2 ∧
      t'.arrayCount = t.arrayCount + (if k < t.arraySize then 1 else 0) ∧
      t'.t.count = t.t.count + (if t.arraySize ≤ k then 1 else 0) := by
  obtain ⟨r, t', a', hrun, hinv, -, hcase⟩ := insert_run h hk hv a
  by_cases hka : k < t.arraySize
  · obtain ⟨w, hw⟩ := array_get h hka
    have heq : insert t k v a =
        (some (true, { t with arrayCount := t.arrayCount + 1, array := t.array.set k v }), a) := by
      simp [insert, hka, hw]
    rw [heq] at hrun
    cases hrun
    obtain ⟨-, hfalse⟩ | ⟨-, -, hp⟩ := hcase
    · have := congrArg arrayCount hfalse
      simp only at this
      omega
    · exact ⟨_, heq, hinv, hp, rfl, rfl, by simp [hka], by simp [Nat.not_le.mpr hka]⟩
  · have hka' := Nat.le_of_not_lt hka
    have hcount := hroom.resolve_left hka
    have hkt : k ∉ t.t.keys := fun hm => hk (by
      rw [pairs, List.map_append]
      exact List.mem_append_right _ hm)
    have hfull : t.t.isFull = false := by
      rw [Table.isFull, decide_eq_false_iff_not]
      omega
    obtain ⟨tab, htab, hinv', hp, hs, hc⟩ := insertHash_run h hkt hka' hcount v
    refine ⟨{ t with t := tab }, by simp [insert, hka, hfull, htab], hinv', ?_, rfl, hs, by simp [hka], ?_⟩
    · exact (hp.append_left _).trans List.perm_middle
    · rw [if_pos hka']
      exact hc

/-- The second loop of `compact`, when the hash part has room for its keys. -/
theorem moveInto_room (ps : List (Nat × UInt64)) {t : IntTable} (h : t.Inv)
    (hd : ((ps ++ t.pairs).map Prod.fst).Nodup) (hv : ∀ p ∈ ps, arrHas p.2)
    (hroom : t.t.count + ps.countP (fun p => t.arraySize ≤ p.1) ≤ t.t.maxCount) (a : Alloc) :
    ∃ t', ps.foldlM moveInto (t, a) = some (t', a) ∧ t'.Inv ∧ t'.arraySize = t.arraySize ∧
      t'.t.sizeLg2 = t.t.sizeLg2 ∧ t'.arrayCount = t.arrayCount + ps.countP (fun p => p.1 < t.arraySize) ∧
      t'.t.count = t.t.count + ps.countP (fun p => t.arraySize ≤ p.1) := by
  induction ps generalizing t with
  | nil => exact ⟨t, rfl, h, rfl, rfl, rfl, rfl⟩
  | cons p ps ih =>
    obtain ⟨k, v⟩ := p
    rw [List.cons_append, List.map_cons, List.nodup_cons] at hd
    simp only [List.countP_cons, decide_eq_true_eq] at hroom ⊢
    have hk : k ∉ t.pairs.map Prod.fst := fun hmem => hd.1 (by
      rw [List.map_append]
      exact List.mem_append_right _ hmem)
    obtain ⟨t₁, hrun, hinv, hp, hsize, hlg, harr, hcount⟩ :=
      insert_room h hk (hv (k, v) List.mem_cons_self) (by split at hroom <;> omega) a
    have hmax : t₁.t.maxCount = t.t.maxCount := by
      rw [hinv.table.max_eq, h.table.max_eq, Table.size, Table.size, hlg]
    have hd₁ : ((ps ++ t₁.pairs).map Prod.fst).Nodup := by
      refine ((((hp.append_left ps).trans List.perm_middle).map Prod.fst).nodup_iff).mpr ?_
      exact List.nodup_cons.mpr hd
    obtain ⟨t', hrun', hinv', hsize', hlg', harr', hcount'⟩ :=
      ih hinv hd₁ (fun q hq => hv q (List.mem_cons_of_mem _ hq)) (by rw [hsize, hmax, hcount]; omega)
    refine ⟨t', ?_, hinv', hsize'.trans hsize, hlg'.trans hlg, ?_, ?_⟩
    · rw [List.foldlM_cons, moveInto, hrun]
      exact hrun'
    · rw [harr', harr, hsize]
      omega
    · rw [hcount', hcount, hsize]
      omega

/-- No round of the second loop finds its hash part full. -/
theorem moveInto_not_full {ps pre post : List (Nat × UInt64)} {p : Nat × UInt64} {t t₁ : IntTable} {a a₁ : Alloc}
    (h : t.Inv) (hd : ((ps ++ t.pairs).map Prod.fst).Nodup) (hv : ∀ p ∈ ps, arrHas p.2)
    (hroom : t.t.count + ps.countP (fun p => t.arraySize ≤ p.1) ≤ t.t.maxCount) (hsplit : ps = pre ++ p :: post)
    (hpre : pre.foldlM moveInto (t, a) = some (t₁, a₁)) : p.1 < t₁.arraySize ∨ t₁.t.isFull = false := by
  subst hsplit
  have hd' : ((pre ++ t.pairs).map Prod.fst).Nodup := by
    refine hd.sublist (List.Sublist.map _ (List.Sublist.append ?_ (List.Sublist.refl _)))
    exact List.sublist_append_left _ _
  rw [List.countP_append, List.countP_cons] at hroom
  obtain ⟨t₂, hrun, hinv, hsize, hlg, -, hcount⟩ :=
    moveInto_room pre h hd' (fun q hq => hv q (List.mem_append_left _ hq)) (by omega) a
  rw [hpre] at hrun
  cases hrun
  by_cases hp : p.1 < t₁.arraySize
  · exact .inl hp
  · refine .inr ?_
    have hmax : t₁.t.maxCount = t.t.maxCount := by
      rw [hinv.table.max_eq, h.table.max_eq, Table.size, Table.size, hlg]
    rw [hsize, Nat.not_lt] at hp
    rw [if_pos (decide_eq_true hp)] at hroom
    rw [Table.isFull, decide_eq_false_iff_not]
    omega

end Room

section Layout

/-- `size_lg2` and `arr_count` after the search. -/
def chosen (t : IntTable) : Nat × Nat := arrayLg2 (histogram t.pairs).counts maxArrSize t.count

/-- `arr_size`. -/
def arrSize (t : IntTable) : Nat := ((histogram t.pairs).max (chosen t).1 + 1) % 2 ^ 64

/-- `hashsize_lg2`. -/
def hashsizeLg2 (t : IntTable) : Nat := log2ceil (hashSize (t.count - (chosen t).2))

/-- What `compact` promises about sizes, when it moves a table `t` into `t'`. -/
structure Compacted (t : IntTable) (a : Alloc) (t' : IntTable) : Prop where
  /-- At least one slot in ten is used (`MIN_DENSITY`), but for one. -/
  density : t'.arraySize ≤ 10 * t'.arrayCount + 1
  /-- The indices of `counts` and `max`. -/
  buckets : ∀ p ∈ t.pairs, log2ceil p.1 < maxArrSize + 1
  /-- The shifts of an `int`. -/
  shifts : (chosen t).1 < 31 ∧ hashsizeLg2 t < 31
  /-- The assertion after the search. -/
  arrCount_le : (chosen t).2 ≤ t.count
  /-- No insertion of the second loop finds its hash part full. -/
  no_resize : ∀ new a₁, sizedInit (arrSize t) (hashsizeLg2 t) a = (some new, a₁) →
    ∀ pre p post, t.pairs = pre ++ p :: post → ∀ t₁ a₂, pre.foldlM moveInto (new, a₁) = some (t₁, a₂) →
      p.1 < t₁.arraySize ∨ t₁.t.isFull = false
  /-- The assertions at the end. -/
  arraySize_eq : t'.arraySize = arrSize t
  sizeLg2_eq : t'.t.sizeLg2 = hashsizeLg2 t

variable {t : IntTable} {m : Finmap fun _ : Nat => UInt64}

theorem chosen_spec (h : t.Inv) : Chosen t.pairs 16 (chosen t) := by
  have := arrayLg2_chosen t.pairs 16
  rwa [upTo_last, ← count_eq h] at this

theorem compact_eq (h : t.Inv) (a : Alloc) :
    compact t a = match sizedInit (arrSize t) (hashsizeLg2 t) a with
      | (none, a) => (none, a)
      | (some new, a) =>
        match t.pairs.foldlM moveInto (new, a) with
        | none => (none, a)
        | some (new, a) => (some new, a) := by
  simp only [compact, histogram_run h, forAll_run h]
  rfl

/-- The new hash part is not too small for the keys that are left to it. -/
theorem hashCount_le (h : t.Inv) : t.count - (chosen t).2 ≤ tableSize (hashsizeLg2 t) * 17 / 20 := by
  have hch := chosen_spec h
  have hcount : t.count - (chosen t).2 < 6554 := by
    have hall := upTo_last t.pairs
    have hlen := count_eq h
    obtain hr | hr := hch.rejected <;> omega
  rw [hashsizeLg2]
  generalize t.count - (chosen t).2 = n at hcount
  by_cases h0 : n = 0
  · omega
  · have hsize : hashSize n = n * 20 / 17 + 1 := if_neg h0
    have hlt : log2ceil (hashSize n) < 16 := by
      have : log2ceil (hashSize n) ≤ 13 := (log2ceil_le_iff (by decide)).mpr (by omega)
      omega
    have hpow : hashSize n ≤ 2 ^ log2ceil (hashSize n) := (log2ceil_le_iff hlt).mp (Nat.le_refl _)
    have hpos : log2ceil (hashSize n) ≠ 0 := fun hz => by
      rw [hz] at hpow
      omega
    rw [Table.tableSize_eq hpos (by omega)]
    omega

/-- The keys of the array are those that were counted for it. -/
theorem countP_lt_arrSize (h : t.Inv) (hmax : (histogram t.pairs).max (chosen t).1 + 1 < 2 ^ 64) :
    t.pairs.countP (fun p => p.1 < arrSize t) = (chosen t).2 := by
  have hch := chosen_spec h
  rw [hch.count]
  refine List.countP_congr fun p hp => ?_
  have hiff := le_max_iff (hch.dense.imp_right And.left) hch.le hp
  rw [decide_eq_true_eq, decide_eq_true_eq, ← hiff, arrSize, Nat.mod_eq_of_lt hmax]
  omega

theorem countP_ge_arrSize (h : t.Inv) (hmax : (histogram t.pairs).max (chosen t).1 + 1 < 2 ^ 64) :
    t.pairs.countP (fun p => arrSize t ≤ p.1) = t.count - (chosen t).2 := by
  have hlt := countP_lt_arrSize h hmax
  have hsum := List.length_eq_countP_add_countP (fun p : Nat × UInt64 => decide (p.1 < arrSize t)) (l := t.pairs)
  have hnot : t.pairs.countP (fun p => arrSize t ≤ p.1) =
      t.pairs.countP (fun p => ¬decide (p.1 < arrSize t) = true) :=
    List.countP_congr fun p _ => by simp
  rw [count_eq h, hnot]
  omega

/-- The second loop into a table with the sizes that were chosen. -/
structure Moved (t : IntTable) (a₁ : Alloc) (new t' : IntTable) : Prop where
  run : t.pairs.foldlM moveInto (new, a₁) = some (t', a₁)
  inv : t'.Inv
  arraySize_eq : t'.arraySize = arrSize t
  sizeLg2_eq : t'.t.sizeLg2 = hashsizeLg2 t
  arrayCount_eq : t'.arrayCount = (chosen t).2
  no_resize : ∀ pre p post, t.pairs = pre ++ p :: post → ∀ t₁ a₂, pre.foldlM moveInto (new, a₁) = some (t₁, a₂) →
    p.1 < t₁.arraySize ∨ t₁.t.isFull = false

theorem exists_moved (h : t.Stands m) (hmax : (histogram t.pairs).max (chosen t).1 + 1 < 2 ^ 64) {new : IntTable}
    (hinv : new.Inv) (hnil : new.pairs = []) (hnsize : new.arraySize = arrSize t) (hnlg : new.t.sizeLg2 = hashsizeLg2 t)
    (a₁ : Alloc) : ∃ t', Moved t a₁ new t' := by
  have hncount : new.t.count = 0 := by
    have hnc := count_eq hinv
    rw [hnil, count] at hnc
    exact Nat.eq_zero_of_add_eq_zero_right hnc
  have hnarr : new.arrayCount = 0 := by
    have hnc := count_eq hinv
    rw [hnil, count] at hnc
    exact Nat.eq_zero_of_add_eq_zero_left hnc
  have hnmax : t.count - (chosen t).2 ≤ new.t.maxCount := by
    rw [hinv.table.max_eq, Table.size, hnlg]
    exact hashCount_le h.inv
  have hd : (t.pairs.map Prod.fst).Nodup := h.listing.nodup
  have hv : ∀ p ∈ t.pairs, arrHas p.2 := fun p hp => h.values p.1 p.2 ((h.listing.mem_iff _ _).mp hp)
  have hhigh : t.pairs.countP (fun p => new.arraySize ≤ p.1) = t.count - (chosen t).2 := by
    rw [hnsize]
    exact countP_ge_arrSize h.inv hmax
  have hd' : ((t.pairs ++ new.pairs).map Prod.fst).Nodup := by rwa [hnil, List.append_nil]
  have hroom : new.t.count + t.pairs.countP (fun p => new.arraySize ≤ p.1) ≤ new.t.maxCount := by omega
  obtain ⟨t', hrun, hinv', hsize', hlg', harr', -⟩ := moveInto_room t.pairs hinv hd' hv hroom a₁
  refine ⟨t', hrun, hinv', hsize'.trans hnsize, hlg'.trans hnlg, ?_, fun pre p post hsplit t₁ a₂ hpre => ?_⟩
  · rw [harr', hnarr, hnsize, countP_lt_arrSize h.inv hmax, Nat.zero_add]
  · exact moveInto_not_full hinv hd' hv hroom hsplit hpre

/-- **A compaction with room for its array**: no insertion grows the hash part, and the array is what was asked
for. -/
theorem compact_fits (h : t.Stands m) (hsize : (histogram t.pairs).max (chosen t).1 < 2 ^ 61 - 1) {a : Alloc}
    (hok : (compact t a).2.failed = false) (hdense : (histogram t.pairs).max (chosen t).1 ≤ 10 * (chosen t).2) :
    ∃ t', (compact t a).1 = some t' ∧ Compacted t a t' := by
  have hmax : (histogram t.pairs).max (chosen t).1 + 1 < 2 ^ 64 := by omega
  have harr : arrSize t = (histogram t.pairs).max (chosen t).1 + 1 := Nat.mod_eq_of_lt hmax
  have hlg : hashsizeLg2 t ≤ 16 := log2ceil_le _
  have hch := chosen_spec h.inv
  rw [compact_eq h.inv] at hok ⊢
  obtain ⟨a₁, hinit, hf⟩ | ⟨new, a₁, hinit, -, hinv, hnil, hnsize, hnlg⟩ :=
    sizedInit_run (arrSize t) hlg (by omega) a
  · rw [hinit] at hok
    simp only [hf] at hok
    cases hok
  obtain ⟨t', hmoved⟩ := exists_moved h hmax hinv hnil (by omega) hnlg a₁
  refine ⟨t', by rw [hinit]; simp only [hmoved.run], ?_⟩
  exact
    { density := by
        rw [hmoved.arraySize_eq, hmoved.arrayCount_eq]
        omega
      buckets := fun p _ => Nat.lt_succ_of_le (log2ceil_le p.1)
      shifts := ⟨Nat.lt_of_le_of_lt hch.le (by decide), Nat.lt_of_le_of_lt hlg (by decide)⟩
      arrCount_le := by
        rw [hch.count, count_eq h.inv]
        exact List.countP_le_length
      no_resize := by
        intro new' a₁' hinit' pre p post hsplit t₁ a₂ hpre
        rw [hinit] at hinit'
        cases hinit'
        exact hmoved.no_resize pre p post hsplit t₁ a₂ hpre
      arraySize_eq := hmoved.arraySize_eq
      sizeLg2_eq := hmoved.sizeLg2_eq }

/-- With memory for everything, a table of less than `2 ^ 60` slots is set up. -/
theorem sizedInit_granted {asize s : Nat} (hs : s ≤ 16) (hbytes : max 1 asize < 2 ^ 60) {a : Alloc}
    (hg : ∀ n, a.grants n = true) : ∃ t a', sizedInit asize s a = (some t, a') := by
  obtain ⟨a₁, ha, hga, -⟩ := Table.init_granted (K := Nat) (V := UInt64) (s := s) (by omega) hg
  have hmod : s % 256 = s := by omega
  have hfits : max 1 asize * 8 % 2 ^ 64 < 2 ^ 63 ∧ a₁.grants a₁.calls = true := ⟨by omega, by rw [hga, hg]⟩
  simp only [sizedInit, hmod, ha, Alloc.malloc, if_pos hfits]
  exact ⟨_, _, rfl⟩

/-- **A compaction with memory for its array** changes nothing, and its assertions hold. -/
theorem compact_granted (h : t.Stands m) (hsize : (histogram t.pairs).max (chosen t).1 < 2 ^ 60 - 1) {a : Alloc}
    (hg : ∀ n, a.grants n = true) (hf : a.failed = false) : ∃ t', (compact t a).1 = some t' ∧ t'.Stands m ∧
      t'.arraySize = arrSize t ∧ t'.t.sizeLg2 = hashsizeLg2 t := by
  have hmax : (histogram t.pairs).max (chosen t).1 + 1 < 2 ^ 64 := by omega
  have harr : arrSize t = (histogram t.pairs).max (chosen t).1 + 1 := Nat.mod_eq_of_lt hmax
  have hlg : hashsizeLg2 t ≤ 16 := log2ceil_le _
  obtain ⟨new, a₁, hinit⟩ : ∃ new a₁, sizedInit (arrSize t) (hashsizeLg2 t) a = (some new, a₁) :=
    sizedInit_granted hlg (by omega) hg
  obtain ⟨a₂, hnone, -⟩ | ⟨new', a₂, hsome, hf₁, hinv, hnil, hnsize, hnlg⟩ :=
    sizedInit_run (arrSize t) hlg (by omega) a
  · cases hinit.symm.trans hnone
  cases hinit.symm.trans hsome
  obtain ⟨t', hmoved⟩ := exists_moved h hmax hinv hnil (by omega) hnlg a₁
  have hv : ∀ p ∈ t.pairs, arrHas p.2 := fun p hp => h.values p.1 p.2 ((h.listing.mem_iff _ _).mp hp)
  obtain ⟨t'', a'', hrun, -, -, hperm⟩ := moveInto_run t.pairs [] (a := a₁) hinv
    (by simpa using h.listing.nodup) hv (by simp [hnil])
  cases hmoved.run.symm.trans hrun
  have hp := (hperm (hf₁.trans hf)).2 (by rw [hnil])
  rw [List.nil_append] at hp
  refine ⟨t', ?_, ⟨hmoved.inv, h.listing.perm hp, h.values, h.words⟩, hmoved.arraySize_eq, hmoved.sizeLg2_eq⟩
  rw [compact_eq h.inv, hinit]
  simp only [hmoved.run]

/-- The maps that `compact` lays out as it promises. -/
def Layable (m : Finmap fun _ : Nat => UInt64) : Prop :=
  m.keys.card < 6554 ∨ ∀ k ∈ m, k ≤ 10 * m.keys.card ∧ k < 2 ^ 61 - 1

/-- The largest key decides: it is at most ten times the number of keys in the array. -/
theorem Layable.max_le (hl : Layable m) (h : t.Stands m) :
    (histogram t.pairs).max (chosen t).1 < 2 ^ 61 - 1 ∧ (histogram t.pairs).max (chosen t).1 ≤ 10 * (chosen t).2 := by
  have hch := chosen_spec h.inv
  by_cases hs : (chosen t).1 < 16
  · refine ⟨?_, hch.max_le hs⟩
    obtain h0 | ⟨q, -, hqs, hqmax⟩ := histogram_max t.pairs (chosen t).1
    · omega
    · have := lt_of_log2ceil hqs hs
      omega
  · have hs16 : (chosen t).1 = 16 := Nat.le_antisymm hch.le (Nat.le_of_not_lt hs)
    have hcount : (chosen t).2 = m.keys.card := by
      rw [hch.count, hs16, upTo_last, h.listing.length_eq]
    obtain hz | ⟨-, hd⟩ := hch.dense
    · omega
    · rw [hs16, hcount] at hd
      obtain hl | hl := hl
      · omega
      · obtain h0 | ⟨q, hq, -, hqmax⟩ := histogram_max t.pairs (chosen t).1
        · omega
        · have hk := hl q.1 (h.listing.mem_keys.mp (List.mem_map_of_mem hq))
          omega

/-- With 6554 keys and one of them above `2 ^ 16`, the last bucket is chosen, and all keys are in it or before
it. -/
theorem chosen_last (h : t.Stands m) (hcard : 6554 ≤ m.keys.card) {k : Nat} (hk : k ∈ m) (hlarge : 2 ^ 16 ≤ k) :
    chosen t = (16, t.count) ∧ (histogram t.pairs).max 16 ∈ m ∧ ∀ k' ∈ m, k' ≤ (histogram t.pairs).max 16 := by
  obtain ⟨v, hv⟩ := Finmap.mem_iff.mp hk
  have hmem : (k, v) ∈ t.pairs := (h.listing.mem_iff _ _).mpr hv
  have hpos := histogram_counts_pos hmem
  have hge := le_histogram_max hmem
  simp only [log2ceil_of_ge hlarge] at hpos hge
  have hcount : 2 ^ 16 ≤ 10 * t.count := by
    rw [count_eq h.inv, h.listing.length_eq]
    omega
  refine ⟨?_, ?_, fun k' hk' => ?_⟩
  · rw [chosen, maxArrSize, arrayLg2, if_neg (Nat.ne_of_gt hpos), if_pos hcount]
  · obtain h0 | ⟨q, hq, -, hqmax⟩ := histogram_max t.pairs 16
    · omega
    · rw [hqmax]
      exact h.listing.mem_keys.mp (List.mem_map_of_mem hq)
  · obtain ⟨v', hv'⟩ := Finmap.mem_iff.mp hk'
    have hmem' : (k', v') ∈ t.pairs := (h.listing.mem_iff _ _).mpr hv'
    exact (le_max_iff (.inr hpos) (Nat.le_refl _) hmem').mpr (log2ceil_le k')

/-- `hpb_inttable_compact` with its assertions about the new table. -/
def compactAsserted (t : IntTable) (a : Alloc) : Option IntTable × Alloc :=
  match t.compact a with
  | (some t', a) => (if t'.arraySize = arrSize t ∧ t'.t.sizeLg2 = hashsizeLg2 t then some t' else none, a)
  | (none, a) => (none, a)

theorem compactAsserted_eq {t' : IntTable} {a : Alloc} (hrun : (compact t a).1 = some t') :
    (compactAsserted t a).1 = if t'.arraySize = arrSize t ∧ t'.t.sizeLg2 = hashsizeLg2 t then some t' else none := by
  rw [compactAsserted, ← Prod.mk.eta (p := compact t a), hrun]

/-- **Few keys, or small ones, are compacted.** -/
theorem compactAsserted_run (h : t.Stands m) (hm : m.keys.card < 6554 ∨ ∀ k ∈ m, k < 2 ^ 60 - 1) {a : Alloc}
    (hg : ∀ n, a.grants n = true) (hf : a.failed = false) :
    ∃ t', (compactAsserted t a).1 = some t' ∧ t'.Stands m := by
  have hch := chosen_spec h.inv
  have hsize : (histogram t.pairs).max (chosen t).1 < 2 ^ 60 - 1 := by
    obtain h0 | ⟨q, hq, hqs, hqmax⟩ := histogram_max t.pairs (chosen t).1
    · omega
    by_cases hs : (chosen t).1 < 16
    · have := lt_of_log2ceil hqs hs
      omega
    · have hs16 : (chosen t).1 = 16 := Nat.le_antisymm hch.le (Nat.le_of_not_lt hs)
      have hcount : (chosen t).2 = m.keys.card := by
        rw [hch.count, hs16, upTo_last, h.listing.length_eq]
      have hd := hch.dense
      rw [hs16, hcount] at hd
      obtain hm | hm := hm
      · omega
      · rw [hqmax]
        exact hm q.1 (h.listing.mem_keys.mp (List.mem_map_of_mem hq))
  obtain ⟨t', hrun, hst, harr, hlg⟩ := compact_granted h hsize hg hf
  exact ⟨t', by rw [compactAsserted_eq hrun, if_pos ⟨harr, hlg⟩], hst⟩

/-- **Many keys with one near `2 ^ 64` are not.** -/
theorem compactAsserted_none (h : t.Stands m) (hcard : 6554 ≤ m.keys.card) {k : Nat} (hk : k ∈ m) (hlarge : 2 ^ 61 - 1 ≤ k)
    (a : Alloc) : (compactAsserted t a).1 = none := by
  obtain ⟨hchosen, hmax, hle⟩ := chosen_last h hcard hk (by omega)
  have harr : arrSize t = ((histogram t.pairs).max 16 + 1) % 2 ^ 64 := by rw [arrSize, hchosen]
  have hword := h.words _ hmax
  have hkmax := hle k hk
  generalize (histogram t.pairs).max 16 = M at *
  cases hrun : (compact t a).1 with
  | none => rw [compactAsserted, ← Prod.mk.eta (p := compact t a), hrun]
  | some t' =>
    by_cases hM : M = 2 ^ 64 - 1
    · obtain ⟨hnone, -⟩ | ⟨t'', hrun', hinv, -⟩ := compact_cases h (.inr (.inr (hM ▸ hmax))) a
      · rw [hrun] at hnone
        cases hnone
      · rw [hrun] at hrun'
        cases hrun'
        have hpos := hinv.array_pos
        have hzero : arrSize t = 0 := by omega
        rw [compactAsserted_eq hrun, if_neg (by omega)]
    · have := (compact_overflow h hmax hle (by omega) (by omega) hcard a).1
      rw [hrun] at this
      cases this

/-- A compaction that keeps its promise has a table that it can lay out. -/
theorem layable_of_compacted (h : t.Stands m) {a : Alloc} (hok : (compact t a).2.failed = false) {t' : IntTable}
    (hrun : (compact t a).1 = some t') (hc : Compacted t a t') : Layable m := by
  by_contra hno
  obtain ⟨hcard, hno⟩ := not_or.mp hno
  simp only [not_forall] at hno
  obtain ⟨k, hk, hbad⟩ := hno
  have hcard : 6554 ≤ m.keys.card := Nat.le_of_not_lt hcard
  have hlarge : 2 ^ 16 ≤ k := by omega
  obtain ⟨hchosen, hmax, hle⟩ := chosen_last h hcard hk hlarge
  have harr : t'.arraySize = ((histogram t.pairs).max 16 + 1) % 2 ^ 64 := by
    rw [hc.arraySize_eq, arrSize, hchosen]
  have hword := h.words _ hmax
  have hkmax := hle k hk
  generalize (histogram t.pairs).max 16 = M at *
  by_cases hlo : 2 ^ 61 - 1 ≤ M ∧ M < 2 ^ 64 - 1
  · -- the array is shorter than its recorded size
    have := (compact_overflow h hmax hle hlo.1 hlo.2 hcard a).1
    rw [hrun] at this
    cases this
  · have hcompactable : Compactable m := by
      by_cases hM : M = 2 ^ 64 - 1
      · exact .inr (.inr (hM ▸ hmax))
      · refine .inr (.inl fun k' hk' => ?_)
        have := hle k' hk'
        omega
    obtain ⟨hnone, -⟩ | ⟨t'', hrun', hinv, -, hperm⟩ := compact_cases h hcompactable a
    · rw [hrun] at hnone
      cases hnone
    · rw [hrun] at hrun'
      cases hrun'
      have hpos := hinv.array_pos
      have hcount : t'.arrayCount ≤ m.keys.card := by
        have := (hperm hok).2.length_eq
        rw [← count_eq hinv, h.listing.length_eq, count] at this
        omega
      have hdensity := hc.density
      omega

/-- A table that goes into the array as a whole needs one allocation. -/
theorem compact_last_granted (h : t.Stands m) (hcard : 6554 ≤ m.keys.card) {M : Nat} (hM : M ∈ m)
    (hmax : ∀ k ∈ m, k ≤ M) (hlarge : 2 ^ 16 ≤ M) (hfit : M < 2 ^ 60 - 1) {a : Alloc}
    (hg : a.grants a.calls = true) : (compact t a).2.failed = a.failed := by
  obtain ⟨hchosen, hin, hle⟩ := chosen_last h hcard hM hlarge
  have hmaxM : (histogram t.pairs).max 16 = M := Nat.le_antisymm (hmax _ hin) (hle M hM)
  have harr : arrSize t = M + 1 := by
    rw [arrSize, hchosen, hmaxM]
    omega
  have hlg : hashsizeLg2 t = 0 := by
    rw [hashsizeLg2, hchosen, Nat.sub_self]
    rfl
  have hinit : sizedInit (M + 1) 0 a =
      (some ⟨Table.empty 0, List.replicate (M + 1) tabvalEmpty, M + 1, 0⟩, { a with calls := a.calls + 1 }) := by
    have hbytes : (M + 1) * 8 % 2 ^ 64 = (M + 1) * 8 := by omega
    have hgrant : (M + 1) * 8 < 2 ^ 63 ∧ a.grants a.calls = true := ⟨by omega, hg⟩
    have hone : max 1 (M + 1) = M + 1 := by omega
    have htab : Table.init (K := Nat) (V := UInt64) (0 % 256) a = some (some (Table.empty 0), a) := rfl
    simp only [sizedInit, htab, hone, hbytes, Alloc.malloc, if_pos hgrant, Nat.mul_div_cancel _ (by decide : 0 < 8)]
  obtain ⟨a', hnone, -⟩ | ⟨new, a', hsome, -, hinv, hnil, -⟩ :=
    sizedInit_run (M + 1) (s := 0) (by decide) (by omega) a
  · rw [hinit] at hnone
    cases hnone
  · rw [hinit] at hsome
    cases hsome
    have hnone : t.pairs.countP (fun p => M + 1 ≤ p.1) = 0 := by
      refine List.countP_eq_zero.mpr fun p hp hge => ?_
      have := hmax p.1 (h.listing.mem_keys.mp (List.mem_map_of_mem hp))
      have := of_decide_eq_true hge
      omega
    obtain ⟨t', hrun, -⟩ := moveInto_room t.pairs hinv (by simpa [hnil] using h.listing.nodup)
      (fun p hp => h.values p.1 p.2 ((h.listing.mem_iff _ _).mp hp)) (by simp only [hnone]; exact Nat.zero_le _)
      { a with calls := a.calls + 1 }
    rw [compact_eq h.inv, harr, hlg, hinit]
    simp only [hrun]

end Layout

end IntTable

end Hpb
