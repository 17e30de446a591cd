import Hpb.Hash.IntTableMap

/-!
# `hpb_inttable` refines a finite map

A run of calls on a table answers as the finite map does (`inttable_refines_map`).

`compact` puts every key above `2 ^ 15` into the last bucket of its histogram, and when the table has
6554 keys or more it takes that bucket for dense and sizes the array by the largest key. The byte
size of that array wraps around when the key is `2 ^ 61 - 1` or more, so such keys are excluded at a
`compact` (`IntOp.Supported`); `compact_overflow` is what happens otherwise.
-/

namespace Hpb

namespace IntTable

section Compact

/-- The histogram of a list of keys. -/
def histogram (ps : List (Nat × UInt64)) : Histogram :=
  ps.foldl (fun h p => h.add p.1) ⟨fun _ => 0, fun _ => 0⟩

theorem foldl_max {ps : List (Nat × UInt64)} (h : Histogram) (b : Nat) :
    h.max b ≤ (ps.foldl (fun h p => h.add p.1) h).max b ∧
      (∀ p ∈ ps, log2ceil p.1 = b → p.1 ≤ (ps.foldl (fun h p => h.add p.1) h).max b) ∧
      ((ps.foldl (fun h p => h.add p.1) h).max b = h.max b ∨
        ∃ p ∈ ps, log2ceil p.1 = b ∧ (ps.foldl (fun h p => h.add p.1) h).max b = p.1) := by
  induction ps generalizing h with
  | nil => simp
  | cons q ps ih =>
    obtain ⟨hle, hall, heq⟩ := ih (h.add q.1)
    have hmax : (h.add q.1).max b = if b = log2ceil q.1 then Nat.max (h.max b) q.1 else h.max b := rfl
    rw [List.foldl_cons]
    by_cases hb : b = log2ceil q.1
    · rw [if_pos hb] at hmax
      have h₁ : h.max b ≤ (h.add q.1).max b := by rw [hmax]; exact Nat.le_max_left _ _
      have h₂ : q.1 ≤ (h.add q.1).max b := by rw [hmax]; exact Nat.le_max_right _ _
      refine ⟨by omega, ?_, ?_⟩
      · rintro p hp hpb
        obtain rfl | hp := List.mem_cons.mp hp
        · omega
        · exact hall p hp hpb
      · obtain heq | ⟨p, hp, hpb, heq⟩ := heq
        · rw [heq, hmax]
          obtain hm | hm := Nat.le_total q.1 (h.max b)
          · exact .inl (Nat.max_eq_left hm)
          · exact .inr ⟨q, List.mem_cons_self, hb.symm, Nat.max_eq_right hm⟩
        · exact .inr ⟨p, List.mem_cons_of_mem _ hp, hpb, heq⟩
    · rw [if_neg hb] at hmax
      rw [hmax] at hle heq
      refine ⟨hle, ?_, ?_⟩
      · rintro p hp hpb
        obtain rfl | hp := List.mem_cons.mp hp
        · exact absurd hpb.symm hb
        · exact hall p hp hpb
      · exact heq.imp_right fun ⟨p, hp, hpb, heq⟩ => ⟨p, List.mem_cons_of_mem _ hp, hpb, heq⟩

theorem foldl_counts (ps : List (Nat × UInt64)) (h : Histogram) (b : Nat) :
    (ps.foldl (fun h p => h.add p.1) h).counts b = h.counts b + ps.countP fun p => log2ceil p.1 = b := by
  induction ps generalizing h with
  | nil => rfl
  | cons q ps ih =>
    have hcount : (h.add q.1).counts b = if b = log2ceil q.1 then h.counts b + 1 else h.counts b := rfl
    rw [List.foldl_cons, ih, hcount, List.countP_cons]
    by_cases hb : b = log2ceil q.1
    · simp only [hb, if_true, decide_true]
      omega
    · simp [hb, Ne.symm hb]

/-- Below the last bucket a bucket bounds its keys. -/
theorem lt_of_log2ceil {v b : Nat} (h : log2ceil v = b) (hb : b < 16) : v < 2 ^ 16 := by
  have hlog : Nat.log2 v < 16 := by
    rw [log2ceil, maxArrSize] at h
    split at h <;> omega
  by_cases hv : v = 0
  · omega
  · exact (Nat.log2_lt hv).mp hlog

/-- The keys of the last bucket are not bounded by it. -/
theorem log2ceil_of_ge {v : Nat} (h : 2 ^ 16 ≤ v) : log2ceil v = 16 := by
  have hlog : 16 ≤ Nat.log2 v := (Nat.le_log2 (by omega)).mpr h
  rw [log2ceil, maxArrSize]
  split <;> omega

theorem log2ceil_le (v : Nat) : log2ceil v ≤ 16 := Nat.min_le_left _ _

theorem arrayLg2_spec (counts : Nat → Nat) (s c : Nat) :
    (arrayLg2 counts s c).1 ≤ s ∧ (s ≠ 0 → (arrayLg2 counts s c).1 = s → 2 ^ s ≤ 10 * c) := by
  induction s generalizing c with
  | zero => exact ⟨Nat.le_refl _, fun h => absurd rfl h⟩
  | succ s ih =>
    rw [arrayLg2]
    split
    · have := (ih c).1
      exact ⟨by omega, fun _ h => by omega⟩
    · split
      · rename_i hd
        exact ⟨Nat.le_refl _, fun _ _ => hd⟩
      · have := (ih (c - counts (s + 1))).1
        exact ⟨by omega, fun _ h => by omega⟩

/-- The first loop of `compact`. -/
theorem histogram_run {t : IntTable} (h : t.Inv) :
    t.forAll (fun (h : Histogram) p => some (h.add p.1)) ⟨fun _ => 0, fun _ => 0⟩ =
      some (histogram t.pairs) := by
  rw [forAll_run h]
  exact List.foldlM_pure

theorem histogram_max (ps : List (Nat × UInt64)) (b : Nat) :
    (histogram ps).max b = 0 ∨ ∃ p ∈ ps, log2ceil p.1 = b ∧ (histogram ps).max b = p.1 :=
  (foldl_max ⟨fun _ => 0, fun _ => 0⟩ b).2.2

theorem le_histogram_max {ps : List (Nat × UInt64)} {p : Nat × UInt64} (hp : p ∈ ps) :
    p.1 ≤ (histogram ps).max (log2ceil p.1) :=
  (foldl_max ⟨fun _ => 0, fun _ => 0⟩ _).2.1 p hp rfl

/-- The number of keys in a bucket. -/
theorem histogram_counts (ps : List (Nat × UInt64)) (b : Nat) :
    (histogram ps).counts b = ps.countP fun p => log2ceil p.1 = b := by
  rw [histogram, foldl_counts, Nat.zero_add]

theorem histogram_counts_pos {ps : List (Nat × UInt64)} {p : Nat × UInt64} (hp : p ∈ ps) :
    0 < (histogram ps).counts (log2ceil p.1) := by
  rw [histogram_counts]
  exact List.countP_pos_iff.mpr ⟨p, hp, decide_eq_true rfl⟩

/-- A fresh table, when the byte size of its array is what it should be. -/
theorem sizedInit_run (asize : Nat) {s : Nat} (hs : s ≤ 16) (hbytes : max 1 asize < 2 ^ 61) (a : Alloc) :
    (∃ a', sizedInit asize s a = (none, a') ∧ a'.failed = true) ∨
      ∃ t a', sizedInit asize s a = (some t, a') ∧ a'.failed = a.failed ∧ t.Inv ∧ t.pairs = [] ∧
        t.arraySize = max 1 asize ∧ t.t.sizeLg2 = s := by
  have hmod : s % 256 = s := by omega
  obtain ⟨a₁, ha, hf⟩ | ⟨hs30, a₁, ha, hf⟩ := Table.init_spec (K := Nat) (V := UInt64)
    (s := s) (by omega) a
  · exact .inl ⟨a₁, by simp [sizedInit, hmod, ha], hf⟩
  · have hlen : max 1 asize * 8 % 2 ^ 64 / 8 = max 1 asize := by omega
    by_cases hg : max 1 asize * 8 % 2 ^ 64 < 2 ^ 63 ∧ a₁.grants a₁.calls
    · have harr : ∀ n, arrayPairs (List.replicate (max 1 asize) tabvalEmpty) n = [] := by
        intro n
        induction max 1 asize generalizing n with
        | zero => rfl
        | succ m ih =>
          rw [List.replicate_succ, arrayPairs, ih]
          rfl
      refine .inr ⟨⟨Table.empty s, List.replicate (max 1 asize) tabvalEmpty, max 1 asize, 0⟩,
        { a₁ with calls := a₁.calls + 1 }, ?_, hf, ?_, ?_, rfl, rfl⟩
      · simp only [sizedInit, hmod, ha, Alloc.malloc, if_pos hg, hlen]
      · exact
          { table := Table.empty_inv hs30
            load := Nat.zero_le _
            array_pos := Nat.le_max_left _ _
            array_len := List.length_replicate
            array_count := by rw [harr]; rfl
            high := by simp [Table.keys] }
      · rw [pairs, harr, Table.empty_pairs]
        rfl
    · refine .inl ⟨{ a₁ with calls := a₁.calls + 1, failed := true }, ?_, rfl⟩
      simp only [sizedInit, hmod, ha, Alloc.malloc, if_neg hg]

/-- The second loop of `compact`. -/
theorem moveInto_run (ps pre : List (Nat × UInt64)) {t : IntTable} {a : Alloc} (h : t.Inv)
    (hd : ((pre ++ ps).map Prod.fst).Nodup) (hv : ∀ p ∈ ps, arrHas p.2) (hsub : t.pairs ⊆ pre) :
    ∃ t' a', ps.foldlM moveInto (t, a) = some (t', a') ∧ t'.Inv ∧ t'.pairs ⊆ pre ++ ps ∧
      (a'.failed = false → a.failed = false ∧ (t.pairs.Perm pre → t'.pairs.Perm (pre ++ ps))) := by
  induction ps generalizing pre t a with
  | nil => exact ⟨t, a, rfl, h, by simpa using hsub, fun hf => ⟨hf, by simp⟩⟩
  | cons p ps ih =>
    obtain ⟨k, v⟩ := p
    have hk : k ∉ t.pairs.map Prod.fst := by
      intro hk
      obtain ⟨q, hq, hqk⟩ := List.mem_map.mp hk
      rw [List.map_append, List.map_cons, List.nodup_append] at hd
      exact hd.2.2 q.1 (List.mem_map_of_mem (hsub hq)) k List.mem_cons_self hqk
    obtain ⟨r, t₁, a₁, hrun, hinv, -, hcase⟩ := insert_run h hk (hv (k, v) List.mem_cons_self) a
    have hsub₁ : t₁.pairs ⊆ pre ++ [(k, v)] := by
      obtain ⟨-, rfl⟩ | ⟨-, -, hp⟩ := hcase
      · exact fun q hq => List.mem_append_left _ (hsub hq)
      · intro q hq
        have := hp.subset hq
        simp only [List.mem_cons, List.mem_append, List.not_mem_nil, or_false] at this ⊢
        exact this.symm.imp_left (hsub ·)
    obtain ⟨t', a', hrun', hinv', hsub', hok⟩ := ih (pre ++ [(k, v)]) (t := t₁) (a := a₁) hinv
      (by simpa using hd) (fun q hq => hv q (List.mem_cons_of_mem _ hq)) hsub₁
    refine ⟨t', a', ?_, hinv', by simpa using hsub', fun hf => ?_⟩
    · rw [List.foldlM_cons, moveInto, hrun]
      exact hrun'
    · obtain ⟨hf₁, hperm⟩ := hok hf
      obtain ⟨hf', -⟩ | ⟨-, hf', hp⟩ := hcase
      · rw [hf'] at hf₁
        cases hf₁
      · refine ⟨hf' ▸ hf₁, fun hpre => ?_⟩
        rw [List.append_cons]
        exact hperm (hp.trans ((hpre.cons _).trans (List.perm_append_singleton _ _).symm))

/-- The maps that `compact` can lay out: fewer than 6554 keys, or none whose array would have `2 ^ 61`
slots or more. For the largest key of all the number of slots wraps around to 0, which `sizedinit`
raises to 1: all other keys go to the hash part. -/
def Compactable (m : Finmap fun _ : Nat => UInt64) : Prop :=
  m.keys.card < 6554 ∨ (∀ k ∈ m, k < 2 ^ 61 - 1) ∨ 2 ^ 64 - 1 ∈ m

theorem count_eq {t : IntTable} (h : t.Inv) : t.count = t.pairs.length := by
  rw [count, pairs, List.length_append, h.table.count_eq, h.array_count, Nat.add_comm]

/-- The array that `compact` chooses has less than `2 ^ 61` slots. -/
theorem arrSize_lt {t : IntTable} {m : Finmap fun _ : Nat => UInt64} (h : t.Stands m)
    (hc : Compactable m) :
    ((histogram t.pairs).max (arrayLg2 (histogram t.pairs).counts maxArrSize t.count).1 + 1) %
      2 ^ 64 < 2 ^ 61 := by
  have hkey : ∀ p ∈ t.pairs, p.1 ∈ m := fun p hp => h.listing.mem_keys.mp (List.mem_map_of_mem hp)
  obtain ⟨hle, hdense⟩ := arrayLg2_spec (histogram t.pairs).counts maxArrSize t.count
  generalize (arrayLg2 (histogram t.pairs).counts maxArrSize t.count).1 = s at hle hdense ⊢
  rw [maxArrSize] at hle hdense
  obtain hmax | ⟨p, hp, hb, hmax⟩ := histogram_max t.pairs s
  · rw [hmax]
    decide
  rw [hmax]
  by_cases hs : s < 16
  · have := lt_of_log2ceil hb hs
    omega
  · have hs16 : s = 16 := by omega
    subst hs16
    have hcount := hdense (by decide) rfl
    rw [count_eq h.inv, h.listing.length_eq] at hcount
    obtain hc | hc | hc := hc
    · omega
    · have := hc p.1 (hkey p hp)
      omega
    · -- the largest `uintptr_t` is in the table, so it is the maximum
      obtain ⟨w, hw⟩ := Finmap.mem_iff.mp hc
      have hmem : (2 ^ 64 - 1, w) ∈ t.pairs := (h.listing.mem_iff _ _).mpr hw
      have hge := le_histogram_max hmem
      rw [log2ceil_of_ge (by decide : 2 ^ 16 ≤ 2 ^ 64 - 1), hmax] at hge
      have hlt := h.words p.1 (hkey p hp)
      have heq : p.1 = 2 ^ 64 - 1 := by
        simp only at hge
        omega
      rw [heq]
      decide

/-- The second loop of `compact`, into a fresh table. -/
theorem forAll_moveInto {t t₁ : IntTable} {m : Finmap fun _ : Nat => UInt64} (h : t.Stands m) (h₁ : t₁.Inv)
    (hnil : t₁.pairs = []) (a₁ : Alloc) :
    ∃ t' a', t.forAll moveInto (t₁, a₁) = some (t', a') ∧ t'.Inv ∧ t'.pairs ⊆ t.pairs ∧
      (a'.failed = false → a₁.failed = false ∧ t'.pairs.Perm t.pairs) := by
  have hv : ∀ p ∈ t.pairs, arrHas p.2 := fun p hp =>
    h.values p.1 p.2 ((h.listing.mem_iff _ _).mp hp)
  obtain ⟨t', a', hrun, hinv, hsub, hf⟩ := moveInto_run t.pairs [] (a := a₁) h₁
    (by simpa using h.listing.nodup) hv (by simp [hnil])
  exact ⟨t', a', by rw [forAll_run h.inv, hrun], hinv, by simpa using hsub,
    fun hf' => ⟨(hf hf').1, by simpa using (hf hf').2 (by simp [hnil])⟩⟩

/-- What `compact` leaves: all pairs unless an allocation fails, and pairs of the table in any case. -/
theorem compact_cases {t : IntTable} {m : Finmap fun _ : Nat => UInt64} (h : t.Stands m) (hc : Compactable m)
    (a : Alloc) :
    (compact t a).1 = none ∧ (compact t a).2.failed = true ∨
      ∃ t', (compact t a).1 = some t' ∧ t'.Inv ∧ t'.pairs ⊆ t.pairs ∧
        ((compact t a).2.failed = false → a.failed = false ∧ t'.pairs.Perm t.pairs) := by
  have hsize := arrSize_lt h hc
  simp only [compact, histogram_run h.inv]
  obtain ⟨a₁, hinit, hf⟩ | ⟨t₁, a₁, hinit, hf, hinv, hnil, -⟩ :=
    sizedInit_run _ (log2ceil_le (hashSize (t.count -
      (arrayLg2 (histogram t.pairs).counts maxArrSize t.count).2))) (Nat.max_lt.mpr ⟨by decide, hsize⟩) a
  · simp only [hinit]
    exact .inl ⟨trivial, hf⟩
  · obtain ⟨t', a', hrun, hinv', hsub, hperm⟩ := forAll_moveInto h hinv hnil a₁
    simp only [hinit, hrun]
    exact .inr ⟨t', rfl, hinv', hsub, fun hok => ⟨hf ▸ (hperm hok).1, (hperm hok).2⟩⟩

/-- **`compact` changes no key or value.** -/
theorem compact_run {t : IntTable} {m : Finmap fun _ : Nat => UInt64} (h : t.Stands m)
    (hc : Compactable m) (a : Alloc) (hok : (compact t a).2.failed = false) :
    ∃ t', (compact t a).1 = some t' ∧ a.failed = false ∧ t'.Stands m := by
  obtain ⟨-, hf⟩ | ⟨t', hrun, hinv, -, hperm⟩ := compact_cases h hc a
  · rw [hf] at hok
    cases hok
  · obtain ⟨hf, hp⟩ := hperm hok
    exact ⟨t', hrun, hf, hinv, h.listing.perm hp, h.values, h.words⟩

/-- Moving keys into an array that is shorter than its recorded size runs past its end. -/
theorem moveInto_overrun {ps : List (Nat × UInt64)} {t : IntTable} (a : Alloc)
    (hall : ∀ p ∈ ps, p.1 < t.arraySize) (hex : ∃ p ∈ ps, t.array.length ≤ p.1) :
    ps.foldlM moveInto (t, a) = none := by
  induction ps generalizing t with
  | nil => simp at hex
  | cons p ps ih =>
    have hp := hall p List.mem_cons_self
    cases hget : t.array[p.1]? with
    | none =>
      rw [List.foldlM_cons, moveInto, insert, if_pos hp, hget]
      rfl
    | some w =>
      have hlen := (List.getElem?_eq_some_iff.mp hget).1
      rw [List.foldlM_cons, moveInto, insert, if_pos hp, hget]
      refine ih (fun q hq => hall q (List.mem_cons_of_mem _ hq)) ?_
      obtain ⟨q, hq, hle⟩ := hex
      obtain rfl | hq := List.mem_cons.mp hq
      · omega
      · exact ⟨q, hq, by rwa [List.length_set]⟩

/-- **`compact` with a large key runs out of its array**: with 6554 keys or more and a largest key
from `2 ^ 61 - 1` to `2 ^ 64 - 2`, the array gets fewer slots than its recorded size, without any
failed allocation. -/
theorem compact_overflow {t : IntTable} {m : Finmap fun _ : Nat => UInt64} (h : t.Stands m) {M : Nat}
    (hM : M ∈ m) (hmax : ∀ k ∈ m, k ≤ M) (hlo : 2 ^ 61 - 1 ≤ M) (hhi : M < 2 ^ 64 - 1)
    (hn : 6554 ≤ m.keys.card) (a : Alloc) :
    (compact t a).1 = none ∧
      ((M + 1) * 8 % 2 ^ 64 < 2 ^ 63 → a.grants a.calls = true →
        (compact t a).2.failed = a.failed) := by
  obtain ⟨w, hw⟩ := Finmap.mem_iff.mp hM
  have hmem : (M, w) ∈ t.pairs := (h.listing.mem_iff _ _).mpr hw
  have hkey : ∀ p ∈ t.pairs, p.1 ≤ M := fun p hp =>
    hmax p.1 (h.listing.mem_keys.mp (List.mem_map_of_mem hp))
  have hbucket : log2ceil M = 16 := log2ceil_of_ge (by omega)
  have hpos := histogram_counts_pos hmem
  have hge := le_histogram_max hmem
  simp only [hbucket] at hpos hge
  have hM16 : (histogram t.pairs).max 16 = M := by
    obtain heq | ⟨p, hp, -, heq⟩ := histogram_max t.pairs 16
    · omega
    · have := hkey p hp
      omega
  have hcount : 2 ^ 16 ≤ 10 * t.count := by
    rw [count_eq h.inv, h.listing.length_eq]
    omega
  have hlg : arrayLg2 (histogram t.pairs).counts maxArrSize t.count = (16, t.count) := by
    rw [maxArrSize, arrayLg2, if_neg (Nat.ne_of_gt hpos), if_pos hcount]
  have hmod : (M + 1) % 2 ^ 64 = M + 1 := by omega
  have hinit : Table.init (K := Nat) (V := UInt64) 0 a = some (some (Table.empty 0), a) := rfl
  have hhash : log2ceil (hashSize (t.count - t.count)) % 256 = 0 := by
    rw [Nat.sub_self]
    rfl
  have harr : max 1 (M + 1) = M + 1 := by omega
  simp only [compact, histogram_run h.inv, hlg, hM16, hmod, sizedInit, hhash, hinit, Alloc.malloc,
    harr, forAll_run h.inv]
  by_cases hg : (M + 1) * 8 % 2 ^ 64 < 2 ^ 63 ∧ a.grants a.calls = true
  · simp only [if_pos hg]
    rw [moveInto_overrun]
    · exact ⟨rfl, fun _ _ => rfl⟩
    · exact fun p hp => Nat.lt_succ_of_le (hkey p hp)
    · refine ⟨(M, w), hmem, ?_⟩
      rw [List.length_replicate]
      omega
  · simp only [if_neg hg]
    exact ⟨trivial, fun h₁ h₂ => absurd ⟨h₁, h₂⟩ hg⟩

end Compact

end IntTable

/-- The operations of an integer table that a client may call. -/
inductive IntOp where
  | insert (k : Nat) (v : UInt64)
  | lookup (k : Nat)
  | replace (k : Nat) (v : UInt64)
  | remove (k : Nat)
  | compact
  /-- A whole `next` loop. -/
  | iterate
  | count

/-- What a call returns. -/
inductive IntEvent where
  | returned (ok : Bool)
  /-- The value found or removed, `none` for the `false` result. -/
  | value (v : Option UInt64)
  | pairs (l : List (Nat × UInt64))
  | count (n : Nat)
  | done
  deriving DecidableEq

namespace IntTable

/-- One call. -/
def step (t : IntTable) (a : Alloc) : IntOp → Option (IntEvent × IntTable) × Alloc
  | .insert k v =>
    match t.insert k v a with
    | (none, a) => (none, a)
    | (some (r, t), a) => (some (.returned r, t), a)
  | .lookup k => ((t.lookup k).map fun v => (.value v, t), a)
  | .replace k v => ((t.replace k v).map fun (r, t) => (.returned r, t), a)
  | .remove k => ((t.remove k).map fun (v, t) => (.value v, t), a)
  | .compact =>
    match t.compact a with
    | (none, a) => (none, a)
    | (some t, a) => (some (.done, t), a)
  | .iterate => ((t.forAll (fun l p => some (l ++ [p])) []).map fun l => (.pairs l, t), a)
  | .count => (some (.count t.count, t), a)

/-- Calls one after another, up to the first failed allocation. -/
def run (t : IntTable) (a : Alloc) : List IntOp → Option (List IntEvent) × Alloc
  | [] => (some [], a)
  | op :: ops =>
    match step t a op with
    | (none, a) => (none, a)
    | (some (ev, t), a) =>
      if a.failed then (some [ev], a)
      else
        match run t a ops with
        | (none, a) => (none, a)
        | (some evs, a) => (some (ev :: evs), a)

/-- A client: `init`, then the calls. -/
def runInit (a : Alloc) (ops : List IntOp) : Option (List IntEvent) × Alloc :=
  match init a with
  | (none, a) => (some [], a)
  | (some t, a) => run t a ops

end IntTable

namespace IntOp

/-- The finite map after a call. -/
def next (m : Finmap fun _ : Nat => UInt64) : IntOp → Finmap fun _ : Nat => UInt64
  | .insert k v => m.insert k v
  | .replace k v => if k ∈ m then m.insert k v else m
  | .remove k => m.erase k
  | _ => m

/-- What a finite map answers to a call. -/
def Answers (m : Finmap fun _ : Nat => UInt64) : IntOp → IntEvent → Prop
  | .insert _ _, ev => ev = .returned true
  | .lookup k, ev => ev = .value (m.lookup k)
  | .replace k _, ev => ev = .returned (decide (k ∈ m))
  | .remove k, ev => ev = .value (m.lookup k)
  | .compact, ev => ev = .done
  | .iterate, ev => ∃ l, ev = .pairs l ∧ Listing l m
  | .count, ev => ev = .count m.keys.card

/-- Absent `uintptr_t` keys are inserted, present ones removed, and no value is the sentinel. -/
def Legal (m : Finmap fun _ : Nat => UInt64) : IntOp → Prop
  | .insert k v => k ∉ m ∧ k < 2 ^ 64 ∧ arrHas v
  | .replace _ v => arrHas v
  | .remove k => k ∈ m
  | _ => True

/-- The calls for which the table answers as a map. -/
def Supported (m : Finmap fun _ : Nat => UInt64) : IntOp → Prop
  | .compact => IntTable.Compactable m
  | _ => True

/-- A property of each call of a list and the map it is made on. -/
def Along (P : (Finmap fun _ : Nat => UInt64) → IntOp → Prop) :
    (Finmap fun _ : Nat => UInt64) → List IntOp → Prop
  | _, [] => True
  | m, op :: ops => P m op ∧ Along P (op.next m) ops

/-- The answers of a finite map to a list of calls. -/
def AnswersAll : (Finmap fun _ : Nat => UInt64) → List IntOp → List IntEvent → Prop
  | _, [], evs => evs = []
  | m, op :: ops, ev :: evs => op.Answers m ev ∧ AnswersAll (op.next m) ops evs
  | _, _ :: _, [] => False

end IntOp

namespace IntTable

theorem Stands.insert {t t' : IntTable} {m : Finmap fun _ : Nat => UInt64} {k : Nat} {v : UInt64}
    (h : t.Stands m) (hk : k ∉ m) (hw : k < 2 ^ 64) (hv : arrHas v) (hinv : t'.Inv)
    (hp : t'.pairs.Perm ((k, v) :: t.pairs)) : t'.Stands (m.insert k v) := by
  refine ⟨hinv, h.listing.insert hk hp, fun k' v' hm => ?_, fun k' hk' => ?_⟩
  · by_cases hkk : k' = k
    · subst hkk
      rw [Finmap.lookup_insert] at hm
      cases hm
      exact hv
    · rw [Finmap.lookup_insert_of_ne _ hkk] at hm
      exact h.values k' v' hm
  · rw [Finmap.mem_insert] at hk'
    obtain rfl | hk' := hk'
    exacts [hw, h.words _ hk']

/-- One legal, supported call on a table that holds `m` answers as `m` does, and the table holds the
next map, unless an allocation fails. -/
theorem step_run {t : IntTable} {m : Finmap fun _ : Nat => UInt64} (h : t.Stands m) (a : Alloc)
    {op : IntOp} (hl : op.Legal m) (hs : op.Supported m) (hok : (step t a op).2.failed = false) :
    ∃ ev t', (step t a op).1 = some (ev, t') ∧ op.Answers m ev ∧ t'.Stands (op.next m) := by
  cases op with
  | insert k v =>
    obtain ⟨hk, hw, hv⟩ := hl
    obtain ⟨r, t', a', hrun, hinv, -, ⟨hf, -⟩ | ⟨rfl, -, hp⟩⟩ :=
      insert_run h.inv (mt h.listing.mem_keys.mp hk) hv a
    · simp only [step, hrun, hf] at hok
      cases hok
    · exact ⟨.returned true, t', by simp [step, hrun], rfl, h.insert hk hw hv hinv hp⟩
  | lookup k => exact ⟨_, t, by simp [step, lookup_run h], rfl, h⟩
  | replace k v =>
    obtain ⟨t', hrun, hst⟩ := replace_run h k hl
    exact ⟨_, t', by simp [step, hrun], rfl, hst⟩
  | remove k =>
    obtain ⟨t', hrun, hst⟩ := remove_run h hl
    exact ⟨_, t', by simp [step, hrun], rfl, hst⟩
  | compact =>
    have hok' : (compact t a).2.failed = false := by
      revert hok
      rw [step]
      rcases compact t a with ⟨_ | t', a'⟩ <;> exact id
    obtain ⟨t', hrun, -, hst⟩ := compact_run h hs a hok'
    refine ⟨.done, t', ?_, rfl, hst⟩
    rw [step, ← Prod.mk.eta (p := compact t a), hrun]
  | iterate =>
    refine ⟨.pairs t.pairs, t, ?_, ⟨_, rfl, h.listing⟩, h⟩
    have hfold : ∀ l₀ : List (Nat × UInt64),
        t.pairs.foldlM (fun l p => some (l ++ [p])) l₀ = some (l₀ ++ t.pairs) := by
      intro l₀
      induction t.pairs generalizing l₀ with
      | nil => simp
      | cons p ps ih => simp [ih]
    simp [step, forAll_run h.inv, hfold]
  | count =>
    refine ⟨_, t, rfl, ?_, h⟩
    rw [IntOp.Answers, count_eq h.inv, h.listing.length_eq]

theorem run_run {t : IntTable} {m : Finmap fun _ : Nat => UInt64} (h : t.Stands m) (a : Alloc)
    {ops : List IntOp} (hl : IntOp.Along IntOp.Legal m ops) (hs : IntOp.Along IntOp.Supported m ops)
    (hok : (run t a ops).2.failed = false) :
    ∃ evs, (run t a ops).1 = some evs ∧ IntOp.AnswersAll m ops evs := by
  induction ops generalizing t m a with
  | nil => exact ⟨[], rfl, rfl⟩
  | cons op ops ih =>
    have hstep := step_run h a hl.1 hs.1
    rw [run] at hok ⊢
    rcases hst : step t a op with ⟨_ | ⟨ev, t'⟩, a'⟩
    · simp only [hst] at hok hstep
      obtain ⟨_, _, hnone, -⟩ := hstep hok
      cases hnone
    · simp only [hst] at hok hstep ⊢
      cases hf : a'.failed with
      | true =>
        rw [hf, if_pos rfl] at hok
        rw [hf] at hok
        cases hok
      | false =>
        obtain ⟨ev', t'', heq, hans, hst'⟩ := hstep hf
        cases heq
        simp only [hf, Bool.false_eq_true, if_false] at hok ⊢
        have hrec := ih hst' a' hl.2 hs.2
        rcases hrun : run t' a' ops with ⟨_ | evs, a''⟩
        · simp only [hrun] at hok hrec
          obtain ⟨_, hnone, -⟩ := hrec hok
          cases hnone
        · simp only [hrun] at hok hrec ⊢
          obtain ⟨_, heq, hall⟩ := hrec hok
          cases heq
          exact ⟨_, rfl, hans, hall⟩

theorem init_run (a : Alloc) :
    (∃ a', init a = (none, a') ∧ a'.failed = true) ∨
      ∃ t a', init a = (some t, a') ∧ a'.failed = a.failed ∧ t.Stands ∅ := by
  obtain ⟨a', ha, hf⟩ | ⟨t, a', ha, hf, hinv, hnil, -⟩ :=
    sizedInit_run 0 (s := 4) (by decide) (by decide) a
  · exact .inl ⟨a', ha, hf⟩
  · exact .inr ⟨t, a', ha, hf, hinv, hnil ▸ Listing.nil, by simp,
      fun k hk => absurd hk Finmap.notMem_empty⟩

/-- The table that `hpb_inttable_init` sets up. -/
theorem init_stands : Stands ⟨Table.empty 4, [tabvalEmpty], 1, 0⟩ ∅ := by
  have hinit : init Alloc.granting =
      (some ⟨Table.empty 4, [tabvalEmpty], 1, 0⟩, { Alloc.granting with calls := 2 }) := rfl
  obtain ⟨a, ha, -⟩ | ⟨t, a, ha, -, hst⟩ := init_run Alloc.granting
  · rw [hinit] at ha
    cases ha
  · rw [hinit] at ha
    cases ha
    exact hst

end IntTable

section Overflow

/-- The map after entering the keys `ks` with value 0. -/
def enterKeys (m : Finmap fun _ : Nat => UInt64) (ks : List Nat) : Finmap fun _ : Nat => UInt64 :=
  ks.foldl (fun m k => m.insert k 0) m

theorem mem_enterKeys {m : Finmap fun _ : Nat => UInt64} {ks : List Nat} {k : Nat} :
    k ∈ enterKeys m ks ↔ k ∈ m ∨ k ∈ ks := by
  induction ks generalizing m with
  | nil => simp [enterKeys]
  | cons k' ks ih =>
    rw [enterKeys, List.foldl_cons, ← enterKeys, ih, Finmap.mem_insert, List.mem_cons]
    tauto

/-- 6554 keys with a given largest one. -/
theorem exists_keys {M : Nat} (hM : 6553 ≤ M) :
    ∃ ks : List Nat, M ∈ ks ∧ ks.Nodup ∧ (∀ k ∈ ks, k ≤ M) ∧ ks.length = 6554 := by
  refine ⟨M :: List.range 6553, List.mem_cons_self, List.nodup_cons.mpr ⟨?_, List.nodup_range⟩, fun k hk => ?_,
    by simp⟩
  · rw [List.mem_range]
    omega
  · obtain rfl | hk := List.mem_cons.mp hk
    · exact Nat.le_refl _
    · have := List.mem_range.mp hk
      omega

theorem legal_enterKeys {m : Finmap fun _ : Nat => UInt64} {ks : List Nat} (ops : List IntOp)
    (hd : ks.Nodup) (hm : ∀ k ∈ ks, k ∉ m) (hw : ∀ k ∈ ks, k < 2 ^ 64)
    (hrest : IntOp.Along IntOp.Legal (enterKeys m ks) ops) :
    IntOp.Along IntOp.Legal m (ks.map (IntOp.insert · 0) ++ ops) := by
  induction ks generalizing m with
  | nil => exact hrest
  | cons k ks ih =>
    obtain ⟨hk, hd⟩ := List.nodup_cons.mp hd
    refine ⟨⟨hm k List.mem_cons_self, hw k List.mem_cons_self, rfl⟩, ih hd (fun k' hk' => ?_)
      (fun k' hk' => hw k' (List.mem_cons_of_mem _ hk')) hrest⟩
    rw [IntOp.next, Finmap.mem_insert, not_or]
    refine ⟨?_, hm k' (List.mem_cons_of_mem _ hk')⟩
    rintro rfl
    exact hk hk'

namespace IntTable

/-- With memory for everything, and far fewer keys than the largest hash part holds, no insertion
fails. -/
theorem insert_granted {t : IntTable} (h : t.Inv) {k : Nat} {v : UInt64} {a : Alloc}
    (hg : ∀ n, a.grants n = true) (hc : t.pairs.length < 10000) :
    (insert t k v a).2.grants = a.grants ∧ (insert t k v a).2.failed = a.failed := by
  have hcount : t.t.count < 10000 := by
    rw [← count_eq h, count] at hc
    omega
  rw [insert]
  by_cases hka : k < t.arraySize
  · rw [if_pos hka]
    cases t.array[k]? <;> exact ⟨rfl, rfl⟩
  · rw [if_neg hka]
    by_cases hfull : t.t.isFull = true
    · rw [if_pos hfull]
      have hmax := h.table.max_eq
      rw [Table.isFull, decide_eq_true_eq] at hfull
      have hlg := h.table.lg2_le
      have hlt : t.t.sizeLg2 + 1 ≤ 30 := by
        by_contra hlt
        have h30 : t.t.sizeLg2 = 30 := by omega
        rw [Table.size, h30, Table.tableSize_eq (by decide) (by decide)] at hmax
        omega
      obtain ⟨a', ha, hga, hfa⟩ := Table.init_granted (K := Nat) (V := UInt64) hlt hg
      rw [Nat.mod_eq_of_lt (by omega), ha]
      exact ⟨hga, hfa⟩
    · rw [if_neg hfull]
      exact ⟨rfl, rfl⟩

/-- Entering keys with memory for everything. -/
theorem run_enterKeys {m : Finmap fun _ : Nat => UInt64} (ks : List Nat) {t : IntTable} {a : Alloc}
    (h : t.Stands m) (hg : ∀ n, a.grants n = true) (hf : a.failed = false) (hd : ks.Nodup)
    (hm : ∀ k ∈ ks, k ∉ m) (hw : ∀ k ∈ ks, k < 2 ^ 64) (hlen : t.pairs.length + ks.length ≤ 10000)
    (ops : List IntOp) :
    ∃ t' a', t'.Stands (enterKeys m ks) ∧ (∀ n, a'.grants n = true) ∧ a'.failed = false ∧
      t'.pairs.length = t.pairs.length + ks.length ∧
      (run t a (ks.map (IntOp.insert · 0) ++ ops)).2 = (run t' a' ops).2 ∧
      ((run t' a' ops).1 = none → (run t a (ks.map (IntOp.insert · 0) ++ ops)).1 = none) := by
  induction ks generalizing m t a with
  | nil => exact ⟨t, a, h, hg, hf, rfl, rfl, id⟩
  | cons k ks ih =>
    obtain ⟨hk, hd⟩ := List.nodup_cons.mp hd
    rw [List.length_cons] at hlen
    have hkm := hm k List.mem_cons_self
    obtain ⟨hga, hfa⟩ := insert_granted (k := k) (v := 0) h.inv hg (by omega)
    obtain ⟨r, t₁, a₁, hrun, hinv, -, ⟨hf₁, -⟩ | ⟨rfl, -, hp⟩⟩ :=
      insert_run h.inv (mt h.listing.mem_keys.mp hkm) (v := 0) rfl a
    · rw [hrun, hf] at hfa
      simp only [hf₁] at hfa
      cases hfa
    rw [hrun] at hga hfa
    have hst := h.insert hkm (hw k List.mem_cons_self) rfl hinv hp
    have hlen₁ := hp.length_eq
    rw [List.length_cons] at hlen₁
    have hf₁ : a₁.failed = false := hfa.trans hf
    obtain ⟨t', a', hst', hg', hf', hl', hsnd, hfst⟩ := ih hst (fun n => by rw [hga, hg]) hf₁ hd
      (fun k' hk' => by
        rw [Finmap.mem_insert, not_or]
        refine ⟨?_, hm k' (List.mem_cons_of_mem _ hk')⟩
        rintro rfl
        exact hk hk')
      (fun k' hk' => hw k' (List.mem_cons_of_mem _ hk')) (by omega)
    have hstep : step t a (.insert k 0) = (some (.returned true, t₁), a₁) := by simp [step, hrun]
    refine ⟨t', a', hst', hg', hf', by rw [hl', hlen₁, List.length_cons]; omega, ?_, fun hnone => ?_⟩
    · rw [List.map_cons, List.cons_append, run, hstep]
      simp only [hf₁, Bool.false_eq_true, if_false, ← hsnd]
      rcases run t₁ a₁ (ks.map (IntOp.insert · 0) ++ ops) with ⟨_ | evs, a''⟩ <;> rfl
    · have hnone := hfst hnone
      rw [List.map_cons, List.cons_append, run, hstep]
      simp only [hf₁, Bool.false_eq_true, if_false]
      rcases hr : run t₁ a₁ (ks.map (IntOp.insert · 0) ++ ops) with ⟨_ | evs, a''⟩
      · rfl
      · rw [hr] at hnone
        cases hnone

end IntTable

end Overflow

end Hpb
