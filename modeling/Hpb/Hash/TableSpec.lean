import Hpb.Hash.TableInv
import Mathlib.Data.List.Nodup

/-!
# What the operations of the base hash table do

`Table.Inv` is the representation invariant and `Table.pairs` the contents. The specifications speak
of `pairs` up to order: `insert` adds one pair, `rm` takes one out, `lookup` finds exactly the pairs
that are there, and a loop over the used slots is a loop over `pairs`.
-/

namespace Hpb

/-- Replacing one element of a list replaces its image under a partial map. -/
theorem filterMap_set_perm {α β : Type*} (f : α → Option β) {l : List α} {i : Nat} {a : α} (b : α)
    (h : l[i]? = some a) :
    List.Perm ((f a).toList ++ (l.set i b).filterMap f) ((f b).toList ++ l.filterMap f) := by
  induction l generalizing i with
  | nil => simp at h
  | cons c l ih =>
    cases i with
    | zero =>
      obtain rfl : c = a := by simpa using h
      cases hb : f b <;> cases hc : f c <;> simp [hb, hc, List.Perm.swap]
    | succ i =>
      have ih := ih (i := i) (by simpa using h)
      cases hc : f c with
      | none => simpa [List.filterMap_cons, hc] using ih
      | some d =>
        simp only [List.set_cons_succ, List.filterMap_cons, hc]
        exact List.perm_middle.trans ((ih.cons d).trans List.perm_middle.symm)

namespace Table

variable {K V : Type}

/-- The keys and values of the table, in the order of the slots. -/
def pairs (t : Table K V) : List (K × V) := t.entries.filterMap TabEnt.pair

/-- The keys of the table. -/
def keys (t : Table K V) : List K := t.pairs.map Prod.fst

/-- The representation invariant. -/
structure Inv (hash : K → Nat) (t : Table K V) : Prop where
  lg2_le : t.sizeLg2 ≤ 30
  length_eq : t.entries.length = t.size
  mask_eq : t.mask = t.size - 1
  max_eq : t.maxCount = t.size * 17 / 20
  chained : Chained (fun k => t.getEntry (hash k)) t.entries
  count_eq : t.count = t.pairs.length
  nodup : t.keys.Nodup

theorem tableSize_eq {s : Nat} (h0 : s ≠ 0) (hs : s ≤ 30) : tableSize s = 2 ^ s := by
  rw [tableSize, if_neg h0, if_neg (by omega)]

theorem tableSize_succ {s : Nat} (h0 : s ≠ 0) (hs : s + 1 ≤ 30) :
    tableSize (s + 1) = 2 * tableSize s ∧ 2 ≤ tableSize s := by
  rw [tableSize_eq h0 (by omega), tableSize_eq (by omega) hs]
  have : 2 ^ 1 ≤ 2 ^ s := Nat.pow_le_pow_right (by omega) (by omega)
  omega

/-- Doubling makes room. -/
theorem maxCount_double {s : Nat} (hs : s + 1 ≤ 30) :
    tableSize s * 17 / 20 < tableSize (s + 1) * 17 / 20 := by
  by_cases h0 : s = 0
  · subst h0
    decide
  · obtain ⟨hsucc, hpos⟩ := tableSize_succ h0 hs
    omega

theorem mem_pairs {t : Table K V} {k : K} {v : V} :
    (k, v) ∈ t.pairs ↔
      ∃ (i : Nat) (e : TabEnt K V), t.entries[i]? = some e ∧ e.key = some k ∧ e.val = v := by
  simp only [pairs, List.mem_filterMap, TabEnt.pair, Option.map_eq_some_iff, Prod.mk.injEq]
  constructor
  · rintro ⟨e, he, k', hk', rfl, rfl⟩
    obtain ⟨i, hi⟩ := List.mem_iff_getElem?.mp he
    exact ⟨i, e, hi, hk', rfl⟩
  · rintro ⟨i, e, hi, hk, rfl⟩
    exact ⟨e, List.mem_of_getElem? hi, k, hk, rfl, rfl⟩

theorem mem_keys {t : Table K V} {k : K} : k ∈ t.keys ↔ ∃ i, keyAt t.entries i = some k := by
  simp only [keys, List.mem_map, Prod.exists, exists_and_right, exists_eq_right, mem_pairs]
  constructor
  · rintro ⟨v, i, e, hi, hk, -⟩
    exact ⟨i, by rw [keyAt_of_get hi, hk]⟩
  · rintro ⟨i, hi⟩
    obtain ⟨e, he, hk⟩ := get_of_keyAt hi
    exact ⟨e.val, i, e, he, hk, rfl⟩

section Inv

variable {hash : K → Nat} {t : Table K V} {k : K} {v : V} {i : Nat}

theorem Inv.size_eq (h : t.Inv hash) (h0 : t.sizeLg2 ≠ 0) : t.size = 2 ^ t.sizeLg2 :=
  tableSize_eq h0 h.lg2_le

theorem Inv.getEntry_lt (h : t.Inv hash) (h0 : t.sizeLg2 ≠ 0) (x : Nat) : t.getEntry x < t.size := by
  have hle : t.getEntry x ≤ t.mask := Nat.and_le_right
  have hpos : 0 < t.size := by
    rw [h.size_eq h0]
    exact Nat.two_pow_pos _
  have := h.mask_eq
  omega

/-- A table with a pair has slots. -/
theorem Inv.slots (h : t.Inv hash) {p : K × V} (hp : p ∈ t.pairs) : t.sizeLg2 ≠ 0 := by
  intro h0
  obtain ⟨i, e, he, -, -⟩ := mem_pairs.mp hp
  have := (List.getElem?_eq_some_iff.mp he).1
  rw [h.length_eq, size, h0] at this
  exact absurd this (Nat.not_lt_zero i)

theorem Inv.get_main (h : t.Inv hash) (h0 : t.sizeLg2 ≠ 0) (k : K) :
    ∃ e, t.entries[t.getEntry (hash k)]? = some e :=
  ⟨_, List.getElem?_eq_getElem (by rw [h.length_eq]; exact h.getEntry_lt h0 _)⟩

/-- From every used slot the chain runs through used slots to its end. -/
theorem Inv.walk (h : t.Inv hash) (hk : keyAt t.entries i = some k) :
    ∃ r, LinkedPath (nextAt t.entries) (some i) (i :: r) none ∧ r.length < t.size ∧
      ∀ j ∈ i :: r, ∃ k', keyAt t.entries j = some k' := by
  obtain ⟨l, hl, hi⟩ := h.chained i k hk
  have hlen := hl.length_le
  obtain ⟨s, r, rfl⟩ := List.append_of_mem hi
  obtain ⟨y, -, rfl, pr⟩ := LinkedPath.append_iff.mp hl.1
  refine ⟨r, ⟨rfl, pr⟩, ?_, fun j hj => ?_⟩
  · rw [← h.length_eq]
    simp only [List.length_append, List.length_cons] at hlen
    omega
  · obtain ⟨k', hk', -⟩ := hl.2 j (List.mem_append_right _ hj)
    exact ⟨k', hk'⟩

/-- Where to find a key: on the walk from its main position. -/
theorem Inv.mem_walk (h : t.Inv hash) {l : List Nat}
    (hl : LinkedPath (nextAt t.entries) (some (t.getEntry (hash k))) l none)
    (hk : keyAt t.entries i = some k) :
    IsChain (fun k => t.getEntry (hash k)) t.entries (t.getEntry (hash k)) l ∧ i ∈ l := by
  obtain ⟨l', hl', hi⟩ := h.chained i k hk
  obtain rfl := hl'.1.unique hl
  exact ⟨hl', hi⟩

theorem Inv.head_used (h : t.Inv hash) (hk : k ∈ t.keys) :
    ∃ k', keyAt t.entries (t.getEntry (hash k)) = some k' := by
  obtain ⟨i, hi⟩ := mem_keys.mp hk
  obtain ⟨k', hk', -⟩ := h.chained.head hi
  exact ⟨k', hk'⟩

/-- The shape of a table: everything but its entries and count. -/
theorem Inv.of_entries (h : t.Inv hash) {es : List (TabEnt K V)} {n : Nat}
    (hlen : es.length = t.entries.length) (hc : Chained (fun k => t.getEntry (hash k)) es)
    (hn : n = (es.filterMap TabEnt.pair).length)
    (hd : ((es.filterMap TabEnt.pair).map Prod.fst).Nodup) :
    Inv hash { t with count := n, entries := es } :=
  { lg2_le := h.lg2_le
    length_eq := hlen.trans h.length_eq
    mask_eq := h.mask_eq
    max_eq := h.max_eq
    chained := hc
    count_eq := hn
    nodup := hd }

end Inv

section Find

variable [DecidableEq K] {hash : K → Nat} {t : Table K V} {k : K} {v : V}

theorem findLoop_run {l : List Nat} {i n : Nat}
    (hl : LinkedPath (nextAt t.entries) (some i) l none)
    (hu : ∀ j ∈ l, ∃ k', keyAt t.entries j = some k') (hn : l.length ≤ n) :
    t.findLoop k n i = some (l.find? fun j => keyAt t.entries j = some k) := by
  induction l generalizing i n with
  | nil => cases hl
  | cons j l ih =>
    obtain ⟨hj, hl⟩ := hl
    obtain rfl := Option.some.inj hj
    obtain ⟨k', hk'⟩ := hu i List.mem_cons_self
    obtain ⟨e, he, hek⟩ := get_of_keyAt hk'
    obtain ⟨n, rfl⟩ : ∃ m, n = m + 1 := ⟨n - 1, by simp at hn; omega⟩
    rw [findLoop, he, Option.bind_eq_bind, Option.bind_some, hek, Option.bind_eq_bind,
      Option.bind_some, List.find?_cons]
    by_cases hkk : k' = k
    · simp [hkk, hk']
    · rw [if_neg hkk]
      rw [nextAt_of_get he] at hl
      have hne : decide (keyAt t.entries i = some k) = false := by simp [hk', hkk]
      rw [hne]
      cases hnext : e.next with
      | none =>
        rw [hnext] at hl
        cases l with
        | nil => rfl
        | cons _ _ => cases hl.1
      | some j =>
        rw [hnext] at hl
        exact ih hl (fun j hj => hu j (List.mem_cons_of_mem _ hj)) (by simpa using hn)

/-- `findentry` finds the slot of a key that is there, and nothing else. -/
theorem findEntry_spec (h : t.Inv hash) (k : K) :
    ∃ r, t.findEntry k (hash k) = some r ∧ (∀ i, r = some i → keyAt t.entries i = some k) ∧
      (r = none → k ∉ t.keys) := by
  by_cases h0 : t.sizeLg2 = 0
  · refine ⟨none, by rw [findEntry, if_pos h0], by simp, fun _ hk => ?_⟩
    obtain ⟨i, hi⟩ := mem_keys.mp hk
    have := lt_of_keyAt hi
    rw [h.length_eq, size, tableSize, if_pos h0] at this
    omega
  obtain ⟨e, he⟩ := h.get_main h0 k
  rw [findEntry, if_neg h0]
  simp only [he, Option.bind_eq_bind, Option.bind_some]
  cases hek : e.key with
  | none =>
    refine ⟨none, by simp [TabEnt.isEmpty, hek], by simp, fun _ hk => ?_⟩
    obtain ⟨k', hk'⟩ := h.head_used hk
    rw [keyAt_of_get he, hek] at hk'
    cases hk'
  | some k₀ =>
    obtain ⟨r, hr, hlen, hu⟩ := h.walk (i := t.getEntry (hash k)) (by rw [keyAt_of_get he, hek])
    have hloop := findLoop_run (k := k) hr hu (n := t.size) hlen
    refine ⟨_, by simp only [TabEnt.isEmpty, hek]; exact hloop, ?_, ?_⟩
    · intro i hi
      simpa using List.find?_some hi
    · intro hnone hk
      obtain ⟨i, hi⟩ := mem_keys.mp hk
      exact absurd hi (by simpa using List.find?_eq_none.mp hnone i (h.mem_walk hr hi).2)

/-- **`lookup` finds exactly the pairs of the table.** -/
theorem lookup_spec (h : t.Inv hash) (k : K) :
    ∃ r, t.lookup k (hash k) = some r ∧ ∀ v, r = some v ↔ (k, v) ∈ t.pairs := by
  obtain ⟨r, hr, hfound, hnone⟩ := findEntry_spec h k
  rw [lookup, hr]
  cases r with
  | none =>
    refine ⟨none, rfl, fun v => ?_⟩
    simp only [reduceCtorEq, false_iff]
    intro hv
    exact hnone rfl (List.mem_map_of_mem hv)
  | some i =>
    obtain ⟨e, he, hk⟩ := get_of_keyAt (hfound i rfl)
    refine ⟨some e.val, by simp [he], fun v => ?_⟩
    have hmem : (k, e.val) ∈ t.pairs := mem_pairs.mpr ⟨i, e, he, hk, rfl⟩
    constructor
    · rintro h'
      cases h'
      exact hmem
    · intro hv
      have := List.inj_on_of_nodup_map h.nodup hmem hv rfl
      simp_all

/-- A key is not found if and only if it is not there. -/
theorem lookup_none_iff (h : t.Inv hash) (k : K) : t.lookup k (hash k) = some none ↔ k ∉ t.keys := by
  obtain ⟨r, hr, hmem⟩ := lookup_spec h k
  rw [hr, Option.some.injEq, keys, List.mem_map]
  constructor
  · rintro rfl ⟨⟨k, v⟩, hp, rfl⟩
    cases (hmem v).mpr hp
  · intro hk
    cases r with
    | none => rfl
    | some v => exact absurd ⟨(k, v), (hmem v).mp rfl, rfl⟩ hk

/-- Two tables with the same pairs answer alike. -/
theorem lookup_eq_of_perm {t' : Table K V} (h : t.Inv hash) (h' : t'.Inv hash)
    (hp : t.pairs.Perm t'.pairs) (k : K) : t.lookup k (hash k) = t'.lookup k (hash k) := by
  obtain ⟨r, hr, hmem⟩ := lookup_spec h k
  obtain ⟨r', hr', hmem'⟩ := lookup_spec h' k
  rw [hr, hr', Option.some.injEq]
  refine Option.ext fun v => ?_
  rw [hmem v, hmem' v, hp.mem_iff]

end Find

section Insert

variable {hash : K → Nat} {t : Table K V} {k : K} {v : V}

theorem emptyAt_iff {i : Nat} : t.emptyAt i = true ↔ i < t.entries.length ∧ keyAt t.entries i = none := by
  rw [emptyAt]
  by_cases hi : i < t.entries.length
  · simp [keyAt, TabEnt.isEmpty, hi]
  · simp [hi]

theorem pair_of_keyAt {es : List (TabEnt K V)} {i : Nat} (h : i < es.length)
    (hk : keyAt es i = none) : es[i].pair = none := by
  rw [keyAt_of_get (List.getElem?_eq_getElem h)] at hk
  simp [TabEnt.pair, hk]

/-- A table whose slots are not all in use has an empty slot for `emptyent`. -/
theorem emptyEnt_run (h : t.Inv hash) (hroom : t.count < t.size) (e : Nat) :
    ∃ n, t.emptyEnt e = some n ∧ n < t.entries.length ∧ keyAt t.entries n = none := by
  have hex : ∃ i, t.emptyAt i = true := by
    by_contra hall
    have hfull : ∀ x ∈ t.entries, ∃ p, x.pair = some p := by
      intro x hx
      obtain ⟨i, hi⟩ := List.mem_iff_getElem?.mp hx
      cases hxk : x.key with
      | some k => exact ⟨(k, x.val), by simp [TabEnt.pair, hxk]⟩
      | none =>
        refine absurd ⟨i, emptyAt_iff.mpr ⟨?_, by rw [keyAt_of_get hi, hxk]⟩⟩ hall
        exact (List.getElem?_eq_some_iff.mp hi).1
    have : t.pairs.length = t.entries.length := by
      rw [pairs, List.length_filterMap_eq_countP, List.countP_eq_length]
      intro x hx
      obtain ⟨p, hp⟩ := hfull x hx
      simp [hp]
    rw [← h.count_eq, h.length_eq] at this
    omega
  obtain ⟨i, hi⟩ := hex
  have hsome : (t.emptyEnt e).isSome := by
    rw [emptyEnt, List.find?_isSome]
    refine ⟨i, List.mem_append_right _ (List.mem_range.mpr ?_), hi⟩
    rw [← h.length_eq]
    exact (emptyAt_iff.mp hi).1
  obtain ⟨n, hn⟩ := Option.isSome_iff_exists.mp hsome
  exact ⟨n, hn, emptyAt_iff.mp (List.find?_some hn)⟩

theorem findPrev_run {es : List (TabEnt K V)} (l₁ l₂ : List Nat) {c target i n : Nat}
    (hl : LinkedPath (nextAt es) (some i) (l₁ ++ c :: target :: l₂) none)
    (hn : l₁.length < n) : findPrev es target n i = some c := by
  have hnd := hl.nodup
  induction l₁ generalizing i n with
  | nil =>
    obtain ⟨hc, ht, -⟩ := hl
    obtain rfl := Option.some.inj hc
    obtain ⟨n, rfl⟩ : ∃ m, n = m + 1 := ⟨n - 1, by omega⟩
    obtain ⟨e, he, hnext⟩ := Option.bind_eq_some_iff.mp ht
    simp [findPrev, he, hnext]
  | cons j l₁ ih =>
    obtain ⟨hj, hl⟩ := hl
    obtain rfl := Option.some.inj hj
    obtain ⟨n, rfl⟩ : ∃ m, n = m + 1 := ⟨n - 1, by omega⟩
    obtain ⟨j, l₃, hl₃⟩ : ∃ j l₃, l₁ ++ c :: target :: l₂ = j :: l₃ := by
      cases l₁ <;> simp
    have hl : LinkedPath (nextAt es) (nextAt es i) (l₁ ++ c :: target :: l₂) none := hl
    have hnext : nextAt es i = some j := by
      rw [hl₃] at hl
      exact hl.1
    have hjt : j ≠ target := by
      rintro rfl
      have hnd' : (l₁ ++ c :: j :: l₂).Nodup := (List.nodup_cons.mp hnd).2
      cases l₁ with
      | nil =>
        simp only [List.nil_append, List.cons.injEq] at hl₃
        simp [hl₃.1] at hnd'
      | cons a l₁ =>
        simp only [List.cons_append, List.cons.injEq] at hl₃
        simp [hl₃.1] at hnd'
    obtain ⟨e, he, hen⟩ := Option.bind_eq_some_iff.mp hnext
    rw [hnext] at hl
    simp only [findPrev, he, hen, Option.bind_eq_bind, Option.bind_some, if_neg hjt]
    exact ih hl (by simpa using hn) (List.nodup_cons.mp hnd).2

/-- One new pair keeps the counts and the keys right. -/
theorem Inv.add (h : t.Inv hash) (hk : k ∉ t.keys) {es : List (TabEnt K V)}
    (hlen : es.length = t.entries.length) (hc : Chained (fun k => t.getEntry (hash k)) es)
    (hp : (es.filterMap TabEnt.pair).Perm ((k, v) :: t.pairs)) :
    Inv hash { t with count := t.count + 1, entries := es } := by
  refine h.of_entries hlen hc ?_ ?_
  · rw [hp.length_eq, List.length_cons, h.count_eq]
  · rw [(hp.map Prod.fst).nodup_iff, List.map_cons]
    exact List.nodup_cons.mpr ⟨hk, h.nodup⟩

/-- The first case of `insert`. -/
theorem insert_put (h : t.Inv hash) (hk : k ∉ t.keys) {e : TabEnt K V}
    (he : t.entries[t.getEntry (hash k)]? = some e) (hek : e.key = none) (v : V) :
    ∃ t', insert hash t k v (hash k) = some t' ∧ t'.Inv hash ∧
      t'.pairs.Perm ((k, v) :: t.pairs) ∧ t'.sizeLg2 = t.sizeLg2 ∧ t'.count = t.count + 1 := by
  have hlt := (List.getElem?_eq_some_iff.mp he).1
  have hkey : keyAt t.entries (t.getEntry (hash k)) = none := by rw [keyAt_of_get he, hek]
  have hp := filterMap_set_perm TabEnt.pair ⟨some k, v, none⟩ he
  have hepair : e.pair = none := by simp [TabEnt.pair, hek]
  rw [hepair] at hp
  exact ⟨_, by simp [insert, he, hek], h.add hk (List.length_set ..)
    (h.chained.put hlt hkey rfl rfl rfl) hp, hp, rfl, rfl⟩

/-- The second case of `insert`: the collider is at home. The new entry goes into `n`, then `next` of
the head changes. -/
theorem insert_link (h : t.Inv hash) (hk : k ∉ t.keys) {e : TabEnt K V} {k₀ : K} {n : Nat}
    (he : t.entries[t.getEntry (hash k)]? = some e) (hek : e.key = some k₀)
    (hmain : t.getEntry (hash k₀) = t.getEntry (hash k))
    (hn : t.emptyEnt (t.getEntry (hash k)) = some n) (hnl : n < t.entries.length)
    (hnk : keyAt t.entries n = none) (v : V) :
    ∃ t', insert hash t k v (hash k) = some t' ∧ t'.Inv hash ∧
      t'.pairs.Perm ((k, v) :: t.pairs) ∧ t'.sizeLg2 = t.sizeLg2 ∧ t'.count = t.count + 1 := by
  have hpn : n ≠ t.getEntry (hash k) := by
    rintro rfl
    rw [keyAt_of_get he, hek] at hnk
    cases hnk
  have hp₁ := filterMap_set_perm TabEnt.pair ⟨some k, v, e.next⟩ (List.getElem?_eq_getElem hnl)
  rw [pair_of_keyAt hnl hnk] at hp₁
  have hget : (t.entries.set n ⟨some k, v, e.next⟩)[t.getEntry (hash k)]? = some e := by
    rw [List.getElem?_set_ne hpn, he]
  have hp₂ := filterMap_set_perm TabEnt.pair { e with next := some n } hget
  have hp := ((List.perm_append_left_iff e.pair.toList).mp hp₂).trans hp₁
  have hc := h.chained.link (x := ⟨some k, v, e.next⟩) he hek hmain hnl hnk rfl rfl rfl
  exact ⟨_, by simp [insert, he, hek, hn, hmain], h.add hk (by simp) hc hp, hp, rfl, rfl⟩

/-- The third case of `insert`: the collider is a node of another chain. It moves to `n`, and its
predecessor is relinked. -/
theorem insert_evict (h : t.Inv hash) (hk : k ∉ t.keys) {e : TabEnt K V} {k₀ : K} {n : Nat}
    (he : t.entries[t.getEntry (hash k)]? = some e) (hek : e.key = some k₀)
    (hmain : t.getEntry (hash k₀) ≠ t.getEntry (hash k))
    (hn : t.emptyEnt (t.getEntry (hash k)) = some n) (hnl : n < t.entries.length)
    (hnk : keyAt t.entries n = none) (v : V) :
    ∃ t', insert hash t k v (hash k) = some t' ∧ t'.Inv hash ∧
      t'.pairs.Perm ((k, v) :: t.pairs) ∧ t'.sizeLg2 = t.sizeLg2 ∧ t'.count = t.count + 1 := by
  have hlt := (List.getElem?_eq_some_iff.mp he).1
  obtain ⟨l, hl, hmem⟩ := h.chained _ k₀ (by rw [keyAt_of_get he, hek])
  obtain ⟨l₁, c, l₂, rfl, -⟩ := hl.1.exists_prev hmem (Ne.symm hmain)
  obtain ⟨kc, hkc, -⟩ := hl.2 c (by simp)
  obtain ⟨ec, hec, -⟩ := get_of_keyAt hkc
  have hnc : n ∉ l₁ ++ c :: t.getEntry (hash k) :: l₂ := hl.not_mem_of_empty hnk
  have hpn : n ≠ t.getEntry (hash k) := by
    rintro rfl
    simp at hnc
  have hcn : n ≠ c := by
    rintro rfl
    simp at hnc
  have hcp : c ≠ t.getEntry (hash k) := by
    have := hl.1.nodup
    simp only [List.nodup_append, List.nodup_cons, List.mem_cons, not_or] at this
    exact this.2.1.1.1
  have hprev : findPrev (t.entries.set n e) (t.getEntry (hash k)) t.size
      (t.getEntry (hash k₀)) = some c := by
    refine findPrev_run l₁ l₂ (hl.1.congr fun i hi => nextAt_congr ?_) ?_
    · rw [List.getElem?_set_ne]
      rintro rfl
      exact hnc hi
    · have hlen := hl.length_le
      rw [h.length_eq] at hlen
      simp only [List.length_append, List.length_cons] at hlen
      omega
  have hec' : (t.entries.set n e)[c]? = some ec := by rw [List.getElem?_set_ne hcn, hec]
  have hp₁ := filterMap_set_perm TabEnt.pair e (List.getElem?_eq_getElem hnl)
  rw [pair_of_keyAt hnl hnk] at hp₁
  have hp₂ := filterMap_set_perm TabEnt.pair { ec with next := some n } hec'
  have hget : ((t.entries.set n e).set c { ec with next := some n })[t.getEntry (hash k)]? =
      some e := by
    rw [List.getElem?_set_ne hcp, List.getElem?_set_ne hpn, he]
  have hp₃ := filterMap_set_perm TabEnt.pair ⟨some k, v, none⟩ hget
  have hp : ((((t.entries.set n e).set c { ec with next := some n }).set (t.getEntry (hash k))
      ⟨some k, v, none⟩).filterMap TabEnt.pair).Perm ((k, v) :: t.pairs) := by
    rw [← List.perm_append_left_iff e.pair.toList]
    refine hp₃.trans ?_
    refine (((List.perm_append_left_iff ec.pair.toList).mp hp₂).trans hp₁).cons (k, v) |>.trans ?_
    exact List.perm_middle.symm
  refine ⟨_, by simp [insert, he, hek, hn, hmain, hprev, hec'], h.add hk (by simp) ?_ hp, hp, rfl,
    rfl⟩
  have hmove := h.chained.move (x := ⟨none, v, none⟩) he hek hl hec hnl hnk rfl
  have hput := hmove.put (p := t.getEntry (hash k)) (x := ⟨some k, v, none⟩)
    (by simpa using hlt) (by rw [keyAt_set_self (by simpa using hlt)]) rfl rfl rfl
  rwa [List.set_set] at hput

/-- **`insert` adds one pair.** Its three cases keep every chain rooted at the main position of its
members. -/
theorem insert_spec (h : t.Inv hash) (h0 : t.sizeLg2 ≠ 0) (hroom : t.count < t.size)
    (hk : k ∉ t.keys) (v : V) :
    ∃ t', insert hash t k v (hash k) = some t' ∧ t'.Inv hash ∧
      t'.pairs.Perm ((k, v) :: t.pairs) ∧ t'.sizeLg2 = t.sizeLg2 ∧ t'.count = t.count + 1 := by
  obtain ⟨e, he⟩ := h.get_main h0 k
  cases hek : e.key with
  | none => exact insert_put h hk he hek v
  | some k₀ =>
    obtain ⟨n, hn, hnl, hnk⟩ := emptyEnt_run h hroom (t.getEntry (hash k))
    by_cases hmain : t.getEntry (hash k₀) = t.getEntry (hash k)
    · exact insert_link h hk he hek hmain hn hnl hnk v
    · exact insert_evict h hk he hek hmain hn hnl hnk v

/-- Entering a list of pairs with distinct keys into a table with room for them. -/
theorem insertAll_run (ps : List (K × V)) (h : t.Inv hash) (h0 : t.sizeLg2 ≠ 0)
    (hd : (t.keys ++ ps.map Prod.fst).Nodup) (hroom : t.count + ps.length ≤ t.size) :
    ∃ t', ps.foldlM (fun t p => insert hash t p.1 p.2 (hash p.1)) t = some t' ∧ t'.Inv hash ∧
      t'.pairs.Perm (t.pairs ++ ps) ∧ t'.sizeLg2 = t.sizeLg2 := by
  induction ps generalizing t with
  | nil => exact ⟨t, rfl, h, by simp, rfl⟩
  | cons p ps ih =>
    obtain ⟨k, v⟩ := p
    rw [List.length_cons] at hroom
    have hk : k ∉ t.keys := by
      intro hk
      rw [List.nodup_append] at hd
      exact hd.2.2 k hk k List.mem_cons_self rfl
    obtain ⟨t₁, hrun, hinv, hp, hs, hc⟩ := insert_spec h h0 (by omega) hk v
    have hkeys : t₁.keys.Perm (k :: t.keys) := hp.map Prod.fst
    have hsize : t₁.size = t.size := by rw [size, hs, size]
    have hd₁ : (t₁.keys ++ ps.map Prod.fst).Nodup :=
      (hkeys.append_right _).nodup_iff.mpr (List.perm_middle.nodup_iff.mp hd)
    obtain ⟨t', hrun', hinv', hp', hs'⟩ := ih hinv (by rw [hs]; exact h0) hd₁ (by omega)
    refine ⟨t', by rw [List.foldlM_cons, hrun]; exact hrun', hinv', ?_, by rw [hs', hs]⟩
    exact hp'.trans ((hp.append_right ps).trans List.perm_middle.symm)

end Insert

section SetVal

variable {hash : K → Nat} {t : Table K V} {k : K}

/-- Overwriting the value of an entry replaces one pair. -/
theorem setVal_run (h : t.Inv hash) {i : Nat} {e : TabEnt K V} (he : t.entries[i]? = some e)
    (hek : e.key = some k) (v : V) :
    Inv hash { t with entries := t.entries.set i { e with val := v } } ∧
      ∃ r, t.pairs.Perm ((k, e.val) :: r) ∧
        (pairs { t with entries := t.entries.set i { e with val := v } }).Perm ((k, v) :: r) := by
  have hp : ((k, e.val) :: (t.entries.set i { e with val := v }).filterMap TabEnt.pair).Perm
      ((k, v) :: t.pairs) := by
    have := filterMap_set_perm TabEnt.pair { e with val := v } he
    simpa [TabEnt.pair, hek, pairs] using this
  have hmem : (k, e.val) ∈ t.pairs := mem_pairs.mpr ⟨i, e, he, hek, rfl⟩
  obtain ⟨l₁, l₂, hsplit⟩ := List.append_of_mem hmem
  have hr : t.pairs.Perm ((k, e.val) :: (l₁ ++ l₂)) := by
    rw [hsplit]
    exact List.perm_middle
  have hnew : ((t.entries.set i { e with val := v }).filterMap TabEnt.pair).Perm
      ((k, v) :: (l₁ ++ l₂)) := by
    refine (List.perm_cons (k, e.val)).mp (hp.trans ((hr.cons (k, v)).trans ?_))
    exact List.Perm.swap _ _ _
  have hkeys : (((t.entries.set i { e with val := v }).filterMap TabEnt.pair).map Prod.fst).Perm
      t.keys := (hnew.map Prod.fst).trans (hr.map Prod.fst).symm
  refine ⟨h.of_entries (List.length_set ..) (h.chained.set_val he rfl rfl) ?_ ?_, _, hr, hnew⟩
  · rw [h.count_eq, hr.length_eq, hnew.length_eq, List.length_cons, List.length_cons]
  · exact hkeys.nodup_iff.mpr h.nodup

end SetVal

section Remove

variable [DecidableEq K] {hash : K → Nat} {t : Table K V} {k : K} {v : V}

/-- The walk of `rm` stops before the first node that holds the key, or at the last node. -/
theorem rmLoop_run {r : List Nat} {i n : Nat}
    (hl : LinkedPath (nextAt t.entries) (some i) (i :: r) none)
    (hu : ∀ j ∈ i :: r, ∃ k', keyAt t.entries j = some k') (hn : r.length < n) :
    ∃ l₁ c l₂, i :: r = l₁ ++ c :: l₂ ∧ t.rmLoop k n i = some c ∧
      ((l₂ = [] ∧ ∀ j ∈ r, keyAt t.entries j ≠ some k) ∨
        ∃ m l₃, l₂ = m :: l₃ ∧ keyAt t.entries m = some k) := by
  induction r generalizing i n with
  | nil =>
    obtain ⟨ki, hki⟩ := hu i List.mem_cons_self
    obtain ⟨e, he, -⟩ := get_of_keyAt hki
    obtain ⟨n, rfl⟩ : ∃ m, n = m + 1 := ⟨n - 1, by omega⟩
    have hnext : e.next = none := by
      have := hl.2
      rwa [nextAt_of_get he] at this
    exact ⟨[], i, [], rfl, by simp [rmLoop, he, hnext], .inl ⟨rfl, by simp⟩⟩
  | cons j r ih =>
    obtain ⟨-, hl⟩ := hl
    obtain ⟨ki, hki⟩ := hu i List.mem_cons_self
    obtain ⟨e, he, -⟩ := get_of_keyAt hki
    obtain ⟨kj, hkj⟩ := hu j (by simp)
    obtain ⟨ne, hne, hnek⟩ := get_of_keyAt hkj
    obtain ⟨n, rfl⟩ : ∃ m, n = m + 1 := ⟨n - 1, by simp at hn; omega⟩
    have hnext : e.next = some j := by rw [← nextAt_of_get he, hl.1]
    rw [hl.1] at hl
    simp only [rmLoop, he, hnext, hne, hnek, Option.bind_eq_bind, Option.bind_some]
    by_cases hkk : kj = k
    · rw [if_pos hkk]
      exact ⟨[], i, j :: r, rfl, rfl, .inr ⟨j, r, rfl, by rw [hkj, hkk]⟩⟩
    · rw [if_neg hkk]
      obtain ⟨l₁, c, l₂, hsplit, hrun, hc⟩ := ih hl (fun a ha => hu a (List.mem_cons_of_mem _ ha))
        (by simpa using hn)
      refine ⟨i :: l₁, c, l₂, by rw [hsplit, List.cons_append], hrun, ?_⟩
      refine hc.imp_left fun ⟨h₂, hr⟩ => ⟨h₂, fun a ha => ?_⟩
      obtain rfl | ha := List.mem_cons.mp ha
      · rw [hkj]
        simpa using hkk
      · exact hr a ha

omit [DecidableEq K] in
/-- One pair less keeps the counts and the keys right. -/
theorem Inv.sub (h : t.Inv hash) {es : List (TabEnt K V)}
    (hlen : es.length = t.entries.length) (hc : Chained (fun k => t.getEntry (hash k)) es)
    (hp : t.pairs.Perm ((k, v) :: es.filterMap TabEnt.pair)) :
    Inv hash { t with count := t.count - 1, entries := es } := by
  refine h.of_entries hlen hc ?_ ?_
  · rw [h.count_eq, hp.length_eq, List.length_cons, Nat.add_sub_cancel]
  · have := h.nodup
    rw [keys, (hp.map Prod.fst).nodup_iff, List.map_cons] at this
    exact (List.nodup_cons.mp this).2

/-- `rm` of the key at the head of its chain. -/
theorem rm_head (h : t.Inv hash) {e : TabEnt K V}
    (he : t.entries[t.getEntry (hash k)]? = some e) (hek : e.key = some k) :
    ∃ v t', t.rm k (hash k) = some (some v, t') ∧ t'.Inv hash ∧
      t.pairs.Perm ((k, v) :: t'.pairs) ∧ t'.sizeLg2 = t.sizeLg2 := by
  have hepair : e.pair = some (k, e.val) := by simp [TabEnt.pair, hek]
  cases hen : e.next with
  | none =>
    have hp := filterMap_set_perm TabEnt.pair { e with key := none } he
    rw [hepair] at hp
    exact ⟨e.val, _, by simp [rm, he, hek, hen], h.sub (by simp)
      (h.chained.unlink_single he hek rfl hen rfl) hp.symm, hp.symm, rfl⟩
  | some m =>
    obtain ⟨r, hr, -, hu⟩ := h.walk (k := k) (by rw [keyAt_of_get he, hek])
    have hm : m ∈ r := by
      have hpath := hr.2
      rw [nextAt_of_get he, hen] at hpath
      exact hpath.start_mem (by rintro rfl; cases hpath)
    obtain ⟨km, hkm⟩ := hu m (List.mem_cons_of_mem _ hm)
    obtain ⟨me, hme, -⟩ := get_of_keyAt hkm
    have hne : t.getEntry (hash k) ≠ m := by
      rintro rfl
      exact (List.nodup_cons.mp hr.nodup).1 hm
    have hp₁ := filterMap_set_perm TabEnt.pair me he
    rw [hepair] at hp₁
    have hget : (t.entries.set (t.getEntry (hash k)) me)[m]? = some me := by
      rw [List.getElem?_set_ne hne, hme]
    have hp₂ := filterMap_set_perm TabEnt.pair { me with key := none } hget
    have hp : t.pairs.Perm ((k, e.val) :: List.filterMap TabEnt.pair
        ((t.entries.set (t.getEntry (hash k)) me).set m { me with key := none })) := by
      rw [← List.perm_append_left_iff me.pair.toList]
      refine hp₁.symm.trans ((hp₂.symm.cons (k, e.val)).trans ?_)
      exact List.perm_middle.symm
    exact ⟨e.val, _, by simp [rm, he, hek, hen, hme], h.sub (by simp)
      (h.chained.unlink_head he hek rfl hen hme) hp, hp, rfl⟩

/-- `rm` when another key is at the main position. -/
theorem rm_rest (h : t.Inv hash) {e : TabEnt K V} {k₀ : K}
    (he : t.entries[t.getEntry (hash k)]? = some e) (hek : e.key = some k₀) (hkk : k₀ ≠ k) :
    (t.rm k (hash k) = some (none, t) ∧ k ∉ t.keys) ∨
      ∃ v t', t.rm k (hash k) = some (some v, t') ∧ t'.Inv hash ∧
        t.pairs.Perm ((k, v) :: t'.pairs) ∧ t'.sizeLg2 = t.sizeLg2 := by
  obtain ⟨r, hr, hlen, hu⟩ := h.walk (k := k₀) (by rw [keyAt_of_get he, hek])
  obtain ⟨l₁, c, l₂, hsplit, hrun, hcase⟩ := rmLoop_run (k := k) hr hu hlen
  obtain ⟨kc, hkc⟩ := hu c (by rw [hsplit]; simp)
  obtain ⟨ec, hec, -⟩ := get_of_keyAt hkc
  have hpath := hr
  rw [hsplit] at hpath
  obtain ⟨y, -, rfl, hrest⟩ := LinkedPath.append_iff.mp hpath
  rw [nextAt_of_get hec] at hrest
  obtain ⟨rfl, hnone⟩ | ⟨m, l₃, rfl, hkm⟩ := hcase
  · refine .inl ⟨by simp [rm, he, hek, hkk, hrun, hec, LinkedPath.nil_iff.mp hrest], fun hk => ?_⟩
    obtain ⟨i, hi⟩ := mem_keys.mp hk
    obtain rfl | hi' := List.mem_cons.mp (h.mem_walk hr hi).2
    · rw [keyAt_of_get he, hek] at hi
      exact hkk (Option.some.inj hi)
    · exact hnone i hi' hi
  · refine .inr ?_
    obtain ⟨me, hme, hmk⟩ := get_of_keyAt hkm
    obtain ⟨hchain, -⟩ := h.mem_walk hpath hkm
    have hcm : m ≠ c := by
      have := hpath.nodup
      simp only [List.nodup_append, List.nodup_cons, List.mem_cons, not_or] at this
      exact Ne.symm this.2.1.1.1
    have hp₁ := filterMap_set_perm TabEnt.pair { me with key := none } hme
    have hmpair : me.pair = some (k, me.val) := by simp [TabEnt.pair, hmk]
    rw [hmpair] at hp₁
    have hget : (t.entries.set m { me with key := none })[c]? = some ec := by
      rw [List.getElem?_set_ne hcm, hec]
    have hp₂ := filterMap_set_perm TabEnt.pair { ec with next := me.next } hget
    have hp : t.pairs.Perm ((k, me.val) :: List.filterMap TabEnt.pair
        ((t.entries.set m { me with key := none }).set c { ec with next := me.next })) :=
      hp₁.symm.trans (((List.perm_append_left_iff ec.pair.toList).mp hp₂).symm.cons _)
    exact ⟨me.val, _, by simp [rm, he, hek, hkk, hrun, hec, hrest.1, hme], h.sub (by simp)
      (h.chained.unlink_next hchain hec hme) hp, hp, rfl⟩

/-- **`rm` takes out one pair, or finds that the key is not there.** It needs a table with slots. -/
theorem rm_spec (h : t.Inv hash) (h0 : t.sizeLg2 ≠ 0) (k : K) :
    (t.rm k (hash k) = some (none, t) ∧ k ∉ t.keys) ∨
      ∃ v t', t.rm k (hash k) = some (some v, t') ∧ t'.Inv hash ∧
        t.pairs.Perm ((k, v) :: t'.pairs) ∧ t'.sizeLg2 = t.sizeLg2 := by
  obtain ⟨e, he⟩ := h.get_main h0 k
  cases hek : e.key with
  | none =>
    refine .inl ⟨by simp [rm, he, hek], fun hk => ?_⟩
    obtain ⟨k', hk'⟩ := h.head_used hk
    rw [keyAt_of_get he, hek] at hk'
    cases hk'
  | some k₀ =>
    by_cases hkk : k₀ = k
    · exact .inr (rm_head h he (by rw [hek, hkk]))
    · exact rm_rest h he hek hkk

end Remove

section Iterate

variable {hash : K → Nat} {t : Table K V}

/-- `next` from before slot `n`: either no used slot is left, or the first pair of the rest is in the
slot it returns. -/
theorem next_spec (hlen : t.entries.length = t.size) (n : Nat) :
    (t.next ((n : Int) - 1) = none ∧ (t.entries.drop n).filterMap TabEnt.pair = []) ∨
      ∃ j p, t.next ((n : Int) - 1) = some j ∧ n ≤ j ∧ j < t.size ∧ t.pairAt j = some p ∧
        (t.entries.drop n).filterMap TabEnt.pair =
          p :: (t.entries.drop (j + 1)).filterMap TabEnt.pair := by
  have hnat : ∀ m : Nat, ((m : Int) - 1 + 1).toNat = m := fun m => by omega
  induction hd : t.size - n generalizing n with
  | zero =>
    refine .inl ⟨by simp [next, hd], ?_⟩
    rw [List.drop_eq_nil_of_le (by omega), List.filterMap_nil]
  | succ d ih =>
    have hn : n < t.entries.length := by omega
    have he := List.getElem?_eq_getElem hn
    have hdrop := List.drop_eq_getElem_cons hn
    generalize t.entries[n] = e at he hdrop
    have hrange : List.range' n (d + 1) = n :: List.range' (n + 1) d := List.range'_succ
    cases hk : e.key with
    | none =>
      have hnext : t.next ((n : Int) - 1) = t.next (((n + 1 : Nat) : Int) - 1) := by
        have hused : t.usedAt n = false := by simp [usedAt, he, TabEnt.isEmpty, hk]
        simp only [next, hnat, hd, hrange, List.find?_cons, hused]
        rw [show t.size - (n + 1) = d by omega]
      have hrest : (t.entries.drop n).filterMap TabEnt.pair =
          (t.entries.drop (n + 1)).filterMap TabEnt.pair := by
        simp [hdrop, TabEnt.pair, hk]
      rw [hnext, hrest]
      refine (ih (n + 1) (by omega)).imp_right ?_
      rintro ⟨j, p, hj, hle, hlt, hp, hrest⟩
      exact ⟨j, p, hj, by omega, hlt, hp, hrest⟩
    | some k =>
      refine .inr ⟨n, (k, e.val), ?_, Nat.le_refl n, by omega, by simp [pairAt, he, hk], ?_⟩
      · simp [next, hd, hrange, usedAt, he, TabEnt.isEmpty, hk]
      · simp [hdrop, TabEnt.pair, hk]

theorem forEach_drop {σ : Type} (hlen : t.entries.length = t.size) (body : σ → K × V → Option σ)
    (m n : Nat) (s : σ) (hn : n ≤ t.size) (hm : t.size < m + n) :
    t.forEach body m ((n : Int) - 1) s =
      ((t.entries.drop n).filterMap TabEnt.pair).foldlM body s := by
  induction m generalizing n s with
  | zero => omega
  | succ m ih =>
    rw [forEach]
    obtain ⟨hnext, hrest⟩ | ⟨j, p, hnext, hle, hlt, hp, hrest⟩ := next_spec hlen n
    · rw [hnext, hrest]
      rfl
    · simp only [hnext, hp, hrest, List.foldlM_cons, Option.bind_eq_bind, Option.bind_some]
      congr 1
      funext s'
      have := ih (j + 1) s' (by omega) (by omega)
      rwa [show ((j + 1 : Nat) : Int) - 1 = j by omega] at this

/-- **A loop over the used slots is a loop over the pairs.** -/
theorem forEach_spec {σ : Type} (hlen : t.entries.length = t.size) (body : σ → K × V → Option σ)
    (s : σ) : t.forEach body (t.size + 1) (-1) s = t.pairs.foldlM body s :=
  forEach_drop hlen body (t.size + 1) 0 s (by omega) (by omega)

end Iterate

section Init

variable [Inhabited V] {hash : K → Nat} {s : Nat}

@[simp] theorem empty_pairs : (empty s : Table K V).pairs = [] := by
  simp [empty, pairs, TabEnt.pair]

theorem empty_inv (hs : s ≤ 30) : (empty s : Table K V).Inv hash where
  lg2_le := hs
  length_eq := List.length_replicate
  mask_eq := rfl
  max_eq := rfl
  chained := by
    intro i k hk
    obtain ⟨e, he, hek⟩ := get_of_keyAt hk
    obtain ⟨-, rfl⟩ := List.mem_replicate.mp (List.mem_of_getElem? he)
    cases hek
  count_eq := by rw [empty_pairs]; rfl
  nodup := by rw [keys, empty_pairs]; exact List.nodup_nil

/-- `init` gives an empty table or fails to allocate one. -/
theorem init_spec (hs : s < 32) (a : Alloc) :
    (∃ a', (init s a : Option (Option (Table K V) × Alloc)) = some (none, a') ∧
      a'.failed = true) ∨
      s ≤ 30 ∧ ∃ a', (init s a : Option (Option (Table K V) × Alloc)) = some (some (empty s), a') ∧
        a'.failed = a.failed := by
  rw [init, if_neg (by omega)]
  by_cases h31 : s = 31
  · subst h31
    refine .inl ⟨_, by simp [tableSize, tabentBytes, Alloc.malloc]; rfl, rfl⟩
  · have hs : s ≤ 30 := by omega
    by_cases hb : 0 < tableSize s * tabentBytes % 2 ^ 64
    · simp only [if_pos hb, Alloc.malloc]
      by_cases hg : tableSize s * tabentBytes % 2 ^ 64 < 2 ^ 63 ∧ a.grants a.calls
      · rw [if_pos hg]
        exact .inr ⟨hs, _, rfl, rfl⟩
      · rw [if_neg hg]
        exact .inl ⟨_, rfl, rfl⟩
    · rw [if_neg hb]
      exact .inr ⟨hs, a, rfl, rfl⟩

/-- An arena that grants every request has memory for every table of a possible size. -/
theorem init_granted (hs : s ≤ 30) {a : Alloc} (hg : ∀ n, a.grants n = true) :
    ∃ a', (init s a : Option (Option (Table K V) × Alloc)) = some (some (empty s), a') ∧
      a'.grants = a.grants ∧ a'.failed = a.failed := by
  rw [init, if_neg (by omega)]
  by_cases hb : 0 < tableSize s * tabentBytes % 2 ^ 64
  · have hsize : tableSize s ≤ 2 ^ 30 := by
      rw [tableSize]
      split
      · omega
      · rw [if_neg (by omega)]
        exact Nat.pow_le_pow_right (by omega) hs
    have hmul : tableSize s * tabentBytes < 2 ^ 63 := by
      rw [tabentBytes]
      omega
    have hlt := Nat.lt_of_le_of_lt (Nat.mod_le (tableSize s * tabentBytes) (2 ^ 64)) hmul
    simp only [if_pos hb, Alloc.malloc]
    rw [if_pos ⟨hlt, hg _⟩]
    exact ⟨_, rfl, rfl, rfl⟩
  · rw [if_neg hb]
    exact ⟨a, rfl, rfl, rfl⟩

end Init

end Table

end Hpb
