import Hpb.Hash.IntTableRun
import Hpb.Hash.StrTableCalls

/-!
# The calls of an integer table

All calls of `hpb_inttable`, with `hpb_inttable_removeiter`, as a system that stands for a finite map. The
positions of an iterator are the array slots and then the slots of the hash part.

The last part has what holds for both kinds of table: `remove_absent` about keys that are not there, and
`removeIter_exact` about entries that are removed through an iterator.
-/

namespace Hpb

/-- The calls of an integer table. -/
inductive IntCall where
  | op (o : IntOp)
  /-- `hpb_inttable_removeiter`. -/
  | removeIter (iter : Nat)

namespace IntTable

/-- `hpb_inttable_removeiter`. -/
def removeIter (t : IntTable) (iter : Nat) : Option IntTable :=
  if iter < t.arraySize then
    if iter < t.array.length then
      some { t with arrayCount := t.arrayCount - 1, array := t.array.set iter tabvalEmpty }
    else none
  else do
    let tab ← t.t.removeIter (iter - t.arraySize)
    return { t with t := tab }

/-- The key and the value at the position of an iterator. -/
def pairAt (t : IntTable) (iter : Nat) : Option (Nat × UInt64) :=
  if iter < t.arraySize then do
    let v ← t.array[iter]?
    if arrHas v then some (iter, v) else none
  else t.t.pairAt (iter - t.arraySize)

/-- One call. -/
def call (s : IntTable × Alloc) : IntCall → Option (IntEvent × IntTable × Alloc)
  | .op o =>
    match step s.1 s.2 o with
    | (none, _) => none
    | (some (ev, t), a) => some (ev, t, a)
  | .removeIter i => do
    let t ← s.1.removeIter i
    return (.done, t, s.2)

/-- The calls that a client may make and that do what they should: absent keys are inserted, no value is the
sentinel, a key of the hash part is removed only if that has slots, the table is compacted only if it can be laid
out, and an entry is removed through an iterator only if it can be unlinked. -/
def Callable (t : IntTable) : IntCall → Prop
  | .op (.insert k v) => k ∉ t.pairs.map Prod.fst ∧ k < 2 ^ 64 ∧ arrHas v
  | .op (.replace _ v) => arrHas v
  | .op (.remove k) => k < t.arraySize ∨ t.t.sizeLg2 ≠ 0
  | .op .compact => t.count < 6554 ∨ (∀ p ∈ t.pairs, p.1 < 2 ^ 61 - 1) ∨ 2 ^ 64 - 1 ∈ t.pairs.map Prod.fst
  | .op _ => True
  | .removeIter i => (t.pairAt i).isSome ∧ (i < t.arraySize ∨ t.t.Unlinks (i - t.arraySize))

/-- The finite map after a call. -/
def callNext (t : IntTable) (m : Finmap fun _ : Nat => UInt64) : IntCall → Finmap fun _ : Nat => UInt64
  | .op o => o.next m
  | .removeIter i => ((t.pairAt i).map fun p => m.erase p.1).getD m

/-- What a finite map answers. -/
def CallAnswers (m : Finmap fun _ : Nat => UInt64) : IntCall → IntEvent → Prop
  | .op o, ev => o.Answers m ev
  | .removeIter _, ev => ev = .done

/-- The integer table as a system. -/
def calls : CallSystem (IntTable × Alloc) (Finmap fun _ : Nat => UInt64) IntCall IntEvent where
  step := call
  Allowed s := Callable s.1
  GivesUp s c := match c with
    | .op o => (step s.1 s.2 o).2.failed = true
    | .removeIter _ => False
  next s := callNext s.1
  Answers _ := CallAnswers

/-- A table that was just initialised. -/
def Fresh (s : IntTable × Alloc) : Prop := ∃ a, init a = (some s.1, s.2)

section Contents

variable {t t' : IntTable} {m : Finmap fun _ : Nat => UInt64} {k : Nat} {v : UInt64} {i : Nat}

theorem le_of_mem_arrayPairs {l : List UInt64} {n : Nat} {p : Nat × UInt64} (h : p ∈ arrayPairs l n) : n ≤ p.1 :=
  (mem_arrayPairs.mp h).1

theorem arrayPairs_nodup (l : List UInt64) (n : Nat) : ((arrayPairs l n).map Prod.fst).Nodup := by
  induction l generalizing n with
  | nil => exact List.nodup_nil
  | cons v l ih =>
    rw [arrayPairs]
    split
    · refine List.nodup_cons.mpr ⟨fun hmem => ?_, ih (n + 1)⟩
      obtain ⟨p, hp, hpn⟩ := List.mem_map.mp hmem
      have := le_of_mem_arrayPairs hp
      simp only at hpn
      omega
    · exact ih (n + 1)

theorem Inv.nodup_pairs (h : t.Inv) : (t.pairs.map Prod.fst).Nodup := by
  rw [pairs, List.map_append]
  refine List.nodup_append.mpr ⟨arrayPairs_nodup _ _, h.table.nodup, fun k hk k' hk' => ?_⟩
  obtain ⟨p, hp, rfl⟩ := List.mem_map.mp hk
  have hlt := (List.getElem?_eq_some_iff.mp (mem_arrayPairs.mp hp).2.1).1
  have hge := h.high k' hk'
  rw [h.array_len] at hlt
  omega

/-- A table with some of the pairs of another one holds a finite map too. -/
theorem Stands.exists_of_subset (h : t.Stands m) (hinv : t'.Inv) (hsub : t'.pairs ⊆ t.pairs) :
    ∃ m', t'.Stands m' := by
  obtain ⟨m', hm'⟩ := Listing.exists_of_nodup hinv.nodup_pairs
  refine ⟨m', hinv, hm', fun k v hv => ?_, fun k hk => ?_⟩
  · exact h.values k v ((h.listing.mem_iff k v).mp (hsub ((hm'.mem_iff k v).mpr hv)))
  · exact h.words k (h.listing.mem_keys.mp (List.map_subset _ hsub (hm'.mem_keys.mpr hk)))

theorem Stands.mem_keys (h : t.Stands m) : k ∈ t.pairs.map Prod.fst ↔ k ∈ m := h.listing.mem_keys

/-- What `Callable` says about `compact`, in terms of the map. -/
theorem Stands.compactable (h : t.Stands m) (hc : Callable t (.op .compact)) : Compactable m := by
  obtain hc | hc | hc := hc
  · refine .inl ?_
    rwa [← h.listing.length_eq, ← count_eq h.inv]
  · refine .inr (.inl fun k hk => ?_)
    obtain ⟨v, hv⟩ := Finmap.mem_iff.mp hk
    exact hc (k, v) ((h.listing.mem_iff k v).mpr hv)
  · exact .inr (.inr (h.mem_keys.mp hc))

/-- `hpb_inttable_remove` of a key that is not there: the hash part needs a slot to look at. -/
theorem remove_absent_iff (h : t.Stands m) (hk : k ∉ m) :
    t.remove k = some (none, t) ↔ k < t.arraySize ∨ t.t.sizeLg2 ≠ 0 := by
  by_cases hka : k < t.arraySize
  · refine iff_of_true ?_ (.inl hka)
    obtain ⟨w, hw⟩ := array_get h.inv hka
    have hlook := h.lookup_array hka hw
    rw [Finmap.lookup_eq_none.mpr hk] at hlook
    cases hwh : arrHas w with
    | false => simp [remove, hka, hw, hwh]
    | true =>
      rw [hwh] at hlook
      cases hlook
  · have hnk : k ∉ t.t.keys := fun hm => by
      obtain ⟨p, hp, rfl⟩ := List.mem_map.mp hm
      exact hk (h.mem_keys.mp (List.mem_map_of_mem (List.mem_append_right _ hp)))
    constructor
    · intro hrun
      refine .inr fun h0 => ?_
      have hlen : t.t.entries = [] := by
        rw [← List.length_eq_zero_iff, h.inv.table.length_eq, Table.size, h0]
        rfl
      rw [remove, if_neg hka, Table.rm, hlen] at hrun
      cases hrun
    · intro h0
      obtain ⟨hrun, -⟩ | ⟨v, tab, -, -, hp, -⟩ := Table.rm_spec h.inv.table (h0.resolve_left hka) k
      · simp [remove, hka, hrun]
      · refine absurd ?_ hnk
        rw [Table.keys, (hp.map Prod.fst).mem_iff]
        exact List.mem_cons_self

/-- An array slot is emptied through an iterator. -/
theorem removeIter_array (h : t.Stands m) (hi : i < t.arraySize) (hp : t.pairAt i = some (k, v)) :
    ∃ t', t.removeIter i = some t' ∧ t'.Stands (m.erase k) ∧ t'.count + 1 = t.count ∧ t'.rest i = t.rest i := by
  obtain ⟨w, hw⟩ := array_get h.inv hi
  have hlt := (List.getElem?_eq_some_iff.mp hw).1
  have hhas : arrHas w = true := by
    by_contra hno
    simp [pairAt, hi, hw, hno] at hp
  obtain ⟨rfl, rfl⟩ : i = k ∧ w = v := by simpa [pairAt, hi, hw, hhas] using hp
  have hpos : 0 < t.arrayCount := by
    rw [h.inv.array_count]
    exact List.length_pos_of_mem (mem_arrayPairs.mpr ⟨Nat.zero_le _, hw, hhas⟩)
  refine ⟨_, by simp [removeIter, hi, hlt], h.empty_slot hw hhas, ?_, ?_⟩
  · change t.t.count + (t.arrayCount - 1) + 1 = t.t.count + t.arrayCount
    omega
  · have hle : ((i : Int) + 1).toNat ≤ t.arraySize := by omega
    rw [rest, rest, if_pos hle, if_pos hle]
    dsimp only
    rw [List.drop_set_of_lt (by omega)]

/-- An entry of the hash part is taken out through an iterator. -/
theorem removeIter_hash (h : t.Stands m) (hi : ¬i < t.arraySize) (hp : t.pairAt i = some (k, v))
    (hu : t.t.Unlinks (i - t.arraySize)) :
    ∃ t', t.removeIter i = some t' ∧ t'.Stands (m.erase k) ∧ t'.count + 1 = t.count ∧ t'.rest i = t.rest i := by
  rw [pairAt, if_neg hi] at hp
  obtain ⟨e, he, hp⟩ := Option.bind_eq_some_iff.mp hp
  obtain ⟨k', hk', hp⟩ := Option.bind_eq_some_iff.mp hp
  cases hp
  obtain ⟨tab, hrun, hinv, hperm, hempty, hshape, hcount⟩ := Table.removeIter_run h.inv.table he hk' hu
  refine ⟨{ t with t := tab }, by simp [removeIter, hi, hrun], ?_, ?_, ?_⟩
  · refine h.erase (h.inv.less_hash hinv hperm hshape.sizeLg2) ?_
    exact h.listing.erase (v := e.val) ((hperm.append_left _).trans List.perm_middle)
  · change tab.count + t.arrayCount + 1 = t.t.count + t.arrayCount
    omega
  · have hgt : ¬((i : Int) + 1).toNat ≤ t.arraySize := by omega
    rw [rest, rest, if_neg hgt, if_neg hgt]
    exact hempty.drop_pairs (by dsimp only; omega)

/-- **An entry that can be unlinked is taken out through an iterator, and nothing else.** -/
theorem removeIter_run (h : t.Stands m) (hp : t.pairAt i = some (k, v))
    (hu : i < t.arraySize ∨ t.t.Unlinks (i - t.arraySize)) :
    ∃ t', t.removeIter i = some t' ∧ t'.Stands (m.erase k) ∧ t'.count + 1 = t.count ∧ t'.rest i = t.rest i := by
  by_cases hi : i < t.arraySize
  · exact removeIter_array h hi hp
  · exact removeIter_hash h hi hp (hu.resolve_left hi)

end Contents

/-- One call keeps the table well formed, whatever the allocations do. -/
theorem call_stands {s s' : IntTable × Alloc} {m : Finmap fun _ : Nat => UInt64} {c : IntCall} {ev : IntEvent}
    (h : s.1.Stands m) (hc : Callable s.1 c) (hrun : call s c = some (ev, s')) : ∃ m', s'.1.Stands m' := by
  obtain ⟨t, a⟩ := s
  cases c with
  | op o =>
    cases o with
    | insert k v =>
      obtain ⟨hk, hw, hv⟩ := hc
      obtain ⟨r, t', a', hi, hinv, -, ⟨-, rfl⟩ | ⟨-, -, hp⟩⟩ := insert_run h.inv hk hv a
      · simp only [call, step, hi] at hrun
        cases hrun
        exact ⟨m, h⟩
      · simp only [call, step, hi] at hrun
        cases hrun
        exact ⟨_, h.insert (mt h.mem_keys.mpr hk) hw hv hinv hp⟩
    | lookup k =>
      simp only [call, step, lookup_run h, Option.map_some] at hrun
      cases hrun
      exact ⟨m, h⟩
    | replace k v =>
      obtain ⟨t', hr, hst⟩ := replace_run h k hc
      simp only [call, step, hr, Option.map_some] at hrun
      cases hrun
      exact ⟨_, hst⟩
    | remove k =>
      by_cases hk : k ∈ m
      · obtain ⟨t', hr, hst⟩ := remove_run h hk
        simp only [call, step, hr, Option.map_some] at hrun
        cases hrun
        exact ⟨_, hst⟩
      · simp only [call, step, (remove_absent_iff h hk).mpr hc, Option.map_some] at hrun
        cases hrun
        exact ⟨m, h⟩
    | compact =>
      obtain ⟨hnone, -⟩ | ⟨t', hsome, hinv, hsub, -⟩ := compact_cases h (h.compactable hc) a
      · rw [call, step] at hrun
        dsimp only at hrun hnone
        rcases hcompact : compact t a with ⟨_ | t', a'⟩
        · rw [hcompact] at hrun
          cases hrun
        · rw [hcompact] at hnone
          cases hnone
      · rw [call, step] at hrun
        dsimp only at hrun hsome
        rcases hcompact : compact t a with ⟨_ | t'', a'⟩
        · rw [hcompact] at hrun
          cases hrun
        · rw [hcompact] at hrun hsome
          cases hsome
          cases hrun
          exact h.exists_of_subset hinv hsub
    | iterate =>
      rw [call, step] at hrun
      dsimp only at hrun
      cases hall : t.forAll (fun l p => some (l ++ [p])) [] with
      | none =>
        rw [hall] at hrun
        cases hrun
      | some l =>
        rw [hall] at hrun
        cases hrun
        exact ⟨m, h⟩
    | count =>
      cases hrun
      exact ⟨m, h⟩
  | removeIter i =>
    obtain ⟨hsome, hu⟩ := hc
    obtain ⟨⟨k, v⟩, hp⟩ := Option.isSome_iff_exists.mp hsome
    obtain ⟨t', hr, hst, -⟩ := removeIter_run h hp hu
    simp only [call, hr, Option.bind_eq_bind, Option.bind_some, Option.pure_def, Option.some.injEq] at hrun
    cases hrun
    exact ⟨_, hst⟩

theorem fresh_stands {s : IntTable × Alloc} (h : Fresh s) : s.1.Stands ∅ := by
  obtain ⟨t, a₀⟩ := s
  obtain ⟨a, hinit⟩ := h
  obtain ⟨a', ha, -⟩ | ⟨t', a', ha, -, hst⟩ := init_run a
  · rw [ha] at hinit
    cases hinit
  · rw [ha] at hinit
    cases hinit
    exact hst

/-- **Every table that is reached holds a finite map.** -/
theorem calls_reached {s : IntTable × Alloc} (h : calls.Reached Fresh s) : ∃ m, s.1.Stands m :=
  h.invariant (I := fun s => ∃ m, s.1.Stands m) (fun _ hs => ⟨∅, fresh_stands hs⟩)
    fun _ _ _ _ ⟨_, hst⟩ hc hrun => call_stands hst hc hrun

/-- **A table answers as its finite map does.** -/
theorem calls_simulate : calls.Simulates fun s m => s.1.Stands m := by
  rintro ⟨t, a⟩ m c h hc hgives
  cases c with
  | op o =>
    have hfailed : (step t a o).2.failed = false := by simpa [calls] using hgives
    by_cases habsent : ∃ k, o = .remove k ∧ k ∉ m
    · obtain ⟨k, rfl, hk⟩ := habsent
      have hrun := (remove_absent_iff h hk).mpr hc
      refine ⟨.value none, (t, a), by simp [calls, call, step, hrun], ?_, ?_⟩
      · change IntEvent.value none = .value (m.lookup k)
        rw [Finmap.lookup_eq_none.mpr hk]
      · change t.Stands (m.erase k)
        rwa [Finmap.erase_of_notMem hk]
    · have hl : o.Legal m := by
        cases o with
        | insert k v => exact ⟨mt h.mem_keys.mpr hc.1, hc.2⟩
        | replace k v => exact hc
        | remove k => exact not_not.mp fun hk => habsent ⟨k, rfl, hk⟩
        | _ => trivial
      have hs : o.Supported m := by
        cases o with
        | compact => exact h.compactable hc
        | _ => trivial
      obtain ⟨ev, t', hrun, hans, hst⟩ := step_run h a hl hs hfailed
      refine ⟨ev, (t', (step t a o).2), ?_, hans, hst⟩
      change call (t, a) (.op o) = _
      rw [call]
      rcases hstep : step t a o with ⟨r, a'⟩
      rw [hstep] at hrun
      cases hrun
      rfl
  | removeIter i =>
    obtain ⟨hsome, hu⟩ := hc
    obtain ⟨⟨k, v⟩, hp⟩ := Option.isSome_iff_exists.mp hsome
    obtain ⟨t', hr, hst, -⟩ := removeIter_run h hp hu
    refine ⟨.done, (t', a), by simp [calls, call, hr], rfl, ?_⟩
    have hnext : calls.next (t, a) m (.removeIter i) = m.erase k := by simp [calls, callNext, hp]
    rw [hnext]
    exact hst

/-- What a loop of `hpb_inttable_next` still visits at an iterator. -/
def iterateFrom (t : IntTable) (iter : Nat) : Option (List (Nat × UInt64)) :=
  t.forEach (fun l p => some (l ++ [p])) (t.arraySize + t.t.size + 1) iter []

theorem iterateFrom_eq {t : IntTable} (h : t.Inv) (i : Nat) : t.iterateFrom i = some (t.rest i) := by
  have hfold : ∀ l l₀ : List (Nat × UInt64), l.foldlM (fun l p => some (l ++ [p])) l₀ = some (l₀ ++ l) := by
    intro l
    induction l with
    | nil => simp
    | cons p ps ih => simp [ih]
  have hlen : (t.rest i).length < t.arraySize + t.t.size + 1 := by
    have h₁ := arrayPairs_length_le (t.array.drop ((i : Int) + 1).toNat) ((i : Int) + 1).toNat
    have h₂ : t.t.pairs.length ≤ t.t.entries.length := List.length_filterMap_le _ _
    have h₃ : ((t.t.entries.drop ((i : Int) + 1 - t.arraySize).toNat).filterMap TabEnt.pair).length ≤
        (t.t.entries.drop ((i : Int) + 1 - t.arraySize).toNat).length := List.length_filterMap_le _ _
    rw [List.length_drop, h.array_len] at h₁
    rw [h.table.length_eq] at h₂
    rw [List.length_drop, h.table.length_eq] at h₃
    rw [rest]
    split
    · rw [List.length_append]
      omega
    · omega
  rw [iterateFrom, forEach_run h _ _ (by omega) hlen, hfold, List.nil_append]

/-- **What is left when an entry is removed through an iterator**: the other keys, the rest of the iteration, and
a table that goes on as the smaller map. -/
theorem removeIter_exact {t : IntTable} {m₀ : Finmap fun _ : Nat => UInt64} (h : t.Stands m₀) {i k : Nat} {v : UInt64}
    (hp : t.pairAt i = some (k, v)) (hu : i < t.arraySize ∨ t.t.Unlinks (i - t.arraySize)) :
    ∃ t', t.removeIter i = some t' ∧ t'.count + 1 = t.count ∧
      (∀ k', t'.lookup k' = if k' = k then some none else t.lookup k') ∧ t'.iterateFrom i = t.iterateFrom i ∧
      ∀ m, Listing t.pairs m → ∀ a cs, calls.Behaves (t', a) (m.erase k) cs := by
  obtain ⟨t', hrun, hst, hcount, hrest⟩ := removeIter_run h hp hu
  refine ⟨t', hrun, hcount, fun k' => ?_, ?_, fun m hm a cs => ?_⟩
  · rw [lookup_run hst, lookup_run h]
    split
    next heq => rw [heq, Finmap.lookup_erase]
    next hne => rw [Finmap.lookup_erase_ne hne]
  · rw [iterateFrom_eq hst.inv, iterateFrom_eq h.inv, hrest]
  · have hm₀ : m = m₀ := Finmap.ext_lookup fun k' => Option.ext fun v' => by
      rw [← hm.mem_iff, h.listing.mem_iff]
    rw [hm₀]
    exact calls_simulate.behaves hst cs

end IntTable

/-- **Removing a key that is not there.** In every table that is reached, the call returns false, leaves the table
as it is and accesses no slot outside it, if and only if the part of the table that the key belongs to has
slots. -/
theorem remove_absent (V : Type) [Inhabited V] :
    (∀ s : StrTable V × Alloc, (StrTable.calls V).Reached StrTable.Fresh s → ∀ k ∉ s.1.keys,
        (StrTable.remove2 s.1 k = some (none, s.1) ↔ s.1.sizeLg2 ≠ 0)) ∧
      ∀ s : IntTable × Alloc, IntTable.calls.Reached IntTable.Fresh s → ∀ k ∉ s.1.pairs.map Prod.fst,
        (s.1.remove k = some (none, s.1) ↔ k < s.1.arraySize ∨ s.1.t.sizeLg2 ≠ 0) := by
  refine ⟨fun s hs k hk => StrTable.remove2_absent_iff (StrTable.calls_reached hs) hk, fun s hs k hk => ?_⟩
  obtain ⟨m, hm⟩ := IntTable.calls_reached hs
  exact IntTable.remove_absent_iff hm (mt hm.mem_keys.mpr hk)

/-- A string table for one key and a new integer table have slots. -/
theorem remove_absent_fresh :
    StrTable.remove2 (Table.empty 1 : StrTable UInt64) [7] = some (none, Table.empty 1) ∧
      IntTable.remove ⟨Table.empty 4, [tabvalEmpty], 1, 0⟩ 7 =
        some (none, ⟨Table.empty 4, [tabvalEmpty], 1, 0⟩) := by
  constructor
  · refine ((remove_absent UInt64).1 (Table.empty 1, { Alloc.granting with calls := 1 })
      (.start ⟨1, .granting, by rfl⟩) [7] ?_).mpr ?_ <;> decide
  · refine ((remove_absent UInt64).2 (⟨Table.empty 4, [tabvalEmpty], 1, 0⟩, { Alloc.granting with calls := 2 })
      (.start ⟨.granting, by rfl⟩) 7 ?_).mpr (.inr ?_) <;> decide

/-- A string table that was initialised for no keys has no slots: `hpb_strtable_remove2` reads through a null
pointer. -/
theorem not_remove_absent :
    ¬∀ s : StrTable UInt64 × Alloc, (StrTable.calls UInt64).Reached StrTable.Fresh s → ∀ k ∉ s.1.keys,
        StrTable.remove2 s.1 k = some (none, s.1) := by
  intro h
  have hrun := h (Table.empty 0, .granting) (.start ⟨0, .granting, by rfl⟩) [] (by decide)
  have hnone : StrTable.remove2 (Table.empty 0 : StrTable UInt64) [] = none := by decide
  rw [hnone] at hrun
  cases hrun

/-- The integer table with one entry. -/
def oneEntry : IntTable :=
  { t := { count := 1, mask := 15, maxCount := 13, sizeLg2 := 4,
           entries := ⟨some 16, 5, none⟩ :: List.replicate 15 ⟨none, 0, none⟩ }
    array := [tabvalEmpty], arraySize := 1, arrayCount := 0 }

/-- The integer table with two entries, whose main slots are the same. -/
def twoEntries : IntTable :=
  { t := { count := 2, mask := 15, maxCount := 13, sizeLg2 := 4,
           entries := ⟨some 16, 5, some 1⟩ :: ⟨some 32, 6, none⟩ :: List.replicate 14 ⟨none, 0, none⟩ }
    array := [tabvalEmpty], arraySize := 1, arrayCount := 0 }

theorem oneEntry_reached : IntTable.calls.Reached IntTable.Fresh (oneEntry, { Alloc.granting with calls := 2 }) := by
  have hfresh : IntTable.Fresh (⟨Table.empty 4, [tabvalEmpty], 1, 0⟩, { Alloc.granting with calls := 2 }) :=
    ⟨.granting, by rfl⟩
  refine .call (c := .op (.insert 16 5)) (e := .returned true) (.start hfresh) ?_ (by rfl)
  refine ⟨?_, ?_, ?_⟩ <;> decide

theorem twoEntries_reached :
    IntTable.calls.Reached IntTable.Fresh (twoEntries, { Alloc.granting with calls := 2 }) := by
  refine .call (c := .op (.insert 32 6)) (e := .returned true) oneEntry_reached ?_ (by rfl)
  refine ⟨?_, ?_, ?_⟩ <;> decide

end Hpb
