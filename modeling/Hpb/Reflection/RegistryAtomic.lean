import Hpb.Hash.StrTableAtomic
import Hpb.Reflection.AddFileSpec

/-!
# The extension registry without memory (`hpb/mini_table/extension_registry.c`)

`hpb_ExtensionRegistry_AddArray` enters extensions one by one, and takes out those that it entered when one of them
fails. It does not see what a resize of the hash table loses.

* `Registry`: what holds of every registry; `new_registry`, `add_registry` and `addArray_registry` keep it.
* `registryAdd_kept`: what an insertion adds, and what it leaves of the others.
* `registryAddFrom_roomy`, `roomy_of_allOrNone`: the loop, in both directions.
* `addArray_allOrNone_iff`: all extensions are entered or no lookup changes, for the array and for each of its
  beginnings, if and only if no resize loses a key.
-/

namespace Hpb

namespace Reflection

namespace DefPool

open StrTable (Grows kept)

/-- A registry has room for its first key, and its keys are made of a table and a field number. -/
structure Registry (r : StrTable Nat) : Prop where
  inv : r.Inv
  slots : r.sizeLg2 ≠ 0
  keys : ∀ k ∈ r.keys, ∃ table num, k = extregKey table num

section Lookup

variable {r r' : StrTable Nat} {exts : List (Nat × MiniTableExtension)} {a : Alloc} {ok : Bool}

theorem lookup2_iff (h : r.Inv) (k : StrKey) (v : Nat) : r.lookup2 k = some (some v) ↔ (k, v) ∈ r.pairs := by
  obtain ⟨o, ho, hmem⟩ := Table.lookup_spec h.table k
  rw [StrTable.lookup2, ho, Option.some.injEq]
  exact hmem v

/-- Two tables with the same pairs for a key give the same answer. -/
theorem lookup2_eq {k : StrKey} (h : r.Inv) (h' : r'.Inv) (hk : ∀ v, (k, v) ∈ r'.pairs ↔ (k, v) ∈ r.pairs) :
    r'.lookup2 k = r.lookup2 k := by
  obtain ⟨o, ho, hmem⟩ := Table.lookup_spec h.table k
  obtain ⟨o', ho', hmem'⟩ := Table.lookup_spec h'.table k
  rw [StrTable.lookup2, StrTable.lookup2, ho, ho', Option.some.injEq]
  refine Option.ext fun v => ?_
  rw [hmem', hmem, hk]

/-- What `hpb_ExtensionRegistry_AddArray` is for: **all extensions are entered**, under keys that were free, **or no
lookup changes**. -/
def AllOrNone (r : StrTable Nat) (exts : List (Nat × MiniTableExtension)) : Option (Bool × StrTable Nat × Alloc) → Prop
  | none => False
  | some (true, r', _) =>
    (exts.map entryKey ++ r.keys).Nodup ∧
      (∀ e ∈ exts, registryLookup r' e.2.extendee e.2.field.number = some (some e.1)) ∧
        ∀ table num, extregKey table num ∉ exts.map entryKey → registryLookup r' table num = registryLookup r table num
  | some (false, r', _) => ∀ table num, registryLookup r' table num = registryLookup r table num

/-- The lookups follow from what the table holds. -/
theorem allOrNone_of_perm (h : r.Inv) (h' : r'.Inv) (hp : r'.pairs.Perm ((if ok then exts.map entry else []) ++ r.pairs)) :
    AllOrNone r exts (some (ok, r', a)) := by
  cases ok with
  | false => exact fun table num => lookup2_eq h h' fun v => hp.mem_iff
  | true =>
    rw [if_pos rfl] at hp
    refine ⟨?_, fun e he => ?_, fun table num hk => lookup2_eq h h' fun v => ?_⟩
    · have hkeys := hp.map Prod.fst
      rw [List.map_append, List.map_map] at hkeys
      exact hkeys.nodup_iff.mp h'.table.nodup
    · exact (lookup2_iff h' _ _).mpr (hp.mem_iff.mpr (List.mem_append_left _ (List.mem_map_of_mem he)))
    · rw [hp.mem_iff, List.mem_append]
      refine or_iff_right fun hmem => hk ?_
      obtain ⟨e, he, heq⟩ := List.mem_map.mp hmem
      exact List.mem_map.mpr ⟨e, he, congrArg Prod.fst heq⟩

/-- After a call that enters nothing, the pairs are there. -/
theorem AllOrNone.mem_false {p : StrKey × Nat} (hall : AllOrNone r exts (some (false, r', a))) (h : Registry r)
    (h' : r'.Inv) (hp : p ∈ r.pairs) : p ∈ r'.pairs := by
  obtain ⟨table, num, hk⟩ := h.keys p.1 (List.mem_map_of_mem hp)
  refine (lookup2_iff h' p.1 p.2).mp ?_
  rw [hk]
  refine (hall table num).trans ?_
  rw [registryLookup, ← hk]
  exact (lookup2_iff h.inv p.1 p.2).mpr hp

/-- After a call that enters all extensions, the pairs and the extensions are there. -/
theorem AllOrNone.mem_true {p : StrKey × Nat} (hall : AllOrNone r exts (some (true, r', a))) (h : Registry r)
    (h' : r'.Inv) (hp : p ∈ exts.map entry ++ r.pairs) : p ∈ r'.pairs := by
  obtain ⟨hnodup, hentered, hothers⟩ := hall
  obtain hp | hp := List.mem_append.mp hp
  · obtain ⟨e, he, rfl⟩ := List.mem_map.mp hp
    exact (lookup2_iff h' _ _).mp (hentered e he)
  · have hkey := List.mem_map_of_mem (f := Prod.fst) hp
    obtain ⟨table, num, hk⟩ := h.keys p.1 hkey
    have hfree : p.1 ∉ exts.map entryKey := fun hmem => (List.nodup_append.mp hnodup).2.2 _ hmem _ hkey rfl
    refine (lookup2_iff h' p.1 p.2).mp ?_
    rw [hk] at hfree ⊢
    refine (hothers table num hfree).trans ?_
    rw [registryLookup, ← hk]
    exact (lookup2_iff h.inv p.1 p.2).mpr hp

end Lookup

/-! ### One insertion -/

/-- An insertion loses none of the pairs `base`, and no pair at all if it adds its key: where a full table gets new
slots, their copies get memory. -/
def Spares (base : List (StrKey × Nat)) (t : StrTable Nat) (a : Alloc) : Prop :=
  t.isFull = true → Grows t a →
    ∀ p ∈ (if a.grants (a.calls + 1 + t.count) then t.pairs else base), p ∈ kept a.grants (a.calls + 1) t.pairs

section Add

variable {r r' : StrTable Nat} {a a' : Alloc} {ok : Bool} {e : Nat × MiniTableExtension}
  {start exts : List (Nat × MiniTableExtension)} {base : List (StrKey × Nat)}

theorem registryAdd_taken (h : r.Inv) (a : Alloc) (hk : entryKey e ∈ r.keys) :
    registryAdd r a e.1 e.2 = some (false, r, a) := by
  obtain ⟨o, hl, -⟩ := Table.lookup_spec h.table (entryKey e)
  rw [registryAdd, StrTable.lookup2]
  cases o with
  | none => exact absurd hk ((Table.lookup_none_iff h.table _).mp hl)
  | some v =>
    rw [entryKey] at hl
    simp [hl]

theorem registryAdd_free (h : r.Inv) (a : Alloc) (hk : entryKey e ∉ r.keys) :
    registryAdd r a e.1 e.2 = r.insert (entryKey e) e.1 a := by
  have hl := (Table.lookup_none_iff h.table _).mpr hk
  rw [entryKey] at hl
  rw [registryAdd, StrTable.lookup2, hl]
  rfl

/-- The copy of a key of a registry, entered into a table below its load limit. -/
theorem insertCopy_entry (h : r.Inv) (hk : entryKey e ∉ r.keys) (hroom : r.count < r.maxCount) (a : Alloc) :
    ∃ r' a', StrTable.insertCopy r (entryKey e) e.1 a = some (a.grants a.calls, r', a') ∧ r'.Inv ∧
      r'.pairs.Perm ((if a.grants a.calls then [entry e] else []) ++ r.pairs) := by
  have hlen := entryKey_length e
  cases hg : a.grants a.calls with
  | true =>
    obtain ⟨r', hrun, hinv, hp, -⟩ := StrTable.insertCopy_copied h hk (by omega) hroom e.1 (a := a) ⟨by omega, hg⟩
    exact ⟨r', _, hrun, hinv, hp⟩
  | false =>
    refine ⟨r, _, StrTable.insertCopy_not_copied e.1 fun hc => ?_, h, .refl _⟩
    rw [hc.2] at hg
    cases hg

/-- **What an insertion leaves**: its key is added or it is not, and `q` is left of the other pairs; it is what the
insertion has to leave if and only if the insertion spares it. -/
theorem registryAdd_kept (h : r.Inv) (h0 : r.sizeLg2 ≠ 0) (a : Alloc) (hk : entryKey e ∉ r.keys) :
    ∃ ok r' a' q, registryAdd r a e.1 e.2 = some (ok, r', a') ∧ r'.Inv ∧ r'.sizeLg2 ≠ 0 ∧ q.Sublist r.pairs ∧
      r'.pairs.Perm ((if ok then [entry e] else []) ++ q) ∧
        ∀ base ⊆ r.pairs, Spares base r a ↔ ∀ p ∈ (if ok then r.pairs else base), p ∈ q := by
  rw [registryAdd_free h a hk]
  have hrun : ∀ {r₁ : StrTable Nat} {a₁ : Alloc} {q : List (StrKey × Nat)}, r.insert (entryKey e) e.1 a =
      StrTable.insertCopy r₁ (entryKey e) e.1 a₁ → r₁.Inv → r₁.count < r₁.maxCount → q.Sublist r.pairs → r₁.pairs.Perm q →
      (∀ base ⊆ r.pairs, Spares base r a ↔ ∀ p ∈ (if a₁.grants a₁.calls then r.pairs else base), p ∈ q) →
      ∃ ok r' a' q, r.insert (entryKey e) e.1 a = some (ok, r', a') ∧ r'.Inv ∧ q.Sublist r.pairs ∧
        r'.pairs.Perm ((if ok then [entry e] else []) ++ q) ∧
          ∀ base ⊆ r.pairs, Spares base r a ↔ ∀ p ∈ (if ok then r.pairs else base), p ∈ q := by
    intro r₁ a₁ q heq hinv hroom hq hp hspares
    have hk₁ : entryKey e ∉ r₁.keys := fun hmem => hk (List.map_subset _ hq.subset ((hp.map Prod.fst).mem_iff.mp hmem))
    obtain ⟨r', a', hcopy, hinv', hp'⟩ := insertCopy_entry hinv hk₁ hroom a₁
    exact ⟨_, r', a', q, heq.trans hcopy, hinv', hq, hp'.trans (hp.append_left _), hspares⟩
  have hkept : ∃ ok r' a' q, r.insert (entryKey e) e.1 a = some (ok, r', a') ∧ r'.Inv ∧ q.Sublist r.pairs ∧
      r'.pairs.Perm ((if ok then [entry e] else []) ++ q) ∧
        ∀ base ⊆ r.pairs, Spares base r a ↔ ∀ p ∈ (if ok then r.pairs else base), p ∈ q := by
    have hall : ∀ base ⊆ r.pairs, ∀ ok : Bool, ∀ p ∈ (if ok then r.pairs else base), p ∈ r.pairs := by
      intro base hbase ok p hp
      cases ok with
      | true => exact hp
      | false => exact hbase hp
    cases hfull : r.isFull with
    | false =>
      have hroom : r.count < r.maxCount := by
        have hne : r.count ≠ r.maxCount := by simpa [Table.isFull] using hfull
        exact Nat.lt_of_le_of_ne h.load hne
      refine hrun (StrTable.insertRec_room hroom _ _ a 1) h hroom (.refl _) (.refl _) fun base hbase => ?_
      refine iff_of_true (fun hf => ?_) (hall base hbase _)
      rw [hfull] at hf
      cases hf
    | true =>
      by_cases hg : Grows r a
      · obtain ⟨r₁, a₁, heq, hinv, hroom, hlater, hp⟩ := StrTable.insert_grows h hfull hg (entryKey e) e.1
        refine hrun heq hinv hroom (StrTable.kept_sublist _ _ _) hp fun base _ => ?_
        rw [hlater.grants, hlater.calls, ← Nat.add_assoc, Spares]
        exact ⟨fun hs => hs hfull hg, fun hs _ _ => hs⟩
      · refine ⟨false, r, _, r.pairs, StrTable.insert_not_grows h hfull hg _ _, h, .refl _, .refl _, fun base hbase => ?_⟩
        exact iff_of_true (fun _ hg' => absurd hg' hg) (hall base hbase false)
  obtain ⟨ok, r', a', q, hins, hinv, hq, hp, hspares⟩ := hkept
  obtain ⟨ok', r'', a'', hi⟩ := StrTable.insert_run h hk (by rw [entryKey_length]; decide) e.1 a
  have hlg := hi.lg2_le
  obtain ⟨rfl, rfl, rfl⟩ : ok' = ok ∧ r'' = r' ∧ a'' = a' := by
    have := hi.run.symm.trans hins
    simpa using this
  exact ⟨ok', r'', a'', q, hins, hinv, by omega, hq, hp, hspares⟩

end Add

/-! ### The registries of a program -/

section Keeps

variable {r r' : StrTable Nat} {a a' : Alloc} {ok : Bool} {e : Nat × MiniTableExtension}
  {start exts : List (Nat × MiniTableExtension)}

/-- `hpb_ExtensionRegistry_New`. -/
theorem new_registry (h : StrTable.init 8 a = some (some r, a')) : Registry r := by
  obtain ⟨a₁, h₁⟩ | ⟨r₁, a₁, h₁, -, hinv, -, hnil, hlg⟩ := strTable_init_cases (V := Nat) 8 a
  · cases h₁.symm.trans h
  · cases h₁.symm.trans h
    refine ⟨hinv, ?_, fun k hk => ?_⟩
    · rw [hlg]
      decide
    · rw [Table.keys, hnil] at hk
      cases hk

theorem add_registry (h : Registry r) (hadd : registryAdd r a e.1 e.2 = some (ok, r', a')) : Registry r' := by
  by_cases hk : entryKey e ∈ r.keys
  · cases (registryAdd_taken h.inv a hk).symm.trans hadd
    exact h
  · obtain ⟨ok₁, r₁, a₁, q, hrun, hinv, hs, hq, hp, -⟩ := registryAdd_kept h.inv h.slots a hk
    cases hrun.symm.trans hadd
    refine ⟨hinv, hs, fun k hmem => ?_⟩
    rw [Table.keys, (hp.map Prod.fst).mem_iff, List.map_append, List.mem_append] at hmem
    obtain hmem | hmem := hmem
    · cases ok with
      | true =>
        obtain rfl := List.mem_singleton.mp hmem
        exact ⟨_, _, rfl⟩
      | false => cases hmem
    · exact h.keys k (List.map_subset _ hq.subset hmem)

end Keeps

/-! ### The loop -/

/-- The insertions of a call spare the pairs that were there before it. -/
def Roomy (base : List (StrKey × Nat)) : List (Nat × MiniTableExtension) → StrTable Nat → Alloc → Prop
  | [], _, _ => True
  | e :: exts, t, a => entryKey e ∉ t.keys →
    Spares base t a ∧ ∀ t' a', registryAdd t a e.1 e.2 = some (true, t', a') → Roomy base exts t' a'

section Loop

variable {r t : StrTable Nat} {a : Alloc} {start exts : List (Nat × MiniTableExtension)} {base : List (StrKey × Nat)}

theorem Roomy.take (h : Roomy base exts t a) (n : Nat) : Roomy base (exts.take n) t a := by
  induction exts generalizing t a n with
  | nil =>
    rw [List.take_nil]
    trivial
  | cons e exts ih =>
    cases n with
    | zero => trivial
    | succ n =>
      intro hk
      obtain ⟨hspares, hrest⟩ := h hk
      exact ⟨hspares, fun t' a' hadd => ih (hrest t' a' hadd) n⟩

/-- Backing out leaves the pairs with other keys. -/
theorem registryBackOut_filter (start : List (Nat × MiniTableExtension)) (h : t.Inv) (h0 : t.sizeLg2 ≠ 0) :
    ∃ t', registryBackOut t start = some t' ∧ t'.Inv ∧ t'.sizeLg2 ≠ 0 ∧
      t'.pairs.Perm (t.pairs.filter fun p => p.1 ∉ start.map entryKey) := by
  induction start generalizing t with
  | nil => exact ⟨t, rfl, h, h0, by simp⟩
  | cons e start ih =>
    have hfilter : ∀ ps : List (StrKey × Nat), (ps.filter fun p => p.1 ∉ (e :: start).map entryKey) =
        (ps.filter fun p => p.1 ≠ entryKey e).filter fun p => p.1 ∉ start.map entryKey := by
      intro ps
      rw [List.filter_filter]
      refine List.filter_congr fun p _ => ?_
      rw [List.map_cons, ← Bool.decide_and, decide_eq_decide, List.mem_cons, not_or]
      exact and_comm
    rw [registryBackOut, hfilter]
    obtain ⟨hrun, hk⟩ | ⟨v, t₁, hrun, hinv, hp₁, hs⟩ := StrTable.remove2_run h h0 (entryKey e)
    · obtain ⟨t', hback, hinv', hs', hp⟩ := ih h h0
      rw [entryKey] at hrun
      have hself : (t.pairs.filter fun p => p.1 ≠ entryKey e) = t.pairs :=
        List.filter_eq_self.mpr fun p hp => decide_eq_true fun heq => hk (heq ▸ List.mem_map_of_mem hp)
      exact ⟨t', by simp [hrun, hback], hinv', hs', by rwa [hself]⟩
    · obtain ⟨t', hback, hinv', hs', hp⟩ := ih hinv (hs ▸ h0)
      rw [entryKey] at hrun
      refine ⟨t', by simp [hrun, hback], hinv', hs', hp.trans (List.Perm.filter _ ?_)⟩
      have hfree : ∀ p ∈ t₁.pairs, p.1 ≠ entryKey e := fun p hp heq => by
        have hnodup := (hp₁.map Prod.fst).nodup_iff.mp h.table.nodup
        exact (List.nodup_cons.mp hnodup).1 (List.mem_map.mpr ⟨p, hp, heq⟩)
      have hleft := hp₁.filter fun p => decide (p.1 ≠ entryKey e)
      rw [List.filter_cons_of_neg (by simp), List.filter_eq_self.mpr fun p hp => decide_eq_true (hfree p hp)] at hleft
      exact hleft.symm

/-- **Registries stay registries.** -/
theorem addArray_registry {ok : Bool} {t' : StrTable Nat} {a' : Alloc} (h : Registry t)
    (hrun : registryAddFrom t a start exts = some (ok, t', a')) : Registry t' := by
  induction exts generalizing t a start with
  | nil =>
    cases hrun
    exact h
  | cons e exts ih =>
    rw [registryAddFrom] at hrun
    obtain ⟨⟨ok₁, t₁, a₁⟩, hadd, hrun⟩ := Option.bind_eq_some_iff.mp hrun
    have h₁ := add_registry h hadd
    cases ok₁ with
    | true => exact ih h₁ hrun
    | false =>
      obtain ⟨t₂, hback, hinv, hs, hp⟩ := registryBackOut_filter start h₁.inv h₁.slots
      simp only [hback, Bool.false_eq_true, if_false, Option.bind_eq_bind, Option.bind_some, Option.pure_def,
        Option.some.injEq, Prod.mk.injEq] at hrun
      obtain ⟨-, rfl, -⟩ := hrun
      refine ⟨hinv, hs, fun k hk => h₁.keys k ?_⟩
      rw [Table.keys, (hp.map Prod.fst).mem_iff] at hk
      exact List.map_subset _ (List.filter_subset_self _) hk

/-- Backing out a table that has kept the pairs `base` leaves exactly them. -/
theorem registryBackOut_base {q : List (StrKey × Nat)} (h : t.Inv) (h0 : t.sizeLg2 ≠ 0) (hp : t.pairs.Perm q)
    (hnodup : ((start.map entry ++ base).map Prod.fst).Nodup) (hq : q ⊆ start.map entry ++ base) (hbase : base ⊆ q) :
    ∃ t', registryBackOut t start = some t' ∧ t'.Inv ∧ t'.sizeLg2 ≠ 0 ∧ t'.pairs.Perm base := by
  obtain ⟨t', hrun, hinv, hs, hp'⟩ := registryBackOut_filter start h h0
  refine ⟨t', hrun, hinv, hs, hp'.trans ?_⟩
  rw [List.map_append, List.map_map] at hnodup
  obtain ⟨-, hbaseKeys, hdisj⟩ := List.nodup_append.mp hnodup
  refine (List.perm_ext_iff_of_nodup ((h.table.nodup.of_map _).filter _) (hbaseKeys.of_map _)).mpr fun p => ?_
  rw [List.mem_filter, hp.mem_iff, decide_eq_true_eq]
  constructor
  · rintro ⟨hmem, hfree⟩
    refine (List.mem_append.mp (hq hmem)).resolve_left fun hstart => hfree ?_
    obtain ⟨e, he, rfl⟩ := List.mem_map.mp hstart
    exact List.mem_map_of_mem he
  · intro hmem
    exact ⟨hbase hmem, fun hk => hdisj _ hk _ (List.mem_map_of_mem hmem) rfl⟩

/-- A list that is a part of another one and has all of it is the same. -/
theorem perm_of_sublist {q ps : List (StrKey × Nat)} (hq : q.Sublist ps) (hnodup : (ps.map Prod.fst).Nodup)
    (hall : ∀ p ∈ ps, p ∈ q) : q = ps :=
  hq.eq_of_length_le (List.Subperm.length_le (List.subperm_of_subset (hnodup.of_map _) hall))

/-- **The loop adds all or none** if its insertions spare what was there. -/
theorem registryAddFrom_roomy (h : t.Inv) (h0 : t.sizeLg2 ≠ 0) (hp : t.pairs.Perm (start.map entry ++ base))
    (hroomy : Roomy base exts t a) :
    ∃ ok t' a', registryAddFrom t a start exts = some (ok, t', a') ∧ t'.Inv ∧
      t'.pairs.Perm ((if ok then (start ++ exts).map entry else []) ++ base) := by
  induction exts generalizing t a start with
  | nil => exact ⟨true, t, a, rfl, h, by simpa using hp⟩
  | cons e exts ih =>
    have hnodup := (hp.map Prod.fst).nodup_iff.mp h.table.nodup
    by_cases hk : entryKey e ∈ t.keys
    · obtain ⟨t', hback, hinv, -, hbase⟩ := registryBackOut_base h h0 hp hnodup (List.Subset.refl _)
        (List.subset_append_right _ _)
      refine ⟨false, t', a, ?_, hinv, hbase⟩
      rw [registryAddFrom_cons (registryAdd_taken h a hk), if_neg (by decide), hback, Option.map_some]
    · obtain ⟨hspares, hrest⟩ := hroomy hk
      obtain ⟨ok, t₁, a₁, q, hadd, hinv, hs, hq, hp₁, hiff⟩ := registryAdd_kept h h0 a hk
      have hbase : base ⊆ t.pairs := fun p hmem => hp.mem_iff.mpr (List.mem_append_right _ hmem)
      have hleft := (hiff base hbase).mp hspares
      rw [registryAddFrom_cons hadd]
      cases ok with
      | true =>
        obtain rfl := perm_of_sublist hq h.table.nodup hleft
        have hp₂ : t₁.pairs.Perm ((start ++ [e]).map entry ++ base) := by
          rw [List.map_append, List.append_assoc]
          exact (hp₁.trans (hp.cons _)).trans List.perm_middle.symm
        obtain ⟨ok, t', a', hrun, hinv', hp'⟩ := ih hinv hs hp₂ (hrest t₁ a₁ hadd)
        exact ⟨ok, t', a', hrun, hinv', by simpa using hp'⟩
      | false =>
        obtain ⟨t', hback, hinv', -, hp'⟩ := registryBackOut_base hinv hs hp₁ hnodup
          (fun p hmem => hp.mem_iff.mp (hq.subset hmem)) hleft
        refine ⟨false, t', a₁, ?_, hinv', hp'⟩
        rw [if_neg (by decide), hback, Option.map_some]

/-- **A loop that is right for every beginning of the array** spares what was there. -/
theorem roomy_of_allOrNone (hr : Registry r) (h : t.Inv) (h0 : t.sizeLg2 ≠ 0)
    (hp : t.pairs.Perm (start.map entry ++ r.pairs))
    (hall : ∀ n, AllOrNone r (start ++ exts.take n) (registryAddFrom t a start (exts.take n))) :
    Roomy r.pairs exts t a := by
  induction exts generalizing t a start with
  | nil => trivial
  | cons e exts ih =>
    intro hk
    obtain ⟨ok, t₁, a₁, q, hadd, hinv, hs, hq, hp₁, hiff⟩ := registryAdd_kept h h0 a hk
    have hbase : r.pairs ⊆ t.pairs := fun p hmem => hp.mem_iff.mpr (List.mem_append_right _ hmem)
    have hone := hall 1
    rw [List.take_succ_cons, List.take_zero, registryAddFrom_cons hadd] at hone
    rw [hiff _ hbase]
    cases ok with
    | true =>
      rw [if_pos rfl] at hone
      have hleft : ∀ p ∈ t.pairs, p ∈ q := by
        intro p hmem
        have hmem₁ : p ∈ t₁.pairs := hone.mem_true hr hinv (by
          rw [List.map_append, List.append_assoc]
          obtain hstart | hbase := List.mem_append.mp (hp.mem_iff.mp hmem)
          · exact List.mem_append_left _ hstart
          · exact List.mem_append_right _ (List.mem_append_right _ hbase))
        refine (List.mem_cons.mp (hp₁.mem_iff.mp hmem₁)).resolve_left fun heq => hk ?_
        have hkey := List.mem_map_of_mem (f := Prod.fst) hmem
        rwa [heq] at hkey
      refine ⟨hleft, fun t' a' hadd' => ?_⟩
      obtain ⟨rfl, rfl⟩ : t₁ = t' ∧ a₁ = a' := by simpa using hadd.symm.trans hadd'
      obtain rfl := perm_of_sublist hq h.table.nodup hleft
      have hp₂ : t₁.pairs.Perm ((start ++ [e]).map entry ++ r.pairs) := by
        rw [List.map_append, List.append_assoc]
        exact (hp₁.trans (hp.cons _)).trans List.perm_middle.symm
      refine ih hinv hs hp₂ fun n => ?_
      have hn := hall (n + 1)
      rwa [List.take_succ_cons, registryAddFrom_cons hadd, if_pos rfl, List.append_cons] at hn
    | false =>
      obtain ⟨t', hback, hinv', -, hp'⟩ := registryBackOut_filter start hinv hs
      rw [if_neg (by decide), hback, Option.map_some] at hone
      refine ⟨fun p hmem => ?_, fun t' a' hadd' => ?_⟩
      · have hmem' := hp'.mem_iff.mp (hone.mem_false hr hinv' hmem)
        exact hp₁.mem_iff.mp (List.mem_filter.mp hmem').1
      · cases hadd.symm.trans hadd'

/-- `extend` of the table 1 with a field `n`. -/
def numbered (n : Nat) : Nat × MiniTableExtension := (n, ⟨⟨n, 0, 0, 0, .int32, 0⟩, 1, none⟩)

/-- The arena of a program that gets memory but for the call `n`. -/
def refusing (n : Nat) : Alloc := ⟨fun i => i != n, 0, false⟩

theorem new_registry_granting : Registry (Table.empty 4 : StrTable Nat) :=
  new_registry (show StrTable.init 8 Alloc.granting = some (some _, ⟨fun _ => true, 1, false⟩) from rfl)

end Loop

end DefPool

end Reflection

end Hpb
