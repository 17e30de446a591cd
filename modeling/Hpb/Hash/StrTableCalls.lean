import Hpb.Hash.RemoveEntry
import Hpb.Lib.Calls

/-!
# The calls of a string table

All calls of `hpb_strtable`, with those that take an iterator, as a system that stands for a finite map. The
position of an iterator is a slot.

* `StrTable.calls_reached`: every table that is reached is well formed, also after failed allocations;
* `StrTable.calls_simulate`: a table answers as its finite map does, as long as allocations succeed.
-/

namespace Hpb

/-- The calls of a string table. -/
inductive StrCall (V : Type) where
  | op (o : StrOp V)
  /-- `hpb_strtable_removeiter`. -/
  | removeIter (iter : Nat)
  /-- `hpb_strtable_setentryvalue`. -/
  | setEntryValue (iter : Nat) (v : V)

namespace StrTable

variable {V : Type} [Inhabited V]

/-- `hpb_strtable_setentryvalue`. -/
def setEntryValue (t : StrTable V) (iter : Nat) (v : V) : Option (StrTable V) := do
  let ent ← t.entries[iter]?
  return { t with entries := t.entries.set iter { ent with val := v } }

/-- One call. -/
def call (s : StrTable V × Alloc) : StrCall V → Option (StrEvent V × StrTable V × Alloc)
  | .op o => step s.1 s.2 o
  | .removeIter i => do
    let t ← s.1.removeIter i
    return (.done, t, s.2)
  | .setEntryValue i v => do
    let t ← s.1.setEntryValue i v
    return (.done, t, s.2)

/-- The calls that a client may make and that do what they should: absent keys are inserted, iterators are at an
entry, and an entry is removed through an iterator only if it can be unlinked. -/
def Callable (t : StrTable V) : StrCall V → Prop
  | .op (.insert k v) => k ∉ t.keys ∧ Supported t (.insert k v)
  | .op o => Supported t o
  | .removeIter i => (t.pairAt i).isSome ∧ t.Unlinks i
  | .setEntryValue i _ => (t.pairAt i).isSome

/-- The finite map after a call. -/
def callNext (t : StrTable V) (m : Finmap fun _ : StrKey => V) : StrCall V → Finmap fun _ : StrKey => V
  | .op o => o.next m
  | .removeIter i => ((t.pairAt i).map fun p => m.erase p.1).getD m
  | .setEntryValue i v => ((t.pairAt i).map fun p => m.insert p.1 v).getD m

/-- What a finite map answers. -/
def CallAnswers (m : Finmap fun _ : StrKey => V) : StrCall V → StrEvent V → Prop
  | .op o, ev => o.Answers m ev
  | _, ev => ev = .done

/-- The string table as a system. -/
def calls (V : Type) [Inhabited V] :
    CallSystem (StrTable V × Alloc) (Finmap fun _ : StrKey => V) (StrCall V) (StrEvent V) where
  step := call
  Allowed s := Callable s.1
  GivesUp s c := (call s c).any fun r => r.2.2.failed
  next s := callNext s.1
  Answers _ := CallAnswers

/-- A table that was just initialised. -/
def Fresh (s : StrTable V × Alloc) : Prop := ∃ expectedSize a, init expectedSize a = some (some s.1, s.2)

omit [Inhabited V] in
/-- A slot in use. -/
theorem get_of_pairAt {t : StrTable V} {i : Nat} {k : StrKey} {v : V} (h : t.pairAt i = some (k, v)) :
    ∃ e, t.entries[i]? = some e ∧ e.key = some k ∧ e.val = v := by
  obtain ⟨e, he, h⟩ := Option.bind_eq_some_iff.mp h
  obtain ⟨k', hk', h⟩ := Option.bind_eq_some_iff.mp h
  cases h
  exact ⟨e, he, hk', rfl⟩

omit [Inhabited V] in
theorem removeIter_run {t : StrTable V} (h : t.Inv) {i : Nat} {k : StrKey} {v : V}
    (hp : t.pairAt i = some (k, v)) (hu : t.Unlinks i) :
    ∃ t', t.removeIter i = some t' ∧ StrTable.Inv t' ∧ t.pairs.Perm ((k, v) :: t'.pairs) ∧
      Table.Emptied i t.entries t'.entries ∧ t'.count + 1 = t.count := by
  obtain ⟨e, he, hk, rfl⟩ := get_of_pairAt hp
  obtain ⟨t', hrun, hinv, hperm, hempty, hshape, hcount⟩ := Table.removeIter_run h.table he hk hu
  exact ⟨t', hrun, h.less hinv hperm hshape.sizeLg2, hperm, hempty, hcount⟩

omit [Inhabited V] in
theorem setEntryValue_run {t : StrTable V} (h : t.Inv) {i : Nat} {k : StrKey} {w : V}
    (hp : t.pairAt i = some (k, w)) (v : V) :
    ∃ t', t.setEntryValue i v = some t' ∧ StrTable.Inv t' ∧
      ∃ r, t.pairs.Perm ((k, w) :: r) ∧ t'.pairs.Perm ((k, v) :: r) := by
  obtain ⟨e, he, hk, rfl⟩ := get_of_pairAt hp
  obtain ⟨hinv, r, hperm, hperm'⟩ := Table.setVal_run h.table he hk v
  refine ⟨_, by simp [setEntryValue, he], ⟨hinv, h.load, fun k' hk' => h.short k' ?_⟩, r, hperm, hperm'⟩
  have : t.keys.Perm (Table.keys { t with entries := t.entries.set i { e with val := v } }) :=
    (hperm.map Prod.fst).trans (hperm'.map Prod.fst).symm
  exact this.mem_iff.mpr hk'

/-- One call keeps the table well formed, whatever the allocations do. -/
theorem call_inv {s s' : StrTable V × Alloc} {c : StrCall V} {ev : StrEvent V} (h : StrTable.Inv s.1)
    (hc : Callable s.1 c) (hrun : call s c = some (ev, s')) : StrTable.Inv s'.1 := by
  obtain ⟨t, a⟩ := s
  cases c with
  | op o =>
    cases o with
    | insert k v =>
      obtain ⟨r, t', a', hi⟩ := insert_run h hc.1 hc.2 v a
      simp only [call, step, hi.run, Option.bind_eq_bind, Option.bind_some, Option.pure_def, Option.some.injEq] at hrun
      cases hrun
      exact hi.inv
    | remove2 k =>
      obtain ⟨hr, -⟩ | ⟨v, t', hr, hinv, -⟩ := remove2_run h hc k
      · simp only [call, step, hr, Option.bind_eq_bind, Option.bind_some, Option.pure_def, Option.some.injEq] at hrun
        cases hrun
        exact h
      · simp only [call, step, hr, Option.bind_eq_bind, Option.bind_some, Option.pure_def, Option.some.injEq] at hrun
        cases hrun
        exact hinv
    | lookup2 k =>
      obtain ⟨v, -, hrun⟩ := Option.bind_eq_some_iff.mp hrun
      cases hrun
      exact h
    | resize n =>
      obtain ⟨r, t', a', hr, hinv, -⟩ := resize_run h hc a
      simp only [call, step, hr, Option.bind_eq_bind, Option.bind_some, Option.pure_def, Option.some.injEq] at hrun
      cases hrun
      exact hinv
    | clear =>
      cases hrun
      exact (clear_stands h).inv
    | iterate =>
      obtain ⟨l, -, hrun⟩ := Option.bind_eq_some_iff.mp hrun
      cases hrun
      exact h
    | count =>
      cases hrun
      exact h
  | removeIter i =>
    obtain ⟨hsome, hu⟩ := hc
    obtain ⟨⟨k, v⟩, hp⟩ := Option.isSome_iff_exists.mp hsome
    obtain ⟨t', hr, hinv, -⟩ := removeIter_run h hp hu
    simp only [call, hr, Option.bind_eq_bind, Option.bind_some, Option.pure_def, Option.some.injEq] at hrun
    cases hrun
    exact hinv
  | setEntryValue i v =>
    obtain ⟨⟨k, w⟩, hp⟩ := Option.isSome_iff_exists.mp hc
    obtain ⟨t', hr, hinv, -⟩ := setEntryValue_run h hp v
    simp only [call, hr, Option.bind_eq_bind, Option.bind_some, Option.pure_def, Option.some.injEq] at hrun
    cases hrun
    exact hinv

theorem fresh_inv {s : StrTable V × Alloc} (h : Fresh s) : StrTable.Inv s.1 := by
  obtain ⟨t, a₀⟩ := s
  obtain ⟨n, a, hinit⟩ := h
  obtain ⟨a', ha, -⟩ | ⟨hs30, a', ha, -⟩ := Table.init_spec (K := StrKey) (V := V) (log2Ceiling_lt (needEntries n)) a
  · rw [init, ha] at hinit
    cases hinit
  · rw [init, ha] at hinit
    cases hinit
    refine ⟨Table.empty_inv hs30, Nat.zero_le _, fun k hk => ?_⟩
    change k ∈ (Table.empty _ : StrTable V).pairs.map Prod.fst at hk
    rw [Table.empty_pairs] at hk
    cases hk

/-- **Every table that is reached is well formed.** -/
theorem calls_reached {s : StrTable V × Alloc} (h : (calls V).Reached Fresh s) : StrTable.Inv s.1 :=
  h.invariant (I := fun s => StrTable.Inv s.1) (fun _ hs => fresh_inv hs) fun _ _ _ _ hinv hc hrun => call_inv hinv hc hrun

/-- **A table answers as its finite map does.** -/
theorem calls_simulate : (calls V).Simulates fun s m => StrTable.Stands s.1 m := by
  rintro ⟨t, a⟩ m c h hc hgives
  cases c with
  | op o =>
    have hs : Supported t o := by
      cases o with
      | insert k v => exact hc.2
      | _ => exact hc
    have hk : ∀ k v, o = .insert k v → k ∉ m := by
      rintro k v rfl
      exact mt h.listing.mem_keys.mpr hc.1
    obtain ⟨ev, t', a', hrun, hok⟩ := step_run h a hs hk
    have hfailed : a'.failed = false := by simpa [calls, call, hrun] using hgives
    exact ⟨ev, (t', a'), hrun, (hok hfailed).2⟩
  | removeIter i =>
    obtain ⟨hsome, hu⟩ := hc
    obtain ⟨⟨k, v⟩, hp⟩ := Option.isSome_iff_exists.mp hsome
    obtain ⟨t', hr, hinv, hperm, -⟩ := removeIter_run h.inv hp hu
    refine ⟨.done, (t', a), by simp [calls, call, hr], rfl, ?_⟩
    have hnext : (calls V).next (t, a) m (.removeIter i) = m.erase k := by simp [calls, callNext, hp]
    rw [hnext]
    exact ⟨hinv, h.listing.erase hperm⟩
  | setEntryValue i v =>
    obtain ⟨⟨k, w⟩, hp⟩ := Option.isSome_iff_exists.mp hc
    obtain ⟨t', hr, hinv, r, hperm, hperm'⟩ := setEntryValue_run h.inv hp v
    refine ⟨.done, (t', a), by simp [calls, call, hr], rfl, ?_⟩
    have hnext : (calls V).next (t, a) m (.setEntryValue i v) = m.insert k v := by simp [calls, callNext, hp]
    rw [hnext]
    exact ⟨hinv, h.listing.replace hperm hperm'⟩

omit [Inhabited V] in
/-- `remove2` of an absent key: the table needs a slot to look at. -/
theorem remove2_absent_iff {t : StrTable V} (h : t.Inv) {k : StrKey} (hk : k ∉ t.keys) :
    remove2 t k = some (none, t) ↔ t.sizeLg2 ≠ 0 := by
  constructor
  · intro hrun h0
    have hlen : t.entries = [] := by
      rw [← List.length_eq_zero_iff, h.table.length_eq, Table.size, h0]
      rfl
    rw [remove2, Table.rm, hlen] at hrun
    cases hrun
  · intro h0
    obtain ⟨hrun, -⟩ | ⟨v, t', -, -, hp, -⟩ := remove2_run h h0 k
    · exact hrun
    · refine absurd ?_ hk
      rw [Table.keys, (hp.map Prod.fst).mem_iff]
      exact List.mem_cons_self

omit [Inhabited V] in
theorem Inv.exists_stands {t : StrTable V} (h : t.Inv) : ∃ m, StrTable.Stands t m := by
  obtain ⟨m, hm⟩ := Listing.exists_of_nodup h.table.nodup
  exact ⟨m, h, hm⟩

omit [Inhabited V] in
/-- `hpb_strtable_lookup2` sees the value of the map. -/
theorem lookup2_run {t : StrTable V} {m : Finmap fun _ : StrKey => V} (h : t.Stands m) (k : StrKey) :
    t.lookup2 k = some (m.lookup k) := by
  obtain ⟨r, hrun, hr⟩ := Table.lookup_spec h.inv.table k
  have : r = m.lookup k := Option.ext fun v => by rw [hr, h.listing.mem_iff]
  rw [lookup2, hrun, this]

/-- **What is left when an entry is removed through an iterator**: the other keys, the rest of the iteration, and
a table that goes on as the smaller map. -/
theorem removeIter_exact {t : StrTable V} (h : t.Inv) {i : Nat} {k : StrKey} {v : V}
    (hp : t.pairAt i = some (k, v)) (hu : t.Unlinks i) :
    ∃ t', t.removeIter i = some t' ∧ t'.count + 1 = t.count ∧
      (∀ k', StrTable.lookup2 t' k' = if k' = k then some none else t.lookup2 k') ∧
      StrTable.iterate t' (t.size + 1) i = t.iterate (t.size + 1) i ∧
      ∀ m, Listing t.pairs m → ∀ a cs, (calls V).Behaves (t', a) (m.erase k) cs := by
  obtain ⟨t', hrun, hinv, hperm, hempty, hcount⟩ := removeIter_run h hp hu
  obtain ⟨m, hm⟩ := h.exists_stands
  have hst : ∀ m, Listing t.pairs m → StrTable.Stands t' (m.erase k) := fun m hm => ⟨hinv, hm.erase hperm⟩
  refine ⟨t', hrun, hcount, fun k' => ?_, ?_, fun m hm a cs => calls_simulate.behaves (hst m hm) cs⟩
  · rw [lookup2_run (hst m hm.listing), lookup2_run hm]
    split
    next heq => rw [heq, Finmap.lookup_erase]
    next hne => rw [Finmap.lookup_erase_ne hne]
  · obtain ⟨e, he, -⟩ := get_of_pairAt hp
    have hlt := (List.getElem?_eq_some_iff.mp he).1
    have hlen := h.table.length_eq
    have hsize : Table.size t' = t.size := by
      rw [← hinv.table.length_eq, hempty.length, hlen]
    have hi : (i : Int) = ((i + 1 : Nat) : Int) - 1 := by omega
    rw [hi, iterate_drop hlen _ _ (by omega) (by omega),
      iterate_drop hinv.table.length_eq _ _ (by omega) (by omega), hempty.drop_pairs (Nat.lt_succ_self i)]

end StrTable

end Hpb
