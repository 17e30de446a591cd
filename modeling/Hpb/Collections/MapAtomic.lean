import Hpb.Hash.StrTableAtomic
import Hpb.Collections.MapCalls

/-!
# Insertion into a map without memory

`hpb_Map_Insert` removes the old entry of its key before it inserts the new one. When that fails, it reports
`kHpb_MapInsertStatus_OutOfMemory`, and the old entry is gone; and so are those that the table could not copy into
its new slots.

`insert_atomic` says exactly which allocations have to succeed, for string tables and for maps.
-/

namespace Hpb

/-- Whether an insertion goes through does not depend on the key that is stored. -/
theorem Table.insert_isSome {K V : Type} {hashfunc : K → Nat} {t t' : Table K V} {k k' : K} {v : V} {hash : Nat}
    (h : Table.insert hashfunc t k v hash = some t') : (Table.insert hashfunc t k' v hash).isSome := by
  obtain ⟨e, he, h⟩ := Option.bind_eq_some_iff.mp h
  cases hkey : e.key with
  | none => simp [Table.insert, he, hkey]
  | some k₀ =>
    simp only [hkey] at h
    obtain ⟨new, hnew, h⟩ := Option.bind_eq_some_iff.mp h
    split at h
    next hmain => simp [Table.insert, he, hkey, hnew, hmain]
    next hmain =>
      obtain ⟨prev, hprev, h⟩ := Option.bind_eq_some_iff.mp h
      obtain ⟨pe, hpe, h⟩ := Option.bind_eq_some_iff.mp h
      simp only [Table.insert, he, Option.bind_eq_bind, Option.bind_some, hkey, hnew, if_neg hmain]
      rw [hprev, Option.bind_some, hpe]
      rfl

namespace StrTable

variable {V : Type} [Inhabited V]

omit [Inhabited V] in
/-- The last step of an insertion returns whether the key got a copy. -/
theorem insertCopy_cases {t : StrTable V} (h : t.Inv) {k : StrKey} (hk : k ∉ t.keys) (hroom : t.count < t.maxCount)
    (v : V) (a : Alloc) :
    (Copied k a ∧ ∃ t' a', insertCopy t k v a = some (true, t', a')) ∨
      ¬Copied k a ∧ ∃ a', insertCopy t k v a = some (false, t, a') := by
  by_cases hc : Copied k a
  · refine .inl ⟨hc, ?_⟩
    obtain ⟨h0, hsize⟩ := h.room hroom
    obtain ⟨t', hrun, -⟩ := Table.insert_spec h.table h0 hsize hk v
    have hcopy : (Table.insert strHash t (k.take (k.length % 2 ^ 32)) v (strHash k)).isSome :=
      Table.insert_isSome hrun
    obtain ⟨t'', hrun'⟩ := Option.isSome_iff_exists.mp hcopy
    refine ⟨t'', { a with calls := a.calls + 1 }, ?_⟩
    rw [insertCopy, strcopy_copied hc]
    dsimp only
    rw [hrun']
    rfl
  · exact .inr ⟨hc, _, insertCopy_not_copied v hc⟩

/-- The copy of the new key gets memory. -/
def KeyCopied (t : StrTable V) (k : StrKey) (a : Alloc) : Prop :=
  k.length + 4 + 1 < 2 ^ 63 ∧ a.grants (copyCall t a) = true

/-- **An insertion that returns false** leaves the table as it was if and only if a full table that gets new slots
gets copies of all its keys, or the key goes in after all. -/
theorem insert_false_iff {t : StrTable V} (h : t.Inv) {k : StrKey} (hk : k ∉ t.keys) (v : V) (a : Alloc) :
    (∃ r t' a', insert t k v a = some (r, t', a') ∧ (r = false → t'.pairs.Perm t.pairs)) ↔
      (t.isFull = true → Grows t a → ¬KeyCopied t k a → ∀ i < t.count, a.grants (a.calls + 1 + i) = true) := by
  cases hfull : t.isFull with
  | false =>
    have hroom : t.count < t.maxCount := by
      have := h.load
      have hne : t.count ≠ t.maxCount := by simpa [Table.isFull] using hfull
      omega
    refine iff_of_true ?_ (fun hf => absurd hf Bool.false_ne_true)
    rw [insert, insertRec_room hroom k v a 1]
    obtain ⟨-, t', a', hrun⟩ | ⟨-, a', hrun⟩ := insertCopy_cases h hk hroom v a
    · exact ⟨true, t', a', hrun, fun hr => absurd hr.symm Bool.false_ne_true⟩
    · exact ⟨false, t, a', hrun, fun _ => List.Perm.refl _⟩
  | true =>
    by_cases hg : Grows t a
    · obtain ⟨t₁, a₁, hins, hinv, hroom, hlater, hp⟩ := insert_grows h hfull hg k v
      have hk₁ : k ∉ t₁.keys := fun hm => hk <| by
        have hsub := (kept_sublist a.grants (a.calls + 1) t.pairs).subset
        exact List.map_subset _ hsub ((hp.map Prod.fst).mem_iff.mp hm)
      have hcopied : Copied k a₁ ↔ KeyCopied t k a := by
        have hcalls : a₁.calls = copyCall t a := by
          rw [hlater.calls, copyCall, hfull, if_pos rfl]
          omega
        rw [Copied, KeyCopied, hlater.grants, hcalls]
      rw [hins, ← hcopied]
      obtain ⟨hc, t', a', hrun⟩ | ⟨hc, a', hrun⟩ := insertCopy_cases hinv hk₁ hroom v a₁
      · exact iff_of_true ⟨true, t', a', hrun, fun hr => absurd hr.symm Bool.false_ne_true⟩
          fun _ _ hnot => absurd hc hnot
      · constructor
        · rintro ⟨r, t', a'', hrun', hperm⟩
          rw [hrun] at hrun'
          cases hrun'
          intro _ _ _
          have hlen := ((hperm rfl).symm.trans hp).length_eq
          rw [h.table.count_eq]
          exact (kept_length_eq_iff a.grants (a.calls + 1) t.pairs).mp hlen.symm
        · intro hall
          refine ⟨false, t₁, a', hrun, fun _ => ?_⟩
          rw [h.table.count_eq] at hall
          rw [kept_eq_self (hall rfl hg hc)] at hp
          exact hp
    · refine iff_of_true ⟨false, t, _, insert_not_grows h hfull hg k v, fun _ => List.Perm.refl _⟩ ?_
      exact fun _ hg' => absurd hg' hg

end StrTable

namespace Map

/-- A map with a well-formed table that has slots. -/
structure Inv (map : Map) : Prop where
  table : StrTable.Inv map.table
  slots : map.table.sizeLg2 ≠ 0

/-- `hpb_Map_Insert` returns, and if it reports that there is no memory, the entries are those from before. -/
def KeepsEntries (map : Map) (key val : MessageValue) (a : Alloc) : Prop :=
  ∃ status map' a', map.insert key val a = some (status, map', a') ∧
    (status = .outOfMemory → map'.table.pairs.Perm map.table.pairs)

/-- The arena after the value of an entry was stored. -/
def afterValue (map : Map) (a : Alloc) : Alloc := { a with calls := a.calls + (if map.valSize = 0 then 1 else 0) }

/-- The allocations of an insertion do no harm to the entries: a string value gets none, or: a key that is there
gets its new copy, and for one that is not, the table keeps its keys or takes the new one. -/
def Spares (map : Map) (k : StrKey) (a : Alloc) : Prop :=
  (map.valSize = 0 ∧ a.grants a.calls = false) ∨
    (k ∈ map.table.keys → StrTable.Copied k (map.afterValue a)) ∧
      (k ∉ map.table.keys → map.table.isFull = true → StrTable.Grows map.table (map.afterValue a) →
        ¬StrTable.KeyCopied map.table k (map.afterValue a) →
          ∀ i < map.table.count, a.grants ((map.afterValue a).calls + 1 + i) = true)

theorem tovalue_cases (map : Map) (val : MessageValue) (v : TabValue) (a : Alloc) :
    ((map.valSize = 0 ∧ a.grants a.calls = false) ∧ ∃ a', tovalue val map.valSize v (some a) = some (none, some a')) ∨
      ¬(map.valSize = 0 ∧ a.grants a.calls = false) ∧
        ∃ w, tovalue val map.valSize v (some a) = some (some w, some (map.afterValue a)) := by
  by_cases h0 : map.valSize = 0
  · cases hg : a.grants a.calls with
    | false =>
      refine .inl ⟨⟨h0, rfl⟩, { a with calls := a.calls + 1, failed := true }, ?_⟩
      simp [tovalue, h0, Alloc.malloc, hg]
    | true =>
      refine .inr ⟨by simp, .strp val, ?_⟩
      simp [tovalue, h0, Alloc.malloc, hg, afterValue]
  · exact .inr ⟨fun h => h0 h.1, _, by rw [tovalue, if_neg h0, afterValue, if_neg h0]; rfl⟩

/-- The outcome of an insertion, once its value is stored and the old entry of the key removed. -/
theorem insert_eq {map : Map} {key val : MessageValue} {a a₁ : Alloc} {w : TabValue}
    (hto : tovalue val map.valSize .zero (some a) = some (some w, some a₁)) {removed : Option TabValue}
    {t₁ t' : StrTable TabValue} (hrm : map.table.remove2 (tokey key map.keySize) = some (removed, t₁)) {r : Bool}
    {a' : Alloc} (hins : StrTable.insert t₁ (tokey key map.keySize) w a₁ = some (r, t', a')) :
    map.insert key val a =
      some (if r then (if removed.isSome then .replaced else .inserted) else .outOfMemory,
        { map with table := t' }, a') := by
  simp [insert, hto, hrm, hins]

theorem outOfMemory_iff {r : Bool} {removed : Option TabValue} :
    (if r then (if removed.isSome then MapInsertStatus.replaced else .inserted) else .outOfMemory) = .outOfMemory ↔
      r = false := by
  cases r
  · simp
  · cases removed <;> simp

/-- **`hpb_Map_Insert` keeps the entries** when it reports that there is no memory, if and only if its allocations
do no harm. -/
theorem insert_keeps_iff {map : Map} (h : map.Inv) (key val : MessageValue) (a : Alloc) :
    map.KeepsEntries key val a ↔ map.Spares (tokey key map.keySize) a := by
  obtain ⟨hnone, a₁, hto⟩ | ⟨hsome, w, hto⟩ := tovalue_cases map val .zero a
  · refine iff_of_true ⟨.outOfMemory, map, a₁, by simp [insert, hto], fun _ => List.Perm.refl _⟩ (.inl hnone)
  have hspares : map.Spares (tokey key map.keySize) a ↔
      (tokey key map.keySize ∈ map.table.keys → StrTable.Copied (tokey key map.keySize) (map.afterValue a)) ∧
      (tokey key map.keySize ∉ map.table.keys → map.table.isFull = true →
        StrTable.Grows map.table (map.afterValue a) →
        ¬StrTable.KeyCopied map.table (tokey key map.keySize) (map.afterValue a) →
          ∀ i < map.table.count, a.grants ((map.afterValue a).calls + 1 + i) = true) :=
    or_iff_right hsome
  rw [hspares]
  obtain ⟨hrm, hk⟩ | ⟨v, t₁, hrm, hinv, hp, hlg⟩ := StrTable.remove2_run h.table h.slots (tokey key map.keySize)
  · have hfalse := StrTable.insert_false_iff h.table hk w (map.afterValue a)
    rw [and_iff_right fun hmem => absurd hmem hk, forall_prop_of_true hk]
    refine Iff.trans ?_ hfalse
    constructor
    · rintro ⟨status, map', a', hrun, hkeep⟩
      cases hins : StrTable.insert map.table (tokey key map.keySize) w (map.afterValue a) with
      | none => simp [insert, hto, hrm, hins] at hrun
      | some r =>
        obtain ⟨r, t', a''⟩ := r
        rw [insert_eq hto hrm hins] at hrun
        cases hrun
        exact ⟨r, t', a', rfl, fun hr => hkeep (outOfMemory_iff.mpr hr)⟩
    · rintro ⟨r, t', a', hins, hkeep⟩
      exact ⟨_, _, _, insert_eq hto hrm hins, fun hs => hkeep (outOfMemory_iff.mp hs)⟩
  · -- the old entry is gone before the new one is made
    have hmem : tokey key map.keySize ∈ map.table.keys := by
      rw [Table.keys, (hp.map Prod.fst).mem_iff]
      exact List.mem_cons_self
    have hk₁ : tokey key map.keySize ∉ t₁.keys := by
      have hnd := ((hp.map Prod.fst).nodup_iff).mp h.table.table.nodup
      exact (List.nodup_cons.mp hnd).1
    have hlen := hp.length_eq
    rw [List.length_cons, ← h.table.table.count_eq, ← hinv.table.count_eq] at hlen
    have hroom : t₁.count < t₁.maxCount := by
      have hload := h.table.load
      have hmax : t₁.maxCount = map.table.maxCount := by
        rw [hinv.table.max_eq, h.table.table.max_eq, Table.size, Table.size, hlg]
      omega
    have hrec : StrTable.insert t₁ (tokey key map.keySize) w (map.afterValue a) =
        StrTable.insertCopy t₁ (tokey key map.keySize) w (map.afterValue a) := StrTable.insertRec_room hroom _ _ _ 1
    rw [and_iff_left fun hnot => absurd hmem hnot, forall_prop_of_true hmem]
    obtain ⟨hc, t', a', hrun⟩ | ⟨hc, a', hrun⟩ := StrTable.insertCopy_cases hinv hk₁ hroom w (map.afterValue a)
    · refine iff_of_true ⟨_, _, _, insert_eq hto hrm (hrec.trans hrun), fun hs => ?_⟩ hc
      cases outOfMemory_iff.mp hs
    · refine iff_of_false ?_ hc
      rintro ⟨status, map', a'', hins, hkeep⟩
      rw [insert_eq hto hrm (hrec.trans hrun)] at hins
      cases hins
      have hlost := (hkeep rfl).length_eq
      rw [← h.table.table.count_eq] at hlost
      change t₁.pairs.length = map.table.count at hlost
      rw [← hinv.table.count_eq] at hlost
      omega

/-- One call keeps the table well formed, whatever the allocations do. -/
theorem call_inv {s s' : Map × Alloc} {c : MapCall} {ev : MapEvent} (h : Map.Inv s.1) (hc : Callable s.1 c)
    (hrun : call s c = some (ev, s')) : Map.Inv s'.1 := by
  obtain ⟨map, a⟩ := s
  cases c with
  | insert key val =>
    obtain ⟨hkey, -, hlen⟩ := hc
    obtain ⟨r, hr, hrun⟩ := Option.bind_eq_some_iff.mp hrun
    cases hrun
    obtain ⟨-, a₁, hto⟩ | ⟨-, w, hto⟩ := tovalue_cases map val .zero a
    · simp only [insert, hto, Option.bind_eq_bind, Option.bind_some, Option.pure_def, Option.some.injEq] at hr
      cases hr
      exact h
    · have hins : ∀ t, StrTable.Inv t → tokey key map.keySize ∉ Table.keys t → t.sizeLg2 = map.table.sizeLg2 →
          ∀ removed, map.table.remove2 (tokey key map.keySize) = some (removed, t) → Map.Inv r.2.1 := by
        intro t hinv hk hlg removed hrm
        obtain ⟨ok, t', a', hi⟩ := StrTable.insert_run hinv hk (by rwa [tokey_eq hkey]) w (map.afterValue a)
        rw [insert_eq hto hrm hi.run] at hr
        cases hr
        refine ⟨hi.inv, ?_⟩
        have := hi.lg2_le
        have hslots := h.slots
        dsimp only at hslots ⊢
        omega
      obtain ⟨hrm, hk⟩ | ⟨v, t₁, hrm, hinv, hp, hlg⟩ := StrTable.remove2_run h.table h.slots (tokey key map.keySize)
      · exact hins _ h.table hk rfl _ hrm
      · have hnd := ((hp.map Prod.fst).nodup_iff).mp h.table.table.nodup
        exact hins _ hinv (List.nodup_cons.mp hnd).1 hlg _ hrm
  | get key val =>
    obtain ⟨r, -, hrun⟩ := Option.bind_eq_some_iff.mp hrun
    cases hrun
    exact h
  | delete key val v =>
    obtain ⟨r, hr, hrun⟩ := Option.bind_eq_some_iff.mp hrun
    cases hrun
    obtain ⟨q, hrm, hr⟩ := Option.bind_eq_some_iff.mp hr
    have hq : Map.Inv { map with table := q.2 } := by
      obtain ⟨hrm', -⟩ | ⟨v', t₁, hrm', hinv, -, hlg⟩ :=
        StrTable.remove2_run h.table h.slots (tokey key map.keySize)
      · rw [hrm'] at hrm
        cases hrm
        exact h
      · rw [hrm'] at hrm
        cases hrm
        exact ⟨hinv, by dsimp only; rw [hlg]; exact h.slots⟩
    dsimp only at hr
    split at hr
    · obtain ⟨out, -, hr⟩ := Option.bind_eq_some_iff.mp hr
      cases hr
      exact hq
    · cases hr
      exact hq
  | next iter =>
    obtain ⟨r, -, hrun⟩ := Option.bind_eq_some_iff.mp hrun
    cases hrun
    exact h
  | iterate =>
    obtain ⟨r, -, hrun⟩ := Option.bind_eq_some_iff.mp hrun
    cases hrun
    exact h
  | setEntryValue iter val v =>
    obtain ⟨map', hr, hrun⟩ := Option.bind_eq_some_iff.mp hrun
    cases hrun
    obtain ⟨q, -, hr⟩ := Option.bind_eq_some_iff.mp hr
    obtain ⟨t', ht, hr⟩ := Option.bind_eq_some_iff.mp hr
    cases hr
    obtain ⟨⟨k, w⟩, hp⟩ := Option.isSome_iff_exists.mp hc.1
    obtain ⟨t'', hset, hinv, -⟩ := StrTable.setEntryValue_run h.table hp (q.1.getD (.word v))
    rw [ht] at hset
    cases hset
    obtain ⟨e, -, ht⟩ := Option.bind_eq_some_iff.mp ht
    cases ht
    exact ⟨hinv, h.slots⟩
  | clear =>
    cases hrun
    exact ⟨(StrTable.clear_stands h.table).inv, h.slots⟩
  | size =>
    cases hrun
    exact h

/-- Every map that is reached has a well-formed table with slots. -/
theorem calls_reached {s : Map × Alloc} (h : calls.Reached Fresh s) : Map.Inv s.1 :=
  h.invariant (I := fun s => Map.Inv s.1) (fun _ hs => ⟨(fresh_stands hs).table.inv, (fresh_stands hs).slots⟩)
    fun _ _ _ _ hinv hc hrun => call_inv hinv hc hrun

end Map

/-- A string table with two slots and no keys. -/
theorem twoSlots_inv : StrTable.Inv (Table.empty 1 : StrTable UInt64) where
  table := Table.empty_inv (by decide)
  load := Nat.zero_le _
  short := by simp [Table.keys]

end Hpb
