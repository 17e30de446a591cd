import Hpb.Hash.StrTableMap

/-!
# Insertion into a string table without memory

The allocations of `hpb_strtable_insert` one by one: the slots of the larger table, a copy of every key that is
already there, and the copy of the new key. `hpb_strtable_resize` ignores the results of its insertions, so a key
whose copy gets no memory is lost.

* `StrTable.Atomic`: the key is added, or nothing changes;
* `StrTable.insert_atomic_iff`: an insertion is atomic if and only if the table is not full, or gets no memory for
  its new slots, or gets memory for the copies of all its keys, and the new key is short enough.
-/

namespace Hpb

namespace StrTable

variable {V : Type} [Inhabited V]

/-- The arena after some calls. -/
structure Later (a a' : Alloc) (n : Nat) : Prop where
  grants : a'.grants = a.grants
  calls : a'.calls = a.calls + n

/-- The pairs whose copies get memory, the first of them with call `n`. -/
def kept (grants : Nat → Bool) : Nat → List (StrKey × V) → List (StrKey × V)
  | _, [] => []
  | n, p :: ps => if grants n then p :: kept grants (n + 1) ps else kept grants (n + 1) ps

omit [Inhabited V] in
theorem kept_length_le (grants : Nat → Bool) (n : Nat) (ps : List (StrKey × V)) :
    (kept grants n ps).length ≤ ps.length := by
  induction ps generalizing n with
  | nil => exact Nat.le_refl _
  | cons p ps ih =>
    have := ih (n + 1)
    rw [kept]
    split
    · simp only [List.length_cons]
      omega
    · simp only [List.length_cons]
      omega

omit [Inhabited V] in
/-- All pairs are kept if and only if all copies get memory. -/
theorem kept_length_eq_iff (grants : Nat → Bool) (n : Nat) (ps : List (StrKey × V)) :
    (kept grants n ps).length = ps.length ↔ ∀ i < ps.length, grants (n + i) = true := by
  induction ps generalizing n with
  | nil => simp [kept]
  | cons p ps ih =>
    have hall : (∀ i < ps.length + 1, grants (n + i) = true) ↔
        grants n = true ∧ ∀ i < ps.length, grants (n + 1 + i) = true := by
      constructor
      · intro h
        refine ⟨h 0 (Nat.succ_pos _), fun i hi => ?_⟩
        have := h (i + 1) (by omega)
        rwa [show n + (i + 1) = n + 1 + i by omega] at this
      · rintro ⟨h0, h⟩ i hi
        cases i with
        | zero => exact h0
        | succ i =>
          rw [show n + (i + 1) = n + 1 + i by omega]
          exact h i (by omega)
    rw [kept, List.length_cons, hall]
    cases hg : grants n with
    | true =>
      rw [if_pos rfl, List.length_cons, ← ih (n + 1)]
      simp
    | false =>
      have := kept_length_le grants (n + 1) ps
      simp only [Bool.false_eq_true, if_false, false_and, iff_false]
      omega

omit [Inhabited V] in
theorem kept_eq_self {grants : Nat → Bool} {n : Nat} {ps : List (StrKey × V)}
    (h : ∀ i < ps.length, grants (n + i) = true) : kept grants n ps = ps := by
  induction ps generalizing n with
  | nil => rfl
  | cons p ps ih =>
    have h0 : grants n = true := h 0 (Nat.succ_pos _)
    rw [kept, if_pos h0, ih fun i hi => ?_]
    have := h (i + 1) (Nat.succ_lt_succ hi)
    rwa [show n + (i + 1) = n + 1 + i by omega] at this

/-- The copy of a key gets memory. -/
def Copied (k : StrKey) (a : Alloc) : Prop := k.length + 4 + 1 < 2 ^ 63 ∧ a.grants a.calls = true

theorem strcopy_copied {k : StrKey} {a : Alloc} (h : Copied k a) :
    strcopy k a = (some (k.take (k.length % 2 ^ 32)), { a with calls := a.calls + 1 }) := by
  unfold Copied at h
  rw [strcopy, Alloc.malloc, if_pos h]

theorem strcopy_not_copied {k : StrKey} {a : Alloc} (h : ¬Copied k a) :
    strcopy k a = (none, { a with calls := a.calls + 1, failed := true }) := by
  unfold Copied at h
  rw [strcopy, Alloc.malloc, if_neg h]

omit [Inhabited V] in
/-- The copy of a short key, entered into a table below its load limit. -/
theorem insertCopy_copied {t : StrTable V} (h : t.Inv) {k : StrKey} (hk : k ∉ t.keys) (hlen : k.length < 2 ^ 32)
    (hroom : t.count < t.maxCount) (v : V) {a : Alloc} (hc : Copied k a) :
    ∃ t', insertCopy t k v a = some (true, t', { a with calls := a.calls + 1 }) ∧ StrTable.Inv t' ∧
      t'.pairs.Perm ((k, v) :: t.pairs) ∧ t'.sizeLg2 = t.sizeLg2 ∧ t'.count = t.count + 1 := by
  obtain ⟨h0, hsize⟩ := h.room hroom
  obtain ⟨t', hrun, hinv, hp, hs, hcount⟩ := Table.insert_spec h.table h0 hsize hk v
  obtain ⟨r, t'', a', hi, -⟩ := insertCopy_run h hk hlen hroom v a
  have heq : insertCopy t k v a = some (true, t', { a with calls := a.calls + 1 }) := by
    rw [insertCopy, strcopy_copied hc, Nat.mod_eq_of_lt hlen, List.take_length]
    simp [hrun]
  have hinv' := hi.inv
  have hrun' := hi.run
  rw [heq] at hrun'
  cases hrun'
  exact ⟨t', heq, hinv', hp, hs, hcount⟩

omit [Inhabited V] in
theorem insertCopy_not_copied {t : StrTable V} {k : StrKey} (v : V) {a : Alloc} (hc : ¬Copied k a) :
    insertCopy t k v a = some (false, t, { a with calls := a.calls + 1, failed := true }) := by
  rw [insertCopy, strcopy_not_copied hc]

/-- **The loop of `hpb_strtable_resize`** keeps the pairs whose copies get memory. -/
theorem reinsert_kept (ps : List (StrKey × V)) {t : StrTable V} {a : Alloc} (h : t.Inv)
    (hd : ((ps ++ t.pairs).map Prod.fst).Nodup) (hshort : ∀ p ∈ ps, p.1.length < 2 ^ 32)
    (hroom : t.count + ps.length ≤ t.maxCount) :
    ∃ t' a', ps.foldlM (reinsert (insertRec 1)) (t, a) = some (t', a') ∧ StrTable.Inv t' ∧ Later a a' ps.length ∧
      t'.pairs.Perm (kept a.grants a.calls ps ++ t.pairs) ∧ t'.sizeLg2 = t.sizeLg2 := by
  induction ps generalizing t a with
  | nil => exact ⟨t, a, rfl, h, ⟨rfl, rfl⟩, List.Perm.refl _, rfl⟩
  | cons p ps ih =>
    obtain ⟨k, v⟩ := p
    rw [List.length_cons] at hroom ⊢
    rw [List.cons_append, List.map_cons, List.nodup_cons] at hd
    have hk : k ∉ t.keys := fun hmem => hd.1 (by
      rw [List.map_append]
      exact List.mem_append_right _ hmem)
    have hlen := hshort (k, v) List.mem_cons_self
    have hshort' : ∀ p ∈ ps, p.1.length < 2 ^ 32 := fun p hp => hshort p (List.mem_cons_of_mem _ hp)
    have hrec : insertRec 1 t k v a = insertCopy t k v a := insertRec_room (by omega) k v a 0
    cases hg : a.grants a.calls with
    | true =>
      obtain ⟨t₁, hrun, hinv, hp, hlg, hcount⟩ := insertCopy_copied h hk hlen (by omega) v
        (a := a) ⟨by simp only at hlen; omega, hg⟩
      have hmax : t₁.maxCount = t.maxCount := by
        rw [hinv.table.max_eq, h.table.max_eq, Table.size, Table.size, hlg]
      have hd₁ : ((ps ++ t₁.pairs).map Prod.fst).Nodup := by
        refine ((((hp.append_left ps).trans List.perm_middle).map Prod.fst).nodup_iff).mpr ?_
        exact List.nodup_cons.mpr hd
      obtain ⟨t', a', hrun', hinv', hlater, hp', hlg'⟩ :=
        ih (a := { a with calls := a.calls + 1 }) hinv hd₁ hshort' (by omega)
      refine ⟨t', a', ?_, hinv', ⟨hlater.grants, by have := hlater.calls; simp only at this; omega⟩, ?_,
        hlg'.trans hlg⟩
      · rw [List.foldlM_cons, reinsert, hrec, hrun]
        exact hrun'
      · rw [kept, if_pos hg]
        exact hp'.trans ((hp.append_left _).trans List.perm_middle)
    | false =>
      have hnot : ¬Copied k a := fun hc => by
        rw [hc.2] at hg
        cases hg
      obtain ⟨t', a', hrun', hinv', hlater, hp', hlg'⟩ :=
        ih (a := { a with calls := a.calls + 1, failed := true }) h (List.nodup_cons.mpr hd).of_cons hshort' (by omega)
      refine ⟨t', a', ?_, hinv', ⟨hlater.grants, by have := hlater.calls; simp only at this; omega⟩, ?_, hlg'⟩
      · rw [List.foldlM_cons, reinsert, hrec, insertCopy_not_copied v hnot]
        exact hrun'
      · rw [kept, hg]
        exact hp'

/-- The new slots that a full table asks for get memory. -/
def Grows (t : StrTable V) (a : Alloc) : Prop := t.sizeLg2 < 30 ∧ a.grants a.calls = true

/-- The allocation of the slots of a larger table. -/
theorem init_grows {s : Nat} (hs : s ≤ 30) (a : Alloc) :
    (Table.init (s + 1) a : Option (Option (StrTable V) × Alloc)) =
      if s < 30 ∧ a.grants a.calls = true then some (some (Table.empty (s + 1)), { a with calls := a.calls + 1 })
      else some (none, { a with calls := a.calls + 1, failed := true }) := by
  rw [Table.init, if_neg (by omega)]
  by_cases h30 : s < 30
  · have hpow : 2 ^ (s + 1) ≤ 2 ^ 30 := Nat.pow_le_pow_right (by decide) (by omega)
    have hone : 0 < 2 ^ (s + 1) := Nat.two_pow_pos _
    have hsize : tableSize (s + 1) = 2 ^ (s + 1) := Table.tableSize_eq (Nat.succ_ne_zero _) (by omega)
    have hbytes : tableSize (s + 1) * tabentBytes % 2 ^ 64 = 2 ^ (s + 1) * 24 := by
      rw [hsize, tabentBytes]
      omega
    have hlt : 2 ^ (s + 1) * 24 < 2 ^ 63 := by omega
    rw [hbytes, if_pos (by omega), Alloc.malloc]
    cases hg : a.grants a.calls with
    | true => rw [if_pos ⟨hlt, rfl⟩, if_pos ⟨h30, rfl⟩]
    | false => rw [if_neg (by simp), if_neg (by simp)]
  · have hs30 : s = 30 := by omega
    subst hs30
    have hbytes : tableSize (30 + 1) * tabentBytes % 2 ^ 64 = 2 ^ 64 - 24 * 2 ^ 31 := by decide
    rw [hbytes, if_pos (by decide), Alloc.malloc, if_neg (by omega), if_neg (by omega)]

/-- An insertion into a full table that gets its new slots: the keys are copied, then the new one. -/
theorem insert_grows {t : StrTable V} (h : t.Inv) (hfull : t.isFull = true) {a : Alloc} (hg : Grows t a)
    (k : StrKey) (v : V) :
    ∃ t₁ a₁, insert t k v a = insertCopy t₁ k v a₁ ∧ StrTable.Inv t₁ ∧ t₁.count < t₁.maxCount ∧
      Later a a₁ (1 + t.count) ∧ t₁.pairs.Perm (kept a.grants (a.calls + 1) t.pairs) := by
  obtain ⟨h30, hgrant⟩ := hg
  have hcount : t.count = t.maxCount := by simpa [Table.isFull] using hfull
  have hlen := h.table.count_eq
  have hdouble := Table.maxCount_double (s := t.sizeLg2) (by omega)
  have hmax := h.table.max_eq
  rw [Table.size] at hmax
  have hempty : StrTable.Inv (Table.empty (t.sizeLg2 + 1) : StrTable V) :=
    { table := Table.empty_inv (by omega)
      load := Nat.zero_le _
      short := by simp [Table.keys] }
  have hroom : (Table.empty (t.sizeLg2 + 1) : StrTable V).count + t.pairs.length ≤
      (Table.empty (t.sizeLg2 + 1) : StrTable V).maxCount := by
    change 0 + t.pairs.length ≤ tableSize (t.sizeLg2 + 1) * 17 / 20
    omega
  obtain ⟨t₁, a₁, hrun, hinv, hlater, hp, hlg⟩ := reinsert_kept t.pairs (a := { a with calls := a.calls + 1 }) hempty
    (by rw [Table.empty_pairs, List.append_nil]; exact h.table.nodup) (fun p hp => h.short p.1 (List.mem_map_of_mem hp)) hroom
  have hinit := init_grows (V := V) (Nat.le_of_lt h30) a
  rw [if_pos ⟨h30, hgrant⟩] at hinit
  have hmod : (t.sizeLg2 + 1) % 256 = t.sizeLg2 + 1 := by omega
  refine ⟨t₁, a₁, ?_, hinv, ?_, ⟨hlater.grants, ?_⟩, by simpa using hp⟩
  · rw [insert, insertRec, if_pos hfull, resizeWith, hmod, hinit]
    simp [Table.forEach_spec h.table.length_eq, hrun]
  · have hle := kept_length_le a.grants (a.calls + 1) t.pairs
    have hcount₁ := hinv.table.count_eq
    have hlen₁ := hp.length_eq
    rw [Table.empty_pairs, List.append_nil] at hlen₁
    dsimp only at hlen₁
    rw [hinv.table.max_eq, Table.size, hlg]
    change t₁.count < tableSize (t.sizeLg2 + 1) * 17 / 20
    omega
  · have := hlater.calls
    dsimp only at this
    omega

/-- A full table that gets no new slots stays as it is. -/
theorem insert_not_grows {t : StrTable V} (h : t.Inv) (hfull : t.isFull = true) {a : Alloc} (hg : ¬Grows t a)
    (k : StrKey) (v : V) :
    insert t k v a = some (false, t, { a with calls := a.calls + 1, failed := true }) := by
  have hlg := h.table.lg2_le
  have hinit := init_grows (V := V) hlg a
  unfold Grows at hg
  rw [if_neg hg] at hinit
  have hmod : (t.sizeLg2 + 1) % 256 = t.sizeLg2 + 1 := by omega
  rw [insert, insertRec, if_pos hfull, resizeWith, hmod, hinit]
  rfl

/-- What an insertion into a table with the pairs `ps` may end with: the key is added, or nothing changes. -/
def Atomic (ps : List (StrKey × V)) (k : StrKey) (v : V) : Option (Bool × StrTable V × Alloc) → Prop
  | none => False
  | some (true, t, _) => t.pairs.Perm ((k, v) :: ps)
  | some (false, t, _) => t.pairs.Perm ps

omit [Inhabited V] in
theorem kept_sublist (grants : Nat → Bool) (n : Nat) (ps : List (StrKey × V)) : (kept grants n ps).Sublist ps := by
  induction ps generalizing n with
  | nil => exact List.Sublist.refl _
  | cons p ps ih =>
    rw [kept]
    split
    · exact (ih (n + 1)).cons_cons p
    · exact (ih (n + 1)).cons p

end StrTable

namespace Table

variable {K V : Type} {es : List (TabEnt K V)} {i : Nat} {e : TabEnt K V} {ps : List (K × V)}

/-- A slot is overwritten: no other pair comes in. -/
theorem pairs_set_subset (hes : es.filterMap TabEnt.pair ⊆ ps) (he : ∀ p, e.pair = some p → p ∈ ps) :
    (es.set i e).filterMap TabEnt.pair ⊆ ps := by
  intro p hp
  obtain ⟨x, hx, hxp⟩ := List.mem_filterMap.mp hp
  obtain hx | rfl := List.mem_or_eq_of_mem_set hx
  · exact hes (List.mem_filterMap.mpr ⟨x, hx, hxp⟩)
  · exact he p hxp

theorem pair_mem (he : es[i]? = some e) {p : K × V} (hp : e.pair = some p) : p ∈ es.filterMap TabEnt.pair :=
  List.mem_filterMap.mpr ⟨e, List.mem_of_getElem? he, hp⟩

/-- Whatever the hash, an insertion brings no pair but its own. -/
theorem insert_subset {hashfunc : K → Nat} {t t' : Table K V} {k : K} {v : V} {hash : Nat}
    (h : insert hashfunc t k v hash = some t') : t'.pairs ⊆ (k, v) :: t.pairs := by
  have hours : ∀ (next : Option Nat) (p : K × V), TabEnt.pair ⟨some k, v, next⟩ = some p → p ∈ (k, v) :: t.pairs := by
    intro next p hp
    cases hp
    exact List.mem_cons_self
  have hold : t.entries.filterMap TabEnt.pair ⊆ (k, v) :: t.pairs := List.subset_cons_self _ _
  obtain ⟨e, he, h⟩ := Option.bind_eq_some_iff.mp h
  have hpair : ∀ p, e.pair = some p → p ∈ (k, v) :: t.pairs := fun p hp => hold (pair_mem he hp)
  cases hkey : e.key with
  | none =>
    simp only [hkey] at h
    cases h
    exact pairs_set_subset hold (hours none)
  | some k' =>
    simp only [hkey] at h
    obtain ⟨new, -, h⟩ := Option.bind_eq_some_iff.mp h
    split at h
    · cases h
      refine pairs_set_subset (pairs_set_subset hold (hours _)) fun p hp => hpair p ?_
      simpa [TabEnt.pair, hkey] using hp
    · obtain ⟨prev, -, h⟩ := Option.bind_eq_some_iff.mp h
      obtain ⟨pe, hpe, h⟩ := Option.bind_eq_some_iff.mp h
      cases h
      have hes := pairs_set_subset (i := new) hold hpair
      exact pairs_set_subset (pairs_set_subset hes fun p hp => hes (pair_mem hpe hp)) (hours none)

end Table

namespace StrTable

variable {V : Type} [Inhabited V]

omit [Inhabited V] in
/-- The last step of an insertion, into a table that has kept some of the pairs. -/
theorem insertCopy_atomic_iff {ps : List (StrKey × V)} {q : List (StrKey × V)} (hq : q.Sublist ps) {t : StrTable V}
    (h : t.Inv) (hp : t.pairs.Perm q) {k : StrKey} (hk : k ∉ t.keys) (hroom : t.count < t.maxCount) (v : V)
    (a : Alloc) :
    Atomic ps k v (insertCopy t k v a) ↔ q.length = ps.length ∧ (Copied k a → k.length < 2 ^ 32) := by
  by_cases hc : Copied k a
  · by_cases hlen : k.length < 2 ^ 32
    · obtain ⟨t', hrun, -, hp', -⟩ := insertCopy_copied h hk hlen hroom v hc
      rw [hrun, Atomic]
      constructor
      · intro hperm
        have h₁ := hperm.length_eq
        have h₂ := hp'.length_eq
        have h₃ := hp.length_eq
        simp only [List.length_cons] at h₁ h₂
        exact ⟨by omega, fun _ => hlen⟩
      · rintro ⟨hql, -⟩
        obtain rfl := hq.eq_of_length hql
        exact hp'.trans (hp.cons _)
    · refine iff_of_false (fun hat => ?_) fun hand => hlen (hand.2 hc)
      rw [insertCopy, strcopy_copied hc] at hat
      dsimp only at hat
      cases hins : Table.insert strHash t (k.take (k.length % 2 ^ 32)) v (strHash k) with
      | none =>
        rw [hins] at hat
        exact hat
      | some t' =>
        rw [hins] at hat
        have hmem : (k, v) ∈ t'.pairs := List.Perm.mem_iff hat |>.mpr List.mem_cons_self
        obtain heq | hold := List.mem_cons.mp (Table.insert_subset hins hmem)
        · have hlk := congrArg (fun p => p.1.length) heq
          simp only [List.length_take] at hlk
          omega
        · exact hk (List.mem_map_of_mem hold)
  · rw [insertCopy_not_copied v hc, Atomic]
    constructor
    · intro hperm
      have h₁ := hperm.length_eq
      have h₂ := hp.length_eq
      exact ⟨by omega, fun h => absurd h hc⟩
    · rintro ⟨hql, -⟩
      obtain rfl := hq.eq_of_length hql
      exact hp

/-- The call that copies the new key. -/
def copyCall (t : StrTable V) (a : Alloc) : Nat := if t.isFull then a.calls + 1 + t.count else a.calls

/-- The allocations of an insertion do no harm: a full table that gets new slots also gets copies of all its keys,
and the new key gets a copy only if its length is a `uint32_t`. -/
structure Safe (t : StrTable V) (k : StrKey) (a : Alloc) : Prop where
  moved : t.isFull = true → Grows t a → ∀ i < t.count, a.grants (a.calls + 1 + i) = true
  short : (t.isFull = true → Grows t a) → k.length + 4 + 1 < 2 ^ 63 → a.grants (copyCall t a) = true →
    k.length < 2 ^ 32

/-- **An insertion is atomic** if and only if its allocations do no harm. -/
theorem insert_atomic_iff {t : StrTable V} (h : t.Inv) {k : StrKey} (hk : k ∉ t.keys) (v : V) (a : Alloc) :
    Atomic t.pairs k v (insert t k v a) ↔ Safe t k a := by
  cases hfull : t.isFull with
  | false =>
    have hroom : t.count < t.maxCount := by
      have := h.load
      have hne : t.count ≠ t.maxCount := by simpa [Table.isFull] using hfull
      omega
    have hcall : copyCall t a = a.calls := by rw [copyCall, hfull, if_neg Bool.false_ne_true]
    rw [insert, insertRec_room hroom k v a 1,
      insertCopy_atomic_iff (List.Sublist.refl _) h (List.Perm.refl _) hk hroom]
    constructor
    · rintro ⟨-, hs⟩
      refine ⟨fun hf => ?_, fun _ hlen hg => hs ⟨hlen, hcall ▸ hg⟩⟩
      rw [hfull] at hf
      cases hf
    · intro hs
      refine ⟨rfl, fun hc => hs.short (fun hf => ?_) hc.1 (hcall.symm ▸ hc.2)⟩
      rw [hfull] at hf
      cases hf
  | true =>
    have hcall : copyCall t a = a.calls + 1 + t.count := by rw [copyCall, hfull, if_pos rfl]
    by_cases hg : Grows t a
    · obtain ⟨t₁, a₁, hrun, hinv, hroom, hlater, hp⟩ := insert_grows h hfull hg k v
      have hk₁ : k ∉ t₁.keys := fun hm => hk <| by
        have hsub := (kept_sublist a.grants (a.calls + 1) t.pairs).subset
        exact List.map_subset _ hsub ((hp.map Prod.fst).mem_iff.mp hm)
      have hcalls : a₁.calls = copyCall t a := by
        rw [hlater.calls, hcall]
        omega
      have hcopied : Copied k a₁ ↔ k.length + 4 + 1 < 2 ^ 63 ∧ a.grants (copyCall t a) = true := by
        rw [Copied, hlater.grants, hcalls]
      rw [hrun, insertCopy_atomic_iff (kept_sublist _ _ _) hinv hp hk₁ hroom, kept_length_eq_iff, hcopied,
        ← h.table.count_eq]
      constructor
      · rintro ⟨hall, hs⟩
        exact ⟨fun _ _ => hall, fun _ hlen hgr => hs ⟨hlen, hgr⟩⟩
      · intro hs
        exact ⟨hs.moved hfull hg, fun hc => hs.short (fun _ => hg) hc.1 hc.2⟩
    · rw [insert_not_grows h hfull hg]
      refine iff_of_true (List.Perm.refl _) ⟨fun _ hg' => absurd hg' hg, fun hg' => absurd (hg' hfull) hg⟩

end StrTable

end Hpb
