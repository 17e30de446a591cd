import Hpb.Hash.StrTable

/-!
# `hpb_strtable` refines a finite map

`StrTable.Stands t m` relates a table to the finite map it holds. Each operation keeps it
(`insert_run`, `remove2_run`, `resize_run`, ...), as long as no allocation fails; and then a whole
run of operations answers as the map does (`strtable_refines_map`).

Two things are outside of this. `remove2` reads the main position of its key without checking that
there are slots at all, so it needs a table that has some (`Supported`). And `strcopy` keeps the
length of a key as a `uint32_t`, so a key must be shorter than `2 ^ 32` bytes.
-/

namespace Hpb

namespace StrTable

variable {V : Type} [Inhabited V]

/-- The invariant of a string table: within its load limit, and no stored key was truncated. -/
structure Inv (t : StrTable V) : Prop where
  table : Table.Inv strHash t
  load : t.count ≤ t.maxCount
  short : ∀ k ∈ t.keys, k.length < 2 ^ 32

/-- `t` holds the finite map `m`. -/
structure Stands (t : StrTable V) (m : Finmap fun _ : StrKey => V) : Prop where
  inv : t.Inv
  listing : Listing t.pairs m

omit [Inhabited V] in
/-- A table below its load limit has a slot to spare. -/
theorem Inv.room {t : StrTable V} (h : t.Inv) (hfull : t.count < t.maxCount) :
    t.sizeLg2 ≠ 0 ∧ t.count < t.size := by
  have hmax := h.table.max_eq
  refine ⟨fun h0 => ?_, by omega⟩
  have hsize : t.size = 0 := by simp [Table.size, tableSize, h0]
  omega

theorem malloc_cases (a : Alloc) (n : Nat) :
    (∃ a', a.malloc n = (false, a') ∧ a'.failed = true) ∨
      ∃ a', a.malloc n = (true, a') ∧ a'.failed = a.failed := by
  rw [Alloc.malloc]
  by_cases hg : n < 2 ^ 63 ∧ a.grants a.calls = true
  · rw [if_pos hg]
    exact .inr ⟨_, rfl, rfl⟩
  · rw [if_neg hg]
    exact .inl ⟨_, rfl, rfl⟩

theorem strcopy_cases {k : StrKey} (hk : k.length < 2 ^ 32) (a : Alloc) :
    (∃ a', strcopy k a = (none, a') ∧ a'.failed = true) ∨
      ∃ a', strcopy k a = (some k, a') ∧ a'.failed = a.failed := by
  obtain ⟨a', ha, hf⟩ | ⟨a', ha, hf⟩ := malloc_cases a (k.length + 4 + 1)
  · exact .inl ⟨a', by simp [strcopy, ha], hf⟩
  · refine .inr ⟨a', ?_, hf⟩
    rw [strcopy, ha, Nat.mod_eq_of_lt hk, List.take_length]

/-- What one insertion into `t` gives, whether or not the allocations succeed: the table keeps its
invariant and gets no pair from elsewhere, and without a failed allocation it gets the new pair. -/
structure Inserted (t : StrTable V) (k : StrKey) (v : V) (a : Alloc)
    (res : Option (Bool × StrTable V × Alloc)) (r : Bool) (t' : StrTable V) (a' : Alloc) :
    Prop where
  run : res = some (r, t', a')
  inv : t'.Inv
  subset : t'.pairs ⊆ (k, v) :: t.pairs
  count_le : t'.count ≤ t.count + 1
  lg2_le : t.sizeLg2 ≤ t'.sizeLg2
  ok : a'.failed = false → a.failed = false ∧ r = true ∧ t'.pairs.Perm ((k, v) :: t.pairs)

omit [Inhabited V] in
/-- Insertion into a table below its load limit. -/
theorem insertCopy_run {t : StrTable V} (h : t.Inv) {k : StrKey} (hk : k ∉ t.keys)
    (hlen : k.length < 2 ^ 32) (hroom : t.count < t.maxCount) (v : V) (a : Alloc) :
    ∃ r t' a', Inserted t k v a (insertCopy t k v a) r t' a' ∧ t'.sizeLg2 = t.sizeLg2 := by
  obtain ⟨h0, hsize⟩ := h.room hroom
  obtain ⟨t', hrun, hinv, hp, hs, hc⟩ := Table.insert_spec h.table h0 hsize hk v
  obtain ⟨a', ha, hf⟩ | ⟨a', ha, hf⟩ := strcopy_cases hlen a
  · refine ⟨false, t, a', ⟨by rw [insertCopy, ha], h, List.subset_cons_self _ _, by omega, Nat.le_refl _,
      fun h => ?_⟩, rfl⟩
    rw [hf] at h
    cases h
  · refine ⟨true, t', a', ⟨by simp [insertCopy, ha, hrun], ⟨hinv, ?_, fun k' hk' => ?_⟩,
      hp.subset, hc.le, hs.ge, fun h => ⟨hf ▸ h, rfl, hp⟩⟩, hs⟩
    · have hmax : t'.maxCount = t.maxCount := by
        rw [hinv.max_eq, h.table.max_eq, Table.size, Table.size, hs]
      omega
    · rw [Table.keys, (hp.map Prod.fst).mem_iff, List.map_cons, List.mem_cons] at hk'
      obtain rfl | hk' := hk'
      exacts [hlen, h.short k' hk']

/-- No resize below the load limit. -/
theorem insertRec_room {t : StrTable V} (hroom : t.count < t.maxCount) (k : StrKey) (v : V)
    (a : Alloc) (n : Nat) : insertRec (n + 1) t k v a = insertCopy t k v a := by
  have hfull : t.isFull = false := by
    rw [Table.isFull, decide_eq_false_iff_not]
    omega
  simp [insertRec, hfull]

omit [Inhabited V] in
/-- The loop of `resize` over the old pairs, with `ins` an insertion that works on the tables that
satisfy `P` after `j` rounds. -/
theorem reinsert_run {ins : StrTable V → StrKey → V → Alloc → Option (Bool × StrTable V × Alloc)}
    {P : Nat → StrTable V → Prop} (total : List (StrKey × V)) (hd : (total.map Prod.fst).Nodup)
    (hshort : ∀ p ∈ total, p.1.length < 2 ^ 32)
    (hins : ∀ j t k v a, j < total.length → P j t → t.Inv → k ∉ t.keys → k.length < 2 ^ 32 →
      ∃ r t' a', Inserted t k v a (ins t k v a) r t' a' ∧ P (j + 1) t')
    (pre post : List (StrKey × V)) (hsplit : total = pre ++ post) {t : StrTable V} {a : Alloc}
    (h : t.Inv) (hp : P pre.length t) (hsub : t.pairs ⊆ pre) :
    ∃ t' a', post.foldlM (reinsert ins) (t, a) = some (t', a') ∧ t'.Inv ∧ P total.length t' ∧
      t'.pairs ⊆ total ∧
      (a'.failed = false → a.failed = false ∧ (t.pairs.Perm pre → t'.pairs.Perm total)) := by
  induction post generalizing pre t a with
  | nil =>
    rw [List.append_nil] at hsplit
    subst hsplit
    exact ⟨t, a, rfl, h, hp, hsub, fun hf => ⟨hf, id⟩⟩
  | cons p post ih =>
    obtain ⟨k, v⟩ := p
    subst hsplit
    have hk : k ∉ t.keys := by
      intro hk
      obtain ⟨q, hq, hqk⟩ := List.mem_map.mp hk
      rw [List.map_append, List.map_cons, List.nodup_append] at hd
      exact hd.2.2 q.1 (List.mem_map_of_mem (hsub hq)) k List.mem_cons_self hqk
    obtain ⟨r, t₁, a₁, h₁, hp₁⟩ := hins pre.length t k v a (by simp) hp h hk
      (hshort (k, v) (by simp))
    obtain ⟨t', a', hrun, hinv, hP, hsub', hok⟩ := ih (pre ++ [(k, v)]) (t := t₁) (a := a₁)
      (by simp) h₁.inv (by simpa using hp₁) (fun q hq => by
        have := h₁.subset hq
        simp only [List.mem_cons, List.mem_append, List.not_mem_nil, or_false] at this ⊢
        exact this.symm.imp_left (hsub ·))
    refine ⟨t', a', ?_, hinv, hP, hsub', fun hf => ?_⟩
    · rw [List.foldlM_cons, reinsert, h₁.run]
      exact hrun
    · obtain ⟨hf₁, hperm⟩ := hok hf
      obtain ⟨hf₀, -, hp₁⟩ := h₁.ok hf₁
      refine ⟨hf₀, fun hpre => hperm ?_⟩
      exact hp₁.trans ((hpre.cons _).trans (List.perm_append_singleton _ _).symm)

/-- `resize` into a fresh table, with an insertion as in `reinsert_run`. -/
theorem resizeWith_run (ins : StrTable V → StrKey → V → Alloc → Option (Bool × StrTable V × Alloc))
    {P : Nat → StrTable V → Prop} {t : StrTable V} (h : t.Inv) {s : Nat} (hs : s % 256 < 32)
    (hins : ∀ j u k v a, j < t.pairs.length → P j u → u.Inv → k ∉ u.keys → k.length < 2 ^ 32 →
      ∃ r u' a', Inserted u k v a (ins u k v a) r u' a' ∧ P (j + 1) u')
    (hP : s % 256 ≤ 30 → P 0 (Table.empty (s % 256))) (a : Alloc) :
    (∃ a', resizeWith ins t s a = some (false, t, a') ∧ a'.failed = true) ∨
      ∃ t' a', resizeWith ins t s a = some (true, t', a') ∧ t'.Inv ∧ P t.pairs.length t' ∧
        s % 256 ≤ 30 ∧ t'.pairs ⊆ t.pairs ∧
        (a'.failed = false → a.failed = false ∧ t'.pairs.Perm t.pairs) := by
  obtain ⟨a', ha, hf⟩ | ⟨hs30, a', ha, hf⟩ := Table.init_spec (K := StrKey) (V := V) hs a
  · exact .inl ⟨a', by simp [resizeWith, ha], hf⟩
  · have hempty : StrTable.Inv (Table.empty (s % 256) : StrTable V) :=
      { table := Table.empty_inv hs30
        load := Nat.zero_le _
        short := by simp [Table.keys] }
    obtain ⟨t', a'', hrun, hinv, hp, hsub, hok⟩ := reinsert_run t.pairs h.table.nodup
      (fun p hp => h.short p.1 (List.mem_map_of_mem hp)) hins [] t.pairs rfl
      (a := a') hempty (hP hs30) (by simp)
    refine .inr ⟨t', a'', ?_, hinv, hp, hs30, hsub, fun hf' => ?_⟩
    · simp [resizeWith, ha, Table.forEach_spec h.table.length_eq, hrun]
    · obtain ⟨hf₁, hperm⟩ := hok hf'
      exact ⟨hf ▸ hf₁, hperm (by simp)⟩

/-- **One insertion of an absent key**, into a table at its load limit or below. -/
theorem insert_run {t : StrTable V} (h : t.Inv) {k : StrKey} (hk : k ∉ t.keys)
    (hlen : k.length < 2 ^ 32) (v : V) (a : Alloc) :
    ∃ r t' a', Inserted t k v a (insert t k v a) r t' a' := by
  by_cases hroom : t.count < t.maxCount
  · obtain ⟨r, t', a', hi, -⟩ := insertCopy_run h hk hlen hroom v a
    rw [← insertRec_room hroom k v a 1] at hi
    exact ⟨r, t', a', hi⟩
  have hcount : t.count = t.maxCount := Nat.le_antisymm h.load (Nat.le_of_not_lt hroom)
  have hfull : t.isFull = true := by rw [Table.isFull, hcount, decide_eq_true_eq]
  have hlg := h.table.lg2_le
  have hmod : (t.sizeLg2 + 1) % 256 = t.sizeLg2 + 1 := by omega
  -- a table of the doubled size with fewer pairs than `t` is below its load limit
  have hgrow : ∀ u : StrTable V, u.Inv → u.sizeLg2 = t.sizeLg2 + 1 → u.count ≤ t.maxCount →
      u.count < u.maxCount := by
    intro u hu hs hc
    have h30 := hu.table.lg2_le
    rw [hs] at h30
    have := Table.maxCount_double h30
    rw [hu.table.max_eq, Table.size, hs]
    rw [h.table.max_eq, Table.size] at hc
    omega
  obtain ⟨a₁, hrun, hf⟩ | ⟨t₁, a₁, hrun, hinv, ⟨hs₁, hc₁⟩, h30, hsub, hok⟩ :=
      resizeWith_run (insertRec 1) (s := t.sizeLg2 + 1)
        (P := fun j u => u.sizeLg2 = t.sizeLg2 + 1 ∧ u.count ≤ j) h (by omega)
        (fun j u k v a hj hfits hinv hk hlen => by
          obtain ⟨hu, hc⟩ := hfits
          rw [← h.table.count_eq] at hj
          have hr := hgrow u hinv hu (by omega)
          obtain ⟨r, u', a', hi, hs⟩ := insertCopy_run hinv hk hlen hr v a
          rw [← insertRec_room hr k v a 0] at hi
          have := hi.count_le
          exact ⟨r, u', a', hi, by rw [hs, hu], by omega⟩)
        (fun _ => ⟨hmod, Nat.zero_le _⟩) a
  · -- no memory for the new table: nothing changes
    refine ⟨false, t, a₁, by rw [insert, insertRec, if_pos hfull, hrun]; rfl, h,
      List.subset_cons_self _ _, by omega, Nat.le_refl _, fun hf' => ?_⟩
    rw [hf] at hf'
    cases hf'
  · rw [← h.table.count_eq] at hc₁
    have hk₁ : k ∉ t₁.keys := fun hm => hk (List.map_subset _ hsub hm)
    obtain ⟨r, t', a', hi, -⟩ := insertCopy_run hinv hk₁ hlen (hgrow t₁ hinv hs₁ (by omega)) v a₁
    refine ⟨r, t', a', ?_, hi.inv, ?_, ?_, ?_, fun hf => ?_⟩
    · rw [insert, insertRec, if_pos hfull, hrun, ← hi.run]
      rfl
    · exact fun p hp => List.cons_subset_cons _ hsub (hi.subset hp)
    · have := hi.count_le
      omega
    · have := hi.lg2_le
      omega
    · obtain ⟨hf₁, hr, hp⟩ := hi.ok hf
      obtain ⟨hf₀, hp₁⟩ := hok hf₁
      exact ⟨hf₀, hr, hp.trans (hp₁.cons _)⟩

omit [Inhabited V] in
/-- A table of the same size with one pair less. -/
theorem Inv.less {t t' : StrTable V} (h : t.Inv) {k : StrKey} {v : V} (hinv : Table.Inv strHash t')
    (hp : t.pairs.Perm ((k, v) :: t'.pairs)) (hsize : t'.sizeLg2 = t.sizeLg2) : StrTable.Inv t' := by
  refine ⟨hinv, ?_, fun k' hk' => h.short k' ?_⟩
  · have := h.load
    have hc := hp.length_eq
    rw [List.length_cons, ← hinv.count_eq, ← h.table.count_eq] at hc
    rw [hinv.max_eq, Table.size, hsize]
    rw [h.table.max_eq, Table.size] at this
    omega
  · rw [Table.keys, (hp.map Prod.fst).mem_iff]
    exact List.mem_cons_of_mem _ hk'

omit [Inhabited V] in
/-- **A removal takes out one pair**, or finds that the key is not there. -/
theorem remove2_run {t : StrTable V} (h : t.Inv) (h0 : t.sizeLg2 ≠ 0) (k : StrKey) :
    (remove2 t k = some (none, t) ∧ k ∉ t.keys) ∨
      ∃ v t', remove2 t k = some (some v, t') ∧ t'.Inv ∧ t.pairs.Perm ((k, v) :: t'.pairs) ∧
        t'.sizeLg2 = t.sizeLg2 := by
  refine (Table.rm_spec h.table h0 k).imp_right ?_
  rintro ⟨v, t', hrun, hinv, hp, hsize⟩
  exact ⟨v, t', hrun, h.less hinv hp hsize, hp, hsize⟩

/-- **Resizing loses nothing**, to any size. -/
theorem resize_run {t : StrTable V} (h : t.Inv) {s : Nat} (hs : s % 256 < 32) (a : Alloc) :
    ∃ r t' a', resize t s a = some (r, t', a') ∧ t'.Inv ∧
      (a'.failed = false → a.failed = false ∧ r = true ∧ t'.pairs.Perm t.pairs) := by
  obtain ⟨a', hrun, hf⟩ | ⟨t', a', hrun, hinv, -, -, -, hok⟩ :=
      resizeWith_run insert (P := fun _ _ => True) h hs
        (fun j u k v a _ _ hinv hk hlen => by
          obtain ⟨r, u', a', hi⟩ := insert_run hinv hk hlen v a
          exact ⟨r, u', a', hi, trivial⟩)
        (fun _ => trivial) a
  · exact ⟨false, t, a', hrun, h, fun hf' => by rw [hf] at hf'; cases hf'⟩
  · exact ⟨true, t', a', hrun, hinv, fun hf => ⟨(hok hf).1, rfl, (hok hf).2⟩⟩

omit [Inhabited V] in
theorem iterate_drop {t : StrTable V} (hlen : t.entries.length = t.size) (m n : Nat)
    (hn : n ≤ t.size) (hm : t.size < m + n) :
    t.iterate m ((n : Int) - 1) = some ((t.entries.drop n).filterMap TabEnt.pair) := by
  induction m generalizing n with
  | zero => omega
  | succ m ih =>
    obtain ⟨hnext, hrest⟩ | ⟨j, p, hnext, hle, hlt, hp, hrest⟩ := Table.next_spec hlen n
    · simp [iterate, next2, hnext, hrest]
    · have := ih (j + 1) (by omega) (by omega)
      rw [show ((j + 1 : Nat) : Int) - 1 = j by omega] at this
      simp [iterate, next2, hnext, hp, hrest, this]

omit [Inhabited V] in
/-- A full iteration yields the pairs of the table. -/
theorem iterate_run {t : StrTable V} (h : t.Inv) : t.iterate (t.size + 1) (-1) = some t.pairs :=
  iterate_drop h.table.length_eq (t.size + 1) 0 (by omega) (by omega)

theorem clear_stands {t : StrTable V} (h : t.Inv) : t.clear.Stands ∅ := by
  have hpairs : (List.replicate t.size ⟨none, default, none⟩ : List (TabEnt StrKey V)).filterMap
      TabEnt.pair = [] := by
    simp [TabEnt.pair]
  have hempty : (Table.empty t.sizeLg2 : StrTable V).Inv strHash := Table.empty_inv h.table.lg2_le
  have hmask : t.mask = (Table.empty t.sizeLg2 : StrTable V).mask := h.table.mask_eq
  refine ⟨⟨h.table.of_entries (by rw [List.length_replicate, h.table.length_eq]) ?_ ?_ ?_,
    Nat.zero_le _, ?_⟩, ?_⟩
  · simp only [Table.getEntry, hmask]
    exact hempty.chained
  · rw [hpairs]; rfl
  · rw [hpairs]; exact List.nodup_nil
  · simp [Table.keys, Table.pairs, clear, hpairs]
  · rw [Table.pairs, clear, hpairs]
    exact Listing.nil

end StrTable

/-- The operations of a string table that a client may call. -/
inductive StrOp (V : Type) where
  | insert (k : StrKey) (v : V)
  | remove2 (k : StrKey)
  | lookup2 (k : StrKey)
  | resize (sizeLg2 : Nat)
  | clear
  /-- A whole `next2` loop. -/
  | iterate
  | count

/-- What a call returns. -/
inductive StrEvent (V : Type) where
  | returned (ok : Bool)
  /-- The value found or removed, `none` for the `false` result. -/
  | value (v : Option V)
  | pairs (l : List (StrKey × V))
  | count (n : Nat)
  | done
  deriving DecidableEq

namespace StrTable

variable {V : Type} [Inhabited V]

/-- One call. -/
def step (t : StrTable V) (a : Alloc) : StrOp V → Option (StrEvent V × StrTable V × Alloc)
  | .insert k v => do
    let (r, t, a) ← t.insert k v a
    return (.returned r, t, a)
  | .remove2 k => do
    let (v, t) ← t.remove2 k
    return (.value v, t, a)
  | .lookup2 k => do
    let v ← t.lookup2 k
    return (.value v, t, a)
  | .resize s => do
    let (r, t, a) ← t.resize s a
    return (.returned r, t, a)
  | .clear => some (.done, t.clear, a)
  | .iterate => do
    let l ← t.iterate (t.size + 1) (-1)
    return (.pairs l, t, a)
  | .count => some (.count t.count, t, a)

/-- Calls one after another, up to the first failed allocation. -/
def run (t : StrTable V) (a : Alloc) : List (StrOp V) → Option (List (StrEvent V) × Alloc)
  | [] => some ([], a)
  | op :: ops => do
    let (ev, t, a) ← step t a op
    if a.failed then return ([ev], a)
    else
      let (evs, a) ← run t a ops
      return (ev :: evs, a)

/-- A client: `init`, then the calls. -/
def runInit (expectedSize : Nat) (a : Alloc) (ops : List (StrOp V)) :
    Option (List (StrEvent V) × Alloc) := do
  match ← init expectedSize a with
  | (none, a) => return ([], a)
  | (some t, a) => run t a ops

/-- The calls for which the table answers as a map: no key of `2 ^ 32` bytes or more, no `remove2` on
a table without slots, and a `resize` to a size an `int` shift can express. -/
def Supported (t : StrTable V) : StrOp V → Prop
  | .insert k _ => k.length < 2 ^ 32
  | .remove2 _ => t.sizeLg2 ≠ 0
  | .resize s => s % 256 < 32
  | _ => True

/-- Every call of a run is supported by the table it is made on. -/
def SupportedRun (t : StrTable V) (a : Alloc) : List (StrOp V) → Prop
  | [] => True
  | op :: ops => Supported t op ∧ ∀ ev t' a', step t a op = some (ev, t', a') → SupportedRun t' a' ops

end StrTable

namespace StrOp

variable {V : Type}

/-- The finite map after a call. -/
def next (m : Finmap fun _ : StrKey => V) : StrOp V → Finmap fun _ : StrKey => V
  | .insert k v => m.insert k v
  | .remove2 k => m.erase k
  | .clear => ∅
  | _ => m

/-- What a finite map answers to a call. -/
def Answers (m : Finmap fun _ : StrKey => V) : StrOp V → StrEvent V → Prop
  | .insert _ _, ev => ev = .returned true
  | .remove2 k, ev => ev = .value (m.lookup k)
  | .lookup2 k, ev => ev = .value (m.lookup k)
  | .resize _, ev => ev = .returned true
  | .clear, ev => ev = .done
  | .iterate, ev => ∃ l, ev = .pairs l ∧ Listing l m
  | .count, ev => ev = .count m.keys.card

/-- Keys are inserted only when they are absent. -/
def Legal : Finmap (fun _ : StrKey => V) → List (StrOp V) → Prop
  | _, [] => True
  | m, op :: ops => (∀ k v, op = .insert k v → k ∉ m) ∧ Legal (op.next m) ops

/-- The answers of a finite map to a list of calls. -/
def AnswersAll : Finmap (fun _ : StrKey => V) → List (StrOp V) → List (StrEvent V) → Prop
  | _, [], evs => evs = []
  | m, op :: ops, ev :: evs => op.Answers m ev ∧ AnswersAll (op.next m) ops evs
  | _, _ :: _, [] => False

end StrOp

namespace StrTable

variable {V : Type} [Inhabited V]

/-- One supported call on a table that holds `m` answers as `m` does, and the table holds the next
map, unless an allocation fails. -/
theorem step_run {t : StrTable V} {m : Finmap fun _ : StrKey => V} (h : t.Stands m) (a : Alloc)
    {op : StrOp V} (hs : Supported t op) (hk : ∀ k v, op = .insert k v → k ∉ m) :
    ∃ ev t' a', step t a op = some (ev, t', a') ∧
      (a'.failed = false → a.failed = false ∧ op.Answers m ev ∧ t'.Stands (op.next m)) := by
  cases op with
  | insert k v =>
    have hkt : k ∉ t.keys := mt h.listing.mem_keys.mp (hk k v rfl)
    obtain ⟨r, t', a', hi⟩ := insert_run h.inv hkt hs v a
    refine ⟨.returned r, t', a', by simp [step, hi.run], fun hf => ?_⟩
    obtain ⟨hf₀, rfl, hp⟩ := hi.ok hf
    exact ⟨hf₀, rfl, hi.inv, h.listing.insert (hk k v rfl) hp⟩
  | remove2 k =>
    obtain ⟨hrun, hnk⟩ | ⟨v, t', hrun, hinv, hp, -⟩ := remove2_run h.inv hs k
    · have hm : k ∉ m := mt h.listing.mem_keys.mpr hnk
      refine ⟨.value none, t, a, by simp [step, hrun], fun hf => ⟨hf, ?_, ?_⟩⟩
      · rw [StrOp.Answers, Finmap.lookup_eq_none.mpr hm]
      · rw [StrOp.next, Finmap.erase_of_notMem hm]
        exact h
    · refine ⟨.value (some v), t', a, by simp [step, hrun], fun hf => ⟨hf, ?_, ?_⟩⟩
      · rw [StrOp.Answers, h.listing.lookup_of_perm hp]
      · exact ⟨hinv, h.listing.erase hp⟩
  | lookup2 k =>
    obtain ⟨r, hrun, hr⟩ := Table.lookup_spec h.inv.table k
    refine ⟨.value r, t, a, by simp [step, lookup2, hrun], fun hf => ⟨hf, ?_, h⟩⟩
    have : r = m.lookup k := Option.ext fun v => by rw [hr, h.listing.mem_iff]
    rw [StrOp.Answers, this]
  | resize s =>
    obtain ⟨r, t', a', hrun, hinv, hok⟩ := resize_run h.inv hs a
    refine ⟨.returned r, t', a', by simp [step, hrun], fun hf => ?_⟩
    obtain ⟨hf₀, rfl, hp⟩ := hok hf
    exact ⟨hf₀, rfl, hinv, h.listing.perm hp⟩
  | clear => exact ⟨.done, t.clear, a, rfl, fun hf => ⟨hf, rfl, clear_stands h.inv⟩⟩
  | iterate =>
    exact ⟨.pairs t.pairs, t, a, by simp [step, iterate_run h.inv],
      fun hf => ⟨hf, ⟨_, rfl, h.listing⟩, h⟩⟩
  | count =>
    refine ⟨.count t.count, t, a, rfl, fun hf => ⟨hf, ?_, h⟩⟩
    rw [StrOp.Answers, h.inv.table.count_eq, h.listing.length_eq]

theorem run_run {t : StrTable V} {m : Finmap fun _ : StrKey => V} (h : t.Stands m) (a : Alloc)
    {ops : List (StrOp V)} (hs : SupportedRun t a ops) (hl : StrOp.Legal m ops) :
    ∃ evs a', run t a ops = some (evs, a') ∧
      (a'.failed = false → StrOp.AnswersAll m ops evs) := by
  induction ops generalizing t m a with
  | nil => exact ⟨[], a, rfl, fun _ => rfl⟩
  | cons op ops ih =>
    obtain ⟨ev, t', a', hstep, hok⟩ := step_run h a hs.1 hl.1
    cases hf : a'.failed with
    | true => exact ⟨[ev], a', by simp [run, hstep, hf], fun hf' => by simp [hf] at hf'⟩
    | false =>
      obtain ⟨-, hans, hst⟩ := hok hf
      obtain ⟨evs, a'', hrun, hall⟩ := ih hst a' (hs.2 ev t' a' hstep) hl.2
      exact ⟨ev :: evs, a'', by simp [run, hstep, hf, hrun], fun hf' => ⟨hans, hall hf'⟩⟩

theorem log2Ceiling_lt (n : Nat) : log2Ceiling (sizeToInt n) < 32 := by
  rw [log2Ceiling]
  split
  · omega
  · rename_i h
    have hlt : (sizeToInt n - 1).toNat < 2 ^ 31 := by
      rw [sizeToInt] at h ⊢
      omega
    have := (Nat.log2_lt (by omega)).mpr hlt
    omega

end StrTable

/-- **A string table refines a finite map.** Initialised with any expected size, and used by any
sequence of calls that inserts absent keys only and that the table supports at each step, it answers
every call as the finite map does, as long as every allocation succeeds. -/
theorem strtable_refines_map {V : Type} [Inhabited V] (expectedSize : Nat) (a : Alloc)
    (ops : List (StrOp V)) (hl : StrOp.Legal ∅ ops)
    (hs : ∀ t a', StrTable.init expectedSize a = some (some t, a') →
      StrTable.SupportedRun t a' ops) :
    ∃ evs a', StrTable.runInit expectedSize a ops = some (evs, a') ∧
      (a'.failed = false → StrOp.AnswersAll ∅ ops evs) := by
  obtain ⟨a', ha, hf⟩ | ⟨hs30, a', ha, -⟩ := Table.init_spec (K := StrKey) (V := V)
      (StrTable.log2Ceiling_lt (StrTable.needEntries expectedSize)) a
  · exact ⟨[], a', by simp [StrTable.runInit, StrTable.init, ha], fun hf' => by simp [hf] at hf'⟩
  · have hst : StrTable.Stands (Table.empty _ : StrTable V) ∅ :=
      { inv := ⟨Table.empty_inv hs30, Nat.zero_le _, by simp [Table.keys]⟩
        listing := by rw [Table.empty_pairs]; exact Listing.nil }
    obtain ⟨evs, a'', hrun, hall⟩ := StrTable.run_run hst a' (hs _ a' ha) hl
    exact ⟨evs, a'', by simpa [StrTable.runInit, StrTable.init, ha] using hrun, hall⟩

theorem strtable_refines_map_insert_remove :
    ∃ evs a', StrTable.runInit 1 Alloc.granting
        [.insert [104, 112, 98] (7 : UInt64), .remove2 [104, 112, 98], .count] = some (evs, a') ∧
      (a'.failed = false → StrOp.AnswersAll ∅
        [.insert [104, 112, 98] (7 : UInt64), .remove2 [104, 112, 98], .count] evs) := by
  refine strtable_refines_map 1 _ _ ⟨fun k v _ => Finmap.notMem_empty, ?_⟩ fun t a' ht => ?_
  · exact ⟨fun _ _ h => (by cases h), fun _ _ h => (by cases h), trivial⟩
  · have hinit : StrTable.init (V := UInt64) 1 Alloc.granting =
        some (some (Table.empty 1), { Alloc.granting with calls := 1 }) := rfl
    rw [hinit] at ht
    cases ht
    refine ⟨(by decide : 3 < 2 ^ 32), fun ev t' a' hstep =>
      ⟨?_, fun _ _ _ _ => ⟨trivial, fun _ _ _ _ => trivial⟩⟩⟩
    -- the table after the insertion still has two slots
    have hsize := congrArg (Option.map fun r => r.2.1.sizeLg2) hstep
    have hlg : t'.sizeLg2 = 1 := (Option.some.inj hsize).symm
    rw [StrTable.Supported, hlg]
    decide

/-- `remove2` on an empty table that was resized to no slots at all reads through a null pointer:
`rm` lacks the check for `size_lg2 == 0` that `findentry` makes. -/
theorem strtable_remove_without_slots :
    ¬∀ (expectedSize : Nat) (ops : List (StrOp UInt64)), 1 ≤ expectedSize → StrOp.Legal ∅ ops →
      ∃ evs a', StrTable.runInit expectedSize Alloc.granting ops = some (evs, a') ∧
        (a'.failed = false → StrOp.AnswersAll ∅ ops evs) := by
  intro h
  obtain ⟨evs, a', hrun, -⟩ := h 1 [.resize 0, .remove2 [104]] (by decide)
    ⟨fun _ _ h => (by cases h), fun _ _ h => (by cases h), trivial⟩
  have hnone : StrTable.runInit 1 Alloc.granting [.resize 0, .remove2 [104]] =
      (none : Option (List (StrEvent UInt64) × Alloc)) := rfl
  rw [hnone] at hrun
  cases hrun

end Hpb
