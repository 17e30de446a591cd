import Hpb.Reflection.FileDef

/-!
# What the builder of a file does to the pool

The tables of a pool are in order (`Inv`), and every call keeps them so. As long as memory is left, a
builder, whatever it does, enters symbols of its own file and extensions and nothing else (`Built`), because
no call does more (`serve_built`).

Two pools whose tables hold the same, in whatever slots, cannot be told apart by a builder (`Alike`,
`run_alike`).
-/

namespace Hpb

namespace Reflection

/-- Is this the call that enters an extension? -/
def PoolCall.isInsertExt : PoolCall → Bool
  | .insertExt _ _ => true
  | _ => false

namespace DefPool

/-- The tables of a pool are in order. -/
structure Inv (s : DefPool) : Prop where
  syms : s.syms.Inv
  clean : Table.Clean s.syms.entries
  files : s.files.Inv
  exts : ∃ m, s.exts.Stands m
  extreg : s.extreg.Inv
  slots : s.extreg.sizeLg2 ≠ 0

/-- What a builder has done to the pool `s`. -/
structure Built (s s' : DefPool) : Prop where
  failed : s.arena.failed = false
  syms : ∃ new : List (StrKey × DefPtr), s'.syms.pairs.Perm (new ++ s.syms.pairs) ∧
    ∀ p ∈ new, p.2.file = s.fileDefs.length
  exts : s.exts.pairs ⊆ s'.exts.pairs
  rest : s' = { s with arena := s'.arena, syms := s'.syms, exts := s'.exts }

variable {s s' s'' : DefPool}

theorem Built.refl (h : s.arena.failed = false) : Built s s :=
  ⟨h, ⟨[], .refl _, by simp⟩, List.Subset.refl _, rfl⟩

theorem Built.fileDefs (h : Built s s') : s'.fileDefs = s.fileDefs := by rw [h.rest]

theorem Built.trans (h : Built s s') (h' : Built s' s'') : Built s s'' where
  failed := h.failed
  syms := by
    obtain ⟨new, hp, hnew⟩ := h.syms
    obtain ⟨new', hp', hnew'⟩ := h'.syms
    refine ⟨new' ++ new, ?_, fun p hp => ?_⟩
    · rw [List.append_assoc]
      exact hp'.trans (hp.append_left new')
    · obtain hp | hp := List.mem_append.mp hp
      · rw [hnew' p hp, h.fileDefs]
      · exact hnew p hp
  exts := List.Subset.trans h.exts h'.exts
  rest := by
    have hr := h'.rest
    rw [h.rest] at hr
    exact hr

/-- A step keeps the tables in order and, as long as memory is left, does what a builder does. -/
def Keeps (s s' : DefPool) : Prop :=
  s.Inv → s'.Inv ∧ (s'.arena.failed = false → Built s s')

theorem Keeps.refl (s : DefPool) : Keeps s s := fun h => ⟨h, .refl⟩

theorem Keeps.trans (h : Keeps s s') (h' : Keeps s' s'') : Keeps s s'' := fun hs => by
  obtain ⟨hs', hb⟩ := h hs
  obtain ⟨hs'', hb'⟩ := h' hs'
  exact ⟨hs'', fun hf => (hb (hb' hf).failed).trans (hb' hf)⟩

section Calls

/-- What it is to enter a symbol: it is new and one of the file. -/
theorem insertSym_run (h : s.Inv) {name : StrKey} (hnone : s.lookupSym name = some none)
    (hlen : name.length < 2 ^ 32) (type : DefType) :
    ∃ ok syms a, s.insertSym name type =
        (if ok then .ok () else .error .outOfMemory, { s with syms, arena := a }) ∧
      syms.Inv ∧ Table.Clean syms.entries ∧ (a.failed = false → s.arena.failed = false ∧ ok = true ∧
        syms.pairs.Perm ((name, ⟨type, s.fileDefs.length, name⟩) :: s.syms.pairs)) := by
  have hk : name ∉ s.syms.keys := (Table.lookup_none_iff h.syms.table name).mp hnone
  obtain ⟨ok, t, a, hi⟩ := StrTable.insert_run h.syms hk hlen
    (⟨type, s.fileDefs.length, name⟩ : DefPtr) s.arena
  refine ⟨ok, t, a, ?_, hi.inv, StrTable.insert_clean h.clean hi.run, hi.ok⟩
  rw [lookupSym] at hnone
  rw [insertSym, hnone, hi.run]
  dsimp only
  rw [if_neg (Nat.not_le.mpr hlen)]
  cases ok <;> rfl

/-- A symbol that cannot be entered changes nothing. -/
theorem insertSym_refused {name : StrKey} (h : s.lookupSym name ≠ some none ∨ 2 ^ 32 ≤ name.length)
    (type : DefType) : (s.insertSym name type).2 = s := by
  rw [insertSym]
  rw [lookupSym] at h
  split
  · rfl
  · rfl
  · next hnone => rw [if_pos (h.resolve_left fun hne => hne hnone)]

theorem insertSym_keeps (s : DefPool) (name : StrKey) (type : DefType) :
    Keeps s (s.insertSym name type).2 := by
  intro h
  by_cases hb : s.lookupSym name = some none ∧ name.length < 2 ^ 32
  · obtain ⟨ok, t, a, hrun, hinv, hclean, hok⟩ := insertSym_run h hb.1 hb.2 type
    rw [hrun]
    refine ⟨⟨hinv, hclean, h.files, h.exts, h.extreg, h.slots⟩, fun hf => ?_⟩
    obtain ⟨hf₀, -, hp⟩ := hok hf
    exact ⟨hf₀, ⟨[_], hp, by simp⟩, List.Subset.refl _, rfl⟩
  · rw [insertSym_refused (by rwa [not_and_or, Nat.not_lt] at hb) type]
    exact Keeps.refl _ h

theorem arrHas_ofNat {n : Nat} (h : n < 2 ^ 64 - 1) : arrHas (UInt64.ofNat n) := by
  rw [arrHas, decide_eq_true_eq]
  intro heq
  have := congrArg UInt64.toNat heq
  rw [UInt64.toNat_ofNat', Nat.mod_eq_of_lt (by omega)] at this
  exact absurd this (Nat.ne_of_lt h)

/-- What it is to enter an extension: it is new. -/
theorem insertExt_run (h : s.Inv) {ext f : Nat} (hnone : s.exts.lookup ext = some none) (hext : ext < 2 ^ 64)
    (hf : f < 2 ^ 64 - 1) :
    ∃ ok exts a, s.exts.insert ext (UInt64.ofNat f) s.arena = (some (ok, exts), a) ∧
      s.insertExt ext f = (.ok ok, { s with exts, arena := a }) ∧ (∃ m, exts.Stands m) ∧
      (a.failed = false → s.arena.failed = false ∧ ok = true ∧
        exts.pairs.Perm ((ext, UInt64.ofNat f) :: s.exts.pairs)) := by
  obtain ⟨m, hm⟩ := h.exts
  have hk : ext ∉ m := by
    rw [IntTable.lookup_run hm ext] at hnone
    exact Finmap.lookup_eq_none.mp (Option.some.inj hnone)
  have hv := arrHas_ofNat hf
  obtain ⟨ok, t, a, hrun, hinv, -, hcase⟩ := IntTable.insert_run hm.inv
    (mt hm.listing.mem_keys.mp hk) hv s.arena
  refine ⟨ok, t, a, hrun, ?_, ?_⟩
  · rw [insertExt, hnone, hrun]
    dsimp only
    rw [if_neg (by omega)]
  · obtain ⟨hfail, rfl⟩ | ⟨rfl, hfail, hp⟩ := hcase
    · exact ⟨⟨m, hm⟩, fun hf => by rw [hfail] at hf; cases hf⟩
    · exact ⟨⟨_, hm.insert hk hext hv hinv hp⟩, fun hf => ⟨hfail ▸ hf, rfl, hp⟩⟩

/-- Whether an extension can be entered. -/
def Enterable (s : DefPool) (ext f : Nat) : Prop :=
  s.exts.lookup ext = some none ∧ ext < 2 ^ 64 ∧ f < 2 ^ 64 - 1

theorem insertExt_refused {ext f : Nat} (h : ¬s.Enterable ext f) :
    s.insertExt ext f = (.error .undefined, s) := by
  rw [insertExt]
  split
  · next hnone =>
    rw [if_pos]
    by_contra hb
    exact h ⟨hnone, by omega, by omega⟩
  · rfl

theorem insertExt_keeps (s : DefPool) (ext f : Nat) : Keeps s (s.insertExt ext f).2 := by
  intro h
  by_cases he : s.Enterable ext f
  · obtain ⟨ok, exts, a, -, hrun, hexts, hok⟩ := insertExt_run h he.1 he.2.1 he.2.2
    rw [hrun]
    refine ⟨⟨h.syms, h.clean, h.files, hexts, h.extreg, h.slots⟩, fun hf => ?_⟩
    obtain ⟨hf₀, -, hp⟩ := hok hf
    exact ⟨hf₀, ⟨[], .refl _, by simp⟩, fun p hp' => hp.mem_iff.mpr (List.mem_cons_of_mem _ hp'), rfl⟩
  · rw [insertExt_refused he]
    exact Keeps.refl _ h

/-- **No call does more than to enter a symbol of the file or an extension.** -/
theorem serve_keeps (c : PoolCall) (s : DefPool) : Keeps s (serve c s).2 := by
  cases c with
  | insertSym name type => exact insertSym_keeps s name type
  | insertExt ext f => exact insertExt_keeps s ext f
  | lookupSym name => exact .refl s
  | findFile name => exact .refl s
  | readFile file => exact .refl s
  | readTable table => exact .refl s

end Calls

section Run

variable {α : Type} (x : Client PoolCall PoolReply Failure α)

/-- **What any builder does to a pool.** -/
theorem run_keeps (s : DefPool) : Keeps s (x.run serve s).2 :=
  Client.run_preorder Keeps.refl Keeps.trans serve_keeps x s

theorem insertSym_rest (s : DefPool) (name : StrKey) (type : DefType) :
    (s.insertSym name type).2 =
      { s with arena := (s.insertSym name type).2.arena, syms := (s.insertSym name type).2.syms } := by
  rw [insertSym]
  repeat' split
  all_goals rfl

theorem insertExt_files (s : DefPool) (ext f : Nat) : (s.insertExt ext f).2.files = s.files := by
  rw [insertExt]
  repeat' split
  all_goals rfl

/-- A builder does not change the table of files. -/
theorem run_files_eq (s : DefPool) : (x.run serve s).2.files = s.files := by
  refine Client.run_preorder (R := fun s s' : DefPool => s'.files = s.files) (fun _ => rfl)
    (fun h h' => h'.trans h) (fun c s => ?_) x s
  cases c with
  | insertSym name type =>
    have := congrArg DefPool.files (insertSym_rest s name type)
    exact this
  | insertExt ext f => exact insertExt_files s ext f
  | lookupSym name => rfl
  | findFile name => rfl
  | readFile file => rfl
  | readTable table => rfl

/-- A builder that enters no extension leaves that table as it is. -/
theorem run_exts_eq (s : DefPool) (h : ∀ c ∈ x.calls serve s, c.isInsertExt = false) :
    (x.run serve s).2.exts = s.exts := by
  refine Client.run_keeps (R := fun s s' : DefPool => s'.exts = s.exts) (P := fun c => c.isInsertExt = false)
    (fun _ => rfl) (fun h h' => h'.trans h) (fun c s hc => ?_) x s h
  cases c with
  | insertSym name type =>
    have := congrArg DefPool.exts (insertSym_rest s name type)
    exact this
  | insertExt ext f => cases hc
  | lookupSym name => rfl
  | findFile name => rfl
  | readFile file => rfl
  | readTable table => rfl

theorem lookup_of_mem (h : s.Inv) {ext : Nat} {v : UInt64} (hv : (ext, v) ∈ s.exts.pairs) :
    s.exts.lookup ext = some (some v) := by
  obtain ⟨m, hm⟩ := h.exts
  rw [IntTable.lookup_run hm, (hm.listing.mem_iff ext v).mp hv]

theorem findExtensionByMiniTable_none (h : s.Inv) {ext : Nat} (hv : ∀ v, (ext, v) ∉ s.exts.pairs) :
    s.findExtensionByMiniTable ext = none := by
  obtain ⟨m, hm⟩ := h.exts
  rw [findExtensionByMiniTable, IntTable.lookup_run hm]
  cases hl : m.lookup ext with
  | none => rfl
  | some v => exact absurd ((hm.listing.mem_iff ext v).mpr hl) (hv v)

/-- A builder that entered an extension, and did not end there, changes the answer for it. -/
theorem run_exts_ne {s : DefPool} (hs : s.Inv) {c : PoolCall} (hc : c ∈ x.calls serve s)
    (hext : c.isInsertExt = true) (hmem : (x.run serve s).2.arena.failed = false)
    (hdef : (x.run serve s).1 ≠ .error .undefined) :
    ∃ ext, s.findExtensionByMiniTable ext = none ∧ (x.run serve s).2.findExtensionByMiniTable ext ≠ none := by
  cases c with
  | insertExt ext f =>
    obtain ⟨t, ht, hcall⟩ := Client.exists_of_mem_calls Keeps.refl Keeps.trans serve_keeps hc
    obtain ⟨htinv, htb⟩ := ht hs
    by_cases he : t.Enterable ext f
    · obtain ⟨ok, exts, a, -, hrun, hexts, hok⟩ := insertExt_run htinv he.1 he.2.1 he.2.2
      obtain ⟨-, hrest⟩ | ⟨e, he, -⟩ := hcall
      · rw [serve, hrun] at hrest
        obtain ⟨hend, hb⟩ := hrest ⟨htinv.syms, htinv.clean, htinv.files, hexts, htinv.extreg, htinv.slots⟩
        obtain ⟨hf, -, hp⟩ := hok (hb hmem).failed
        refine ⟨ext, ?_, ?_⟩
        · refine findExtensionByMiniTable_none hs fun v hv => ?_
          have := lookup_of_mem htinv ((htb hf).exts hv)
          rw [he.1] at this
          cases this
        · rw [findExtensionByMiniTable, lookup_of_mem hend ((hb hmem).exts (hp.mem_iff.mpr List.mem_cons_self))]
          exact Option.some_ne_none _
      · rw [serve, hrun] at he
        cases he
    · -- the call has no result, and neither has the builder
      have hrun := insertExt_refused he
      obtain ⟨⟨r, hr⟩, -⟩ | ⟨e, he, hend⟩ := hcall
      · rw [serve, hrun] at hr
        cases hr
      · rw [serve, hrun] at he
        cases he
        exact absurd hend hdef
  | insertSym name type => cases hext
  | lookupSym name => cases hext
  | findFile name => cases hext
  | readFile file => cases hext
  | readTable table => cases hext

end Run

section Registry

/-- The key of an extension in the registry. -/
def entryKey (e : Nat × MiniTableExtension) : StrKey := extregKey e.2.extendee e.2.field.number

/-- The entry of an extension in the registry. -/
def entry (e : Nat × MiniTableExtension) : StrKey × Nat := (entryKey e, e.1)

theorem leBytes_length (n v : Nat) : (leBytes n v).length = n := by
  induction n generalizing v with
  | zero => rfl
  | succ n ih => rw [leBytes, List.length_cons, ih]

theorem entryKey_length (e : Nat × MiniTableExtension) : (entryKey e).length = 12 := by
  rw [entryKey, extregKey, List.length_append, leBytes_length, leBytes_length]

variable {r r' : StrTable Nat} {a a' : Alloc} {ok : Bool} {e : Nat × MiniTableExtension}
  {start exts : List (Nat × MiniTableExtension)} {base : List (StrKey × Nat)}

theorem registryAdd_cases (h : r.Inv) (h0 : r.sizeLg2 ≠ 0) (a : Alloc) (e : Nat × MiniTableExtension) :
    (entryKey e ∈ r.keys ∧ registryAdd r a e.1 e.2 = some (false, r, a)) ∨
      entryKey e ∉ r.keys ∧ ∃ ok r' a', registryAdd r a e.1 e.2 = some (ok, r', a') ∧ r'.Inv ∧ r'.sizeLg2 ≠ 0 ∧
        (a'.failed = false → a.failed = false ∧ ok = true ∧ r'.pairs.Perm (entry e :: r.pairs)) := by
  rw [registryAdd, StrTable.lookup2]
  by_cases hk : entryKey e ∈ r.keys
  · refine .inl ⟨hk, ?_⟩
    obtain ⟨o, hl, -⟩ := Table.lookup_spec h.table (entryKey e)
    cases o with
    | none => exact absurd hk ((Table.lookup_none_iff h.table _).mp hl)
    | some v =>
      rw [entryKey] at hl
      simp [hl]
  · refine .inr ⟨hk, ?_⟩
    have hl := (Table.lookup_none_iff h.table _).mpr hk
    have hlen := entryKey_length e
    obtain ⟨ok, r', a', hi⟩ := StrTable.insert_run h hk (by omega) e.1 a
    have hlg := hi.lg2_le
    refine ⟨ok, r', a', ?_, hi.inv, by omega, hi.ok⟩
    have hrun := hi.run
    rw [entryKey] at hl hrun
    simp [hl, hrun]

/-- Backing out takes out what was entered. -/
theorem registryBackOut_run (start : List (Nat × MiniTableExtension)) (h : r.Inv) (h0 : r.sizeLg2 ≠ 0) :
    ∃ r', registryBackOut r start = some r' ∧ r'.Inv ∧ r'.sizeLg2 ≠ 0 ∧
      ∀ base, r.pairs.Perm (start.map entry ++ base) → r'.pairs.Perm base := by
  induction start generalizing r with
  | nil => exact ⟨r, rfl, h, h0, fun base hp => hp⟩
  | cons e start ih =>
    rw [registryBackOut]
    obtain ⟨hrun, hk⟩ | ⟨v, r₁, hrun, hinv, hp₁, hs⟩ := StrTable.remove2_run h h0 (entryKey e)
    · obtain ⟨r', hback, hinv', hs', -⟩ := ih h h0
      rw [entryKey] at hrun
      refine ⟨r', by simp [hrun, hback], hinv', hs', fun base hp => ?_⟩
      have hmem : entry e ∈ r.pairs := hp.mem_iff.mpr List.mem_cons_self
      exact absurd (List.mem_map_of_mem hmem) hk
    · obtain ⟨r', hback, hinv', hs', hout⟩ := ih hinv (hs ▸ h0)
      rw [entryKey] at hrun
      refine ⟨r', by simp [hrun, hback], hinv', hs', fun base hp => hout base ?_⟩
      have hv : (entryKey e, v) = entry e := List.inj_on_of_nodup_map h.table.nodup
        (hp₁.mem_iff.mpr List.mem_cons_self) (hp.mem_iff.mpr List.mem_cons_self) rfl
      rw [hv] at hp₁
      exact (hp₁.symm.trans hp).cons_inv

/-- A round of the loop. -/
theorem registryAddFrom_cons {ok₁ : Bool} {r₁ : StrTable Nat} {a₁ : Alloc}
    (hadd : registryAdd r a e.1 e.2 = some (ok₁, r₁, a₁)) :
    registryAddFrom r a start (e :: exts) = if ok₁ then registryAddFrom r₁ a₁ (start ++ [e]) exts
      else (registryBackOut r₁ start).map fun r => (false, r, a₁) := by
  rw [registryAddFrom, hadd]
  cases ok₁ with
  | true => rfl
  | false => cases hb : registryBackOut r₁ start <;> simp [hb]

/-- **The loop of `AddArray` enters all or none**, and all if and only if no key is there yet. -/
theorem registryAddFrom_run (start exts : List (Nat × MiniTableExtension)) (h : r.Inv) (h0 : r.sizeLg2 ≠ 0)
    (a : Alloc) :
    ∃ ok r' a', registryAddFrom r a start exts = some (ok, r', a') ∧ r'.Inv ∧ r'.sizeLg2 ≠ 0 ∧
      (a'.failed = false → a.failed = false ∧ ∀ base, r.pairs.Perm (start.map entry ++ base) →
        (ok = true ↔ (exts.map entryKey ++ r.keys).Nodup) ∧
        r'.pairs.Perm ((if ok then (start ++ exts).map entry else []) ++ base)) := by
  induction exts generalizing r a start with
  | nil =>
    refine ⟨true, r, a, rfl, h, h0, fun hf => ⟨hf, fun base hp => ⟨?_, ?_⟩⟩⟩
    · simpa using h.table.nodup
    · simpa using hp
  | cons e exts ih =>
    obtain ⟨hk, hadd⟩ | ⟨hk, ok₁, r₁, a₁, hadd, hinv, hs₁, hok⟩ := registryAdd_cases h h0 a e
    · obtain ⟨r', hback, hinv, hs, hout⟩ := registryBackOut_run start h h0
      refine ⟨false, r', a, ?_, hinv, hs, fun hf => ⟨hf, fun base hp => ⟨?_, hout base hp⟩⟩⟩
      · rw [registryAddFrom_cons hadd, if_neg (by decide), hback, Option.map_some]
      · simp [hk]
    · rw [registryAddFrom_cons hadd]
      cases ok₁ with
      | false =>
        -- there was no memory
        obtain ⟨r', hback, hinv, hs, -⟩ := registryBackOut_run start hinv hs₁
        refine ⟨false, r', a₁, ?_, hinv, hs, fun hf => ?_⟩
        · rw [if_neg (by decide), hback, Option.map_some]
        · cases (hok hf).2.1
      | true =>
        obtain ⟨ok, r', a', hrun, hinv', hs', hend⟩ := ih (start ++ [e]) hinv hs₁ a₁
        refine ⟨ok, r', a', hrun, hinv', hs', fun hf => ?_⟩
        obtain ⟨hf₁, hend⟩ := hend hf
        obtain ⟨hf₀, -, hp₁⟩ := hok hf₁
        refine ⟨hf₀, fun base hp => ?_⟩
        have hp₂ : r₁.pairs.Perm ((start ++ [e]).map entry ++ base) := by
          rw [List.map_append, List.append_assoc]
          exact (hp₁.trans (hp.cons _)).trans List.perm_middle.symm
        obtain ⟨hiff, hp'⟩ := hend base hp₂
        refine ⟨hiff.trans ?_, by simpa using hp'⟩
        have hkeys : r₁.keys.Perm (entryKey e :: r.keys) := hp₁.map Prod.fst
        rw [List.map_cons, List.cons_append]
        exact ((hkeys.append_left _).trans List.perm_middle).nodup_iff

/-- **`AddArray` enters all or none.** -/
theorem registryAddArray_run (exts : List (Nat × MiniTableExtension)) (h : r.Inv) (h0 : r.sizeLg2 ≠ 0)
    (a : Alloc) :
    ∃ ok r' a', registryAddArray r a exts = some (ok, r', a') ∧ r'.Inv ∧ r'.sizeLg2 ≠ 0 ∧
      (a'.failed = false → a.failed = false ∧ (ok = true ↔ (exts.map entryKey ++ r.keys).Nodup) ∧
        r'.pairs.Perm ((if ok then exts.map entry else []) ++ r.pairs)) := by
  obtain ⟨ok, r', a', hrun, hinv, hs, hend⟩ := registryAddFrom_run [] exts h h0 a
  exact ⟨ok, r', a', hrun, hinv, hs, fun hf => ⟨(hend hf).1, (hend hf).2 r.pairs (.refl _)⟩⟩

end Registry

section Alike

/-- Two pools with the same memory, and the extensions in the same slots. -/
structure SameMemory (s s' : DefPool) : Prop where
  exts : s'.exts = s.exts
  platform : s'.platform = s.platform
  fileDefs : s'.fileDefs = s.fileDefs
  tables : s'.tables = s.tables
  enumTables : s'.enumTables = s.enumTables
  extTables : s'.extTables = s.extTables
  extDefs : s'.extDefs = s.extDefs

/-- Two pools that hold the same. -/
structure Alike (s s' : DefPool) : Prop where
  inv : s.Inv
  inv' : s'.Inv
  syms : s.syms.pairs.Perm s'.syms.pairs
  files : s.files.pairs.Perm s'.files.pairs
  extreg : s.extreg.pairs.Perm s'.extreg.pairs
  memory : SameMemory s s'

theorem Alike.lookupSym (h : Alike s s') (name : StrKey) : s'.lookupSym name = s.lookupSym name :=
  (Table.lookup_eq_of_perm h.inv.syms.table h.inv'.syms.table h.syms name).symm

theorem Alike.findFileByName (h : Alike s s') (name : StrKey) :
    s'.findFileByName name = s.findFileByName name :=
  (Table.lookup_eq_of_perm h.inv.files.table h.inv'.files.table h.files name).symm

theorem Alike.registryLookup (h : Alike s s') (table num : Nat) :
    registryLookup s'.extreg table num = registryLookup s.extreg table num :=
  (Table.lookup_eq_of_perm h.inv.extreg.table h.inv'.extreg.table h.extreg _).symm

theorem insertSym_alike (h : Alike s s') (name : StrKey) (type : DefType)
    (hs : (s.insertSym name type).2.arena.failed = false)
    (hs' : (s'.insertSym name type).2.arena.failed = false) :
    (s.insertSym name type).1 = (s'.insertSym name type).1 ∧
      Alike (s.insertSym name type).2 (s'.insertSym name type).2 := by
  have hl := h.lookupSym name
  by_cases hb : s.lookupSym name = some none ∧ name.length < 2 ^ 32
  · obtain ⟨ok, t, a, hrun, hinv, hclean, hok⟩ := insertSym_run h.inv hb.1 hb.2 type
    obtain ⟨ok', t', a', hrun', hinv', hclean', hok'⟩ := insertSym_run h.inv' (hl.trans hb.1) hb.2 type
    rw [hrun] at hs ⊢
    rw [hrun'] at hs' ⊢
    obtain ⟨-, rfl, hp⟩ := hok hs
    obtain ⟨-, rfl, hp'⟩ := hok' hs'
    rw [h.memory.fileDefs] at hp'
    have hi := h.inv
    have hi' := h.inv'
    have hm := h.memory
    exact ⟨rfl, ⟨hinv, hclean, hi.files, hi.exts, hi.extreg, hi.slots⟩,
      ⟨hinv', hclean', hi'.files, hi'.exts, hi'.extreg, hi'.slots⟩,
      hp.trans ((h.syms.cons _).trans hp'.symm), h.files, h.extreg,
      ⟨hm.exts, hm.platform, hm.fileDefs, hm.tables, hm.enumTables, hm.extTables, hm.extDefs⟩⟩
  · have hb' : s.lookupSym name ≠ some none ∨ 2 ^ 32 ≤ name.length := by rwa [not_and_or, Nat.not_lt] at hb
    rw [insertSym_refused hb' type, insertSym_refused (by rwa [hl]) type]
    refine ⟨?_, h⟩
    rw [DefPool.lookupSym] at hb'
    rw [DefPool.lookupSym, DefPool.lookupSym] at hl
    rw [insertSym, insertSym, hl]
    split
    · rfl
    · rfl
    · next hnone =>
      have hlong := hb'.resolve_left fun hne => hne hnone
      rw [if_pos hlong, if_pos hlong]

/-- As long as memory is left, what an insertion gives does not depend on it. -/
theorem intTable_insert_eq {t t₁ t₂ : IntTable} (h : t.Inv) {k : Nat} {v : UInt64} {a₁ a₂ b₁ b₂ : Alloc}
    {r₁ r₂ : Bool} (h₁ : t.insert k v a₁ = (some (r₁, t₁), b₁)) (h₂ : t.insert k v a₂ = (some (r₂, t₂), b₂))
    (hf₁ : b₁.failed = false) (hf₂ : b₂.failed = false) : t₁ = t₂ := by
  have hlg := h.table.lg2_le
  have hmod : (t.t.sizeLg2 + 1) % 256 = t.t.sizeLg2 + 1 := by omega
  have hinit := Table.init_spec (K := Nat) (V := UInt64) (s := t.t.sizeLg2 + 1) (by omega)
  rw [IntTable.insert] at h₁ h₂
  by_cases hk : k < t.arraySize
  · rw [if_pos hk] at h₁ h₂
    cases hw : t.array[k]? with
    | none => simp [hw] at h₁
    | some w => simp_all
  · rw [if_neg hk] at h₁ h₂
    by_cases hfull : t.t.isFull = true
    · rw [if_pos hfull, hmod] at h₁ h₂
      obtain ⟨c₁, hc₁, hb₁⟩ | ⟨-, c₁, hc₁, -⟩ := hinit a₁
      · rw [hc₁] at h₁
        cases h₁
        rw [hb₁] at hf₁
        cases hf₁
      obtain ⟨c₂, hc₂, hb₂⟩ | ⟨-, c₂, hc₂, -⟩ := hinit a₂
      · rw [hc₂] at h₂
        cases h₂
        rw [hb₂] at hf₂
        cases hf₂
      rw [hc₁] at h₁
      rw [hc₂] at h₂
      have heq := (Prod.mk.inj h₁).1.symm.trans (Prod.mk.inj h₂).1
      simp_all
    · rw [if_neg hfull] at h₁ h₂
      have heq := (Prod.mk.inj h₁).1.symm.trans (Prod.mk.inj h₂).1
      simp_all

theorem insertExt_alike (h : Alike s s') (ext f : Nat) (hs : (s.insertExt ext f).2.arena.failed = false)
    (hs' : (s'.insertExt ext f).2.arena.failed = false) :
    (s.insertExt ext f).1 = (s'.insertExt ext f).1 ∧
      Alike (s.insertExt ext f).2 (s'.insertExt ext f).2 := by
  have hm := h.memory
  by_cases he : s.Enterable ext f
  · obtain ⟨ok, t, a, hins, hrun, hexts, hok⟩ := insertExt_run h.inv he.1 he.2.1 he.2.2
    obtain ⟨ok', t', a', hins', hrun', hexts', hok'⟩ :=
      insertExt_run h.inv' (by rw [hm.exts]; exact he.1) he.2.1 he.2.2
    rw [hrun] at hs ⊢
    rw [hrun'] at hs' ⊢
    obtain ⟨-, rfl, -⟩ := hok hs
    obtain ⟨-, rfl, -⟩ := hok' hs'
    rw [hm.exts] at hins'
    obtain ⟨m, hst⟩ := h.inv.exts
    obtain rfl := intTable_insert_eq hst.inv hins hins' hs hs'
    have hi := h.inv
    have hi' := h.inv'
    exact ⟨rfl, ⟨hi.syms, hi.clean, hi.files, hexts, hi.extreg, hi.slots⟩,
      ⟨hi'.syms, hi'.clean, hi'.files, hexts, hi'.extreg, hi'.slots⟩, h.syms, h.files, h.extreg,
      ⟨rfl, hm.platform, hm.fileDefs, hm.tables, hm.enumTables, hm.extTables, hm.extDefs⟩⟩
  · have he' : ¬s'.Enterable ext f := by
      rw [Enterable, hm.exts]
      exact he
    rw [insertExt_refused he, insertExt_refused he']
    exact ⟨rfl, h⟩

/-- No call tells two such pools apart. -/
theorem serve_alike (h : Alike s s') (c : PoolCall) (hs : (serve c s).2.arena.failed = false)
    (hs' : (serve c s').2.arena.failed = false) :
    (serve c s).1 = (serve c s').1 ∧ Alike (serve c s).2 (serve c s').2 := by
  cases c with
  | insertSym name type => exact insertSym_alike h name type hs hs'
  | insertExt ext f => exact insertExt_alike h ext f hs hs'
  | lookupSym name => exact ⟨congrArg orUndefined (h.lookupSym name).symm, h⟩
  | findFile name => exact ⟨congrArg orUndefined (h.findFileByName name).symm, h⟩
  | readFile file => exact ⟨by rw [serve, serve, h.memory.fileDefs], h⟩
  | readTable table => exact ⟨by rw [serve, serve, h.memory.tables], h⟩

/-- **A builder cannot tell two such pools apart.** -/
theorem run_alike {α : Type} (x : Client PoolCall PoolReply Failure α) (h : Alike s s')
    (hs : (x.run serve s).2.arena.failed = false) (hs' : (x.run serve s').2.arena.failed = false) :
    (x.run serve s).1 = (x.run serve s').1 ∧ Alike (x.run serve s).2 (x.run serve s').2 := by
  let Good : DefPool → Prop := fun s => s.arena.failed = false
  have hinv : ∀ c s, Inv s → Inv (serve c s).2 ∧ (Good (serve c s).2 → Good s) :=
    fun c s hi => ⟨(serve_keeps c s hi).1, fun hf => ((serve_keeps c s hi).2 hf).failed⟩
  have hstep : ∀ c s s', Alike s s' → Good (serve c s).2 → Good (serve c s').2 →
      (serve c s).1 = (serve c s').1 ∧ Alike (serve c s).2 (serve c s').2 :=
    fun c _ _ h hs hs' => serve_alike h c hs hs'
  exact Client.run_simulates hinv hstep x h.inv h.inv' h hs hs'

end Alike

end DefPool

end Reflection

end Hpb
