import Hpb.Reflection.PoolCalls

/-!
# What is left of a file that was not accepted

`hpb_DefPool_AddFile` enters the symbols and extensions of a file in the pool while it builds it. When it
fails, `remove_filedef` takes the symbols out again. Nothing takes the extensions out; and a symbol that is
taken out leaves the symbols behind it in its chain where no lookup finds them.

* `Restored`: what should be left of the failed call, which is nothing.
* `CleansUp`: the builder has not come to the extensions, and no symbol of the file is at the head of a
  chain with a symbol of an earlier file.
* `addFile_failure_restores_iff`: the former if and only if the latter.
-/

namespace Hpb

namespace Reflection

namespace DefPool

/-! ### The steps of `addFile` -/

/-- Every symbol is one of a file of the pool. -/
def Known (s : DefPool) : Prop := ∀ p ∈ s.syms.pairs, p.2.file < s.fileDefs.length

variable {s s' t : DefPool} {parsers : NumberParsers} {proto : FileDescriptorProto}

/-- Registering the extensions changes the registry only, and not if it fails. -/
theorem registerExts_run (h : s.Inv) (extTables : List (Option MiniTableExtension)) :
    ∃ r extreg a, s.registerExts extTables = (r, { s with extreg, arena := a }) ∧ extreg.Inv ∧
      extreg.sizeLg2 ≠ 0 ∧ (a.failed = false → s.arena.failed = false ∧
        ∀ e, r = .error e → extreg.pairs.Perm s.extreg.pairs) := by
  rw [registerExts]
  by_cases hnil : extTables = []
  · rw [if_pos hnil]
    exact ⟨.ok (), s.extreg, s.arena, rfl, h.extreg, h.slots, fun hf => ⟨hf, fun e he => by cases he⟩⟩
  · rw [if_neg hnil]
    cases hl : extLayouts s.extTables.length extTables with
    | none => exact ⟨_, s.extreg, s.arena, rfl, h.extreg, h.slots, fun hf => ⟨hf, fun _ _ => .refl _⟩⟩
    | some exts =>
      obtain ⟨ok, r, a, hrun, hinv, hs, hok⟩ := registryAddArray_run exts h.extreg h.slots s.arena
      simp only [hrun]
      refine ⟨_, r, a, rfl, hinv, hs, fun hf => ⟨(hok hf).1, fun e he => ?_⟩⟩
      obtain ⟨-, -, hp⟩ := hok hf
      cases ok with
      | true => cases he
      | false => exact hp

/-- What `_hpb_FileDef_Create` does to the pool: what a builder does, which leaves it as `t`, and the
registration of the extensions. -/
structure Created (s t : DefPool) (failed : Prop) (s' : DefPool) : Prop where
  inv : s'.Inv
  built : s'.arena.failed = false → t.arena.failed = false ∧ Built s t
  rest : s' = { t with arena := s'.arena, extreg := s'.extreg }
  extreg : s'.arena.failed = false → failed → s'.extreg.pairs.Perm s.extreg.pairs

theorem Created.fileDefs {P : Prop} (h : Created s t P s') (hf : s'.arena.failed = false) :
    s'.fileDefs = s.fileDefs := by
  rw [h.rest]
  exact (h.built hf).2.fileDefs

theorem build_created (parsers : NumberParsers) (proto : FileDescriptorProto) (h : s.Inv) :
    Created s ((s.builder parsers proto).run serve s).2 (∃ e, (s.build parsers proto).1 = .error e)
      (s.build parsers proto).2 := by
  have hkeeps := run_keeps (s.builder parsers proto) s h
  rw [build]
  match (s.builder parsers proto).run serve s, hkeeps with
  | (.error e, t), ⟨hinv, hb⟩ =>
    refine ⟨hinv, fun hf => ⟨hf, hb hf⟩, rfl, fun hf _ => ?_⟩
    rw [(hb hf).rest]
  | (.ok (file, b), t), ⟨hinv, hb⟩ =>
    obtain ⟨r, extreg, a, hreg, hextreg, hs, hok⟩ := registerExts_run hinv b.extTables
    have hinv' : Inv { t with extreg, arena := a } :=
      ⟨hinv.syms, hinv.clean, hinv.files, hinv.exts, hextreg, hs⟩
    have hperm : a.failed = false → ∀ e, r = .error e → extreg.pairs.Perm s.extreg.pairs := fun hf e he => by
      have hp := (hok hf).2 e he
      rwa [(hb (hok hf).1).rest] at hp
    simp only [hreg]
    cases r with
    | ok u =>
      refine ⟨hinv', fun hf => ⟨(hok hf).1, hb (hok hf).1⟩, rfl, fun hf he => ?_⟩
      obtain ⟨e, he⟩ := he
      cases he
    | error e => exact ⟨hinv', fun hf => ⟨(hok hf).1, hb (hok hf).1⟩, rfl, fun hf _ => hperm hf e rfl⟩

/-- A builder without a result makes a file without one. -/
theorem build_undefined (h : ((s.builder parsers proto).run serve s).1 = .error .undefined) :
    (s.build parsers proto).1 = .error .undefined := by
  rw [build]
  match (s.builder parsers proto).run serve s, h with
  | (.error e, t), h => exact congrArg _ (Except.error.inj h)

/-- Is this a definition of the file? -/
def ofFile (file : Nat) (p : DefPtr) : Bool := p.file = file

/-- **The symbols of the file are taken out** of the table of symbols. -/
theorem removeFiledef_run (h : s.Inv) (file : Nat) :
    ∃ syms, s.removeFiledef file = some { s with syms } ∧ Table.SameShape s.syms syms ∧
      syms.count = syms.pairs.length ∧
      Table.Pruned (fun k => s.syms.getEntry (strHash k)) s.syms.entries
        (Table.badAt (ofFile file) s.syms.entries) syms.entries := by
  obtain ⟨syms, hrun, hrest⟩ := Table.removeIf_spec h.syms.table h.clean (ofFile file)
  refine ⟨syms, ?_, hrest⟩
  change s.syms.removeIf (fun p => p.file = file) = some syms at hrun
  rw [removeFiledef, hrun]
  rfl

/-- Entering the file changes the table of files, and the memory is kept. -/
theorem accept_run (h : s.Inv) {name : StrKey} (hk : name ∉ s.files.keys) (hlen : name.length < 2 ^ 32)
    (file : FileDef) (b : BuildState) :
    ∃ files a, s.accept name file b =
        (.ok s.fileDefs.length, ({ s with files, arena := a } : DefPool).keep file b) ∧
      files.Inv ∧ (a.failed = false → s.arena.failed = false ∧
        files.pairs.Perm ((name, s.fileDefs.length) :: s.files.pairs)) := by
  obtain ⟨r, files, a, hi⟩ := StrTable.insert_run h.files hk hlen s.fileDefs.length s.arena
  refine ⟨files, a, ?_, hi.inv, fun hf => ⟨(hi.ok hf).1, (hi.ok hf).2.2⟩⟩
  rw [accept, if_neg (Nat.not_le.mpr hlen), hi.run]

theorem accept_refused {name : StrKey} (h : 2 ^ 32 ≤ name.length) (file : FileDef) (b : BuildState) :
    s.accept name file b = (.error .undefined, s) := by
  rw [accept, if_pos h]

theorem reject_run (h : s.Inv) (format : String) (args : List ErrArg) :
    ∃ syms, s.removeFiledef s.fileDefs.length = some { s with syms } ∧
      s.reject (.error format args) = (.error (.error format args), { s with syms }) := by
  obtain ⟨syms, hrun, -⟩ := removeFiledef_run h s.fileDefs.length
  exact ⟨syms, hrun, by rw [reject, hrun]⟩

theorem addFile_known (h : s.findFileByName proto.name ≠ some none) : (s.addFile parsers proto).2 = s := by
  rw [findFileByName] at h
  rw [addFile]
  split
  · rfl
  · rfl
  · next hl => exact absurd hl h

theorem addFile_new (h : s.findFileByName proto.name = some none) :
    s.addFile parsers proto = finish proto.name (s.build parsers proto) := by
  rw [findFileByName] at h
  simp only [addFile, h]

/-- How the call for a new file fails: what was built is taken out. -/
theorem addFile_error (h : s.Inv) (hnew : s.findFileByName proto.name = some none) {format : String}
    {args : List ErrArg} (hrun : s.addFile parsers proto = (.error (.error format args), s')) :
    (s.build parsers proto).1 = .error (.error format args) ∧
      (s.build parsers proto).2.removeFiledef (s.build parsers proto).2.fileDefs.length = some s' := by
  have hinv := (build_created parsers proto h).inv
  rw [addFile_new hnew] at hrun
  match s.build parsers proto, hinv, hrun with
  | (.ok (file, b), t), _, hrun =>
    rw [finish, accept] at hrun
    split at hrun
    · cases hrun
    · split at hrun <;> cases hrun
  | (.error .undefined, t), _, hrun => cases hrun
  | (.error (.error format' args'), t), hinv, hrun =>
    obtain ⟨syms, hrem, hrej⟩ := reject_run hinv format' args'
    rw [finish, hrej] at hrun
    cases hrun
    exact ⟨rfl, hrem⟩

/-- A pool at rest: its tables are in order, and its symbols are those of its files. -/
structure Sound (s : DefPool) : Prop where
  inv : s.Inv
  known : ∀ p ∈ s.syms.pairs, p.2.file < s.fileDefs.length
  failed : s.arena.failed = false

section Failed

variable (hs : s.Sound) (hb : Created s t True s') (hf : s'.arena.failed = false)

include hs hb hf

/-- Among the symbols at the failure, those of other files are the ones from before. -/
theorem old_syms : (s'.syms.pairs.filter fun p => !ofFile s.fileDefs.length p.2).Perm s.syms.pairs := by
  obtain ⟨new, hp, hnew⟩ := (hb.built hf).2.syms
  rw [hb.rest]
  refine (hp.filter _).trans ?_
  rw [List.filter_append, List.filter_eq_nil_iff.mpr, List.nil_append, List.filter_eq_self.mpr]
  · intro p hp
    have := hs.known p hp
    simp [ofFile]
    omega
  · intro p hp
    simp [ofFile, hnew p hp]

/-- **The pool is as before** if the table of extensions is, and no chain lost its head. -/
theorem removeFiledef_alike (hexts : t.exts = s.exts)
    (hheads : s'.syms.HeadsKept strHash (ofFile s.fileDefs.length)) :
    ∃ syms, s'.removeFiledef s.fileDefs.length = some { s' with syms } ∧ Alike s { s' with syms } := by
  obtain ⟨syms, hrun, hshape, hcount, hp⟩ := removeFiledef_run hb.inv s.fileDefs.length
  have hpairs : syms.pairs = s'.syms.pairs.filter fun p => !ofFile s.fileDefs.length p.2 := hp.pairs
  have hinv := hp.inv hb.inv.syms.table hshape hcount hheads
  have hrest := (hb.built hf).2.rest
  refine ⟨syms, hrun, hs.inv, ⟨⟨hinv, ?_, ?_⟩, hp.clean, hb.inv.files, hb.inv.exts, hb.inv.extreg, hb.inv.slots⟩,
    ?_, ?_, ?_, ?_⟩
  · have := hb.inv.syms.load
    rw [hshape.maxCount, hcount, hpairs]
    rw [hb.inv.syms.table.count_eq] at this
    exact (List.length_filter_le _ _).trans this
  · intro k hk
    refine hb.inv.syms.short k ?_
    rw [Table.keys, hpairs] at hk
    exact List.map_subset _ (List.filter_subset_self _) hk
  · rw [hpairs]
    exact (old_syms hs hb hf).symm
  · have hfiles : s'.files = s.files := by rw [hb.rest, hrest]
    rw [hfiles]
  · exact (hb.extreg hf trivial).symm
  · rw [hb.rest]
    refine ⟨hexts, ?_, ?_, ?_, ?_, ?_, ?_⟩ <;> rw [hrest]

/-- **A symbol behind one of the failed file is not found any more.** -/
theorem removeFiledef_lost {k : StrKey} {v : DefPtr} (hk : (k, v) ∈ s'.syms.pairs)
    (hv : ofFile s.fileDefs.length v = false)
    (hhead : Table.badAt (ofFile s.fileDefs.length) s'.syms.entries (s'.syms.getEntry (strHash k)) = true) :
    s.lookupSym k = some (some v) ∧
      ∃ syms, s'.removeFiledef s.fileDefs.length = some { s' with syms } ∧ syms.lookup2 k = some none := by
  obtain ⟨syms, hrun, hshape, -, hp⟩ := removeFiledef_run hb.inv s.fileDefs.length
  refine ⟨?_, syms, hrun, hp.lost hb.inv.syms.table hshape hk hhead⟩
  have hold : (k, v) ∈ s.syms.pairs :=
    (old_syms hs hb hf).mem_iff.mp (List.mem_filter.mpr ⟨hk, by simp [hv]⟩)
  obtain ⟨r, hr, hiff⟩ := Table.lookup_spec hs.inv.syms.table k
  rw [lookupSym, StrTable.lookup2, hr, (hiff v).mpr hold]

end Failed

/-! ### What is left of a failed call -/

/-- Every lookup in `s'` returns what it returns in `s`. -/
structure SameAnswers (s s' : DefPool) : Prop where
  sym : ∀ name, s'.lookupSym name = s.lookupSym name
  file : ∀ name, s'.findFileByName name = s.findFileByName name
  extByName : ∀ name, s'.findExtensionByName name = s.findExtensionByName name
  extByNumber : ∀ t num, s'.findExtensionByNumber t num = s.findExtensionByNumber t num
  extByMiniTable : ∀ ext, s'.findExtensionByMiniTable ext = s.findExtensionByMiniTable ext
  allExts : ∀ m, s'.getAllExtensions m = s.getAllExtensions m

/-- No table of `s'` refers to a definition of the file that was built in `s`: no symbol is one of it, and
what the tables refer to is what they referred to before the file was there. -/
structure Forgets (s s' : DefPool) : Prop where
  ofFile : ∀ p ∈ s'.syms.pairs, p.2.file ≠ s.fileDefs.length
  syms : s'.syms.pairs ⊆ s.syms.pairs
  files : s'.files.pairs ⊆ s.files.pairs
  exts : s'.exts.pairs ⊆ s.exts.pairs
  extreg : s'.extreg.pairs ⊆ s.extreg.pairs

/-- Files are added one after the other until one fails. -/
def addFiles (parsers : NumberParsers) : DefPool → List FileDescriptorProto → List (Except Failure Nat) × DefPool
  | s, [] => ([], s)
  | s, proto :: protos =>
    match s.addFile parsers proto with
    | (.ok n, s) => (.ok n :: (addFiles parsers s protos).1, (addFiles parsers s protos).2)
    | (.error e, s) => ([.error e], s)

/-- Later files are added in `s'` as they are in `s`, as long as there is memory. -/
def SameLater (parsers : NumberParsers) (s s' : DefPool) : Prop :=
  ∀ protos, (addFiles parsers s protos).2.arena.failed = false →
    (addFiles parsers s' protos).2.arena.failed = false →
    (addFiles parsers s' protos).1 = (addFiles parsers s protos).1 ∧
      ((∀ e, .error e ∉ (addFiles parsers s protos).1) →
        SameAnswers (addFiles parsers s protos).2 (addFiles parsers s' protos).2)

/-- The pool `s'` is as `s`, in which a file was added that failed. -/
structure Restored (parsers : NumberParsers) (s s' : DefPool) : Prop where
  answers : SameAnswers s s'
  forgets : Forgets s s'
  later : SameLater parsers s s'

/-- If the file is new, then the builder has entered no extension, and in the symbols as they are when it
ends the head of a chain with a symbol of an earlier file is one of an earlier file. -/
def CleansUp (parsers : NumberParsers) (s : DefPool) (proto : FileDescriptorProto) : Prop :=
  s.findFileByName proto.name = some none →
    (∀ c ∈ (s.builder parsers proto).calls serve s, c.isInsertExt = false) ∧
      (s.build parsers proto).2.syms.HeadsKept strHash (ofFile s.fileDefs.length)

theorem Alike.sameAnswers (h : Alike s s') : SameAnswers s s' where
  sym := h.lookupSym
  file := h.findFileByName
  extByName name := by rw [findExtensionByName, findExtensionByName, h.lookupSym, h.memory.fileDefs]
  extByNumber t num := by
    rw [findExtensionByNumber, findExtensionByNumber, h.registryLookup]
    simp only [findExtensionByMiniTable, h.memory.exts]
  extByMiniTable ext := by rw [findExtensionByMiniTable, findExtensionByMiniTable, h.memory.exts]
  allExts m := by rw [getAllExtensions, getAllExtensions, h.memory.exts, h.memory.extDefs]

theorem Alike.forgets (hs : s.Sound) (h : Alike s s') : Forgets s s' where
  ofFile p hp := Nat.ne_of_lt (hs.known p (h.syms.mem_iff.mpr hp))
  syms _ := h.syms.mem_iff.mpr
  files _ := h.files.mem_iff.mpr
  exts := by rw [h.memory.exts]; exact List.Subset.refl _
  extreg _ := h.extreg.mem_iff.mpr

/-- Two pools that hold the same register the same extensions. -/
theorem registerExts_alike (h : Alike s s') (extTables : List (Option MiniTableExtension))
    (hs : (s.registerExts extTables).2.arena.failed = false)
    (hs' : (s'.registerExts extTables).2.arena.failed = false) :
    (s.registerExts extTables).1 = (s'.registerExts extTables).1 ∧
      Alike (s.registerExts extTables).2 (s'.registerExts extTables).2 := by
  rw [registerExts] at hs hs' ⊢
  rw [registerExts]
  by_cases hnil : extTables = []
  · simp only [if_pos hnil]
    exact ⟨trivial, h⟩
  · simp only [if_neg hnil] at hs hs' ⊢
    have hlen : s'.extTables.length = s.extTables.length := by rw [h.memory.extTables]
    rw [hlen] at hs' ⊢
    cases hl : extLayouts s.extTables.length extTables with
    | none => exact ⟨rfl, h⟩
    | some exts =>
      have hi := h.inv
      have hi' := h.inv'
      have hm := h.memory
      obtain ⟨ok, r, a, hrun, hinv, hslots, hok⟩ := registryAddArray_run exts hi.extreg hi.slots s.arena
      obtain ⟨ok', r', a', hrun', hinv', hslots', hok'⟩ := registryAddArray_run exts hi'.extreg hi'.slots s'.arena
      simp only [hl, hrun, hrun'] at hs hs' ⊢
      obtain ⟨-, hiff, hp⟩ := hok hs
      obtain ⟨-, hiff', hp'⟩ := hok' hs'
      have hkeys : s.extreg.keys.Perm s'.extreg.keys := h.extreg.map Prod.fst
      have heq : ok = ok' := by
        rw [Bool.eq_iff_iff, hiff, hiff']
        exact (hkeys.append_left _).nodup_iff
      subst heq
      exact ⟨rfl, ⟨hi.syms, hi.clean, hi.files, hi.exts, hinv, hslots⟩,
        ⟨hi'.syms, hi'.clean, hi'.files, hi'.exts, hinv', hslots'⟩, h.syms, h.files,
        hp.trans ((h.extreg.append_left _).trans hp'.symm),
        ⟨hm.exts, hm.platform, hm.fileDefs, hm.tables, hm.enumTables, hm.extTables, hm.extDefs⟩⟩

theorem builder_alike (h : Alike s s') : s'.builder parsers proto = s.builder parsers proto := by
  have hm := h.memory
  rw [builder, builder, buildEnv, buildEnv, hm.fileDefs, hm.platform, hm.enumTables, hm.tables, hm.extTables]

theorem build_alike (h : Alike s s') (hs : (s.build parsers proto).2.arena.failed = false)
    (hs' : (s'.build parsers proto).2.arena.failed = false) :
    (s.build parsers proto).1 = (s'.build parsers proto).1 ∧
      Alike (s.build parsers proto).2 (s'.build parsers proto).2 := by
  have hf := ((build_created parsers proto h.inv).built hs).1
  have hf' := ((build_created parsers proto h.inv').built hs').1
  rw [builder_alike h] at hf'
  obtain ⟨heq, halike⟩ := run_alike (s.builder parsers proto) h hf hf'
  rw [build] at hs ⊢
  rw [build, builder_alike h] at hs'
  rw [build, builder_alike h]
  match (s.builder parsers proto).run serve s, (s.builder parsers proto).run serve s', heq, halike, hs, hs' with
  | (.error e, t), (.error e', t'), heq, halike, _, _ =>
    cases heq
    exact ⟨rfl, halike⟩
  | (.ok (file, b), t), (.ok (file', b'), t'), heq, halike, hs, hs' =>
    cases heq
    have hreg := registerExts_alike halike b.extTables
    dsimp only at hs hs' ⊢
    match t.registerExts b.extTables, t'.registerExts b.extTables, hreg, hs, hs' with
    | (.ok (), u), (.ok (), u'), hreg, hs, hs' => exact ⟨rfl, (hreg hs hs').2⟩
    | (.error e, u), (.error e', u'), hreg, hs, hs' =>
      obtain ⟨he, hu⟩ := hreg hs hs'
      cases he
      exact ⟨rfl, hu⟩
    | (.ok (), u), (.error e', u'), hreg, hs, hs' => cases (hreg hs hs').1
    | (.error e, u), (.ok (), u'), hreg, hs, hs' => cases (hreg hs hs').1

/-- Memory that had run out is not there when the call ends. -/
theorem finish_failed (h : s.Inv) {name : StrKey} (hk : name ∉ s.files.keys)
    (r : Except Failure (FileDef × BuildState)) (hf : (finish name (r, s)).2.arena.failed = false) :
    s.arena.failed = false := by
  match r with
  | .ok (file, b) =>
    rw [finish] at hf
    by_cases hlen : 2 ^ 32 ≤ name.length
    · rwa [accept_refused hlen] at hf
    · obtain ⟨files, a, hrun, -, hok⟩ := accept_run h hk (Nat.lt_of_not_le hlen) file b
      rw [hrun] at hf
      exact (hok hf).1
  | .error .undefined => exact hf
  | .error (.error format args) =>
    obtain ⟨syms, -, hrun⟩ := reject_run h format args
    rw [finish, hrun] at hf
    exact hf

theorem finish_alike (h : Alike s s') {name : StrKey} (hk : name ∉ s.files.keys)
    (r : Except Failure (FileDef × BuildState)) (hs : (finish name (r, s)).2.arena.failed = false)
    (hs' : (finish name (r, s')).2.arena.failed = false) :
    (finish name (r, s')).1 = (finish name (r, s)).1 ∧
      ∀ n, (finish name (r, s)).1 = .ok n → Alike (finish name (r, s)).2 (finish name (r, s')).2 := by
  have hi := h.inv
  have hi' := h.inv'
  have hm := h.memory
  have hk' : name ∉ s'.files.keys := fun hmem => hk ((h.files.map Prod.fst).mem_iff.mpr hmem)
  match r with
  | .ok (file, b) =>
    rw [finish] at hs hs' ⊢
    rw [finish]
    by_cases hlen : 2 ^ 32 ≤ name.length
    · rw [accept_refused hlen, accept_refused hlen]
      exact ⟨rfl, fun n hn => by cases hn⟩
    · obtain ⟨files, a, hrun, hinv, hok⟩ := accept_run hi hk (Nat.lt_of_not_le hlen) file b
      obtain ⟨files', a', hrun', hinv', hok'⟩ := accept_run hi' hk' (Nat.lt_of_not_le hlen) file b
      rw [hrun] at hs ⊢
      rw [hrun'] at hs' ⊢
      obtain ⟨-, hp⟩ := hok hs
      obtain ⟨-, hp'⟩ := hok' hs'
      rw [hm.fileDefs] at hp'
      refine ⟨by rw [hm.fileDefs], fun n _ => ⟨⟨hi.syms, hi.clean, hinv, hi.exts, hi.extreg, hi.slots⟩,
        ⟨hi'.syms, hi'.clean, hinv', hi'.exts, hi'.extreg, hi'.slots⟩, h.syms,
        hp.trans ((h.files.cons _).trans hp'.symm), h.extreg, ⟨hm.exts, hm.platform, ?_, ?_, ?_, ?_, ?_⟩⟩⟩
      · exact congrArg (· ++ [file]) hm.fileDefs
      · exact congrArg (· ++ b.tables) hm.tables
      · exact congrArg (· ++ b.enumTables) hm.enumTables
      · exact congrArg (· ++ b.extTables.filterMap id) hm.extTables
      · exact congrArg (· ++ file.allExts) hm.extDefs
  | .error .undefined => exact ⟨rfl, fun n hn => by cases hn⟩
  | .error (.error format args) =>
    obtain ⟨syms, -, hrun⟩ := reject_run hi format args
    obtain ⟨syms', -, hrun'⟩ := reject_run hi' format args
    rw [finish, finish, hrun, hrun']
    exact ⟨rfl, fun n hn => by cases hn⟩

/-- The name of a new file is not there when the builder has ended. -/
theorem build_new (parsers : NumberParsers) (proto : FileDescriptorProto) (h : s.Inv) (hnew : s.findFileByName proto.name = some none) :
    proto.name ∉ (s.build parsers proto).2.files.keys := by
  have hfiles : (s.build parsers proto).2.files = s.files := by
    rw [(build_created parsers proto h).rest]
    exact run_files_eq _ s
  rw [hfiles]
  exact (Table.lookup_none_iff h.files.table proto.name).mp hnew

/-- **Two pools that hold the same accept the same files**, and hold the same afterwards. -/
theorem addFile_alike (parsers : NumberParsers) (proto : FileDescriptorProto) (h : Alike s s') (hs : (s.addFile parsers proto).2.arena.failed = false)
    (hs' : (s'.addFile parsers proto).2.arena.failed = false) :
    (s'.addFile parsers proto).1 = (s.addFile parsers proto).1 ∧
      ∀ n, (s.addFile parsers proto).1 = .ok n →
        Alike (s.addFile parsers proto).2 (s'.addFile parsers proto).2 := by
  have hl := h.findFileByName proto.name
  by_cases hnew : s.findFileByName proto.name = some none
  · have hnew' := hl.trans hnew
    rw [addFile_new hnew] at hs ⊢
    rw [addFile_new hnew'] at hs' ⊢
    have hc := build_created parsers proto h.inv
    have hc' := build_created parsers proto h.inv'
    have hk := build_new parsers proto h.inv hnew
    have hk' := build_new parsers proto h.inv' hnew'
    obtain ⟨heq, halike⟩ := build_alike h (finish_failed hc.inv hk _ hs) (finish_failed hc'.inv hk' _ hs')
    match s.build parsers proto, s'.build parsers proto, heq, halike, hk, hs, hs' with
    | (r, t), (_, t'), rfl, halike, hk, hs, hs' => exact finish_alike halike hk r hs hs'
  · have hl : s'.files.lookup2 proto.name = s.files.lookup2 proto.name := hl
    rw [findFileByName] at hnew
    rw [addFile, addFile, hl]
    split
    · exact ⟨rfl, fun n hn => by cases hn⟩
    · exact ⟨rfl, fun n hn => by cases hn⟩
    · next hnone => exact absurd hnone hnew

/-- Memory that had run out before a file is not there after it. -/
theorem addFile_failed (parsers : NumberParsers) (proto : FileDescriptorProto) (h : s.Inv) (hf : (s.addFile parsers proto).2.arena.failed = false) :
    s.arena.failed = false := by
  by_cases hnew : s.findFileByName proto.name = some none
  · rw [addFile_new hnew] at hf
    have hc := build_created parsers proto h
    exact (hc.built (finish_failed hc.inv (build_new parsers proto h hnew) _ hf)).2.failed
  · rwa [addFile_known hnew] at hf

/-- How a file is accepted: it is built, and entered. -/
theorem addFile_ok {n : Nat} (h : s.Inv) (hrun : s.addFile parsers proto = (.ok n, s')) :
    s.findFileByName proto.name = some none ∧ ∃ file b t files a,
      s.build parsers proto = (.ok (file, b), t) ∧
      s' = ({ t with files, arena := a } : DefPool).keep file b ∧ files.Inv ∧
      (a.failed = false → t.arena.failed = false ∧
        files.pairs.Perm ((proto.name, t.fileDefs.length) :: t.files.pairs)) := by
  have hc := build_created parsers proto h
  by_cases hnew : s.findFileByName proto.name = some none
  · refine ⟨hnew, ?_⟩
    have hk := build_new parsers proto h hnew
    rw [addFile_new hnew] at hrun
    match s.build parsers proto, hc, hk, hrun with
    | (.ok (file, b), t), hc, hk, hrun =>
      rw [finish] at hrun
      by_cases hlen : 2 ^ 32 ≤ proto.name.length
      · rw [accept_refused hlen] at hrun
        cases hrun
      · obtain ⟨files, a, hacc, hinv, hok⟩ := accept_run hc.inv hk (Nat.lt_of_not_le hlen) file b
        rw [hacc] at hrun
        cases hrun
        exact ⟨file, b, t, files, a, rfl, rfl, hinv, hok⟩
    | (.error .undefined, t), _, _, hrun => cases hrun
    | (.error (.error format args), t), hc, _, hrun =>
      obtain ⟨syms, -, hrej⟩ := reject_run hc.inv format args
      rw [finish, hrej] at hrun
      cases hrun
  · rw [addFile] at hrun
    rw [findFileByName] at hnew
    split at hrun
    · cases hrun
    · cases hrun
    · next hnone => exact absurd hnone hnew

theorem addFile_ok_inv {n : Nat} (h : s.Inv) (hrun : s.addFile parsers proto = (.ok n, s')) : s'.Inv := by
  have hc := build_created parsers proto h
  obtain ⟨-, file, b, t, files, a, hb, rfl, hfiles, -⟩ := addFile_ok h hrun
  rw [hb] at hc
  exact ⟨hc.inv.syms, hc.inv.clean, hfiles, hc.inv.exts, hc.inv.extreg, hc.inv.slots⟩

theorem addFiles_cons (proto : FileDescriptorProto) (protos : List FileDescriptorProto) :
    addFiles parsers s (proto :: protos) = match s.addFile parsers proto with
      | (.ok n, s) => (.ok n :: (addFiles parsers s protos).1, (addFiles parsers s protos).2)
      | (.error e, s) => ([.error e], s) := by
  rw [addFiles]

theorem addFiles_failed (h : s.Inv) (protos : List FileDescriptorProto)
    (hf : (addFiles parsers s protos).2.arena.failed = false) : s.arena.failed = false := by
  induction protos generalizing s with
  | nil => exact hf
  | cons proto protos ih =>
    rw [addFiles_cons] at hf
    refine addFile_failed parsers proto h ?_
    match hrun : s.addFile parsers proto, hf with
    | (.ok n, t), hf => exact ih (addFile_ok_inv h hrun) hf
    | (.error e, t), hf => exact hf

theorem Alike.sameLater (h : Alike s s') : SameLater parsers s s' := by
  intro protos
  induction protos generalizing s s' with
  | nil => exact fun _ _ => ⟨rfl, fun _ => h.sameAnswers⟩
  | cons proto protos ih =>
    intro hs hs'
    have hadd := addFile_alike parsers proto h
    rw [addFiles_cons] at hs hs' ⊢
    rw [addFiles_cons]
    match hrun : s.addFile parsers proto, hrun' : s'.addFile parsers proto, hadd, hs, hs' with
    | (.ok n, t), (.ok n', t'), hadd, hs, hs' =>
      obtain ⟨heq, halike⟩ := hadd (addFiles_failed (addFile_ok_inv h.inv hrun) _ hs)
        (addFiles_failed (addFile_ok_inv h.inv' hrun') _ hs')
      cases heq
      obtain ⟨hrest, hanswers⟩ := ih (halike n rfl) hs hs'
      exact ⟨congrArg (Except.ok n :: ·) hrest, fun hok => hanswers fun e he => hok e (List.mem_cons_of_mem _ he)⟩
    | (.ok n, t), (.error e', t'), hadd, hs, hs' =>
      cases (hadd (addFiles_failed (addFile_ok_inv h.inv hrun) _ hs) hs').1
    | (.error e, t), (.ok n', t'), hadd, hs, hs' =>
      cases (hadd hs (addFiles_failed (addFile_ok_inv h.inv' hrun') _ hs')).1
    | (.error e, t), (.error e', t'), hadd, hs, hs' =>
      cases (hadd hs hs').1
      exact ⟨rfl, fun hok => absurd List.mem_cons_self (hok e)⟩

/-! ### Runs -/

/-- The pools that a program can have that adds files, as long as there is memory: each file was accepted,
or failed and was cleaned up. -/
inductive Reachable (parsers : NumberParsers) : DefPool → Prop where
  | new {platform : Platform} {a : Alloc} {s : DefPool} (h : DefPool.new platform a = some (some s))
      (hf : a.failed = false) : Reachable parsers s
  | accepted {s s' : DefPool} {proto : FileDescriptorProto} {n : Nat} (hs : Reachable parsers s)
      (h : s.addFile parsers proto = (.ok n, s')) (hf : s'.arena.failed = false) : Reachable parsers s'
  | failed {s s' : DefPool} {proto : FileDescriptorProto} {format : String} {args : List ErrArg}
      (hs : Reachable parsers s) (h : s.addFile parsers proto = (.error (.error format args), s'))
      (hf : s'.arena.failed = false) (hclean : CleansUp parsers s proto) : Reachable parsers s'

/-- An empty string table, if there was memory for it. -/
theorem strTable_init_cases {V : Type} [Inhabited V] (n : Nat) (a : Alloc) :
    (∃ a', (StrTable.init n a : Option (Option (StrTable V) × Alloc)) = some (none, a')) ∨
      ∃ t a', (StrTable.init n a : Option (Option (StrTable V) × Alloc)) = some (some t, a') ∧
        a'.failed = a.failed ∧ t.Inv ∧ Table.Clean t.entries ∧ t.pairs = [] ∧
        t.sizeLg2 = log2Ceiling (StrTable.sizeToInt (StrTable.needEntries n)) := by
  have hlt := StrTable.log2Ceiling_lt (StrTable.needEntries n)
  rw [StrTable.init]
  generalize log2Ceiling (StrTable.sizeToInt (StrTable.needEntries n)) = lg at hlt ⊢
  obtain ⟨a', h, -⟩ | ⟨hs, a', h, hf⟩ := Table.init_spec (K := StrKey) (V := V) hlt a
  · exact .inl ⟨a', h⟩
  · refine .inr ⟨_, a', h, hf, ⟨Table.empty_inv hs, Nat.zero_le _, ?_⟩, Table.empty_clean _,
      Table.empty_pairs, rfl⟩
    simp [Table.keys]

/-- A new pool has empty tables. -/
theorem new_sound {platform : Platform} {a : Alloc} (h : DefPool.new platform a = some (some s))
    (hf : a.failed = false) : s.Sound := by
  rw [DefPool.new] at h
  obtain ⟨a₁, h₁⟩ | ⟨syms, a₁, h₁, hf₁, hsyms, hclean, hnil, -⟩ := strTable_init_cases (V := DefPtr) 32 a
  · simp [h₁] at h
  obtain ⟨a₂, h₂⟩ | ⟨files, a₂, h₂, hf₂, hfiles, -⟩ := strTable_init_cases (V := Nat) 4 a₁
  · simp [h₁, h₂] at h
  obtain ⟨a₃, h₃, -⟩ | ⟨exts, a₃, h₃, hf₃, hexts⟩ := IntTable.init_run a₂
  · simp [h₁, h₂, h₃] at h
  obtain ⟨a₄, h₄⟩ | ⟨extreg, a₄, h₄, hf₄, hextreg, -, -, hlg⟩ := strTable_init_cases (V := Nat) 8 a₃
  · simp [h₁, h₂, h₃, h₄] at h
  simp only [h₁, h₂, h₃, h₄, Option.bind_eq_bind, Option.bind_some, Option.pure_def, Option.some.injEq] at h
  subst h
  refine ⟨⟨hsyms, hclean, hfiles, ⟨_, hexts⟩, hextreg, ?_⟩, ?_, ?_⟩
  · rw [hlg]
    decide
  · intro p hp
    rw [hnil] at hp
    cases hp
  · rw [hf₄, hf₃, hf₂, hf₁, hf]

theorem addFile_ok_sound {n : Nat} (h : s.Sound) (hrun : s.addFile parsers proto = (.ok n, s'))
    (hf : s'.arena.failed = false) : s'.Sound := by
  refine ⟨addFile_ok_inv h.inv hrun, ?_, hf⟩
  have hc := build_created parsers proto h.inv
  obtain ⟨-, file, b, t, files, a, hb, rfl, -, hok⟩ := addFile_ok h.inv hrun
  rw [hb] at hc
  dsimp only at hc
  obtain ⟨-, hbuilt⟩ := hc.built (hok hf).1
  obtain ⟨new, hp, hnew⟩ := hbuilt.syms
  have hsyms : t.syms = ((s.builder parsers proto).run serve s).2.syms := by rw [hc.rest]
  have hlen : t.fileDefs = s.fileDefs := by rw [hc.rest]; exact hbuilt.fileDefs
  intro p hp'
  change p ∈ t.syms.pairs at hp'
  change p.2.file < (t.fileDefs ++ [file]).length
  rw [hsyms, hp.mem_iff, List.mem_append] at hp'
  rw [hlen, List.length_append, List.length_singleton]
  obtain hp' | hp' := hp'
  · rw [hnew p hp']
    omega
  · have := h.known p hp'
    omega

/-- What a call has done to the pool that failed. -/
theorem build_failed (h : s.Inv) {e : Failure} (he : (s.build parsers proto).1 = .error e) :
    Created s ((s.builder parsers proto).run serve s).2 True (s.build parsers proto).2 := by
  have hc := build_created parsers proto h
  exact ⟨hc.inv, hc.built, hc.rest, fun hf _ => hc.extreg hf ⟨e, he⟩⟩

section Failed

variable (hs : s.Sound) {format : String} {args : List ErrArg}
  (hrun : s.addFile parsers proto = (.error (.error format args), s')) (hf : s'.arena.failed = false)

include hs hrun hf

/-- A failure that is cleaned up leaves the pool as it was. -/
theorem addFile_failed_alike (hclean : CleansUp parsers s proto) : Alike s s' := by
  by_cases hnew : s.findFileByName proto.name = some none
  · obtain ⟨hext, hheads⟩ := hclean hnew
    obtain ⟨he, hrem⟩ := addFile_error hs.inv hnew hrun
    have hc := build_failed hs.inv he
    have hexts := run_exts_eq (s.builder parsers proto) s hext
    have hb : (s.build parsers proto).2.arena.failed = false := by
      obtain ⟨syms, hrun, -⟩ := removeFiledef_run hc.inv (s.build parsers proto).2.fileDefs.length
      rw [hrun] at hrem
      cases hrem
      exact hf
    obtain ⟨syms, hrun', halike⟩ := removeFiledef_alike hs hc hb hexts hheads
    rw [← hc.fileDefs hb, hrem] at hrun'
    cases hrun'
    exact halike
  · have heq := congrArg Prod.snd hrun
    rw [addFile_known hnew] at heq
    subst heq
    exact ⟨hs.inv, hs.inv, .refl _, .refl _, .refl _, ⟨rfl, rfl, rfl, rfl, rfl, rfl, rfl⟩⟩

/-- A failure that leaves the answers as they were was cleaned up. -/
theorem cleansUp_of_sameAnswers (h : SameAnswers s s') : CleansUp parsers s proto := by
  intro hnew
  obtain ⟨he, hrem⟩ := addFile_error hs.inv hnew hrun
  have hc := build_failed hs.inv he
  obtain ⟨syms, hrun', -⟩ := removeFiledef_run hc.inv (s.build parsers proto).2.fileDefs.length
  rw [hrun'] at hrem
  cases hrem
  have hb : (s.build parsers proto).2.arena.failed = false := hf
  constructor
  · intro c hcall
    cases hext : c.isInsertExt with
    | false => rfl
    | true =>
      have hdef : ((s.builder parsers proto).run serve s).1 ≠ .error .undefined := fun hu => by
        rw [build_undefined hu] at he
        cases he
      obtain ⟨ext, hnone, hsome⟩ := run_exts_ne _ hs.inv hcall hext (hc.built hb).1 hdef
      have hext := h.extByMiniTable ext
      rw [hnone, findExtensionByMiniTable, hc.rest] at hext
      exact absurd hext hsome
  · intro k v hk hv
    cases hhead : Table.badAt (ofFile s.fileDefs.length) (s.build parsers proto).2.syms.entries
        ((s.build parsers proto).2.syms.getEntry (strHash k)) with
    | false => rfl
    | true =>
      obtain ⟨hold, syms', hrem, hlost⟩ := removeFiledef_lost hs hc hb hk hv hhead
      rw [← hc.fileDefs hb, hrun'] at hrem
      cases hrem
      have hsym := h.sym k
      rw [hold] at hsym
      change syms.lookup2 k = some (some v) at hsym
      rw [hlost] at hsym
      cases hsym

end Failed

theorem Reachable.sound (h : Reachable parsers s) : s.Sound := by
  induction h with
  | new h hf => exact new_sound h hf
  | accepted _ h hf ih => exact addFile_ok_sound ih h hf
  | failed _ h hf hclean ih =>
    have halike := addFile_failed_alike ih h hf hclean
    refine ⟨halike.inv', fun p hp => ?_, hf⟩
    rw [halike.memory.fileDefs]
    exact ih.known p (halike.syms.mem_iff.mpr hp)

/-- **A failed call leaves the pool as it was if and only if it cleans up**: if and only if the builder has
entered no extension and no symbol of the failed file is at the head of a chain with one of an earlier
file. This is so for every pool that was made by adding files, and for whatever reason the call fails. -/
theorem addFile_failure_restores_iff (hs : Reachable parsers s) {format : String} {args : List ErrArg}
    (hrun : s.addFile parsers proto = (.error (.error format args), s')) (hf : s'.arena.failed = false) :
    Restored parsers s s' ↔ CleansUp parsers s proto := by
  constructor
  · intro h
    exact cleansUp_of_sameAnswers hs.sound hrun hf h.answers
  · intro hclean
    have halike := addFile_failed_alike hs.sound hrun hf hclean
    exact ⟨halike.sameAnswers, halike.forgets hs.sound, halike.sameLater⟩

/-! ### A conflict of two extensions -/

/-- A new pool on a native platform, with memory. -/
def fresh : DefPool :=
  { arena := ⟨fun _ => true, 5, false⟩, syms := Table.empty 6, files := Table.empty 3
    exts := ⟨Table.empty 4, [tabvalEmpty], 1, 0⟩, extreg := Table.empty 4, platform := .bits64
    fileDefs := [], tables := [], enumTables := [], extTables := [], extDefs := [] }

theorem new_fresh : DefPool.new .bits64 Alloc.granting = some (some fresh) := rfl

/-- Parsers for files without defaults that are floating point numbers. -/
def noNumbers : NumberParsers := ⟨fun _ => none, fun _ => none⟩

/-- `message M { extensions 100 to 199; }` in the file `a`. -/
def fileM : FileDescriptorProto :=
  { name := [97], messageType := [{ name := [77], extensionRange := [(100, 200)] }] }

/-- `extend M { optional int32 n = 100; }` in the file `n`. -/
def fileExt (n : UInt8) : FileDescriptorProto :=
  { name := [n], dependency := [[97]],
    extension := [{ name := some [n], number := 100, type := some 5, extendee := some [77] }] }

/-- A file is accepted that a run shows to be. -/
theorem Reachable.accept {n : Nat} (hs : Reachable parsers s) (h : (s.addFile parsers proto).1 = .ok n)
    (hf : (s.addFile parsers proto).2.arena.failed = false) : Reachable parsers (s.addFile parsers proto).2 :=
  .accepted hs (Prod.ext h rfl) hf

theorem reachable_fileM : Reachable noNumbers (fresh.addFile noNumbers fileM).2 :=
  (Reachable.new new_fresh rfl).accept (n := 0) (by decide +kernel) (by decide +kernel)

/-- A second file with an `M` fails, and is cleaned up. -/
theorem addFile_failure_restores_iff_duplicate :
    ∃ s s' format args, Reachable noNumbers s ∧
      s.addFile noNumbers { fileM with name := [98] } = (.error (.error format args), s') ∧
      s'.arena.failed = false ∧ (Restored noNumbers s s' ↔ CleansUp noNumbers s { fileM with name := [98] }) := by
  have hrun : ((fresh.addFile noNumbers fileM).2.addFile noNumbers { fileM with name := [98] }).1 =
      .error (.error "duplicate symbol '%s'" [.str [77]]) := by decide +kernel
  have hf : ((fresh.addFile noNumbers fileM).2.addFile noNumbers
      { fileM with name := [98] }).2.arena.failed = false := by decide +kernel
  exact ⟨_, _, _, _, reachable_fileM, Prod.ext hrun rfl, hf,
    addFile_failure_restores_iff reachable_fileM (Prod.ext hrun rfl) hf⟩

/-- **A file whose extension has a number that is taken fails and leaves its extension behind**: all
extensions of `M` could be listed before, and afterwards one of them is in freed memory. -/
theorem addFile_failure_leaves_extension :
    ∃ s s' format args, Reachable noNumbers s ∧
      s.addFile noNumbers (fileExt 121) = (.error (.error format args), s') ∧ s'.arena.failed = false ∧
      s.getAllExtensions ⟨.msg, 0, [77]⟩ = some [0] ∧ s'.getAllExtensions ⟨.msg, 0, [77]⟩ = none ∧
      ¬Restored noNumbers s s' := by
  have hreach : Reachable noNumbers ((fresh.addFile noNumbers fileM).2.addFile noNumbers (fileExt 120)).2 :=
    reachable_fileM.accept (n := 1) (by decide +kernel) (by decide +kernel)
  have hrun : (((fresh.addFile noNumbers fileM).2.addFile noNumbers (fileExt 120)).2.addFile noNumbers
      (fileExt 121)).1 = .error .outOfMemory := by decide +kernel
  have hf : (((fresh.addFile noNumbers fileM).2.addFile noNumbers (fileExt 120)).2.addFile noNumbers
      (fileExt 121)).2.arena.failed = false := by decide +kernel
  have hbefore : ((fresh.addFile noNumbers fileM).2.addFile noNumbers (fileExt 120)).2.getAllExtensions
      ⟨.msg, 0, [77]⟩ = some [0] := by decide +kernel
  have hafter : (((fresh.addFile noNumbers fileM).2.addFile noNumbers (fileExt 120)).2.addFile noNumbers
      (fileExt 121)).2.getAllExtensions ⟨.msg, 0, [77]⟩ = none := by decide +kernel
  refine ⟨_, _, _, _, hreach, Prod.ext hrun rfl, hf, hbefore, hafter, fun h => ?_⟩
  have := h.answers.allExts ⟨.msg, 0, [77]⟩
  rw [hbefore, hafter] at this
  cases this

end DefPool

end Reflection

end Hpb
