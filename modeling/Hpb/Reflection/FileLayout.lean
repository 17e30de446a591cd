import Hpb.Lib.Except
import Hpb.Reflection.Descriptor
import Mathlib.Data.List.Nodup

/-!
# Pairing definitions with generated tables (`hpbc/file_layout.cc`, `hpb/reflection/`)

The generator lists the tables of a file in three arrays (`sortedMessages`, `sortedExtensions`,
`sortedEnums`). The pool that loads the file with them takes the next table of an array for each
definition it creates, by counters (`DefBuilder`). Nothing else connects a definition with its table.

A definition is known by its full name, which is unique in a pool, and a generated table by the full name
of the definition it was generated for. Of the checks of the builder there is the one for duplicate
symbols; the others are not about the tables.
-/

namespace Hpb

/-- The bytes of a full name. -/
abbrev FullName := List UInt8

/-- `hpb_MessageDef`: its name and what is nested in it. -/
inductive MessageDef where
  | mk (fullName : FullName) (nestedEnums nestedExts : List FullName) (nestedMsgs : List MessageDef)

/-- `hpb_FileDef`. -/
structure FileDef where
  fileSyntax : Syntax
  topLevelEnums : List FullName
  topLevelExts : List FullName
  topLevelMsgs : List MessageDef

/-- `hpb_MiniTableFile`: the tables, each as the name of its definition. -/
structure MiniTableFile where
  msgs : List FullName
  enums : List FullName
  exts : List FullName
  deriving DecidableEq, Repr

/-- `strcmp(a, b) <= 0`. -/
def strcmpLe : FullName → FullName → Bool
  | [], _ => true
  | _ :: _, [] => false
  | x :: xs, y :: ys => if x = y then strcmpLe xs ys else x < y

theorem strcmpLe_total (a b : FullName) : (strcmpLe a b || strcmpLe b a) = true := by
  induction a generalizing b with
  | nil => rfl
  | cons x xs ih =>
    cases b with
    | nil => rfl
    | cons y ys =>
      by_cases h : x = y
      · simpa [strcmpLe, h] using ih ys
      · have hne : x.toNat ≠ y.toNat := fun hxy => h (UInt8.toNat_inj.mp hxy)
        simpa [strcmpLe, h, Ne.symm h, UInt8.lt_iff_toNat_lt] using Nat.lt_or_gt_of_ne hne

theorem strcmpLe_trans (a b c : FullName) (h : strcmpLe a b = true) (h' : strcmpLe b c = true) :
    strcmpLe a c = true := by
  induction a generalizing b c with
  | nil => rfl
  | cons x xs ih =>
    cases b with
    | nil => exact nomatch h
    | cons y ys =>
      cases c with
      | nil => exact nomatch h'
      | cons z zs =>
        rw [strcmpLe] at h h' ⊢
        by_cases hxy : x = y
        · subst hxy
          rw [if_pos rfl] at h
          by_cases hxz : x = z
          · subst hxz
            rw [if_pos rfl] at h' ⊢
            exact ih ys zs h h'
          · rw [if_neg hxz] at h' ⊢
            exact h'
        · rw [if_neg hxy, decide_eq_true_eq] at h
          by_cases hyz : y = z
          · subst hyz
            rw [if_neg hxy, decide_eq_true_eq]
            exact h
          · rw [if_neg hyz, decide_eq_true_eq] at h'
            have hlt := UInt8.lt_trans h h'
            have hxz : x ≠ z := UInt8.ne_of_lt hlt
            rw [if_neg hxz, decide_eq_true_eq]
            exact hlt

/-! ### The generator -/

mutual

/-- `AddEnums`. -/
def MessageDef.addEnums : MessageDef → List FullName
  | .mk _ enums _ msgs => enums ++ addEnumsList msgs

def addEnumsList : List MessageDef → List FullName
  | [] => []
  | m :: ms => m.addEnums ++ addEnumsList ms

end

mutual

/-- `AddMessages`. -/
def MessageDef.addMessages : MessageDef → List FullName
  | .mk name _ _ msgs => name :: addMessagesList msgs

def addMessagesList : List MessageDef → List FullName
  | [] => []
  | m :: ms => m.addMessages ++ addMessagesList ms

end

mutual

/-- `AddExtensionsFromMessage`. -/
def MessageDef.addExtensions : MessageDef → List FullName
  | .mk _ _ exts msgs => exts ++ addExtensionsList msgs

def addExtensionsList : List MessageDef → List FullName
  | [] => []
  | m :: ms => m.addExtensions ++ addExtensionsList ms

end

namespace FileDef

/-- The enums of a file before `SortedEnums` sorts them. -/
def allEnums (file : FileDef) : List FullName := file.topLevelEnums ++ addEnumsList file.topLevelMsgs

/-- `SortedEnums`. -/
def sortedEnums (file : FileDef) : List FullName := file.allEnums.mergeSort strcmpLe

/-- `SortedMessages`. -/
def sortedMessages (file : FileDef) : List FullName := addMessagesList file.topLevelMsgs

/-- `SortedExtensions`. -/
def sortedExtensions (file : FileDef) : List FullName :=
  file.topLevelExts ++ addExtensionsList file.topLevelMsgs

/-- The enums of the file are closed. -/
def isClosed (file : FileDef) : Bool := file.fileSyntax = .proto2

/-- `WriteMessages`, `WriteExtensions` and `WriteEnums`: the layout that the generator emits. -/
def writeMiniTables (file : FileDef) : MiniTableFile where
  msgs := file.sortedMessages
  enums := if file.isClosed then file.sortedEnums else []
  exts := file.sortedExtensions

end FileDef

/-! ### The pool -/

/-- `hpb_DefBuilder` while it loads a file with a layout: the symbols of the pool, the counters, and the
definitions that were created, each with the index of the table that it takes. -/
structure DefBuilder where
  symtab : List FullName
  isClosed : Bool
  enumCount : Nat
  msgCount : Nat
  extCount : Nat
  enums : List (FullName × Nat)
  msgs : List (FullName × Nat)
  exts : List (FullName × Nat)
  deriving DecidableEq, Repr

namespace DefBuilder

/-- `_hpb_DefBuilder_Add`. -/
def add (ctx : DefBuilder) (name : FullName) : Except String DefBuilder :=
  if ctx.symtab.contains name then .error "duplicate symbol"
  else .ok { ctx with symtab := name :: ctx.symtab }

/-- `create_enumdef`; only a closed enum takes a table. -/
def createEnumDef (ctx : DefBuilder) (name : FullName) : Except String DefBuilder := do
  let ctx ← ctx.add name
  if ctx.isClosed then
    return { ctx with enums := ctx.enums ++ [(name, ctx.enumCount)], enumCount := ctx.enumCount + 1 }
  else return ctx

/-- `_hpb_FieldDef_CreateExt`; `layout_index` has 16 bits. -/
def createExt (ctx : DefBuilder) (name : FullName) : Except String DefBuilder := do
  let ctx ← ctx.add name
  return { ctx with exts := ctx.exts ++ [(name, ctx.extCount % 2 ^ 16)], extCount := ctx.extCount + 1 }

mutual

/-- `create_msgdef`: the enums of a message, its extensions, and then the messages in it. -/
def createMsgDef (ctx : DefBuilder) : MessageDef → Except String DefBuilder
  | .mk name enums exts msgs => do
    let ctx ← ctx.add name
    let ctx ← enums.foldlM createEnumDef ctx
    let ctx ← exts.foldlM createExt ctx
    createMsgDefs ctx msgs

/-- `_hpb_MessageDefs_New`. -/
def createMsgDefs (ctx : DefBuilder) : List MessageDef → Except String DefBuilder
  | [] => .ok ctx
  | m :: ms => do
    let ctx ← createMsgDef ctx m
    createMsgDefs ctx ms

end

mutual

/-- `_hpb_MessageDef_CreateMiniTable`. -/
def createMiniTable (ctx : DefBuilder) : MessageDef → DefBuilder
  | .mk name _ _ msgs =>
    createMiniTables
      { ctx with msgs := ctx.msgs ++ [(name, ctx.msgCount)], msgCount := ctx.msgCount + 1 } msgs

def createMiniTables (ctx : DefBuilder) : List MessageDef → DefBuilder
  | [] => ctx
  | m :: ms => createMiniTables (createMiniTable ctx m) ms

end

mutual

/-- `count_exts_in_msg`. -/
def countExtsInMsg : MessageDef → Nat
  | .mk _ _ exts msgs => exts.length + countExtsInMsgs msgs

def countExtsInMsgs : List MessageDef → Nat
  | [] => 0
  | m :: ms => countExtsInMsg m + countExtsInMsgs ms

end

/-- `_hpb_FileDef_Create` with a layout, in a pool with some symbols. -/
def fileDefCreate (symtab : List FullName) (layout : MiniTableFile) (file : FileDef) :
    Except String DefBuilder :=
  if layout.exts.length ≠ file.topLevelExts.length + countExtsInMsgs file.topLevelMsgs then
    .error "Extension count did not match layout"
  else do
    let ctx : DefBuilder := ⟨symtab, file.isClosed, 0, 0, 0, [], [], []⟩
    let ctx ← file.topLevelEnums.foldlM createEnumDef ctx
    let ctx ← file.topLevelExts.foldlM createExt ctx
    let ctx ← createMsgDefs ctx file.topLevelMsgs
    return createMiniTables ctx file.topLevelMsgs

end DefBuilder

namespace DefBuilder

/-! ### What the pool takes -/

/-- The builder created some enums and extensions, each with the next table. -/
structure Took (ctx : DefBuilder) (es xs : List FullName) (ctx' : DefBuilder) : Prop where
  isClosed : ctx'.isClosed = ctx.isClosed
  msgs : ctx'.msgs = ctx.msgs ∧ ctx'.msgCount = ctx.msgCount
  enums : ctx'.enums = ctx.enums ++ if ctx.isClosed then es.zipIdx ctx.enumCount else []
  enumCount : ctx'.enumCount = ctx.enumCount + if ctx.isClosed then es.length else 0
  exts : ctx'.exts = ctx.exts ++ (xs.zipIdx ctx.extCount).map fun e => (e.1, e.2 % 2 ^ 16)
  extCount : ctx'.extCount = ctx.extCount + xs.length
  nodup : xs.Nodup
  fresh : ∀ x ∈ xs, x ∉ ctx.symtab
  added : ∀ x ∈ xs, x ∈ ctx'.symtab
  mono : ∀ x ∈ ctx.symtab, x ∈ ctx'.symtab

variable {ctx ctx' ctx'' : DefBuilder} {es xs es' xs' : List FullName}

theorem Took.refl (ctx : DefBuilder) : Took ctx [] [] ctx := by
  refine ⟨rfl, ⟨rfl, rfl⟩, ?_, ?_, ?_, rfl, .nil, ?_, ?_, fun _ h => h⟩ <;> simp

theorem Took.trans (h : Took ctx es xs ctx') (h' : Took ctx' es' xs' ctx'') :
    Took ctx (es ++ es') (xs ++ xs') ctx'' := by
  refine ⟨h'.isClosed.trans h.isClosed, ⟨h'.msgs.1.trans h.msgs.1, h'.msgs.2.trans h.msgs.2⟩, ?_, ?_, ?_,
    ?_, ?_, ?_, ?_, fun x hx => h'.mono x (h.mono x hx)⟩
  · rw [h'.enums, h.enums, h.enumCount, h.isClosed]
    cases ctx.isClosed
    · simp
    · simp [List.zipIdx_append]
  · rw [h'.enumCount, h.enumCount, h.isClosed]
    cases ctx.isClosed
    · simp
    · simp [Nat.add_assoc]
  · rw [h'.exts, h.exts, h.extCount, List.zipIdx_append, List.map_append, List.append_assoc]
  · rw [h'.extCount, h.extCount, List.length_append, Nat.add_assoc]
  · refine List.nodup_append.mpr ⟨h.nodup, h'.nodup, fun x hx y hy hxy => ?_⟩
    subst hxy
    exact h'.fresh x hy (h.added x hx)
  · intro x hx
    obtain hx | hx := List.mem_append.mp hx
    · exact h.fresh x hx
    · exact fun hmem => h'.fresh x hx (h.mono x hmem)
  · intro x hx
    obtain hx | hx := List.mem_append.mp hx
    · exact h'.mono x (h.added x hx)
    · exact h'.added x hx

theorem add_eq_ok {name : FullName} (h : ctx.add name = .ok ctx') :
    name ∉ ctx.symtab ∧ ctx' = { ctx with symtab := name :: ctx.symtab } := by
  unfold add at h
  split at h
  · cases h
  next hmem =>
    cases h
    exact ⟨by simpa using hmem, rfl⟩

theorem Took.ofAdd {name : FullName} (h : ctx.add name = .ok ctx') : Took ctx [] [] ctx' := by
  obtain ⟨-, rfl⟩ := add_eq_ok h
  refine ⟨rfl, ⟨rfl, rfl⟩, ?_, ?_, ?_, rfl, .nil, ?_, ?_, fun x hx => List.mem_cons_of_mem _ hx⟩ <;> simp

theorem createEnumDef_took {name : FullName} (h : ctx.createEnumDef name = .ok ctx') :
    Took ctx [name] [] ctx' := by
  obtain ⟨ctx₁, hadd, h⟩ := Except.bind_eq_ok.mp h
  obtain ⟨-, rfl⟩ := add_eq_ok hadd
  dsimp only at h
  split at h
  next hc =>
    cases h
    refine ⟨rfl, ⟨rfl, rfl⟩, ?_, ?_, ?_, rfl, .nil, ?_, ?_, fun x hx => List.mem_cons_of_mem _ hx⟩ <;>
      simp [hc]
  next hc =>
    cases h
    refine ⟨rfl, ⟨rfl, rfl⟩, ?_, ?_, ?_, rfl, .nil, ?_, ?_, fun x hx => List.mem_cons_of_mem _ hx⟩ <;>
      simp [hc]

theorem createExt_took {name : FullName} (h : ctx.createExt name = .ok ctx') :
    Took ctx [] [name] ctx' := by
  obtain ⟨ctx₁, hadd, h⟩ := Except.bind_eq_ok.mp h
  obtain ⟨hfresh, rfl⟩ := add_eq_ok hadd
  cases h
  refine ⟨rfl, ⟨rfl, rfl⟩, ?_, ?_, ?_, rfl, by simp, ?_, ?_,
    fun x hx => List.mem_cons_of_mem _ hx⟩ <;> simp [hfresh]

theorem foldlM_createEnumDef_took {names : List FullName} (h : names.foldlM createEnumDef ctx = .ok ctx') :
    Took ctx names [] ctx' := by
  induction names generalizing ctx with
  | nil =>
    cases h
    exact .refl _
  | cons name names ih =>
    obtain ⟨ctx₁, h₁, h⟩ := Except.bind_eq_ok.mp h
    exact (createEnumDef_took h₁).trans (ih h)

theorem foldlM_createExt_took {names : List FullName} (h : names.foldlM createExt ctx = .ok ctx') :
    Took ctx [] names ctx' := by
  induction names generalizing ctx with
  | nil =>
    cases h
    exact .refl _
  | cons name names ih =>
    obtain ⟨ctx₁, h₁, h⟩ := Except.bind_eq_ok.mp h
    exact (createExt_took h₁).trans (ih h)

mutual

theorem createMsgDef_took {ctx ctx' : DefBuilder} :
    ∀ m : MessageDef, ctx.createMsgDef m = .ok ctx' → Took ctx m.addEnums m.addExtensions ctx'
  | .mk name enums exts msgs, h => by
    rw [createMsgDef] at h
    obtain ⟨ctx₁, h₁, h⟩ := Except.bind_eq_ok.mp h
    obtain ⟨ctx₂, h₂, h⟩ := Except.bind_eq_ok.mp h
    obtain ⟨ctx₃, h₃, h⟩ := Except.bind_eq_ok.mp h
    rw [MessageDef.addEnums, MessageDef.addExtensions]
    have hnested := createMsgDefs_took msgs h
    simpa using (((Took.ofAdd h₁).trans (foldlM_createEnumDef_took h₂)).trans
      (foldlM_createExt_took h₃)).trans hnested

theorem createMsgDefs_took {ctx ctx' : DefBuilder} :
    ∀ ms : List MessageDef, ctx.createMsgDefs ms = .ok ctx' →
      Took ctx (addEnumsList ms) (addExtensionsList ms) ctx'
  | [], h => by
    rw [createMsgDefs] at h
    cases h
    exact .refl _
  | m :: ms, h => by
    rw [createMsgDefs] at h
    obtain ⟨ctx₁, h₁, h⟩ := Except.bind_eq_ok.mp h
    exact (createMsgDef_took m h₁).trans (createMsgDefs_took ms h)

end

mutual

/-- The messages take the tables in the order of the generator. -/
theorem createMiniTable_eq (ctx : DefBuilder) : ∀ m : MessageDef,
    createMiniTable ctx m = { ctx with
      msgs := ctx.msgs ++ m.addMessages.zipIdx ctx.msgCount
      msgCount := ctx.msgCount + m.addMessages.length }
  | .mk name enums exts msgs => by
    rw [createMiniTable, createMiniTables_eq _ msgs, MessageDef.addMessages]
    simp [Nat.add_comm, Nat.add_left_comm]

theorem createMiniTables_eq (ctx : DefBuilder) : ∀ ms : List MessageDef,
    createMiniTables ctx ms = { ctx with
      msgs := ctx.msgs ++ (addMessagesList ms).zipIdx ctx.msgCount
      msgCount := ctx.msgCount + (addMessagesList ms).length }
  | [] => by simp [createMiniTables, addMessagesList]
  | m :: ms => by
    rw [createMiniTables, createMiniTable_eq ctx m, createMiniTables_eq _ ms, addMessagesList]
    simp [List.zipIdx_append, Nat.add_assoc]

end

mutual

theorem countExtsInMsg_eq : ∀ m : MessageDef, countExtsInMsg m = m.addExtensions.length
  | .mk name enums exts msgs => by
    rw [countExtsInMsg, MessageDef.addExtensions, List.length_append, countExtsInMsgs_eq msgs]

theorem countExtsInMsgs_eq : ∀ ms : List MessageDef, countExtsInMsgs ms = (addExtensionsList ms).length
  | [] => rfl
  | m :: ms => by
    rw [countExtsInMsgs, addExtensionsList, List.length_append, countExtsInMsg_eq m, countExtsInMsgs_eq ms]

end

/-- The definitions with the tables that they took. -/
def taken (uses : List (FullName × Nat)) (tables : List FullName) : List (FullName × Option FullName) :=
  uses.map fun e => (e.1, tables[e.2]?)

/-- Each definition with the table that was generated for it. -/
def ownTables (defs : List FullName) : List (FullName × Option FullName) := defs.map fun d => (d, some d)

/-- Every definition of the file has the table that was generated for it. -/
structure Paired (file : FileDef) (layout : MiniTableFile) (ctx : DefBuilder) : Prop where
  messages : taken ctx.msgs layout.msgs = ownTables file.sortedMessages
  exts : taken ctx.exts layout.exts = ownTables file.sortedExtensions
  enums : file.isClosed = true → taken ctx.enums layout.enums = ownTables file.allEnums

/-- Taking one table after the other pairs two lists of one length exactly if they are the same. -/
theorem taken_zipIdx_iff {defs tables : List FullName} (hlen : tables.length = defs.length) :
    taken (defs.zipIdx 0) tables = ownTables defs ↔ tables = defs := by
  constructor
  · intro h
    refine List.ext_getElem? fun i => ?_
    have hi := congrArg (·[i]?) h
    simp only [taken, ownTables, List.getElem?_map, List.getElem?_zipIdx] at hi
    cases hd : defs[i]? with
    | none =>
      rw [List.getElem?_eq_none_iff] at hd ⊢
      omega
    | some d =>
      rw [hd] at hi
      simpa using hi
  · rintro rfl
    refine List.ext_getElem? fun i => ?_
    simp only [taken, ownTables, List.getElem?_map, List.getElem?_zipIdx]
    cases hd : tables[i]? with
    | none => rfl
    | some d => simp [hd]

/-- `layout_index` tells `2 ^ 16` extensions apart. -/
theorem taken_exts_iff {defs : List FullName} (hn : defs.Nodup) :
    taken ((defs.zipIdx 0).map fun e => (e.1, e.2 % 2 ^ 16)) defs = ownTables defs ↔
      defs.length ≤ 2 ^ 16 := by
  constructor
  · intro h
    by_contra hlen
    -- the extension after those gets the table of the first one
    have hlt : 2 ^ 16 < defs.length := by omega
    have hi := congrArg (·[2 ^ 16]?) h
    simp only [taken, ownTables, List.getElem?_map, List.getElem?_zipIdx,
      List.getElem?_eq_getElem hlt, Option.map_some, Nat.zero_add, Nat.mod_self,
      List.getElem?_eq_getElem (Nat.lt_trans (Nat.two_pow_pos 16) hlt), Option.some.injEq,
      Prod.mk.injEq, true_and] at hi
    have := (hn.getElem_inj_iff).mp hi
    exact absurd this (by decide)
  · intro hlen
    refine List.ext_getElem? fun i => ?_
    simp only [taken, ownTables, List.getElem?_map, List.getElem?_zipIdx]
    cases hd : defs[i]? with
    | none => rfl
    | some d =>
      have hi : i < 2 ^ 16 := Nat.lt_of_lt_of_le (List.getElem?_eq_some_iff.mp hd).1 hlen
      have hmod : (0 + i) % 2 ^ 16 = i := by rw [Nat.zero_add, Nat.mod_eq_of_lt hi]
      rw [Option.map_some, Option.map_some, Option.map_some, hmod, hd, Option.map_some]

/-- **When the definitions of a loaded file have their own tables**: its enums, if they are closed, are
defined in the order of their full names, and it has no more extensions than `layout_index` can count. -/
theorem paired_iff {symtab : List FullName} {file : FileDef} {ctx : DefBuilder}
    (h : fileDefCreate symtab file.writeMiniTables file = .ok ctx) :
    Paired file file.writeMiniTables ctx ↔
      (file.isClosed = true → file.allEnums.Pairwise fun a b => strcmpLe a b = true) ∧
        file.sortedExtensions.length ≤ 2 ^ 16 := by
  have hcount : ¬file.writeMiniTables.exts.length ≠
      file.topLevelExts.length + countExtsInMsgs file.topLevelMsgs := by
    rw [not_not, countExtsInMsgs_eq, ← List.length_append]
    rfl
  unfold fileDefCreate at h
  rw [if_neg hcount] at h
  obtain ⟨ctx₁, h₁, h⟩ := Except.bind_eq_ok.mp h
  obtain ⟨ctx₂, h₂, h⟩ := Except.bind_eq_ok.mp h
  obtain ⟨ctx₃, h₃, h⟩ := Except.bind_eq_ok.mp h
  cases h
  have htook := ((foldlM_createEnumDef_took h₁).trans (foldlM_createExt_took h₂)).trans
    (createMsgDefs_took _ h₃)
  rw [List.append_nil, List.nil_append] at htook
  rw [createMiniTables_eq]
  obtain ⟨hmsgs, hmsgCount⟩ := htook.msgs
  have hm : taken (ctx₃.msgs ++ (addMessagesList file.topLevelMsgs).zipIdx ctx₃.msgCount)
      file.sortedMessages = ownTables file.sortedMessages := by
    rw [hmsgs, hmsgCount, List.nil_append]
    exact (taken_zipIdx_iff rfl).mpr rfl
  have hx : taken ctx₃.exts file.sortedExtensions = ownTables file.sortedExtensions ↔
      file.sortedExtensions.length ≤ 2 ^ 16 := by
    rw [htook.exts, List.nil_append]
    exact taken_exts_iff htook.nodup
  have he : file.isClosed = true →
      (taken ctx₃.enums file.sortedEnums = ownTables file.allEnums ↔
        file.allEnums.Pairwise fun a b => strcmpLe a b = true) := by
    intro hc
    rw [htook.enums, List.nil_append, if_pos hc]
    change taken (file.allEnums.zipIdx 0) _ = _ ↔ _
    refine (taken_zipIdx_iff (List.length_mergeSort _)).trans ⟨fun hsort => ?_, fun hp => ?_⟩
    · rw [← hsort]
      exact List.pairwise_mergeSort strcmpLe_trans strcmpLe_total _
    · exact List.mergeSort_of_pairwise hp
  constructor
  · intro hp
    refine ⟨fun hc => (he hc).mp ?_, hx.mp hp.exts⟩
    have := hp.enums hc
    rwa [FileDef.writeMiniTables, if_pos hc] at this
  · rintro ⟨hsorted, hlen⟩
    refine ⟨hm, hx.mpr hlen, fun hc => ?_⟩
    rw [FileDef.writeMiniTables, if_pos hc]
    exact (he hc).mpr (hsorted hc)

/-- A file with a nested closed enum and an extension. -/
def sortedFile : FileDef where
  fileSyntax := .proto2
  topLevelEnums := [[65]]
  topLevelExts := [[120]]
  topLevelMsgs := [.mk [77] [[77, 46, 66]] [] [.mk [77, 46, 78] [] [] []]]

theorem paired_iff_sortedFile : ∃ ctx, fileDefCreate [] sortedFile.writeMiniTables sortedFile = .ok ctx ∧
    Paired sortedFile sortedFile.writeMiniTables ctx := by
  have h : fileDefCreate [] sortedFile.writeMiniTables sortedFile = .ok
      ⟨[[77, 46, 78], [77, 46, 66], [77], [120], [65]], true, 2, 2, 1, [([65], 0), ([77, 46, 66], 1)],
        [([77], 0), ([77, 46, 78], 1)], [([120], 0)]⟩ := by decide +kernel
  exact ⟨_, h, (paired_iff h).mpr ⟨fun _ => by decide +kernel, by decide⟩⟩

/-- Two closed enums, the second of which has the smaller name. -/
def unsortedFile : FileDef where
  fileSyntax := .proto2
  topLevelEnums := [[66], [65]]
  topLevelExts := []
  topLevelMsgs := []

/-- Each of the two enums gets the table of the other. -/
theorem not_paired_unsortedFile : ∃ ctx,
    fileDefCreate [] unsortedFile.writeMiniTables unsortedFile = .ok ctx ∧
    taken ctx.enums unsortedFile.writeMiniTables.enums = [([66], some [65]), ([65], some [66])] ∧
    ¬Paired unsortedFile unsortedFile.writeMiniTables ctx := by
  have hsort : unsortedFile.writeMiniTables.enums = [[65], [66]] := by
    change ([[66], [65]] : List FullName).mergeSort strcmpLe = _
    simp [List.mergeSort, strcmpLe]
  have hload : fileDefCreate [] unsortedFile.writeMiniTables unsortedFile = .ok
      ⟨[[65], [66]], true, 2, 0, 0, [([66], 0), ([65], 1)], [], []⟩ := by decide
  refine ⟨_, hload, ?_, fun h => ?_⟩
  · rw [hsort]
    decide
  · have := h.enums rfl
    rw [hsort] at this
    exact absurd this (by decide)

end DefBuilder

end Hpb
