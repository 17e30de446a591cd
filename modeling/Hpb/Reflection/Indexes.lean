import Hpb.Reflection.AddFileSpec

/-!
# The indexes of a descriptor (`hpb/reflection/file_def.c`, `field_def.c`)

A `FileDescriptorProto` refers to its dependencies, and a field to its oneof, by indexes that are `int32_t`. The builder
compares them with the count and not with 0, and keeps them; the accessors read what they designate.

* `Build.Yields`: what a step of the builder returns, in any pool.
* `oneofsRead_iff`: no oneof is read outside of the array of its message if and only if no index is negative.
* `addFile_indexes_iff`: the dependencies of an accepted file are read inside of its array if and only if no index is
  negative, and there are not more weak dependencies than public ones (`WeakDependency` asserts that).
-/

namespace Hpb

namespace Reflection

open Build

/-! ### What the builder returns -/

/-- What a step of the builder returns has `Q`, whatever the pool and the builder's state are. -/
def Build.Yields {α : Type} (x : Build α) (Q : α → Prop) : Prop := ∀ b, (x b).Returns fun r => Q r.1

namespace Build.Yields

variable {α β : Type} {x : Build α} {P Q : α → Prop} {R : β → Prop}

theorem bind {f : α → Build β} (hx : x.Yields Q) (hf : ∀ a, Q a → (f a).Yields R) : (x >>= f).Yields R :=
  fun b => (hx b).bind fun r hr => hf r.1 hr r.2

theorem pure {a : α} (h : Q a) : (Pure.pure a : Build α).Yields Q := fun _ => h

theorem fail (f : Failure) : (Build.fail f : Build α).Yields Q := fun _ => trivial

theorem errf (format : String) (args : List ErrArg) : (Build.errf format args : Build α).Yields Q := fail _

theorem any (x : Build α) : x.Yields fun _ => True := fun b => by
  generalize x b = y
  induction y with
  | done a => trivial
  | fail e => trivial
  | call c next ih => exact fun r => ih r

theorem imp (hx : x.Yields P) (h : ∀ a, P a → Q a) : x.Yields Q := fun b => (hx b).imp fun r hr => h r.1 hr

/-- A check, and what comes after it. -/
theorem check {c : Prop} [Decidable c] {format : String} {args : List ErrArg} {f : PUnit → Build β}
    (hf : (f ⟨⟩).Yields R) : (if c then Build.errf format args >>= f else f ⟨⟩).Yields R := by
  split
  · exact .bind (.errf (Q := fun _ => False) format args) fun _ h => h.elim
  · exact hf

end Build.Yields

/-! ### Oneofs -/

mutual

/-- A message and the messages in it. -/
def DescriptorProto.messages : DescriptorProto → List DescriptorProto
  | m@⟨_, _, _, _, _, _, _, _, nestedType⟩ => m :: messagesIn nestedType

def messagesIn : List DescriptorProto → List DescriptorProto
  | [] => []
  | m :: ms => m.messages ++ messagesIn ms

end

/-- All messages of a file. -/
def FileDescriptorProto.messages (proto : FileDescriptorProto) : List DescriptorProto := messagesIn proto.messageType

/-- The indexes of the fields of a message are indexes of its oneofs. -/
def DescriptorProto.OneofsInRange (m : DescriptorProto) : Prop :=
  ∀ f ∈ m.field, ∀ index, f.oneofIndex = some index → 0 ≤ index ∧ index < m.oneofDecl.length

/-- When the builder makes the fields of the file, it reads no oneof that the message does not have. -/
def OneofsRead (proto : FileDescriptorProto) : Prop :=
  ∀ m ∈ proto.messages, ∀ f ∈ m.field, ∀ fullName name label number oneofs b, oneofs.length = m.oneofDecl.length →
    fieldOneofNew fullName name f label number (some oneofs) b ≠ Build.fail .undefined b

section Oneofs

variable {ctx : BuildContext} {f : FieldDescriptorProto} {fullName name : StrKey} {label : Label} {number : Nat}
  {oneofs : List OneofDef}

theorem oneofDefInsert_yields (o : OneofDef) (name : StrKey) (number : Nat) (isProto3Optional : Bool) (b : BuildState) :
    oneofDefInsert o name number isProto3Optional b ≠ Build.fail .undefined b := by
  unfold oneofDefInsert
  split
  · exact nofun
  split
  · exact nofun
  · exact nofun

/-- A oneof is read that is not there if and only if the index is negative. -/
theorem fieldOneofNew_undefined_iff (b : BuildState) :
    fieldOneofNew fullName name f label number (some oneofs) b = Build.fail .undefined b ↔
      label = .optional ∧ ∃ index, f.oneofIndex = some index ∧ index < 0 := by
  unfold fieldOneofNew
  cases hi : f.oneofIndex with
  | none => exact iff_of_false nofun (by simp)
  | some index =>
    dsimp only
    by_cases hlabel : label = .optional
    · rw [if_neg (not_not.mpr hlabel)]
      by_cases hlarge : index ≥ oneofs.length
      · rw [if_pos hlarge]
        refine iff_of_false nofun ?_
        rintro ⟨-, i, hi, hneg⟩
        cases hi
        omega
      · rw [if_neg hlarge]
        by_cases hneg : index < 0
        · rw [if_pos hneg]
          exact iff_of_true rfl ⟨hlabel, index, rfl, hneg⟩
        · rw [if_neg hneg, List.getElem?_eq_getElem (by omega)]
          refine iff_of_false (fun h => ?_) ?_
          · have hinsert := oneofDefInsert_yields oneofs[index.toNat] name number f.proto3Optional b
            change (oneofDefInsert _ name number f.proto3Optional b >>= fun r => _) = _ at h
            generalize oneofDefInsert oneofs[index.toNat] name number f.proto3Optional b = y at h hinsert
            cases y with
            | done a => cases h
            | call c next => cases h
            | fail e =>
              cases h
              exact hinsert rfl
          · rintro ⟨-, i, hi, hlt⟩
            cases hi
            exact hneg hlt
    · rw [if_pos hlabel]
      exact iff_of_false nofun fun h => hlabel h.1

/-- **No oneof is read outside of its array** if and only if no index is negative. -/
theorem oneofsRead_iff {proto : FileDescriptorProto} :
    OneofsRead proto ↔ ∀ m ∈ proto.messages, ∀ f ∈ m.field, ∀ index, f.oneofIndex = some index → 0 ≤ index := by
  constructor
  · intro h m hm f hf index hi
    by_contra hneg
    refine h m hm f hf [] [] .optional 0 (List.replicate m.oneofDecl.length ⟨[], false, [], []⟩) ⟨[], [], [], 0⟩
      List.length_replicate ?_
    exact (fieldOneofNew_undefined_iff _).mpr ⟨rfl, index, hi, by omega⟩
  · intro h m hm f hf fullName name label number oneofs b _ hu
    obtain ⟨-, index, hi, hneg⟩ := (fieldOneofNew_undefined_iff b).mp hu
    have := h m hm f hf index hi
    omega

/-- The oneof of a field is one of the message's. -/
theorem fieldOneofNew_yields : (fieldOneofNew fullName name f label number (some oneofs)).Yields fun r =>
    r.2.length = oneofs.length ∧ ∀ index, f.oneofIndex = some index → 0 ≤ index ∧ index < oneofs.length := by
  unfold fieldOneofNew
  cases hi : f.oneofIndex with
  | none => exact .pure ⟨rfl, nofun⟩
  | some index =>
    dsimp only
    split
    · exact .errf _ _
    split
    · exact .errf _ _
    split
    · exact .fail _
    split
    · exact .fail _
    · refine .bind (.any _) fun o _ => .pure ⟨by simp, fun i hi => ?_⟩
      cases hi
      omega

theorem fieldDefCreate_yields {scope m : Option StrKey} {isExtension : Bool} :
    (fieldDefCreate ctx scope f isExtension m (some oneofs)).Yields fun r =>
      r.2.length = oneofs.length ∧ ∀ index, f.oneofIndex = some index → 0 ≤ index ∧ index < oneofs.length := by
  unfold fieldDefCreate
  split
  · exact .errf _ _
  refine .bind (.any _) fun fullName _ => .bind (.any _) fun type _ => ?_
  split
  · exact .errf _ _
  refine .check (.bind fieldOneofNew_yields fun r hr => ?_)
  obtain ⟨oneof, oneofs'⟩ := r
  exact .pure hr

theorem createNotExt_yields {m : StrKey} {names : MessageNames} :
    (createNotExt ctx m f (oneofs, names)).Yields fun r =>
      r.2.1.length = oneofs.length ∧ ∀ index, f.oneofIndex = some index → 0 ≤ index ∧ index < oneofs.length := by
  unfold createNotExt
  refine .bind fieldDefCreate_yields fun r hr => ?_
  obtain ⟨f, oneofs'⟩ := r
  exact .check (.bind (.any _) fun _ _ => .pure hr)

theorem fieldDefsNew_yields {m : StrKey} (protos : List FieldDescriptorProto) {i : Nat} {names : MessageNames} :
    (fieldDefsNew ctx m i protos (oneofs, names)).Yields fun _ =>
      ∀ f ∈ protos, ∀ index, f.oneofIndex = some index → 0 ≤ index ∧ index < oneofs.length := by
  induction protos generalizing i oneofs names with
  | nil => exact .pure fun f hf => absurd hf List.not_mem_nil
  | cons proto protos ih =>
    rw [fieldDefsNew]
    refine .bind createNotExt_yields fun r hr => ?_
    obtain ⟨f, oneofs', names'⟩ := r
    refine .bind ih fun _ hrest => .pure ?_
    refine List.forall_mem_cons.mpr ⟨hr.2, fun f hf index hi => ?_⟩
    rw [← hr.1]
    exact hrest f hf index hi

theorem oneofDefsNew_yields {m : StrKey} (decls : List StrKey) {names : MessageNames} :
    (oneofDefsNew m decls names).Yields fun r => r.1.length = decls.length := by
  induction decls generalizing names with
  | nil => exact .pure rfl
  | cons name decls ih =>
    rw [oneofDefsNew]
    exact .bind (.any _) fun _ _ => .bind ih fun r hr => .pure (congrArg (· + 1) hr)

mutual

theorem createMsgDef_yields (scope : Option StrKey) : ∀ m : DescriptorProto,
    (createMsgDef ctx scope m).Yields fun _ => ∀ x ∈ m.messages, x.OneofsInRange
  | ⟨name, field, oneofDecl, enumType, extension, extensionRange, reservedRange, options, nestedType⟩ => by
    rw [createMsgDef]
    refine .bind (.any _) fun fullName _ => .bind (.any _) fun _ _ => .bind (oneofDefsNew_yields oneofDecl) fun r hr => ?_
    obtain ⟨oneofs, names⟩ := r
    refine .bind (fieldDefsNew_yields field) fun r hfields => ?_
    obtain ⟨fields, oneofs', names'⟩ := r
    refine .check (.bind (.any _) fun _ _ => .bind (.any _) fun _ _ => .bind (.any _) fun _ _ => .bind (.any _) fun _ _ =>
      .bind (.any _) fun _ _ => .bind (createMsgDefs_yields (some fullName) nestedType) fun _ hnested => .pure ?_)
    rw [DescriptorProto.messages]
    refine List.forall_mem_cons.mpr ⟨fun f hf index hi => ?_, hnested⟩
    rw [← hr]
    exact hfields f hf index hi

theorem createMsgDefs_yields (scope : Option StrKey) : ∀ ms : List DescriptorProto,
    (createMsgDefs ctx scope ms).Yields fun _ => ∀ x ∈ messagesIn ms, x.OneofsInRange
  | [] => by
    rw [createMsgDefs]
    exact .pure fun x hx => absurd hx List.not_mem_nil
  | m :: ms => by
    rw [createMsgDefs]
    refine .bind (createMsgDef_yields scope m) fun _ hm => .bind (createMsgDefs_yields scope ms) fun _ hms => .pure ?_
    rw [messagesIn]
    exact List.forall_mem_append.mpr ⟨hm, hms⟩

end

end Oneofs

/-! ### Dependencies -/

namespace FileDef

/-- `file->deps[index]`. -/
def depAt (file : FileDef) (index : Int) : Option Nat := if 0 ≤ index then file.deps[index.toNat]? else none

/-- `hpb_FileDef_PublicDependency`, if its assertion holds and it reads inside of the arrays. -/
def publicDependency (file : FileDef) (i : Nat) : Option Nat :=
  if i < file.publicDeps.length then (file.publicDeps[i]?).bind file.depAt else none

/-- `hpb_FileDef_WeakDependency`; the assertion is about the public dependencies. -/
def weakDependency (file : FileDef) (i : Nat) : Option Nat :=
  if i < file.publicDeps.length then (file.weakDeps[i]?).bind file.depAt else none

/-- Every public and every weak dependency is one of the file's dependencies. -/
structure DepsRight (file : FileDef) : Prop where
  publicDep : ∀ i < file.publicDeps.length, ∃ dep ∈ file.deps, file.publicDependency i = some dep
  weakDep : ∀ i < file.weakDeps.length, ∃ dep ∈ file.deps, file.weakDependency i = some dep

/-- The dependencies of the descriptor, which are below their number. -/
structure HasDeps (file : FileDef) (proto : FileDescriptorProto) : Prop where
  publicDeps : file.publicDeps = proto.publicDependency
  weakDeps : file.weakDeps = proto.weakDependency
  publicBelow : ∀ d ∈ proto.publicDependency, d < file.deps.length
  weakBelow : ∀ d ∈ proto.weakDependency, d < file.deps.length

end FileDef

section Dependencies

variable {file : FileDef} {proto : FileDescriptorProto} {ctx : BuildContext}

theorem depAt_isSome {d : Int} (hd : d < file.deps.length) :
    (∃ dep ∈ file.deps, file.depAt d = some dep) ↔ 0 ≤ d := by
  unfold FileDef.depAt
  constructor
  · rintro ⟨dep, -, hdep⟩
    by_contra hneg
    rw [if_neg hneg] at hdep
    cases hdep
  · intro hd'
    have hlt : d.toNat < file.deps.length := by omega
    exact ⟨file.deps[d.toNat], List.getElem_mem hlt, by rw [if_pos hd', List.getElem?_eq_getElem hlt]⟩

/-- **The dependencies are read inside of their array** if and only if no index is negative and there are not more
weak dependencies than public ones. -/
theorem FileDef.HasDeps.depsRight_iff (h : file.HasDeps proto) : file.DepsRight ↔
    (∀ d ∈ proto.publicDependency, 0 ≤ d) ∧ (∀ d ∈ proto.weakDependency, 0 ≤ d) ∧
      proto.weakDependency.length ≤ proto.publicDependency.length := by
  obtain ⟨hpublic, hweak, hpublicBelow, hweakBelow⟩ := h
  rw [← hpublic, ← hweak] at *
  constructor
  · rintro ⟨hp, hw⟩
    have hle : file.weakDeps.length ≤ file.publicDeps.length := by
      by_contra hlt
      obtain ⟨dep, -, hdep⟩ := hw file.publicDeps.length (by omega)
      rw [FileDef.weakDependency, if_neg (Nat.lt_irrefl _)] at hdep
      cases hdep
    refine ⟨fun d hd => ?_, fun d hd => ?_, hle⟩
    · obtain ⟨i, hi⟩ := List.mem_iff_getElem?.mp hd
      have hlt := (List.getElem?_eq_some_iff.mp hi).1
      obtain ⟨dep, hmem, hdep⟩ := hp i hlt
      rw [FileDef.publicDependency, if_pos hlt, hi, Option.bind_some] at hdep
      exact (depAt_isSome (hpublicBelow d hd)).mp ⟨dep, hmem, hdep⟩
    · obtain ⟨i, hi⟩ := List.mem_iff_getElem?.mp hd
      have hlt := (List.getElem?_eq_some_iff.mp hi).1
      obtain ⟨dep, hmem, hdep⟩ := hw i hlt
      rw [FileDef.weakDependency, if_pos (Nat.lt_of_lt_of_le hlt hle), hi, Option.bind_some] at hdep
      exact (depAt_isSome (hweakBelow d hd)).mp ⟨dep, hmem, hdep⟩
  · rintro ⟨hp, hw, hle⟩
    refine ⟨fun i hlt => ?_, fun i hlt => ?_⟩
    · have hd := List.getElem_mem hlt
      rw [FileDef.publicDependency, if_pos hlt, List.getElem?_eq_getElem hlt, Option.bind_some]
      exact (depAt_isSome (hpublicBelow _ hd)).mpr (hp _ hd)
    · have hd := List.getElem_mem hlt
      rw [FileDef.weakDependency, if_pos (Nat.lt_of_lt_of_le hlt hle), List.getElem?_eq_getElem hlt, Option.bind_some]
      exact (depAt_isSome (hweakBelow _ hd)).mpr (hw _ hd)

theorem checkDeps_yields (format : String) (count : Nat) (deps : List Int) :
    (checkDeps format count deps).Yields fun _ => ∀ d ∈ deps, d < count := by
  unfold checkDeps
  induction deps with
  | nil => exact .pure fun d hd => absurd hd List.not_mem_nil
  | cons d deps ih =>
    change Yields ((if d ≥ count then errf format [.int d] else return ()) >>= fun _ => deps.forM _) _
    refine .bind (Q := fun _ => d < count) ?_ fun _ hd => ih.imp fun _ hrest => List.forall_mem_cons.mpr ⟨hd, hrest⟩
    split
    · exact .errf _ _
    · exact .pure (by omega)

theorem fileHeaderNew_yields (env : BuildEnv) : (fileHeaderNew env proto).Yields fun r =>
    (∀ d ∈ proto.publicDependency, d < r.2.length) ∧ ∀ d ∈ proto.weakDependency, d < r.2.length := by
  unfold fileHeaderNew
  refine .check ?_
  dsimp only
  split
  all_goals
    try refine .bind (.any _) fun _ _ => ?_
    refine .check (.bind (.any _) fun _ _ => .bind (.any _) fun deps _ => ?_)
    exact .bind (checkDeps_yields _ _ _) fun _ hpublic => .bind (checkDeps_yields _ _ _) fun _ hweak => .pure ⟨hpublic, hweak⟩

/-- **What is known of a file that was built.** -/
theorem fileDefCreate_yields (env : BuildEnv) : (fileDefCreate env proto).Yields fun file =>
    file.HasDeps proto ∧ ∀ m ∈ proto.messages, m.OneofsInRange := by
  unfold fileDefCreate
  refine .bind (fileHeaderNew_yields env) fun r hr => ?_
  obtain ⟨ctx, deps⟩ := r
  refine .bind (Q := fun file => file.HasDeps proto ∧ ∀ m ∈ proto.messages, m.OneofsInRange) ?_ fun file hfile => ?_
  · unfold fileDefsNew
    exact .bind (.any _) fun _ _ => .bind (.any _) fun _ _ => .bind (createMsgDefs_yields _ _) fun _ hmsgs =>
      .bind (.any _) fun _ _ => .pure ⟨⟨rfl, rfl, hr.1, hr.2⟩, hmsgs⟩
  refine .bind (Q := fun file => file.HasDeps proto ∧ ∀ m ∈ proto.messages, m.OneofsInRange) ?_ fun file hfile => ?_
  · unfold fileDefResolve
    exact .bind (.any _) fun _ _ => .bind (.any _) fun _ _ => .pure ⟨⟨hfile.1.1, hfile.1.2, hfile.1.3, hfile.1.4⟩, hfile.2⟩
  · unfold fileDefBuildTables
    exact .bind (.any _) fun _ _ => .bind (.any _) fun _ _ => .bind (.any _) fun _ _ =>
      .pure ⟨⟨hfile.1.1, hfile.1.2, hfile.1.3, hfile.1.4⟩, hfile.2⟩

end Dependencies

namespace DefPool

variable {s s' : DefPool} {parsers : NumberParsers} {proto : FileDescriptorProto} {n : Nat}

/-- The file that was accepted is the one that was built. -/
theorem addFile_ok_file (h : s.addFile parsers proto = (.ok n, s')) : ∃ file b t, s'.fileDefs[n]? = some file ∧
    (s.builder parsers proto).run serve s = (.ok (file, b), t) := by
  unfold addFile at h
  split at h
  · cases h
  · cases h
  have hreject : ∀ e (t : DefPool), t.reject e ≠ (.ok n, s') := by
    intro e t he
    unfold reject at he
    split at he
    · cases he
    · split at he <;> cases he
  unfold build at h
  split at h
  · exact absurd h (hreject _ _)
  · rename_i file b t hrun
    split at h
    · rename_i s₂ hreg
      change s₂.accept proto.name file b = _ at h
      unfold accept at h
      split at h
      · cases h
      split at h
      · cases h
      · cases h
        exact ⟨file, b, t, by simp [keep], hrun⟩
    · exact absurd h (hreject _ _)

/-- **The indexes of a file are in range**: for every descriptor, no oneof is read outside of the array of its message
if and only if no `oneof_index` is negative; for every accepted one, the accessors for the public and the weak
dependencies are defined if and only if no index is negative and there are not more weak dependencies than public ones;
and every `oneof_index` that was accepted is one of the message. -/
theorem addFile_indexes_iff (parsers : NumberParsers) (s : DefPool) (proto : FileDescriptorProto) :
    (OneofsRead proto ↔ ∀ m ∈ proto.messages, ∀ f ∈ m.field, ∀ index, f.oneofIndex = some index → 0 ≤ index) ∧
      ∀ n s', s.addFile parsers proto = (.ok n, s') → ∃ file, s'.fileDefs[n]? = some file ∧
        (∀ m ∈ proto.messages, m.OneofsInRange) ∧ (file.DepsRight ↔ (∀ d ∈ proto.publicDependency, 0 ≤ d) ∧
          (∀ d ∈ proto.weakDependency, 0 ≤ d) ∧ proto.weakDependency.length ≤ proto.publicDependency.length) := by
  refine ⟨oneofsRead_iff, fun n s' h => ?_⟩
  obtain ⟨file, b, t, hfile, hrun⟩ := addFile_ok_file h
  have hbuilt := (fileDefCreate_yields (s.buildEnv parsers) (buildStart proto)).of_run hrun
  exact ⟨file, hfile, hbuilt.2, hbuilt.1.depsRight_iff⟩

/-- `import public` of a dependency with the index −1. -/
def filePublic : FileDescriptorProto := { name := [98], dependency := [[97]], publicDependency := [-1] }

/-- `message N { oneof o {} int32 f = 1; }` where the field is in the oneof with the index −1. -/
def fileOneof : FileDescriptorProto :=
  { name := [98]
    messageType := [{ name := [78], oneofDecl := [[111]]
                      field := [{ name := some [102], number := 1, type := some 5, oneofIndex := some (-1) }] }] }

/-- **An index of −1 is accepted, and is used**: the file has a public dependency and the accessor reads in front of the
array; for a field the builder itself does. -/
theorem not_indexes_in_range :
    ((fresh.addFile noNumbers fileM).2.addFile noNumbers filePublic).1 = .ok 1 ∧
      (((fresh.addFile noNumbers fileM).2.addFile noNumbers filePublic).2.fileDefs[1]?.map fun file =>
        (file.deps, file.publicDeps.length, file.publicDependency 0)) = some ([0], 1, none) ∧
      (fresh.addFile noNumbers fileOneof).1 = .error .undefined := by
  decide +kernel

end DefPool

end Reflection

end Hpb
