import Hpb.MiniDescriptor.Link
import Hpb.MiniDescriptor.MessageSpec
import Hpb.Reflection.CreateDefs

/-!
# Building a file (`hpb/reflection/file_def.c`, `field_def.c`, `message_def.c`, `def_pool.c`)

Once all names are in the table, the types of the fields are resolved, each message is compiled to a mini
table by way of its mini descriptor, the extensions are built and entered in the pool, and the tables are
linked. Only then does the file go into the pool (`addFile`).

`hpb_DefPool_AddFile` builds all tables itself; loading a file with the tables of the generator is
`DefBuilder.fileDefCreate`.
-/

namespace Hpb

namespace Reflection

open Build

/-! ### Resolving -/

/-- `resolve_subdef`. -/
def resolveSubdef (ctx : BuildContext) (scope : Option StrKey) (f : FieldDef)
    (proto : FieldDescriptorProto) : Build FieldDef := do
  let name := proto.typeName.getD []
  match f.type with
  | none =>
    -- the type was not specified and must be inferred
    let p ← resolveAny scope name
    match p.type with
    | .enum =>
      let isPacked := if f.options.packed.isSome then f.isPacked
        else f.label = .repeated && ctx.fileSyntax = .proto3
      return { f with sub := .enumdef p, type := some .enum, isPacked }
    | .msg => return { f with sub := .msgdef p, type := some .message, hasPresence := f.label ≠ .repeated }
    | _ => errf "Couldn't resolve type name for field %s" [.str f.fullName]
  | some .message | some .group =>
    let p ← resolve f.fullName scope name .msg
    return { f with sub := .msgdef p }
  | some .enum =>
    let p ← resolve f.fullName scope name .enum
    return { f with sub := .enumdef p }
  | some _ => return { f with sub := .none }

/-- `resolve_default`. -/
def resolveDefault (ctx : BuildContext) (file : FileDef) (f : FieldDef) (proto : FieldDescriptorProto) :
    Build FieldDef := do
  match f.type with
  | none => fail .undefined
  | some type =>
    match proto.defaultValue with
    | some str =>
      if ctx.fileSyntax = .proto3 then
        errf "proto3 fields cannot have explicit defaults (%s)" [.str f.fullName]
      if fieldCType type = .message then
        errf "message fields cannot have explicit defaults (%s)" [.str f.fullName]
      let defaultval ← parseDefault ctx file f type str
      return { f with defaultval, hasDefault := true }
    | none =>
      let defaultval ← setDefaultDefault ctx file f type
      return { f with defaultval, hasDefault := false }

/-- `_hpb_MessageDef_IsValidExtensionNumber`. -/
def MessageDef.isValidExtensionNumber (m : MessageDef) (n : Nat) : Bool :=
  m.extRanges.any fun r => r.1 ≤ n && n < r.2

/-- `resolve_extension`. -/
def resolveExtension (ctx : BuildContext) (file : FileDef) (scope : Option StrKey) (f : FieldDef)
    (proto : FieldDescriptorProto) : Build FieldDef := do
  match proto.extendee with
  | none => errf "extension for field '%s' had no extendee" [.str f.fullName]
  | some name =>
    let p ← resolve f.fullName scope name .msg
    let m ← derefMessage ctx file p
    if !m.isValidExtensionNumber f.number then
      errf "field number %u in extension %s has no extension range in message %s"
        [.int f.number, .str f.fullName, .str m.fullName]
    return { f with msgdef := some p }

/-- `_hpb_FieldDef_Resolve`. -/
def fieldDefResolve (ctx : BuildContext) (file : FileDef) (scope : Option StrKey) (f : FieldDef) :
    Build FieldDef := do
  match f.sub with
  | .unresolved proto =>
    let f ← resolveSubdef ctx scope f proto
    let f ← resolveDefault ctx file f proto
    if f.isExtension then resolveExtension ctx file scope f proto else return f
  | _ => fail .undefined

/-- Whether an extension of a message puts the message into a message set. -/
def isMessageSetItem (ctx : BuildContext) (file : FileDef) (m : StrKey) (ext : FieldDef) : Build Bool := do
  if ext.type = some .message ∧ ext.label = .optional ∧ ext.sub = .msgdef ⟨.msg, ctx.file, m⟩ then
    match ext.msgdef with
    | some p =>
      let containing ← derefMessage ctx file p
      return containing.options.messageSetWireFormat
    | none => fail .undefined
  else return false

/-- The extensions of a message, and whether one of them puts it into a message set. -/
def resolveExts (ctx : BuildContext) (file : FileDef) (m : StrKey) :
    List FieldDef → Build (List FieldDef × Bool)
  | [] => return ([], false)
  | ext :: exts => do
    let ext ← fieldDefResolve ctx file (some m) ext
    let item ← isMessageSetItem ctx file m ext
    let (exts, inSet) ← resolveExts ctx file m exts
    return (ext :: exts, item || inSet)

mutual

/-- `_hpb_MessageDef_Resolve`. -/
def messageDefResolve (ctx : BuildContext) (file : FileDef) : MessageDef → Build MessageDef
  | ⟨fullName, options, fields, oneofs, realOneofCount, extRanges, enums, exts, isSorted, _, layout,
      msgs⟩ => do
    let fields ← fields.mapM (fieldDefResolve ctx file (some fullName))
    let (exts, inMessageSet) ← resolveExts ctx file fullName exts
    let msgs ← messageDefsResolve ctx file msgs
    return ⟨fullName, options, fields, oneofs, realOneofCount, extRanges, enums, exts, isSorted,
      inMessageSet, layout, msgs⟩

def messageDefsResolve (ctx : BuildContext) (file : FileDef) : List MessageDef → Build (List MessageDef)
  | [] => return []
  | m :: ms => do
    let m ← messageDefResolve ctx file m
    let ms ← messageDefsResolve ctx file ms
    return m :: ms

end

/-! ### Mini tables -/

/-- `_hpb_FieldDef_IsClosedEnum`. -/
def isClosedEnum (ctx : BuildContext) (file : FileDef) (f : FieldDef) : Build Bool :=
  if f.type ≠ some .enum then return false
  else
    match f.sub with
    | .enumdef p => do return (← derefEnum ctx file p).isClosed
    | _ => fail .undefined

/-- `_hpb_FieldDef_Modifiers`. -/
def fieldDefModifiers (ctx : BuildContext) (file : FileDef) (f : FieldDef) : Build FieldModifiers := do
  let closed ← isClosedEnum ctx file f
  return { isRepeated := f.label = .repeated, isPacked := f.isPacked, isClosedEnum := closed,
           isProto3Singular := f.label = .optional && !f.hasPresence, isRequired := f.label = .required }

/-- What the encoder is given for a field. -/
def fieldSpec (ctx : BuildContext) (file : FileDef) (f : FieldDef) : Build FieldSpec := do
  match f.type with
  | none => fail .undefined
  | some type =>
    let mod ← fieldDefModifiers ctx file f
    return ⟨f.number, type, mod⟩

/-- `_hpb_FieldDefs_Sorted`: the fields by number. -/
def fieldDefsSorted (fields : List FieldDef) : List FieldDef :=
  fields.mergeSort fun f g => f.number ≤ g.number

/-- The side effect of `_hpb_FieldDefs_Sorted`: where each field is in the order of the numbers. -/
def assignLayoutIndexes (fields : List FieldDef) : List FieldDef :=
  fields.map fun f =>
    { f with layoutIndex := ((fieldDefsSorted fields).findIdx fun g => g.number = f.number) % 2 ^ 16 }

/-- `_hpb_MessageDef_Modifiers`. -/
def messageDefModifiers (ctx : BuildContext) (m : MessageDef) : MsgModifiers :=
  { validateUtf8 := ctx.fileSyntax = .proto3, defaultIsPacked := ctx.fileSyntax = .proto3,
    isExtendable := m.extRanges ≠ [] }

/-- `_hpb_MessageDef_EncodeMap`. -/
def encodeMapDef (ctx : BuildContext) (file : FileDef) (m : MessageDef) : Build (List UInt8) := do
  match m.fields with
  | [key, val] =>
    let key ← fieldSpec ctx file key
    let val ← fieldSpec ctx file val
    match encodeMap key.type val.type key.mod val.mod with
    | some desc => return desc
    | none => fail .undefined
  | _ => fail .outOfMemory

/-- `_hpb_MessageDef_EncodeMessage`. -/
def encodeMessageDef (ctx : BuildContext) (file : FileDef) (m : MessageDef) : Build (List UInt8) := do
  let fields ← (if m.isSorted then m.fields else fieldDefsSorted m.fields).mapM (fieldSpec ctx file)
  let oneofs := (m.oneofs.take m.realOneofCount).map (·.fields)
  match encodeMessage ⟨messageDefModifiers ctx m, fields, oneofs⟩ with
  | some desc => return desc
  | none => fail .undefined

/-- `hpb_MessageDef_MiniDescriptorEncode`. -/
def miniDescriptorEncode (ctx : BuildContext) (file : FileDef) (m : MessageDef) : Build (List UInt8) :=
  if m.options.mapEntry then encodeMapDef ctx file m
  else if m.options.messageSetWireFormat then return encodeMessageSet
  else encodeMessageDef ctx file m

/-- The fields of a message after its mini descriptor was encoded. -/
def encodedFields (m : MessageDef) : List FieldDef :=
  if m.options.mapEntry || m.options.messageSetWireFormat || m.isSorted then m.fields
  else assignLayoutIndexes m.fields

/-- `_hpb_MessageDef_MakeMiniTable`: the number of the table. -/
def makeMiniTable (ctx : BuildContext) (file : FileDef) (m : MessageDef) : Build Nat := do
  let desc ← miniDescriptorEncode ctx file m
  match MtDecoder.build ctx.platform desc with
  | .error msg => errf msg []
  | .ok t =>
    let s ← get
    set { s with tables := s.tables ++ [t] }
    return ctx.tableBase + s.tables.length

mutual

/-- `_hpb_MessageDef_CreateMiniTable`. -/
def createMiniTable (ctx : BuildContext) (file : FileDef) : MessageDef → Build MessageDef
  | m@⟨fullName, options, _, oneofs, realOneofCount, extRanges, enums, exts, isSorted, inMessageSet, _,
      msgs⟩ => do
    let layout ← makeMiniTable ctx file m
    let msgs ← createMiniTables ctx file msgs
    return ⟨fullName, options, encodedFields m, oneofs, realOneofCount, extRanges, enums, exts, isSorted,
      inMessageSet, layout, msgs⟩

def createMiniTables (ctx : BuildContext) (file : FileDef) : List MessageDef → Build (List MessageDef)
  | [] => return []
  | m :: ms => do
    let m ← createMiniTable ctx file m
    let ms ← createMiniTables ctx file ms
    return m :: ms

end

/-- A mini table, of this file or of an earlier one. -/
def readTable (ctx : BuildContext) (table : Nat) : Build MiniTable := do
  if table < ctx.tableBase then poolCall (.readTable table)
  else
    match (← get).tables[table - ctx.tableBase]? with
    | some t => return t
    | none => fail .undefined

/-- `hpb_MtDecoder_DoBuildMiniTableExtension` after the field was parsed. -/
def extensionOfField (extendee : MiniTable) (table : Nat) (sub : Option MiniTableSub)
    (f : MiniTableField) : Option MiniTableExtension :=
  let f := { f with mode := f.mode ||| LabelFlags.isExtension, offset := 0, presence := 0 }
  -- extensions of a message set must be messages, and not repeated
  if extendee.ext &&& ExtMode.isMessageSet ≠ 0 ∧
      (¬f.isSubMessage ∨ f.fieldMode = FieldMode.array) then none
  else some ⟨f, table, sub⟩

/-- `hpb_MiniTableExtension_Init`, on the native platform. -/
def miniTableExtensionInit (desc : List UInt8) (extendee : MiniTable) (table : Nat)
    (sub : Option MiniTableSub) : Option MiniTableExtension :=
  match desc with
  | 35 :: data =>
    match ({ MtDecoder.start .bits64 with extension := true }).parse ⟨0, 0, false⟩ 0 data with
    | .ok (d, _) =>
      match d.fields with
      | [f] => extensionOfField extendee table sub f
      | _ => none
    | .error _ => none
  | _ => none

/-- The sub-table of an extension. -/
def extensionSub (ctx : BuildContext) (file : FileDef) (f : FieldDef) : Build (Option MiniTableSub) := do
  match f.sub with
  | .msgdef p => return some (.submsg (← derefMessage ctx file p).layout)
  | .enumdef p =>
    let e ← derefEnum ctx file p
    if e.isClosed then return e.layout.map .subenum else return none
  | _ => return none

/-- `_hpb_FieldDef_BuildMiniTableExtension`. -/
def buildMiniTableExtension (ctx : BuildContext) (file : FileDef) (f : FieldDef) : Build Unit := do
  let spec ← fieldSpec ctx file f
  match encodeExtension spec.type spec.number spec.mod, f.msgdef with
  | some desc, some p =>
    let sub ← extensionSub ctx file f
    let table := (← derefMessage ctx file p).layout
    let extendee ← readTable ctx table
    match miniTableExtensionInit desc extendee table sub with
    | none => errf "Could not build extension mini table" []
    | some ext =>
      modify fun s => { s with extTables := s.extTables.set f.layoutIndex (some ext) }
      let ok : Bool ← poolCall (.insertExt (ctx.extBase + f.layoutIndex) f.address)
      if ok then return () else fail .outOfMemory
  | _, _ => fail .undefined

/-- One round of the loop of `_hpb_MessageDef_LinkMiniTable` over the fields. -/
def linkField (ctx : BuildContext) (file : FileDef) (m : StrKey) (layout : Nat) (f : FieldDef) :
    Build Unit := do
  let s ← get
  match s.tables[layout - ctx.tableBase]? with
  | none => fail .undefined
  | some t =>
    match f.sub with
    | .msgdef p =>
      let sub := (← derefMessage ctx file p).layout
      let subTable ← readTable ctx sub
      match t.setSubMessage (fun _ => subTable) f.layoutIndex sub with
      | none => errf "invalid submsg for (%s)" [.str m]
      | some t => set { s with tables := s.tables.set (layout - ctx.tableBase) t }
    | .enumdef p =>
      let e ← derefEnum ctx file p
      if e.isClosed then
        match e.layout with
        | none => fail .undefined
        | some id =>
          match t.setSubEnum f.layoutIndex id with
          | none => errf "invalid subenum for (%s)" [.str m]
          | some t => set { s with tables := s.tables.set (layout - ctx.tableBase) t }
    | _ => return ()

mutual

/-- `_hpb_MessageDef_LinkMiniTable`. -/
def linkMiniTable (ctx : BuildContext) (file : FileDef) : MessageDef → Build Unit
  | ⟨fullName, _, fields, _, _, _, _, exts, _, _, layout, msgs⟩ => do
    exts.forM (buildMiniTableExtension ctx file)
    linkMiniTables ctx file msgs
    fields.forM (linkField ctx file fullName layout)

def linkMiniTables (ctx : BuildContext) (file : FileDef) : List MessageDef → Build Unit
  | [] => return ()
  | m :: ms => do
    linkMiniTable ctx file m
    linkMiniTables ctx file ms

end

/-! ### Files -/

mutual

/-- `count_exts_in_msg`. -/
def countExtsInMsg : DescriptorProto → Nat
  | ⟨_, _, _, _, extension, _, _, _, nestedType⟩ => extension.length + countExtsInMsgs nestedType

def countExtsInMsgs : List DescriptorProto → Nat
  | [] => 0
  | m :: ms => countExtsInMsg m + countExtsInMsgs ms

end

mutual

/-- The extensions in a message, in the order in which they are made. -/
def MessageDef.allExts : MessageDef → List FieldDef
  | ⟨_, _, _, _, _, _, _, exts, _, _, _, msgs⟩ => exts ++ allExtsIn msgs

def allExtsIn : List MessageDef → List FieldDef
  | [] => []
  | m :: ms => m.allExts ++ allExtsIn ms

end

/-- The extensions of a file. -/
def FileDef.allExts (file : FileDef) : List FieldDef := file.exts ++ allExtsIn file.msgs

/-- The dependencies of a file, which must have been loaded. -/
def findDeps : List StrKey → Build (List Nat)
  | [] => return []
  | name :: names => do
    match ← poolCall (.findFile name) with
    | none => errf "Depends on file '%.*s', but it has not been loaded" [.str name]
    | some file =>
      let files ← findDeps names
      return file :: files

/-- The indexes of public or weak dependencies. -/
def checkDeps (format : String) (count : Nat) (deps : List Int) : Build Unit :=
  deps.forM fun d => if d ≥ count then errf format [.int d] else return ()

/-- `file->syntax`. -/
def fileSyntaxNew : Option StrKey → Build Syntax
  | none => return .proto2
  | some s =>
    if s = [112, 114, 111, 116, 111, 50] then return .proto2
    else if s = [112, 114, 111, 116, 111, 51] then return .proto3
    else errf "Invalid syntax '%.*s'" [.str s]

/-- What a new file of the pool is built with: its address and where its tables will be. -/
structure BuildEnv where
  file : Nat
  platform : Platform
  enumBase : Nat
  tableBase : Nat
  extBase : Nat
  strtod : StrKey → Option UInt64
  strtof : StrKey → Option UInt32

/-- The first part of `_hpb_FileDef_Create`: the names, the syntax and the dependencies. -/
def fileHeaderNew (env : BuildEnv) (proto : FileDescriptorProto) : Build (BuildContext × List Nat) := do
  if proto.name.contains 0 then errf "File name contained embedded NULL" []
  let package := if proto.package = [] then none else some proto.package
  if proto.package ≠ [] then checkIdentFull proto.package
  if proto.edition.contains 0 then errf "Edition name contained embedded NULL" []
  let fileSyntax ← fileSyntaxNew proto.fileSyntax
  let deps ← findDeps proto.dependency
  checkDeps "public_dep %d is out of range" deps.length proto.publicDependency
  checkDeps "weak_dep %d is out of range" deps.length proto.weakDependency
  return (⟨env.file, fileSyntax, package, env.platform, env.enumBase, env.tableBase, env.extBase,
    env.strtod, env.strtof⟩, deps)

/-- The second part: the definitions. -/
def fileDefsNew (ctx : BuildContext) (deps : List Nat) (proto : FileDescriptorProto) : Build FileDef := do
  let enums ← enumDefsNew ctx ctx.package proto.enumType
  let exts ← extensionsNew ctx ctx.package none [] 0 proto.extension
  let msgs ← createMsgDefs ctx ctx.package proto.messageType
  let services ← proto.service.mapM (createService ctx)
  return ⟨proto.name, ctx.package, ctx.fileSyntax, deps, proto.publicDependency, proto.weakDependency,
    enums, exts, msgs, services⟩

/-- The third part: references are resolved. -/
def fileDefResolve (ctx : BuildContext) (file : FileDef) : Build FileDef := do
  let msgs ← messageDefsResolve ctx file file.msgs
  let exts ← file.exts.mapM (fieldDefResolve ctx file ctx.package)
  return { file with msgs, exts }

/-- The fourth part: mini tables are built and linked. -/
def fileDefBuildTables (ctx : BuildContext) (file : FileDef) : Build FileDef := do
  let msgs ← createMiniTables ctx file file.msgs
  let file := { file with msgs }
  file.exts.forM (buildMiniTableExtension ctx file)
  linkMiniTables ctx file file.msgs
  return file

/-- `_hpb_FileDef_Create` up to the registration of the extensions. -/
def fileDefCreate (env : BuildEnv) (proto : FileDescriptorProto) : Build FileDef := do
  let (ctx, deps) ← fileHeaderNew env proto
  let file ← fileDefsNew ctx deps proto
  let file ← fileDefResolve ctx file
  fileDefBuildTables ctx file

namespace DefPool

/-- `strtod` and `strtof`, as `parse_default` uses them. -/
structure NumberParsers where
  strtod : StrKey → Option UInt64
  strtof : StrKey → Option UInt32

/-- The file that is built next. -/
def buildEnv (s : DefPool) (parsers : NumberParsers) : BuildEnv :=
  ⟨s.fileDefs.length, s.platform, s.enumTables.length, s.tables.length, s.extTables.length, parsers.strtod,
    parsers.strtof⟩

/-- The builder's own state at the start. -/
def buildStart (proto : FileDescriptorProto) : BuildState :=
  ⟨[], [], List.replicate (proto.extension.length + countExtsInMsgs proto.messageType) none, 0⟩

/-- The builder of a new file, with the calls that it makes. -/
def builder (parsers : NumberParsers) (s : DefPool) (proto : FileDescriptorProto) :
    Client PoolCall PoolReply Failure (FileDef × BuildState) :=
  fileDefCreate (s.buildEnv parsers) proto (buildStart proto)

/-- The mini tables of the extensions, with their addresses; all of them were built. -/
def extLayouts (extBase : Nat) (extTables : List (Option MiniTableExtension)) :
    Option (List (Nat × MiniTableExtension)) :=
  (extTables.mapIdx fun i ext => ext.map fun ext => (extBase + i, ext)).mapM id

/-- The end of `_hpb_FileDef_Create`: the extensions are registered. -/
def registerExts (s : DefPool) (extTables : List (Option MiniTableExtension)) :
    Except Failure Unit × DefPool :=
  if extTables = [] then (.ok (), s)
  else
    match extLayouts s.extTables.length extTables with
    | none => (.error .undefined, s)
    | some exts =>
      match registryAddArray s.extreg s.arena exts with
      | none => (.error .undefined, s)
      | some (ok, extreg, arena) =>
        (if ok then .ok () else .error .outOfMemory, { s with extreg, arena })

/-- The run of `_hpb_FileDef_Create` for a new file. -/
def build (parsers : NumberParsers) (s : DefPool) (proto : FileDescriptorProto) :
    Except Failure (FileDef × BuildState) × DefPool :=
  match (s.builder parsers proto).run serve s with
  | (.error e, s) => (.error e, s)
  | (.ok (file, b), s) =>
    match s.registerExts b.extTables with
    | (.ok (), s) => (.ok (file, b), s)
    | (.error e, s) => (.error e, s)

/-- The pool with the memory of a file that was built. -/
def keep (s : DefPool) (file : FileDef) (b : BuildState) : DefPool :=
  { s with
    fileDefs := s.fileDefs ++ [file]
    tables := s.tables ++ b.tables
    enumTables := s.enumTables ++ b.enumTables
    extTables := s.extTables ++ b.extTables.filterMap id
    extDefs := s.extDefs ++ file.allExts }

/-- A file that was built goes into the pool. -/
def accept (s : DefPool) (name : StrKey) (file : FileDef) (b : BuildState) : Except Failure Nat × DefPool :=
  if 2 ^ 32 ≤ name.length then (.error .undefined, s)
  else
    match s.files.insert name s.fileDefs.length s.arena with
    | none => (.error .undefined, s)
    | some (_, files, arena) => (.ok s.fileDefs.length, ({ s with files, arena } : DefPool).keep file b)

/-- A file that was not built is taken out of the pool. -/
def reject (s : DefPool) : Failure → Except Failure Nat × DefPool
  | .undefined => (.error .undefined, s)
  | .error format args =>
    match s.removeFiledef s.fileDefs.length with
    | none => (.error .undefined, s)
    | some s => (.error (.error format args), s)

/-- The end of `hpb_DefBuilder_AddFileToPool`. -/
def finish (name : StrKey) : Except Failure (FileDef × BuildState) × DefPool → Except Failure Nat × DefPool
  | (.ok (file, b), s) => s.accept name file b
  | (.error e, s) => s.reject e

/-- `hpb_DefPool_AddFile`: the file, or why there is none. -/
def addFile (parsers : NumberParsers) (s : DefPool) (proto : FileDescriptorProto) :
    Except Failure Nat × DefPool :=
  match s.files.lookup2 proto.name with
  | none => (.error .undefined, s)
  | some (some _) => (.error (.error "duplicate file name %.*s" [.str proto.name]), s)
  | some none => finish proto.name (s.build parsers proto)

end DefPool

end Reflection

end Hpb
