import Hpb.MiniDescriptor.BuildEnum
import Hpb.MiniDescriptor.Encode
import Hpb.Reflection.DefBuilder

/-!
# Creating the definitions of a file (`hpb/reflection/*_def.c`)

The first pass over a descriptor: every definition is made and its symbol entered in the pool, and what
does not depend on other definitions is checked. The types of fields are resolved in a later pass.
-/

namespace Hpb

namespace Reflection

open Build

/-! ### Enums -/

/-- `create_enumvaldef`. -/
def createEnumValDef (scope : Option StrKey) (proto : EnumValueDescriptorProto) :
    Build EnumValueDef := do
  let fullName ← makeFullName scope proto.name
  add fullName .enumVal
  return ⟨fullName, proto.number⟩

/-- The number of an enum value as the builder compares it, a `uint32_t`. -/
def EnumValueDef.unsigned (v : EnumValueDef) : Nat := (v.number % 2 ^ 32).toNat

/-- `is_sorted`: no number is below the one before it. -/
def sortedFrom : Nat → List Nat → Bool
  | _, [] => true
  | previous, current :: rest => !(previous > current) && sortedFrom current rest

/-- `_hpb_EnumValueDefs_New`. -/
def enumValueDefsNew (ctx : BuildContext) (scope : Option StrKey) (enumName : StrKey)
    (protos : List EnumValueDescriptorProto) : Build (List EnumValueDef) := do
  let values ← protos.mapM (createEnumValDef scope)
  match values with
  | v :: _ =>
    if ctx.fileSyntax = .proto3 ∧ v.number ≠ 0 then
      errf "for proto3, the first enum value must be zero (%s)" [.str enumName]
    else return values
  | [] => return values

/-- `_hpb_EnumReservedRanges_New`. -/
def enumReservedRangesNew (enumName : StrKey) (protos : List (Int × Int)) : Build Unit :=
  protos.forM fun (start, stop) =>
    -- the end of the range is inclusive
    if stop < start then
      errf "Reserved range (%d, %d) is invalid, enum=%s\n" [.int start, .int stop, .str enumName]
    else pure ()

/-- The values that `hpb_EnumDef_MiniDescriptorEncode` puts: sorted, and each once. -/
def EnumDef.encodedValues (e : EnumDef) : List Nat :=
  let values := e.values.map (·.unsigned)
  (if e.isSorted then values else values.mergeSort (· ≤ ·)).destutter (· ≠ ·)

/-- `create_enumlayout`. -/
def createEnumLayout (ctx : BuildContext) (e : EnumDef) : Build Nat := do
  match buildEnum (encodeEnum e.encodedValues) with
  | .ok t =>
    let s ← get
    set { s with enumTables := s.enumTables ++ [t] }
    return ctx.enumBase + s.enumTables.length
  | .error (.message _) => errf "Error building enum MiniTable: %s" []
  | .error .outOfBounds => fail .undefined

/-- `create_enumdef`. -/
def createEnumDef (ctx : BuildContext) (scope : Option StrKey) (proto : EnumDescriptorProto) :
    Build EnumDef := do
  let fullName ← makeFullName scope proto.name
  add fullName .enum
  let isClosed := ctx.fileSyntax = .proto2
  let values ← enumValueDefsNew ctx scope fullName proto.value
  if values = [] then
    errf "enums must contain at least one value (%s)" [.str fullName]
  enumReservedRangesNew fullName proto.reservedRange
  let e : EnumDef := ⟨fullName, values, isClosed, sortedFrom 0 (values.map (·.unsigned)), none⟩
  if isClosed then
    let layout ← createEnumLayout ctx e
    return { e with layout := some layout }
  else return e

/-- `_hpb_EnumDefs_New`. -/
def enumDefsNew (ctx : BuildContext) (scope : Option StrKey) (protos : List EnumDescriptorProto) :
    Build (List EnumDef) :=
  protos.mapM (createEnumDef ctx scope)

/-! ### Fields -/

/-- What a name of a message is the name of, in `ntof`. -/
inductive NameType where
  | field | oneof | jsonName
  deriving DecidableEq, Repr

/-- The names and the field numbers of a message while it is built: `ntof` and `itof`. -/
structure MessageNames where
  ntof : List (StrKey × NameType)
  itof : List Nat
  deriving DecidableEq, Repr

/-- `make_json_name`; `toupper` is that of the C locale. -/
def makeJsonName : Bool → StrKey → StrKey
  | _, [] => []
  | ucaseNext, c :: cs =>
    if c = 95 then makeJsonName true cs
    else (if ucaseNext && 97 ≤ c && c ≤ 122 then c - 32 else c) :: makeJsonName false cs

/-- The type with a number in `descriptor.proto`. -/
def fieldTypeOfNumber (n : Int) : Option FieldType :=
  [FieldType.double, .float, .int64, .uint64, .int32, .fixed64, .fixed32, .bool, .string, .group, .message,
    .bytes, .uint32, .enum, .sfixed32, .sfixed64, .sint32, .sint64].find? fun t => (t.number : Int) = n

/-- The label with a number. -/
def labelOfNumber (n : Int) : Option Label :=
  if n = 1 then some .optional else if n = 2 then some .required else if n = 3 then some .repeated else none

/-- The type of a field and its checks; 0 (`none`) if it is to be found from the type name. -/
def fieldTypeNew (fullName : StrKey) (proto : FieldDescriptorProto) : Build (Option FieldType) := do
  let number := proto.type.getD 1
  if proto.type.isSome then
    if number = 11 ∨ number = 10 ∨ number = 14 then
      if proto.typeName.isNone then
        errf "field of type %d requires type name (%s)" [.int number, .str fullName]
    else if proto.typeName.isSome then
      errf "invalid type for field with type_name set (%s, %d)" [.str fullName, .int number]
  if proto.type.isNone ∧ proto.typeName.isSome then return none
  else
    match fieldTypeOfNumber number with
    | some t => return some t
    | none => errf "invalid type for field %s (%d)" [.str fullName, .int number]

/-- `_hpb_OneofDef_Insert`. -/
def oneofDefInsert (o : OneofDef) (name : StrKey) (number : Nat) (isProto3Optional : Bool) :
    Build OneofDef :=
  if o.members.any fun m => m.2 = number then
    errf "oneof fields have the same number (%d)" [.int number]
  else if o.members.any fun m => m.1 = name then
    errf "oneof fields have the same name (%.*s)" [.str name]
  else
    return { o with
      members := o.members ++ [(name, number)], synthetic := o.synthetic || isProto3Optional }

/-- The oneof of a field, and the message's oneofs after it. -/
def fieldOneofNew (fullName name : StrKey) (proto : FieldDescriptorProto) (label : Label) (number : Nat)
    (oneofs : Option (List OneofDef)) : Build (Option Nat × List OneofDef) :=
  match proto.oneofIndex with
  | none => return (none, oneofs.getD [])
  | some index =>
    if label ≠ .optional then errf "fields in oneof must have OPTIONAL label (%s)" [.str fullName]
    else
      match oneofs with
      | none => errf "oneof field (%s) has no containing msg" [.str fullName]
      | some os =>
        if index ≥ os.length then errf "oneof_index out of range (%s)" [.str fullName]
        else if index < 0 then fail .undefined
        else
          match os[index.toNat]? with
          | none => fail .undefined
          | some o => do
            let o ← oneofDefInsert o name number proto.proto3Optional
            return (some index.toNat, os.set index.toNat o)

/-- `hpb_FieldDef_IsPrimitive`. -/
def isPrimitive (t : FieldType) : Bool :=
  match fieldCType t with
  | .string | .bytes | .message => false
  | _ => true

/-- `_hpb_FieldDef_Create`; `oneofs` are those of the message that the field is in, if it is in one. -/
def fieldDefCreate (ctx : BuildContext) (scope : Option StrKey) (proto : FieldDescriptorProto)
    (isExtension : Bool) (m : Option StrKey) (oneofs : Option (List OneofDef)) :
    Build (FieldDef × List OneofDef) := do
  match proto.name with
  | none => errf "field has no name" []
  | some name =>
    let fullName ← makeFullName scope name
    let number := (proto.number % 2 ^ 32).toNat
    -- a C string ends at the first null character
    let jsonName := (proto.jsonName.map (·.takeWhile (· ≠ 0))).getD (makeJsonName false name)
    let type ← fieldTypeNew fullName proto
    match labelOfNumber proto.label with
    | none => errf "invalid label for field %s (%d)" [.str fullName, .int proto.label]
    | some label =>
      if label = .required ∧ ctx.fileSyntax = .proto3 then
        errf "proto3 fields cannot be required (%s)" [.str fullName]
      let (oneof, oneofs) ← fieldOneofNew fullName name proto label number oneofs
      let isPacked := match proto.options.packed with
        | some packed => packed
        | none => proto.type.isSome && type.any isPrimitive && label = .repeated && ctx.fileSyntax = .proto3
      let containingOneof := if isExtension then none else oneof
      let hasPresence := label ≠ .repeated && (type = some .message || type = some .group ||
        containingOneof.isSome || ctx.fileSyntax = .proto2)
      return ({ address := 0, fullName, jsonName, hasJsonName := proto.jsonName.isSome, number, index := 0,
                layoutIndex := 0, label, type, isExtension, isPacked,
                isProto3Optional := proto.proto3Optional, hasPresence, hasDefault := false,
                defaultval := .msg, options := proto.options, oneof := containingOneof,
                msgdef := m.map fun name => ⟨.msg, ctx.file, name⟩, sub := .unresolved proto }, oneofs)

/-- `_hpb_MessageDef_InsertField`. -/
def messageDefInsertField (names : MessageNames) (f : FieldDef) : Build MessageNames := do
  -- the number is an `int32_t` here
  if f.number = 0 ∨ f.number ≥ 2 ^ 29 then
    errf "invalid field number (%u)" [.int f.number]
  let shortname := fullToShort f.fullName
  if names.ntof.any fun n => n.1 = shortname then
    errf "duplicate field name (%s)" [.str shortname]
  let ntof := names.ntof ++ [(shortname, .field)]
  let ntof ← if shortname = f.jsonName then pure ntof
    else if ntof.any fun n => n.1 = f.jsonName then errf "duplicate json_name (%s)" [.str f.jsonName]
    else pure (ntof ++ [(f.jsonName, .jsonName)])
  if names.itof.contains f.number then
    errf "duplicate field number (%u)" [.int f.number]
  return ⟨ntof, names.itof ++ [f.number]⟩

/-- `_hpb_FieldDef_CreateNotExt`. -/
def createNotExt (ctx : BuildContext) (m : StrKey) (proto : FieldDescriptorProto)
    (s : List OneofDef × MessageNames) : Build (FieldDef × List OneofDef × MessageNames) := do
  let (f, oneofs) ← fieldDefCreate ctx (some m) proto false (some m) (some s.1)
  if proto.oneofIndex.isNone ∧ f.isProto3Optional then
    errf "non-extension field (%s) with proto3_optional was not in a oneof" [.str f.fullName]
  let names ← messageDefInsertField s.2 f
  return (f, oneofs, names)

/-- `_hpb_FieldDefs_New`: the fields from index `i` on, which are speculated to be in the order of the
mini table. -/
def fieldDefsNew (ctx : BuildContext) (m : StrKey) :
    Nat → List FieldDescriptorProto → List OneofDef × MessageNames →
      Build (List FieldDef × List OneofDef × MessageNames)
  | _, [], s => return ([], s)
  | i, proto :: protos, s => do
    let (f, s) ← createNotExt ctx m proto s
    let (fs, s) ← fieldDefsNew ctx m (i + 1) protos s
    return ({ f with index := i % 2 ^ 16, layoutIndex := i % 2 ^ 16 } :: fs, s)

/-- `_hpb_FieldDef_CreateExt`; `layout_index` has 16 bits. -/
def createExt (ctx : BuildContext) (scope m : Option StrKey) (oneofs : List OneofDef)
    (proto : FieldDescriptorProto) : Build FieldDef := do
  let (f, _) ← fieldDefCreate ctx scope proto true m (m.map fun _ => oneofs)
  if proto.oneofIndex.isSome then
    errf "oneof_index provided for extension field (%s)" [.str f.fullName]
  add f.fullName .ext
  let s ← get
  set { s with extCount := s.extCount + 1 }
  return { f with layoutIndex := s.extCount % 2 ^ 16, address := ctx.extBase + s.extCount }

/-- `_hpb_Extensions_New`. -/
def extensionsNew (ctx : BuildContext) (scope m : Option StrKey) (oneofs : List OneofDef) :
    Nat → List FieldDescriptorProto → Build (List FieldDef)
  | _, [] => return []
  | i, proto :: protos => do
    let f ← createExt ctx scope m oneofs proto
    let fs ← extensionsNew ctx scope m oneofs (i + 1) protos
    return { f with index := i % 2 ^ 16 } :: fs

/-! ### Messages -/

/-- `create_oneofdef`. -/
def createOneofDef (m name : StrKey) (names : MessageNames) : Build (OneofDef × MessageNames) := do
  let fullName ← makeFullName (some m) name
  if names.ntof.any fun n => n.1 = name && n.2 ≠ .jsonName then
    errf "duplicate oneof name (%s)" [.str fullName]
  return (⟨fullName, false, [], []⟩, { names with ntof := names.ntof ++ [(name, .oneof)] })

/-- `_hpb_OneofDefs_New`. -/
def oneofDefsNew (m : StrKey) : List StrKey → MessageNames → Build (List OneofDef × MessageNames)
  | [], names => return ([], names)
  | name :: rest, names => do
    let (o, names) ← createOneofDef m name names
    let (os, names) ← oneofDefsNew m rest names
    return (o :: os, names)

/-- The checks of `_hpb_OneofDefs_Finalize`, after some synthetic oneofs; it returns their number. -/
def oneofDefsFinalize : Nat → List OneofDef → Build Nat
  | synthetic, [] => return synthetic
  | synthetic, o :: os =>
    if o.synthetic ∧ o.members.length ≠ 1 then
      errf "Synthetic oneofs must have one field, not %d: %s"
        [.int o.members.length, .str (fullToShort o.fullName)]
    else if o.synthetic then oneofDefsFinalize (synthetic + 1) os
    else if synthetic ≠ 0 then
      errf "Synthetic oneofs must be after all other oneofs: %s" [.str (fullToShort o.fullName)]
    else oneofDefsFinalize synthetic os

/-- The members of the oneofs, in the order of the fields. -/
def oneofFields (oneofs : List OneofDef) (fields : List FieldDef) : List OneofDef :=
  oneofs.mapIdx fun i o =>
    { o with fields := (fields.filter fun f => f.oneof = some i).map (·.number) }

/-- The ranges of `_hpb_ExtensionRanges_New` and `_hpb_MessageReservedRanges_New`, below a maximum. -/
def rangesNew (format : String) (message : StrKey) (max : Int) (protos : List (Int × Int)) : Build Unit :=
  protos.forM fun (start, stop) =>
    if start < 1 ∨ stop ≤ start ∨ stop > max then
      errf format [.int start, .int stop, .str message]
    else pure ()

/-- `_hpb_ExtensionRanges_New`. -/
def extensionRangesNew (message : StrKey) (options : MessageOptions) (protos : List (Int × Int)) :
    Build Unit :=
  rangesNew "Extension range (%d, %d) is invalid, message=%s\n" message
    (if options.messageSetWireFormat then 2 ^ 31 - 1 else 2 ^ 29) protos

/-- `_hpb_MessageReservedRanges_New`. -/
def messageReservedRangesNew (message : StrKey) (protos : List (Int × Int)) : Build Unit :=
  rangesNew "Reserved range (%d, %d) is invalid, message=%s\n" message (2 ^ 29) protos

mutual

/-- `create_msgdef`. -/
def createMsgDef (ctx : BuildContext) (scope : Option StrKey) : DescriptorProto → Build MessageDef
  | ⟨name, field, oneofDecl, enumType, extension, extensionRange, reservedRange, options, nestedType⟩ => do
    let fullName ← makeFullName scope name
    add fullName .msg
    let (oneofs, names) ← oneofDefsNew fullName oneofDecl ⟨[], []⟩
    let (fields, oneofs, _) ← fieldDefsNew ctx fullName 0 field (oneofs, names)
    if options.messageSetWireFormat ∧ field ≠ [] then
      errf "invalid message set (%s)" [.str fullName]
    extensionRangesNew fullName options extensionRange
    messageReservedRangesNew fullName reservedRange
    let synthetic ← oneofDefsFinalize 0 oneofs
    let enums ← enumDefsNew ctx (some fullName) enumType
    let exts ← extensionsNew ctx (some fullName) (some fullName) oneofs 0 extension
    let msgs ← createMsgDefs ctx (some fullName) nestedType
    return { fullName, options, fields, oneofs := oneofFields oneofs fields,
             realOneofCount := oneofs.length - synthetic, extRanges := extensionRange,
             nestedEnums := enums, nestedExts := exts, isSorted := sortedFrom 0 (fields.map (·.number)),
             inMessageSet := false, layout := 0, nestedMsgs := msgs }

/-- `_hpb_MessageDefs_New`. -/
def createMsgDefs (ctx : BuildContext) (scope : Option StrKey) :
    List DescriptorProto → Build (List MessageDef)
  | [] => return []
  | proto :: protos => do
    let m ← createMsgDef ctx scope proto
    let ms ← createMsgDefs ctx scope protos
    return m :: ms

end

/-! ### Services -/

/-- `create_method`. -/
def createMethod (service : StrKey) (proto : MethodDescriptorProto) :
    Build (StrKey × DefPtr × DefPtr) := do
  let fullName ← makeFullName (some service) proto.name
  let input ← resolve fullName (some fullName) proto.inputType .msg
  let output ← resolve fullName (some fullName) proto.outputType .msg
  return (fullName, input, output)

/-- `create_service`. -/
def createService (ctx : BuildContext) (proto : ServiceDescriptorProto) : Build ServiceDef := do
  let fullName ← makeFullName ctx.package proto.name
  add fullName .service
  let methods ← proto.method.mapM (createMethod fullName)
  return ⟨fullName, methods⟩

end Reflection

end Hpb
