import Hpb.Hash.StrTable
import Hpb.MiniTable.Enum
import Hpb.MiniTable.Field

/-!
# Descriptors and definitions (`descriptor.proto`, `hpb/reflection/`)

The messages of `descriptor.proto` that describe a file (`FileDescriptorProto`), and the definitions that
a pool makes of them (`FileDef`). Options that no function of the builder reads are left out, and so are
the reserved names.

A definition is referred to by a pointer (`DefPtr`): the file that owns it, its kind, and its full name,
which no other definition of the kind in the file has.
-/

namespace Hpb

/-- `hpb_Syntax`. -/
inductive Syntax where
  | proto2 | proto3
  deriving DecidableEq, Repr

namespace Reflection

/-! ### Descriptors -/

/-- `FieldOptions`. -/
structure FieldOptions where
  packed : Option Bool
  deriving DecidableEq, Repr

/-- `FieldDescriptorProto`. Numbers are `int32_t`; label and type are enums, 1 if they are not set. -/
structure FieldDescriptorProto where
  name : Option StrKey := none
  number : Int := 0
  label : Int := 1
  type : Option Int := none
  typeName : Option StrKey := none
  extendee : Option StrKey := none
  defaultValue : Option StrKey := none
  oneofIndex : Option Int := none
  jsonName : Option StrKey := none
  options : FieldOptions := ⟨none⟩
  proto3Optional : Bool := false
  deriving DecidableEq, Repr

/-- `EnumValueDescriptorProto`. -/
structure EnumValueDescriptorProto where
  name : StrKey
  number : Int
  deriving DecidableEq, Repr

/-- `EnumDescriptorProto`; a reserved range has a start and an end. -/
structure EnumDescriptorProto where
  name : StrKey
  value : List EnumValueDescriptorProto
  reservedRange : List (Int × Int) := []
  deriving DecidableEq, Repr

/-- `MessageOptions`. -/
structure MessageOptions where
  messageSetWireFormat : Bool := false
  mapEntry : Bool := false
  deriving DecidableEq, Repr

/-- `DescriptorProto`; a oneof is its name. -/
structure DescriptorProto where
  name : StrKey
  field : List FieldDescriptorProto := []
  oneofDecl : List StrKey := []
  enumType : List EnumDescriptorProto := []
  extension : List FieldDescriptorProto := []
  extensionRange : List (Int × Int) := []
  reservedRange : List (Int × Int) := []
  options : MessageOptions := {}
  nestedType : List DescriptorProto := []

/-- `MethodDescriptorProto`. -/
structure MethodDescriptorProto where
  name : StrKey
  inputType : StrKey
  outputType : StrKey
  deriving DecidableEq, Repr

/-- `ServiceDescriptorProto`. -/
structure ServiceDescriptorProto where
  name : StrKey
  method : List MethodDescriptorProto
  deriving DecidableEq, Repr

/-- `FileDescriptorProto`. -/
structure FileDescriptorProto where
  name : StrKey
  package : StrKey := []
  edition : StrKey := []
  fileSyntax : Option StrKey := none
  dependency : List StrKey := []
  publicDependency : List Int := []
  weakDependency : List Int := []
  enumType : List EnumDescriptorProto := []
  extension : List FieldDescriptorProto := []
  messageType : List DescriptorProto := []
  service : List ServiceDescriptorProto := []

/-! ### Definitions -/

/-- The kinds of definitions in a symbol table, `hpb_deftype_t`. -/
inductive DefType where
  | ext | msg | enum | enumVal | service
  deriving DecidableEq, Repr, Inhabited

/-- `HPB_DEFTYPE_EXT` and so on. -/
def DefType.number : DefType → Nat
  | ext => 0
  | msg => 1
  | enum => 2
  | enumVal => 3
  | service => 4

/-- A packed pointer to a definition. The file is what the definition says it is in. -/
structure DefPtr where
  type : DefType
  file : Nat
  name : StrKey
  deriving DecidableEq, Repr, Inhabited

/-- `hpb_Label`. -/
inductive Label where
  | optional | required | repeated
  deriving DecidableEq, Repr

/-- `hpb_EnumValueDef`. -/
structure EnumValueDef where
  fullName : StrKey
  number : Int
  deriving DecidableEq, Repr

/-- `hpb_EnumDef`; `layout` is the number of its table, if it is closed. -/
structure EnumDef where
  fullName : StrKey
  values : List EnumValueDef
  isClosed : Bool
  isSorted : Bool
  layout : Option Nat
  deriving DecidableEq, Repr

/-- `sub` of a field: before it is resolved, the descriptor. -/
inductive FieldSub where
  | unresolved (proto : FieldDescriptorProto)
  | none
  | msgdef (p : DefPtr)
  | enumdef (p : DefPtr)
  deriving DecidableEq, Repr

/-- `defaultval` of a field. -/
inductive DefaultVal where
  | sint (v : Int)
  | uint (v : Nat)
  | dbl (v : UInt64)
  | flt (v : UInt32)
  | boolean (v : Bool)
  | str (v : StrKey)
  | msg
  deriving DecidableEq, Repr

/-- `hpb_FieldDef`; the type is not known before the field is resolved if the descriptor does not have
it. A oneof is its index in the message, and `address` is where an extension is in memory. -/
structure FieldDef where
  address : Nat
  fullName : StrKey
  jsonName : StrKey
  hasJsonName : Bool
  number : Nat
  index : Nat
  layoutIndex : Nat
  label : Label
  type : Option FieldType
  isExtension : Bool
  isPacked : Bool
  isProto3Optional : Bool
  hasPresence : Bool
  hasDefault : Bool
  defaultval : DefaultVal
  options : FieldOptions
  oneof : Option Nat
  /-- The message that the field is in or, for an extension, that it extends. -/
  msgdef : Option DefPtr
  sub : FieldSub
  deriving DecidableEq, Repr

/-- `hpb_OneofDef`; `fields` are the numbers of the members in the order of the message's fields, and
`members` what `ntof` and `itof` hold while the message is built. -/
structure OneofDef where
  fullName : StrKey
  synthetic : Bool
  members : List (StrKey × Nat)
  fields : List Nat
  deriving DecidableEq, Repr

/-- `hpb_MessageDef`; `layout` is the number of its table. -/
structure MessageDef where
  fullName : StrKey
  options : MessageOptions
  fields : List FieldDef
  oneofs : List OneofDef
  realOneofCount : Nat
  extRanges : List (Int × Int)
  nestedEnums : List EnumDef
  nestedExts : List FieldDef
  isSorted : Bool
  inMessageSet : Bool
  layout : Nat
  nestedMsgs : List MessageDef

/-- `hpb_ServiceDef`, with the input and output types of its methods. -/
structure ServiceDef where
  fullName : StrKey
  methods : List (StrKey × DefPtr × DefPtr)
  deriving DecidableEq, Repr

/-- `hpb_MiniTableExtension`. -/
structure MiniTableExtension where
  field : MiniTableField
  extendee : Nat
  sub : Option MiniTableSub
  deriving DecidableEq, Repr

/-- `hpb_FileDef`. -/
structure FileDef where
  name : StrKey
  package : Option StrKey
  fileSyntax : Syntax
  deps : List Nat
  publicDeps : List Int
  weakDeps : List Int
  enums : List EnumDef
  exts : List FieldDef
  msgs : List MessageDef
  services : List ServiceDef

/-! ### Finding definitions -/

mutual

/-- The message with a full name, in a message or the ones in it. -/
def MessageDef.findMessage (name : StrKey) : MessageDef → Option MessageDef
  | m@⟨fullName, _, _, _, _, _, _, _, _, _, _, msgs⟩ =>
    if fullName = name then some m else findMessages name msgs

def findMessages (name : StrKey) : List MessageDef → Option MessageDef
  | [] => none
  | m :: ms => (m.findMessage name).or (findMessages name ms)

end

mutual

/-- The enum with a full name, in a message or the ones in it. -/
def MessageDef.findEnum (name : StrKey) : MessageDef → Option EnumDef
  | ⟨_, _, _, _, _, _, enums, _, _, _, _, msgs⟩ =>
    (enums.find? fun e => e.fullName = name).or (findEnums name msgs)

def findEnums (name : StrKey) : List MessageDef → Option EnumDef
  | [] => none
  | m :: ms => (m.findEnum name).or (findEnums name ms)

end

/-- The message that a pointer into the file is to. -/
def FileDef.findMessage (file : FileDef) (name : StrKey) : Option MessageDef := findMessages name file.msgs

/-- The enum that a pointer into the file is to. -/
def FileDef.findEnum (file : FileDef) (name : StrKey) : Option EnumDef :=
  (file.enums.find? fun e => e.fullName = name).or (findEnums name file.msgs)

end Reflection

end Hpb
