import Hpb.MiniDescriptor.Base92
import Hpb.MiniTable.Field

/-!
# Building a mini table from a mini descriptor (`hpb/mini_descriptor/decode.c`)

`build` parses the descriptor into fields and layout items, gives has-bits to the fields that have
one, sorts the items and places them one after the other. Until the last pass `offset` holds something
else than an offset: a presence class, and for a member of a oneof the link to the next member.

* `parse`, `decodeOneofs`: the parser. A character that an inner function has read already is skipped
  (`skip`).
* `assignHasbits`, `sortLayoutItems`, `assignOffsets`: the layout.
* `build`: all versions of a descriptor.

Memory does not run out here. `MtDecoder.oneofs` is history: the members of each oneof by their
indexes, in the order of the links; no step reads it.
-/

namespace Hpb

/-- `hpb_LayoutItemType`. -/
inductive LayoutItemType where
  | oneofCase | oneofField | field
  deriving DecidableEq, Repr

/-- `kHpb_LayoutItem_IndexSentinel`. -/
def indexSentinel : Nat := 65535

/-- `hpb_LayoutItem`. -/
structure LayoutItem where
  fieldIndex : Nat
  offset : Nat
  rep : FieldRep
  type : LayoutItemType
  deriving DecidableEq, Repr

/-! The presence classes that `offset` holds first; from `oneofBase` on it is a link. -/

def noPresence : Nat := 0
def hasbitPresence : Nat := 1
def requiredPresence : Nat := 2
def oneofBase : Nat := 3

/-- `hpb_SubCounts`. -/
structure SubCounts where
  submsgCount : Nat
  subenumCount : Nat
  deriving DecidableEq, Repr

namespace EncodedType

def openEnum : Int := 12
def group : Int := 16
def message : Int := 17
def repeatedBase : Int := 20

/-- `kHpb_EncodedToType`. -/
def toType : List FieldType :=
  [.double, .float, .fixed32, .fixed64, .sfixed32, .sfixed64, .int32, .uint32, .sint32, .int64,
    .uint64, .sint64, .enum, .bool, .bytes, .string, .group, .message, .enum]

/-- `kHpb_EncodedToFieldRep`; those of groups and messages are not read. -/
def toFieldRep : List FieldRep :=
  [.eightByte, .fourByte, .fourByte, .eightByte, .fourByte, .eightByte, .fourByte, .fourByte,
    .fourByte, .eightByte, .eightByte, .eightByte, .fourByte, .oneByte, .stringView, .stringView,
    .oneByte, .oneByte, .fourByte]

end EncodedType

namespace MessageModifier

def validateUtf8 : UInt32 := 1
def defaultIsPacked : UInt32 := 2
def isExtendable : UInt32 := 4

end MessageModifier

namespace EncodedFieldModifier

def flipPacked : UInt32 := 1
def isRequired : UInt32 := 2
def isProto3Singular : UInt32 := 4

end EncodedFieldModifier

/-- `hpb_MtDecoder`, with the parts of the table it fills while it parses. -/
structure MtDecoder where
  platform : Platform
  /-- Parsing an extension: there is no table. -/
  extension : Bool
  fields : List MiniTableField
  fieldCount : Nat
  denseBelow : Nat
  ext : Nat
  subCounts : SubCounts
  vec : List LayoutItem
  oneofs : List (List Nat)
  deriving DecidableEq, Repr

/-- `hpb_MdDecoder_ErrorJmp`. -/
def errorJmp {α : Type} (msg : String) : Except String α :=
  .error ("Error building mini table: " ++ msg)

/-- `hpb_MdDecoder_DecodeBase92Varint`. -/
def decodeBase92Varint (min max first : UInt8) (rest : List UInt8) : Except String (Nat × UInt32) :=
  match decodeVarint min max 0 0 first rest with
  | some r => .ok r
  | none => errorJmp "Overlong varint"

/-- `hpb_MtDecoder_FieldIsPackable`. -/
def fieldIsPackable (f : MiniTableField) : Bool :=
  f.mode &&& FieldMode.array != 0 && f.descriptortype.isPackable

/-- `hpb_MiniTable_SetTypeAndSub`. -/
def setTypeAndSub (f : MiniTableField) (type : FieldType) (subs : SubCounts) (msgModifiers : UInt32)
    (isProto3Enum : Bool) : MiniTableField × SubCounts :=
  let (f, type) :=
    if isProto3Enum then ({ f with mode := f.mode ||| LabelFlags.isAlternate }, FieldType.int32)
    else if type = .string ∧ msgModifiers &&& MessageModifier.validateUtf8 = 0 then
      ({ f with mode := f.mode ||| LabelFlags.isAlternate }, FieldType.bytes)
    else (f, type)
  let f := { f with descriptortype := type }
  let f :=
    if fieldIsPackable f ∧ msgModifiers &&& MessageModifier.defaultIsPacked ≠ 0 then
      { f with mode := f.mode ||| LabelFlags.isPacked }
    else f
  if type = .message ∨ type = .group then
    ({ f with submsgIndex := subs.submsgCount },
      { subs with submsgCount := (subs.submsgCount + 1) % 2 ^ 16 })
  else if type = .enum then
    -- counted from the number of sub-messages on, which is not known yet
    ({ f with submsgIndex := subs.subenumCount },
      { subs with subenumCount := (subs.subenumCount + 1) % 2 ^ 16 })
  else ({ f with submsgIndex := noSub }, subs)

/-- `pointer_rep` of `hpb_MiniTable_SetField`. -/
def pointerRep : Platform → FieldRep
  | .bits32 => .fourByte
  | .bits64 => .eightByte

/-- The mode and the presence class of a field of the encoded type `ch`, and the type without the
cardinality. -/
def modeOfChar (platform : Platform) (ch : UInt8) : Except String (UInt8 × Nat × Int) :=
  let type := fromBase92 ch
  if ch ≥ 54 then -- `_hpb_ToBase92(kHpb_EncodedType_RepeatedBase)`
    .ok (FieldMode.array ||| (pointerRep platform).bits <<< 6, noPresence,
      type - EncodedType.repeatedBase)
  else if type = EncodedType.group ∨ type = EncodedType.message then
    .ok (FieldMode.scalar ||| (pointerRep platform).bits <<< 6, hasbitPresence, type)
  else if type < 0 ∨ type ≥ EncodedType.toFieldRep.length then
    errorJmp s!"Invalid field type: {type}"
  else
    .ok (FieldMode.scalar ||| (EncodedType.toFieldRep.getD type.toNat .oneByte).bits <<< 6,
      hasbitPresence, type)

/-- `hpb_MiniTable_SetField`, for the field with the number `number`. -/
def setField (platform : Platform) (ch : UInt8) (number : Nat) (msgModifiers : UInt32)
    (subs : SubCounts) : Except String (MiniTableField × SubCounts) := do
  let (mode, offset, type) ← modeOfChar platform ch
  if type < 0 then errorJmp s!"Invalid field type: {type}"
  else
    match EncodedType.toType[type.toNat]? with
    | none => errorJmp s!"Invalid field type: {type}"
    | some t =>
      return setTypeAndSub
        { number, offset, presence := 0, submsgIndex := 0, descriptortype := t, mode } t subs
        msgModifiers (type = EncodedType.openEnum)

/-- The first part of `hpb_MtDecoder_ModifyField`. -/
def flipPacked (modifiers : UInt32) (f : MiniTableField) : Except String MiniTableField :=
  if modifiers &&& EncodedFieldModifier.flipPacked ≠ 0 then
    if fieldIsPackable f then .ok { f with mode := f.mode ^^^ LabelFlags.isPacked }
    else errorJmp s!"Cannot flip packed on unpackable field {f.number}"
  else .ok f

/-- `hpb_MtDecoder_ModifyField`. -/
def modifyField (modifiers : UInt32) (f : MiniTableField) : Except String MiniTableField := do
  let f ← flipPacked modifiers f
  let singular := modifiers &&& EncodedFieldModifier.isProto3Singular ≠ 0
  let required := modifiers &&& EncodedFieldModifier.isRequired ≠ 0
  if (singular ∨ required) ∧ f.offset ≠ hasbitPresence then
    errorJmp s!"Invalid modifier(s) for repeated field {f.number}"
  else if singular ∧ required then
    errorJmp s!"Field {f.number} cannot be both singular and required"
  else if singular then return { f with offset := noPresence }
  else if required then return { f with offset := requiredPresence }
  else return f

namespace MtDecoder

/-- `hpb_MtDecoder_PushItem`. -/
def pushItem (d : MtDecoder) (item : LayoutItem) : MtDecoder := { d with vec := d.vec ++ [item] }

/-- `hpb_MtDecoder_PushOneof`; `members` is history. -/
def pushOneof (d : MtDecoder) (item : LayoutItem) (members : List Nat) :
    Except String MtDecoder :=
  if item.fieldIndex = indexSentinel then errorJmp "Empty oneof"
  else
    let item := { item with fieldIndex := (item.fieldIndex + (2 ^ 16 - oneofBase)) % 2 ^ 16 }
    let d := d.pushItem { item with type := .oneofField }
    -- the case holds a field number
    let d := d.pushItem { item with rep := .fourByte, type := .oneofCase }
    .ok { d with oneofs := d.oneofs ++ [members] }

/-- `hpb_MtDecoder_DecodeOneofField` after the field number was read. -/
def addToOneof (d : MtDecoder) (number : Nat) (item : LayoutItem) (members : List Nat) :
    Except String (MtDecoder × LayoutItem × List Nat) :=
  match MiniTable.findFieldByNumber d.fields d.denseBelow d.fieldCount number with
  | none =>
    errorJmp s!"Couldn't add field number {number} to oneof, no such field number."
  | some i =>
    match d.fields[i]? with
    | none => errorJmp s!"Couldn't add field number {number} to oneof, no such field number."
    | some f =>
      if f.offset ≠ hasbitPresence then
        errorJmp s!"Cannot add repeated, required, or singular field {number} to oneof."
      else
        -- oneof storage must be large enough to accommodate the largest member
        let rep := if sizeOfRep f.rep d.platform > sizeOfRep item.rep d.platform then f.rep else item.rep
        .ok ({ d with fields := d.fields.set i { f with offset := item.fieldIndex } },
          { item with rep, fieldIndex := (i + oneofBase) % 2 ^ 16 }, i :: members)

/-- `hpb_MtDecoder_DecodeOneofs`. -/
def decodeOneofs (d : MtDecoder) (item : LayoutItem) (members : List Nat) :
    Nat → List UInt8 → Except String MtDecoder
  | _, [] => d.pushOneof item members
  | skip + 1, _ :: rest => decodeOneofs d item members skip rest
  | 0, ch :: rest =>
    if ch = 124 then decodeOneofs d item members 0 rest -- field separator
    else if ch = 126 then do -- end of oneof
      let d ← d.pushOneof item members
      decodeOneofs d { item with fieldIndex := indexSentinel } [] 0 rest
    else do
      let (skip, number) ← decodeBase92Varint 32 98 ch rest
      let (d, item, members) ← d.addToOneof number.toNat item members
      decodeOneofs d item members skip rest

/-- The locals of `hpb_MtDecoder_Parse`. -/
structure Locals where
  msgModifiers : UInt32
  lastFieldNumber : Nat
  needDenseBelow : Bool
  deriving DecidableEq, Repr

/-- `hpb_MtDecoder_ParseModifier` after the modifier was read; the last field is the last one in
`fields`. -/
def applyModifier (d : MtDecoder) (l : Locals) (mod : UInt32) : Except String (MtDecoder × Locals) :=
  match d.fields.getLast? with
  | some f => do
    let f ← modifyField mod f
    return ({ d with fields := d.fields.dropLast ++ [f] }, l)
  | none =>
    if d.extension then errorJmp "Extensions cannot have message modifiers"
    else .ok (d, { l with msgModifiers := mod })

/-- The end of `hpb_MtDecoder_Parse`. -/
def endParse (d : MtDecoder) (l : Locals) : MtDecoder :=
  if l.needDenseBelow then { d with denseBelow := d.fieldCount % 2 ^ 8 } else d

/-- `hpb_MtDecoder_Parse`; it returns the characters it has not read, which only an extension leaves. -/
def parse (d : MtDecoder) (l : Locals) : Nat → List UInt8 → Except String (MtDecoder × List UInt8)
  | _, [] => .ok (d.endParse l, [])
  | skip + 1, _ :: rest => parse d l skip rest
  | 0, ch :: rest =>
    if charValue ch ≤ 73 then do -- 'I'
      if d.extension ∧ d.fields ≠ [] then return (d, ch :: rest)
      else
        let number := (l.lastFieldNumber + 1) % 2 ^ 32
        let (f, subs) ← setField d.platform ch number l.msgModifiers d.subCounts
        parse { d with
            fields := d.fields ++ [f], fieldCount := (d.fieldCount + 1) % 2 ^ 16, subCounts := subs }
          { l with lastFieldNumber := number } 0 rest
    else if 76 ≤ ch ∧ ch ≤ 91 then do -- 'L' to '['
      let (skip, mod) ← decodeBase92Varint 76 91 ch rest
      let (d, l) ← d.applyModifier l mod
      let ext := if l.msgModifiers &&& MessageModifier.isExtendable ≠ 0 then d.ext ||| ExtMode.extendable
        else d.ext
      parse { d with ext } l skip rest
    else if ch = 94 then -- '^'
      if d.extension then errorJmp "Extensions cannot have oneofs."
      else do
        let d ← d.decodeOneofs ⟨indexSentinel, 0, .oneByte, .oneofCase⟩ [] 0 rest
        return (d.endParse l, [])
    else if 95 ≤ ch ∧ ch ≤ 126 then do -- '_' to '~'
      let d := if l.needDenseBelow then { d with denseBelow := d.fieldCount % 2 ^ 8 } else d
      let (skip, n) ← decodeBase92Varint 95 126 ch rest
      parse d { l with
          needDenseBelow := false
          -- the next field will increment it
          lastFieldNumber := (l.lastFieldNumber + n.toNat + (2 ^ 32 - 1)) % 2 ^ 32 } skip rest
    else errorJmp s!"Invalid char: {Char.ofNat ch.toNat}"

/-- The decoder before a message is parsed. -/
def start (platform : Platform) : MtDecoder :=
  ⟨platform, false, [], 0, 0, ExtMode.nonExtendable, ⟨0, 0⟩, [], []⟩

/-- `hpb_MtDecoder_ParseMessage` without the sub-tables. -/
def parseMessage (platform : Platform) (data : List UInt8) : Except String MtDecoder := do
  let (d, _) ← (start platform).parse ⟨0, 0, true⟩ 0 data
  return d

/-- `hpb_MtDecoder_AllocateSubs`: enums come after the messages. -/
def allocateSubs (d : MtDecoder) : MtDecoder :=
  if d.subCounts.subenumCount = 0 then d
  else
    { d with
      fields := (d.fields.take d.fieldCount).map (fun f =>
        if f.descriptortype = .enum then
          { f with submsgIndex := (f.submsgIndex + d.subCounts.submsgCount) % 2 ^ 16 }
        else f) ++ d.fields.drop d.fieldCount }

/-- The sub-tables before they are linked. -/
def subs (d : MtDecoder) : List MiniTableSub :=
  List.replicate d.subCounts.submsgCount .emptyMessage ++
    List.replicate d.subCounts.subenumCount .nullEnum

/-- `hpb_MtDecoder_CompareFields` compares these numbers. -/
def packedKey (item : LayoutItem) : Nat :=
  let ty := match item.type with
    | .oneofCase => 0
    | .oneofField => 1
    | .field => 2
  -- one bit for the type: `hpb_Log2Ceiling(kHpb_LayoutItemType_Max)`
  ((item.rep.bits.toNat <<< 1 ||| ty) <<< 16) ||| item.fieldIndex

/-- The items of all fields that are in no oneof. -/
def fieldItems (fields : List MiniTableField) (n : Nat) : List LayoutItem :=
  (List.range n).filterMap fun i =>
    match fields[i]? with
    | some f => if f.offset ≥ oneofBase then none else some ⟨i, 0, f.rep, .field⟩
    | none => none

/-- `hpb_MtDecoder_SortLayoutItems`. -/
def sortLayoutItems (d : MtDecoder) : List LayoutItem :=
  (d.vec ++ fieldItems d.fields d.fieldCount).mergeSort fun a b => packedKey a ≤ packedKey b

/-- The first pass of `hpb_MtDecoder_AssignHasbits`, from the has-bit `last` on. -/
def assignRequired (last : Nat) : List MiniTableField → List MiniTableField × Nat
  | [] => ([], last)
  | f :: fs =>
    if f.offset = requiredPresence then
      let (fs, n) := assignRequired (last + 1) fs
      ({ f with presence := toInt16 (last + 1 : Nat) } :: fs, n)
    else
      let (fs, n) := assignRequired last fs
      ((if f.offset = noPresence then { f with presence := 0 } else f) :: fs, n)

/-- The second pass. -/
def assignOptional (last : Nat) : List MiniTableField → List MiniTableField × Nat
  | [] => ([], last)
  | f :: fs =>
    if f.offset = hasbitPresence then
      let (fs, n) := assignOptional (last + 1) fs
      ({ f with presence := toInt16 (last + 1 : Nat) } :: fs, n)
    else
      let (fs, n) := assignOptional last fs
      (f :: fs, n)

/-- `hpb_MiniTable_DivideRoundUp`. -/
def divideRoundUp (n d : Nat) : Nat := (n + d - 1) / d

/-- `hpb_MtDecoder_AssignHasbits`: the fields, `required_count` and the bytes that the has-bits take. -/
def assignHasbits (d : MtDecoder) : Except String (List MiniTableField × Nat × Nat) :=
  let (fs, required) := assignRequired 0 (d.fields.take d.fieldCount)
  let requiredCount := required % 2 ^ 8
  if requiredCount > 63 then errorJmp "Too many required fields"
  else
    let (fs, last) := assignOptional required fs
    .ok (fs ++ d.fields.drop d.fieldCount, requiredCount,
      if last = 0 then 0 else divideRoundUp (last + 1) 8 % 2 ^ 16)

/-- `hpb_MtDecoder_Place` for one item after the other, in a message of `size` bytes so far. -/
def place (platform : Platform) (size : Nat) : List LayoutItem → Except String (List LayoutItem × Nat)
  | [] => .ok ([], size)
  | item :: items => do
    let offset := alignUp size (alignOfRep item.rep platform)
    let newSize := offset + sizeOfRep item.rep platform
    if newSize > 65535 then errorJmp "Message size exceeded maximum size of 65535 bytes"
    else
      let (items, size) ← place platform newSize items
      return ({ item with offset } :: items, size)

/-- Writes to the members of a oneof, along the links from the member `i`. There are no more of them
than there are fields, so the fuel is not used up. -/
def walkOneof (write : MiniTableField → MiniTableField) :
    Nat → Nat → List MiniTableField → List MiniTableField
  | 0, _, fields => fields
  | fuel + 1, i, fields =>
    match fields[i]? with
    | none => fields
    | some f =>
      let fields' := fields.set i (write f)
      if f.offset = indexSentinel then fields' else walkOneof write fuel (f.offset - oneofBase) fields'

/-- The case offsets, in `presence`. This comes first: offsets overwrite the links. -/
def assignCase (fields : List MiniTableField) (item : LayoutItem) : List MiniTableField :=
  match item.type with
  | .oneofCase =>
    walkOneof (fun f => { f with presence := toInt16 (-(item.offset : Int) - 1) }) fields.length
      item.fieldIndex fields
  | _ => fields

/-- The offsets of the data. -/
def assignOffset (fields : List MiniTableField) (item : LayoutItem) : List MiniTableField :=
  match item.type with
  | .oneofField =>
    walkOneof (fun f => { f with offset := item.offset }) fields.length item.fieldIndex fields
  | .field =>
    match fields[item.fieldIndex]? with
    | some f => fields.set item.fieldIndex { f with offset := item.offset }
    | none => fields
  | .oneofCase => fields

/-- `hpb_MtDecoder_AssignOffsets`: the fields, and the size before it is aligned. -/
def assignOffsets (platform : Platform) (size : Nat) (items : List LayoutItem)
    (fields : List MiniTableField) : Except String (List MiniTableField × Nat) := do
  let (items, size) ← place platform size items
  return (items.foldl assignOffset (items.foldl assignCase fields), size)

/-- The layout of a parsed message: the fields, `required_count`, and the size before it is aligned. -/
def layout (d : MtDecoder) : Except String (List MiniTableField × Nat × Nat) := do
  let d := d.allocateSubs
  let (fields, requiredCount, size) ← d.assignHasbits
  let (fields, size) ← assignOffsets d.platform size
    (sortLayoutItems { d with fields }) fields
  return (fields, requiredCount, size)

/-- `hpb_MtDecoder_ValidateEntryField`. -/
def validateEntryField (f : MiniTableField) (expected : Nat) : Except String Unit :=
  let name := if expected = 1 then "key" else "val"
  if f.number ≠ expected then
    errorJmp s!"map {name} did not have expected number ({expected} vs {f.number})"
  else if f.isRepeatedOrMap then errorJmp s!"map {name} cannot be repeated or map, or be in oneof"
  else
    let notOk : List FieldType :=
      if expected = 1 then [.float, .double, .message, .group, .bytes, .enum] else [.group]
    if notOk.contains f.type then
      errorJmp s!"map {name} cannot have type {f.descriptortype.number}"
    else .ok ()

/-- The table of a message. -/
def messageTable (d : MtDecoder) : Except String MiniTable := do
  let (fields, requiredCount, size) ← d.layout
  return { subs := d.subs, fields, size := alignUp size 8 % 2 ^ 16, fieldCount := d.fieldCount,
           ext := d.ext, denseBelow := d.denseBelow, tableMask := 255, requiredCount }

/-- `hpb_MtDecoder_ParseMap` after the message was parsed. Map entries have a pre-determined layout. -/
def mapTable (d : MtDecoder) : Except String MiniTable := do
  let d := d.allocateSubs
  let (fields, requiredCount, _) ← d.assignHasbits
  if d.fieldCount ≠ 2 then errorJmp s!"{d.fieldCount} fields in map"
  else
    match fields with
    | key :: val :: rest =>
      if d.vec.any (·.type = .oneofCase) then errorJmp "Map entry cannot have oneof"
      else
        validateEntryField key 1
        validateEntryField val 2
        let kvSize := match d.platform with
          | .bits32 => 8
          | .bits64 => 16
        return { subs := d.subs
                 fields := { key with offset := 8 } :: { val with offset := 8 + kvSize } :: rest
                 size := alignUp (8 + kvSize + kvSize) 8, fieldCount := d.fieldCount,
                 ext := d.ext ||| ExtMode.isMapEntry, denseBelow := d.denseBelow, tableMask := 255,
                 requiredCount }
    | _ => errorJmp s!"{d.fieldCount} fields in map" -- not reached

/-- The table of an empty message, or of a message set. -/
def emptyTable (ext : Nat) : MiniTable :=
  { subs := [], fields := [], size := 0, fieldCount := 0, ext, denseBelow := 0, tableMask := 255,
    requiredCount := 0 }

/-- `hpb_MiniTable_Build`. -/
def build (platform : Platform) : List UInt8 → Except String MiniTable
  | [] => .ok (emptyTable ExtMode.nonExtendable)
  | 37 :: data => do (← parseMessage platform data).mapTable -- '%'
  | 36 :: data => do (← parseMessage platform data).messageTable -- '$'
  | 38 :: data => -- '&'
    if data.length > 0 then errorJmp s!"Invalid message set encode length: {data.length}"
    else .ok (emptyTable ExtMode.isMessageSet)
  | vers :: _ => errorJmp s!"Invalid message version: {Char.ofNat vers.toNat}"

end MtDecoder

end Hpb
