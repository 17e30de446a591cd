import Hpb.Lib.Metered
import Hpb.Message.Message
import Hpb.Wire.Varint

/-!
# The decoder (`hpb/wire/decode.c`)

The parser without fast tables. Its input is the bytes `buf` of one call of `hpb_Decode`; a pointer is a
position in them, and the limit that was pushed last is an argument. Reads past the last byte give zeros,
as they do from the patch buffer. Allocation does not fail.

`Metered` records how a run goes: the levels of nesting, of which one is a sub-message, a group, a map
entry, an unknown group or an item of a message set, and the events `DecodeEvent`. The code keeps
`missing_required` of them; the others are not part of its state.

The recursion is open: `Decoder.recurse` parses the messages one level below and `Decoder.nested` is
`hpb_Decode` itself. `recurseSubMessage` closes the first over the depth that is left, `decodeAt` the
second.
-/

namespace Hpb

/-- `hpb_DecodeStatus` of a failed parse. -/
inductive DecodeStatus where
  | malformed | outOfMemory | badUtf8 | maxDepthExceeded | missingRequired | unlinkedSubMessage
  deriving DecidableEq, Repr

/-- What a run may do on its way. -/
inductive DecodeEvent where
  /-- `d->missing_required` is set. -/
  | missingRequired
  /-- A level is entered that is not charged to `d->depth`. -/
  | uncharged
  deriving DecidableEq, Repr

/-- A run of a part of the parser. -/
abbrev DecodeM := Metered DecodeEvent DecodeStatus

/-- What the parser is given with every call, and the code of other files that it calls. -/
structure DecodeEnv where
  schema : Schema
  extreg : Option ExtensionRegistry
  /-- `_hpb_Decoder_VerifyUtf8Inline`. -/
  verifyUtf8 : List UInt8 → Bool
  /-- `hpb_Encode` without options. -/
  encode : Message → TableRef → Option (List UInt8)

/-- The options of `hpb_Decode`; a depth of 0 stands for the default. -/
structure DecodeOptions where
  checkRequired : Bool
  allowUnlinked : Bool
  maxDepth : Nat
  deriving DecidableEq, Repr

/-- `kHpb_WireFormat_DefaultDepthLimit`. -/
def defaultDepthLimit : Nat := 100

/-- The depth that `hpb_Decode` starts from. -/
def DecodeOptions.depthLimit (opts : DecodeOptions) : Nat :=
  if opts.maxDepth = 0 then defaultDepthLimit else opts.maxDepth

/-- `hpb_WireType`. -/
inductive WireType where
  | varint | fixed64 | delimited | startGroup | endGroup | fixed32
  deriving DecidableEq, Repr

namespace WireType

/-- The wire type in the low bits of a tag. -/
def ofTag (tag : UInt32) : Option WireType :=
  match tag.toNat % 8 with
  | 0 => some varint
  | 1 => some fixed64
  | 2 => some delimited
  | 3 => some startGroup
  | 4 => some endGroup
  | 5 => some fixed32
  | _ => none

def bits : WireType → UInt32
  | varint => 0
  | fixed64 => 1
  | delimited => 2
  | startGroup => 3
  | endGroup => 4
  | fixed32 => 5

end WireType

/-- `(field_number << 3) | wire_type`. -/
def makeTag (number : Nat) (w : WireType) : UInt32 := (UInt32.ofNat number <<< 3) ||| w.bits

/-- The action for a wire type and a field type. -/
inductive DecodeOp where
  | unknownField | messageSetItem
  | scalar1Byte | scalar4Byte | scalar8Byte | enum
  | string | bytes | subMessage
  | fixPck (lg2 : Nat) | varPck (lg2 : Nat) | packedEnum
  deriving DecidableEq, Repr

/-- What `_hpb_Decoder_FindField` returns: the fake fields `none` and `item`, a field of the table or
the field of an extension. -/
inductive FoundField where
  | none
  | messageSetItem
  | field (f : MiniTableField)
  | extension (id : Nat)
  deriving DecidableEq, Repr

/-- The bytes from a position on. -/
def bytesFrom (buf : List UInt8) (pos : Nat) : Nat → UInt8 := fun i => buf.getD (pos + i) 0

/-- `hpb_Decoder` while one call of `hpb_Decode` parses its input. -/
structure Decoder where
  env : DecodeEnv
  opts : DecodeOptions
  buf : List UInt8
  /-- `_hpb_Decoder_RecurseSubMessage` up to its check of the end group: with the limit and the position,
  the layout (none for an unknown group) and the message. It returns the position after the message, the
  message and `d->end_group`. -/
  recurse : Nat → Nat → Option TableRef → Message → DecodeM (Nat × Message × Option Nat)
  /-- `hpb_Decode` of bytes into a new message of a table. -/
  nested : List UInt8 → TableRef → DecodeM Message

namespace Decoder

section

variable (d : Decoder)

/-- The bytes at a pointer. -/
def mem (pos : Nat) : Nat → UInt8 := bytesFrom d.buf pos

/-- The `size` bytes at a position. -/
def slice (pos size : Nat) : List UInt8 := (d.buf.drop pos).take size

/-- `_hpb_Decoder_IsDone`. -/
def isDone (limit pos : Nat) : DecodeM Bool :=
  if pos < limit then pure false else if pos = limit then pure true else throw .malformed

/-- `_hpb_Decoder_DecodeVarint`. -/
def decodeVarintAt (pos : Nat) : DecodeM (Nat × UInt64) :=
  match decodeVarint (d.mem pos) with
  | some (n, val) => pure (pos + n, val)
  | none => throw .malformed

/-- `_hpb_Decoder_DecodeTag`. -/
def decodeTagAt (pos : Nat) : DecodeM (Nat × UInt32) :=
  match decodeTag (d.mem pos) with
  | some (n, tag) => pure (pos + n, tag)
  | none => throw .malformed

/-- `hpb_Decoder_DecodeSize`. -/
def decodeSizeAt (limit pos : Nat) : DecodeM (Nat × Nat) :=
  match decodeSize (fun n size => decide (pos + n + size ≤ limit)) (d.mem pos) with
  | some (n, size) => pure (pos + n, size.toNat)
  | none => throw .malformed

end

/-- The number in the `n` bytes from `i` on, the least significant byte first. -/
def littleEndian (mem : Nat → UInt8) : Nat → Nat → UInt64
  | 0, _ => 0
  | n + 1, i => (mem i).toUInt64 ||| littleEndian mem n (i + 1) <<< 8

/-- The `1 << lg2` bytes of a `wireval` that are copied. -/
def lowBytes (lg2 : Nat) (val : UInt64) : UInt64 :=
  if lg2 = 0 then val &&& 255 else if lg2 = 2 then val &&& 4294967295 else val

/-- `_hpb_Decoder_Munge`. -/
def munge (type : FieldType) (val : UInt64) : UInt64 :=
  match type with
  | .bool => if val = 0 then 0 else 1
  | .sint32 =>
    let n := val.toUInt32
    ((n >>> 1) ^^^ (0 - (n &&& 1))).toUInt64
  | .sint64 => (val >>> 1) ^^^ (0 - (val &&& 1))
  | _ => val

/-- `hpb_Decoder_EncodeVarint32`. -/
def encodeVarint32 (val : UInt32) : List UInt8 := putSeptets 5 val.toUInt64

/-- `_hpb_Decoder_AddUnknownVarints`. -/
def addUnknownVarints (msg : Message) (val1 val2 : UInt32) : Message :=
  msg.addUnknown (encodeVarint32 val1 ++ encodeVarint32 val2)

/-- The walk back over a varint that ends at a position: `while (start[-1] & 0x80) start--`. -/
def skipContinued (buf : List UInt8) : Nat → Nat
  | 0 => 0
  | pos + 1 => if buf.getD pos 0 &&& 128 ≠ 0 then skipContinued buf pos else pos + 1

/-- `_hpb_Decoder_ReverseSkipVarint`, with the bits that were seen so far. -/
def reverseSkipVarint (buf : List UInt8) (val : UInt32) : Nat → UInt32 → Nat
  | 0, _ => 0
  | pos + 1, seen =>
    let seen := (seen <<< 7) ||| (buf.getD pos 0 &&& 127).toUInt32
    if seen = val then pos else reverseSkipVarint buf val pos seen

/-- The start of the field whose tag and value (for a delimited field, its size) end at a position. -/
def fieldStart (buf : List UInt8) (number : Nat) (wireType : WireType) (pos : Nat) : Nat :=
  let start := match wireType with
    | .varint | .delimited => skipContinued buf (pos - 1)
    | .fixed32 => pos - 4
    | .fixed64 => pos - 8
    | _ => pos
  reverseSkipVarint buf (makeTag number wireType) start 0

/-- `_hpb_Decoder_GetVarintOp` for a field. -/
def varintOp : FieldType → DecodeOp
  | .int64 | .uint64 | .sint64 => .scalar8Byte
  | .int32 | .uint32 | .sint32 => .scalar4Byte
  | .bool => .scalar1Byte
  | .enum => .enum
  | _ => .unknownField

/-- `kDelimitedOps` for a field that is not repeated. -/
def delimitedOp : FieldType → DecodeOp
  | .string => .string
  | .message => .subMessage
  | .bytes => .bytes
  | _ => .unknownField

/-- `kDelimitedOps` from `kRepeatedBase` on. -/
def repeatedDelimitedOp : FieldType → DecodeOp
  | .double | .fixed64 | .sfixed64 => .fixPck 3
  | .float | .fixed32 | .sfixed32 => .fixPck 2
  | .int64 | .uint64 | .sint64 => .varPck 3
  | .int32 | .uint32 | .sint32 => .varPck 2
  | .bool => .varPck 0
  | .string => .string
  | .group | .message => .subMessage
  | .bytes => .bytes
  | .enum => .packedEnum

/-- `kFixed32OkMask`. -/
def fixed32Ok : FieldType → Bool
  | .float | .fixed32 | .sfixed32 => true
  | _ => false

/-- `kFixed64OkMask`. -/
def fixed64Ok : FieldType → Bool
  | .double | .fixed64 | .sfixed64 => true
  | _ => false

section

variable (d : Decoder)

/-- `_hpb_Decoder_VerifyUtf8`. -/
def verifyUtf8 (bytes : List UInt8) : DecodeM Unit :=
  if d.env.verifyUtf8 bytes then pure () else throw .badUtf8

/-- `_hpb_Decoder_NewSubMessage`; the result is whether the message is of the empty type. -/
def newSubMessage (sub : MiniTableSub) : DecodeM Bool :=
  if sub.tableRef = .empty ∧ ¬d.opts.allowUnlinked then throw .unlinkedSubMessage
  else pure (decide (sub.tableRef = .empty))

/-- `_hpb_Decoder_ReuseSubMessage`. A message of the empty type is parsed again if its field is linked
now. -/
def reuseSubMessage (sub : MiniTableSub) (isEmpty : Bool) (m : Message) : DecodeM (Bool × Message) :=
  if ¬isEmpty ∨ sub.tableRef = .empty then pure (isEmpty, m)
  else do
    let isEmpty ← d.newSubMessage sub
    Metered.mark .uncharged
    let promoted ← (d.nested m.unknown sub.tableRef).level
    pure (isEmpty, promoted)

/-- `_hpb_Decoder_DecodeSubMessage`. -/
def decodeSubMessage (sub : MiniTableSub) (size pos : Nat) (msg : Message) : DecodeM (Nat × Message) := do
  let (pos, msg, endGroup) ← d.recurse (pos + size) pos (some sub.tableRef) msg
  if endGroup = none then pure (pos, msg) else throw .malformed

/-- `_hpb_Decoder_DecodeGroup`. -/
def decodeGroup (layout : Option TableRef) (number limit pos : Nat) (msg : Message) :
    DecodeM (Nat × Message) := do
  if ← isDone limit pos then throw .malformed
  else
    let (pos, msg, endGroup) ← d.recurse limit pos layout msg
    if endGroup = some number then pure (pos, msg) else throw .malformed

/-- `_hpb_Decoder_DecodeUnknownGroup`. -/
def decodeUnknownGroup (number limit pos : Nat) : DecodeM Nat := do
  let (pos, _) ← d.decodeGroup none number limit pos Message.new
  pure pos

/-- The bytes of a sub-message or group field go to `msg`. -/
def decodeSubField (sub : MiniTableSub) (field : MiniTableField) (size limit pos : Nat) (msg : Message) :
    DecodeM (Nat × Message) :=
  if field.descriptortype = .group then
    d.decodeGroup (some sub.tableRef) field.number limit pos msg
  else d.decodeSubMessage sub size pos msg

/-- `_hpb_Decoder_CheckEnum` without the unknown field. -/
def checkEnum (sub : MiniTableSub) (val : UInt64) : Bool :=
  let e := d.env.schema.subenum sub
  let v := val.toUInt32.toNat
  decide (e.checkEnumValueFast v = .valueIsInEnum) || e.checkEnumValueSlow v

/-- The unknown field that `_hpb_Decoder_CheckEnumSlow` adds. -/
def addUnknownEnum (field : MiniTableField) (val : UInt64) (msg : Message) : Message :=
  addUnknownVarints msg (makeTag field.number .varint) val.toUInt32

/-- The loop over the elements of a packed field whose elements are varints. Each element has a byte, so
the fuel of one more than the bytes is not used up. -/
def decodePacked (add : UInt64 → Message × List Slot → Message × List Slot) (limit : Nat) :
    Nat → Nat → Message × List Slot → DecodeM (Nat × Message × List Slot)
  | 0, _, _ => throw .malformed
  | fuel + 1, pos, acc => do
    if ← isDone limit pos then pure (pos, acc)
    else
      let (pos, val) ← d.decodeVarintAt pos
      decodePacked add limit fuel pos (add val acc)

/-- The element that `_hpb_Decoder_DecodeVarintPacked` appends. -/
def addVarint (field : MiniTableField) (lg2 : Nat) (val : UInt64) (acc : Message × List Slot) :
    Message × List Slot :=
  (acc.1, acc.2 ++ [.ofScalar (lowBytes lg2 (munge field.descriptortype val))])

/-- The element or the unknown field that `_hpb_Decoder_DecodeEnumPacked` appends. -/
def addEnum (sub : MiniTableSub) (field : MiniTableField) (val : UInt64) (acc : Message × List Slot) :
    Message × List Slot :=
  if d.checkEnum sub val then (acc.1, acc.2 ++ [.ofScalar (lowBytes 2 val)])
  else (addUnknownEnum field val acc.1, acc.2)

/-- The elements that `_hpb_Decoder_DecodeFixedPacked` copies. -/
def fixedElems (lg2 pos count : Nat) : List Slot :=
  (List.range count).map fun i => .ofScalar (littleEndian (d.mem pos) (2 ^ lg2) (i * 2 ^ lg2))

/-- `_hpb_Decoder_DecodeToArray`, for a field whose array is in `slot`. Unknown enum values go to `msg`. -/
def decodeToArray (sub : MiniTableSub) (field : MiniTableField) (op : DecodeOp) (val : UInt64)
    (limit pos : Nat) (msg : Message) (slot : Slot) : DecodeM (Nat × Message × Slot) :=
  match op with
  | .scalar1Byte => pure (pos, msg, .arr (slot.elems ++ [.ofScalar (lowBytes 0 val)]))
  | .scalar4Byte => pure (pos, msg, .arr (slot.elems ++ [.ofScalar (lowBytes 2 val)]))
  | .scalar8Byte => pure (pos, msg, .arr (slot.elems ++ [.ofScalar val]))
  | .string => do
    d.verifyUtf8 (d.slice pos val.toNat)
    pure (pos + val.toNat, msg, .arr (slot.elems ++ [.ofStr (d.slice pos val.toNat)]))
  | .bytes => pure (pos + val.toNat, msg, .arr (slot.elems ++ [.ofStr (d.slice pos val.toNat)]))
  | .subMessage => do
    let isEmpty ← d.newSubMessage sub
    let (pos, sm) ← d.decodeSubField sub field val.toNat limit pos Message.new
    pure (pos, msg, .arr (slot.elems ++ [.msg isEmpty sm]))
  | .fixPck lg2 =>
    if val.toNat % 2 ^ lg2 ≠ 0 then throw .malformed
    else
      pure (pos + val.toNat, msg, .arr (slot.elems ++ d.fixedElems lg2 pos (val.toNat / 2 ^ lg2)))
  | .varPck lg2 => do
    let (pos, msg, elems) ← d.decodePacked (addVarint field lg2) (pos + val.toNat) (val.toNat + 1) pos
      (msg, slot.elems)
    pure (pos, msg, .arr elems)
  | .enum =>
    if d.checkEnum sub val then pure (pos, msg, .arr (slot.elems ++ [.ofScalar (lowBytes 2 val)]))
    else pure (pos, addUnknownEnum field val msg, .arr slot.elems)
  | .packedEnum => do
    let (pos, msg, elems) ← d.decodePacked (d.addEnum sub field) (pos + val.toNat) (val.toNat + 1) pos
      (msg, slot.elems)
    pure (pos, msg, .arr elems)
  | .unknownField | .messageSetItem => pure (pos, msg, slot)

/-- `_hpb_map_tokey` of the key of an entry. -/
def mapKey (type : FieldType) (slot : Slot) : MapKey :=
  if type = .string ∨ type = .bytes then .str slot.strVal else .scalar slot.scalarVal

/-- The value of a map entry before it is parsed. -/
def mapEntryValue (entry : MiniTable) (val : MiniTableField) : DecodeM Slot :=
  if val.isSubMessage then do
    let isEmpty ← d.newSubMessage (entry.sub val)
    pure (.msg isEmpty Message.new)
  else pure .zero

/-- `_hpb_Decoder_DecodeToMap`, for a field whose map is in `slot`. -/
def decodeToMap (sub : MiniTableSub) (field : MiniTableField) (size pos : Nat) (msg : Message)
    (slot : Slot) : DecodeM (Nat × Message × Slot) :=
  let entry := d.env.schema.table sub.tableRef
  match entry.fields with
  | key :: val :: _ => do
    let value ← d.mapEntryValue entry val
    let (pos, ent) ← d.decodeSubMessage sub size pos (Message.new.setData val.offset value)
    if ent.unknown ≠ [] then
      match d.env.encode ent sub.tableRef with
      | none => throw .outOfMemory
      | some bytes =>
        let msg := addUnknownVarints msg (makeTag field.number .delimited) (UInt32.ofNat bytes.length)
        pure (pos, msg.addUnknown bytes, .map slot.entries)
    else
      pure (pos, msg, .map (mapInsert slot.entries (mapKey key.descriptortype (ent.data key.offset))
        (ent.data val.offset)))
  | _ => throw .malformed

/-- The presence that `_hpb_Decoder_DecodeToSubMessage` sets, and the field before the value is stored. -/
def setPresence (field : MiniTableField) (op : DecodeOp) (msg : Message) (slot : Slot) : Message × Slot :=
  if 0 < field.presence then (msg.setHas field.presence.toNat, slot)
  else if field.presence < 0 then
    let oneof := (-field.presence - 1).toNat
    (msg.setOneofCase oneof field.number,
      if op = .subMessage ∧ msg.oneofCase oneof ≠ field.number then .zero else slot)
  else (msg, slot)

/-- The sub-message of a field that is in `slot`, or a new one. -/
def subMessageOf (sub : MiniTableSub) (slot : Slot) : DecodeM (Bool × Message) :=
  match slot with
  | .msg isEmpty m => d.reuseSubMessage sub isEmpty m
  | _ => do
    let isEmpty ← d.newSubMessage sub
    pure (isEmpty, Message.new)

/-- The value that `_hpb_Decoder_DecodeToSubMessage` stores. -/
def storeValue (sub : MiniTableSub) (field : MiniTableField) (op : DecodeOp) (val : UInt64)
    (limit pos : Nat) (slot : Slot) : DecodeM (Nat × Slot) :=
  match op with
  | .subMessage => do
    let (isEmpty, sm) ← d.subMessageOf sub slot
    let (pos, sm) ← d.decodeSubField sub field val.toNat limit pos sm
    pure (pos, .msg isEmpty sm)
  | .string => do
    d.verifyUtf8 (d.slice pos val.toNat)
    pure (pos + val.toNat, .ofStr (d.slice pos val.toNat))
  | .bytes => pure (pos + val.toNat, .ofStr (d.slice pos val.toNat))
  | .scalar8Byte => pure (pos, .ofScalar val)
  | .enum | .scalar4Byte => pure (pos, .ofScalar (lowBytes 2 val))
  | .scalar1Byte => pure (pos, .ofScalar (lowBytes 0 val))
  | _ => pure (pos, slot)

/-- `_hpb_Decoder_DecodeToSubMessage`, for a field in `slot`. -/
def decodeToSubMessage (sub : MiniTableSub) (field : MiniTableField) (op : DecodeOp) (val : UInt64)
    (limit pos : Nat) (msg : Message) (slot : Slot) : DecodeM (Nat × Message × Slot) :=
  if op = .enum ∧ ¬d.checkEnum sub val then pure (pos, addUnknownEnum field val msg, slot)
  else do
    let (msg, slot) := setPresence field op msg slot
    let (pos, slot) ← d.storeValue sub field op val limit pos slot
    pure (pos, msg, slot)

/-- The part of `_hpb_Decoder_DecodeKnownField` after the field's place is found. -/
def decodeToSlot (sub : MiniTableSub) (field : MiniTableField) (op : DecodeOp) (val : UInt64)
    (limit pos : Nat) (msg : Message) (slot : Slot) : DecodeM (Nat × Message × Slot) :=
  if field.fieldMode = FieldMode.array then d.decodeToArray sub field op val limit pos msg slot
  else if field.fieldMode = FieldMode.map then d.decodeToMap sub field val.toNat pos msg slot
  else d.decodeToSubMessage sub field op val limit pos msg slot

/-- `_hpb_Decoder_DecodeKnownField`. -/
def decodeKnownField (layout : TableRef) (found : FoundField) (op : DecodeOp) (val : UInt64)
    (limit pos : Nat) (msg : Message) : DecodeM (Nat × Message) :=
  match found with
  | .field f => do
    let (pos, msg, slot) ← d.decodeToSlot ((d.env.schema.table layout).sub f) f op val limit pos msg
      (msg.data f.offset)
    pure (pos, msg.setData f.offset slot)
  | .extension id => do
    let e := d.env.schema.exts id
    let (pos, msg, slot) ← d.decodeToSlot e.sub e.field op val limit pos msg (msg.ext id)
    pure (pos, msg.setExt id slot)
  | _ => pure (pos, msg)

/-- The end of the value of an unknown field. -/
def unknownFieldEnd (number : Nat) (wireType : WireType) (val : UInt64) (limit pos : Nat) : DecodeM Nat :=
  if wireType = .startGroup then d.decodeUnknownGroup number limit pos
  else if wireType = .delimited then pure (pos + val.toNat)
  else pure pos

/-- `_hpb_Decoder_DecodeUnknownField`. There is no message in an unknown group. -/
def decodeUnknownField (layout : Option TableRef) (number : Nat) (wireType : WireType) (val : UInt64)
    (limit pos : Nat) (msg : Message) : DecodeM (Nat × Message) :=
  if number = 0 then throw .malformed
  else do
    let stop ← d.unknownFieldEnd number wireType val limit pos
    if layout.isSome then
      let start := fieldStart d.buf number wireType pos
      pure (stop, msg.addUnknown (d.slice start (stop - start)))
    else pure (stop, msg)

/-- `hpb_Decoder_SkipField`. -/
def skipField (tag : UInt32) (limit pos : Nat) : DecodeM Nat :=
  match WireType.ofTag tag with
  | some .varint => do
    let (pos, _) ← d.decodeVarintAt pos
    pure pos
  | some .fixed64 => pure (pos + 8)
  | some .fixed32 => pure (pos + 4)
  | some .delimited => do
    let (pos, size) ← d.decodeSizeAt limit pos
    pure (pos + size)
  | some .startGroup => d.decodeUnknownGroup (tag.toNat / 8) limit pos
  | _ => throw .malformed

/-- The field numbers of `hpb/wire/internal/common.h`. -/
def msgSetItem : Nat := 1
def msgSetTypeId : Nat := 2
def msgSetMessage : Nat := 3

def startItemTag : UInt32 := makeTag msgSetItem .startGroup
def endItemTag : UInt32 := makeTag msgSetItem .endGroup
def typeIdTag : UInt32 := makeTag msgSetTypeId .varint
def messageTag : UInt32 := makeTag msgSetMessage .delimited

/-- `hpb_Decoder_AddKnownMessageSetItem`. -/
def addKnownMessageSetItem (id : Nat) (data : List UInt8) (msg : Message) : DecodeM Message := do
  let sub := (d.env.schema.exts id).sub
  let isEmpty ← d.newSubMessage sub
  let m ← d.nested data sub.tableRef
  pure (msg.setExt id (.msg isEmpty m))

/-- `hpb_Decoder_AddUnknownMessageSetItem`. -/
def addUnknownMessageSetItem (typeId : UInt32) (data : List UInt8) (msg : Message) : Message :=
  msg.addUnknown (encodeVarint32 startItemTag ++ encodeVarint32 typeIdTag ++ encodeVarint32 typeId ++
    encodeVarint32 messageTag ++ encodeVarint32 (UInt32.ofNat data.length) ++ data ++
    encodeVarint32 endItemTag)

/-- `hpb_Decoder_AddMessageSetItem`. -/
def addMessageSetItem (t : TableRef) (typeId : UInt32) (data : List UInt8) (msg : Message) :
    DecodeM Message :=
  match d.env.extreg.bind fun reg => reg t typeId.toNat with
  | some id => d.addKnownMessageSetItem id data msg
  | none => pure (addUnknownMessageSetItem typeId data msg)

/-- `hpb_Decoder_DecodeMessageSetItem`, with the type id and the payload that were seen. Each field has a
byte, so the fuel of one more than the bytes is not used up. -/
def decodeMessageSetItem (t : TableRef) (limit : Nat) :
    Nat → Nat → Option UInt32 → Option (List UInt8) → Message → DecodeM (Nat × Message)
  | 0, _, _, _, _ => throw .malformed
  | fuel + 1, pos, typeId, payload, msg => do
    if ← isDone limit pos then throw .malformed
    else
      let (pos, tag) ← d.decodeTagAt pos
      if tag = endItemTag then pure (pos, msg)
      else if tag = typeIdTag then
        let (pos, tmp) ← d.decodeVarintAt pos
        match typeId, payload with
        | some _, _ => decodeMessageSetItem t limit fuel pos typeId payload msg
        | none, none => decodeMessageSetItem t limit fuel pos (some tmp.toUInt32) none msg
        | none, some data =>
          let msg ← d.addMessageSetItem t tmp.toUInt32 data msg
          decodeMessageSetItem t limit fuel pos (some tmp.toUInt32) payload msg
      else if tag = messageTag then
        let (pos, size) ← d.decodeSizeAt limit pos
        let data := d.slice pos size
        match payload, typeId with
        | some _, _ => decodeMessageSetItem t limit fuel (pos + size) typeId payload msg
        | none, none => decodeMessageSetItem t limit fuel (pos + size) none (some data) msg
        | none, some id =>
          let msg ← d.addMessageSetItem t id data msg
          decodeMessageSetItem t limit fuel (pos + size) typeId (some data) msg
      else
        let pos ← d.skipField tag limit pos
        decodeMessageSetItem t limit fuel pos typeId payload msg

end

/-- Whether the field at an index has a number. -/
def hasNumber (fields : List MiniTableField) (number i : Nat) : Bool :=
  match fields[i]? with
  | some f => f.number == number
  | none => false

/-- The linear search of `_hpb_Decoder_FindField`, from the last field on and then from the dense ones. -/
def searchFrom (t : MiniTable) (number last : Nat) : Option Nat :=
  if t.denseBelow < t.fieldCount then
    match (List.range' last (t.fieldCount - last)).find? (hasNumber t.fields number) with
    | some i => some i
    | none => (List.range' t.denseBelow (last - t.denseBelow)).find? (hasNumber t.fields number)
  else none

/-- The index of a field in the table, as `_hpb_Decoder_FindField` looks for it. -/
def fieldIndex (t : MiniTable) (number last : Nat) : Option Nat :=
  -- 0 wraps to `SIZE_MAX`
  if number ≠ 0 ∧ number - 1 < t.denseBelow then some (number - 1) else searchFrom t number last

/-- The end of `_hpb_Decoder_FindField`, when the table has no such field. -/
def findExtension (env : DecodeEnv) (layout : TableRef) (number : Nat) : FoundField :=
  match env.extreg with
  | none => .none
  | some reg =>
    if (env.schema.table layout).ext = ExtMode.extendable then
      match reg layout number with
      | some id => .extension id
      | none => .none
    else if (env.schema.table layout).ext = ExtMode.isMessageSet ∧ number = msgSetItem then
      .messageSetItem
    else .none

/-- `_hpb_Decoder_FindField`, with `*last_field_index`. -/
def findField (env : DecodeEnv) (layout : Option TableRef) (number last : Nat) : FoundField × Nat :=
  match layout with
  | none => (.none, last)
  | some layout =>
    match fieldIndex (env.schema.table layout) number last with
    | some i =>
      match (env.schema.table layout).fields[i]? with
      | some f => (.field f, i)
      | none => (.none, i)
    | none => (findExtension env layout number, last)

/-- The field that was found. -/
def foundField (env : DecodeEnv) : FoundField → Option MiniTableField
  | .field f => some f
  | .extension id => some (env.schema.exts id).field
  | _ => none

section

variable (d : Decoder)

/-- `_hpb_Decoder_CheckUnlinked` for the op of a sub-message. -/
def checkUnlinked (layout : Option TableRef) (found : FoundField) : DecodeOp :=
  match found, layout with
  | .field f, some layout =>
    if d.opts.allowUnlinked ∨ ((d.env.schema.table layout).sub f).tableRef ≠ .empty then .subMessage
    else .unknownField
  | _, _ => .subMessage

/-- `_hpb_Decoder_GetDelimitedOp`. -/
def getDelimitedOp (layout : Option TableRef) (found : FoundField) : DecodeOp :=
  match foundField d.env found with
  | none => .unknownField
  | some f =>
    let op := if f.fieldMode = FieldMode.array then repeatedDelimitedOp f.descriptortype
      else delimitedOp f.descriptortype
    if op = .subMessage then d.checkUnlinked layout found else op

/-- `_hpb_Decoder_DecodeWireValue`: the position, the value and the op. -/
def decodeWireValue (layout : Option TableRef) (found : FoundField) (wireType : Option WireType)
    (limit pos : Nat) : DecodeM (Nat × UInt64 × DecodeOp) :=
  let type := (foundField d.env found).map (·.descriptortype)
  match wireType with
  | some .varint => do
    let (pos, val) ← d.decodeVarintAt pos
    match type with
    | some t => pure (pos, munge t val, varintOp t)
    | none => pure (pos, val, .unknownField)
  | some .fixed32 =>
    pure (pos + 4, littleEndian (d.mem pos) 4 0,
      if type.any fixed32Ok then .scalar4Byte else .unknownField)
  | some .fixed64 =>
    pure (pos + 8, littleEndian (d.mem pos) 8 0,
      if type.any fixed64Ok then .scalar8Byte else .unknownField)
  | some .delimited => do
    let (pos, size) ← d.decodeSizeAt limit pos
    pure (pos, UInt64.ofNat size, d.getDelimitedOp layout found)
  | some .startGroup =>
    let op := match found with
      | .messageSetItem => .messageSetItem
      | _ => if type = some .group then d.checkUnlinked layout found else .unknownField
    pure (pos, UInt64.ofNat ((foundField d.env found).elim 0 (·.number)), op)
  | _ => throw .malformed

/-- The dispatch on the op in the loop of `_hpb_Decoder_DecodeMessage`. -/
def decodeValue (layout : Option TableRef) (found : FoundField) (tag : UInt32) (op : DecodeOp)
    (val : UInt64) (limit pos : Nat) (msg : Message) : DecodeM (Nat × Message) :=
  match op, layout, WireType.ofTag tag with
  | .unknownField, _, some wireType =>
    d.decodeUnknownField layout (tag.toNat / 8) wireType val limit pos msg
  | .messageSetItem, some t, _ => do
    Metered.mark .uncharged
    (d.decodeMessageSetItem t limit (limit - pos + 1) pos none none msg).level
  | _, some t, _ => d.decodeKnownField t found op val limit pos msg
  | _, none, _ => pure (pos, msg)

/-- The part of the loop of `_hpb_Decoder_DecodeMessage` after the tag of a field. -/
def decodeField (layout : Option TableRef) (tag : UInt32) (limit pos last : Nat) (msg : Message) :
    DecodeM (Nat × Nat × Message) := do
  let found := findField d.env layout (tag.toNat / 8) last
  let (pos, val, op) ← d.decodeWireValue layout found.1 (WireType.ofTag tag) limit pos
  let (pos, msg) ← d.decodeValue layout found.1 tag op val limit pos msg
  pure (pos, found.2, msg)

/-- `_hpb_Decoder_CheckRequired`, if the layout has required fields. Their has-bits are the first ones. -/
def checkRequired (layout : Option TableRef) (msg : Message) : DecodeM Unit :=
  let required := layout.elim 0 fun t => (d.env.schema.table t).requiredCount
  if d.opts.checkRequired ∧ (List.range required).any (fun i => !msg.hasbits (i + 1)) then
    Metered.mark .missingRequired
  else pure ()

/-- The loop of `_hpb_Decoder_DecodeMessage`. Each field has a byte, so the fuel of one more than the
bytes is not used up. -/
def decodeFields (layout : Option TableRef) (limit : Nat) :
    Nat → Nat → Nat → Message → DecodeM (Nat × Message × Option Nat)
  | 0, _, _, _ => throw .malformed
  | fuel + 1, pos, last, msg => do
    if ← isDone limit pos then
      d.checkRequired layout msg
      pure (pos, msg, none)
    else
      let (pos, tag) ← d.decodeTagAt pos
      if WireType.ofTag tag = some .endGroup then pure (pos, msg, some (tag.toNat / 8))
      else
        let (pos, last, msg) ← d.decodeField layout tag limit pos last msg
        decodeFields layout limit fuel pos last msg

/-- `_hpb_Decoder_DecodeMessage`. -/
def decodeMessage (limit pos : Nat) (layout : Option TableRef) (msg : Message) :
    DecodeM (Nat × Message × Option Nat) :=
  d.decodeFields layout limit (limit - pos + 1) pos 0 msg

/-- `_hpb_Decoder_RecurseSubMessage` up to its check of the end group, with the depth that is left. -/
def recurseSubMessage : Nat → Nat → Nat → Option TableRef → Message → DecodeM (Nat × Message × Option Nat)
  | 0 => fun _ _ _ _ => throw .maxDepthExceeded
  | depth + 1 => fun limit pos layout msg =>
    (decodeMessage { d with recurse := recurseSubMessage depth } limit pos layout msg).level

/-- The decoder with a depth that is left. -/
def withDepth (depth : Nat) : Decoder := { d with recurse := d.recurseSubMessage depth }

/-- `_hpb_Decoder_DecodeTop`. -/
def decodeTop (table : TableRef) (msg : Message) : DecodeM Message :=
  let run := d.decodeMessage d.buf.length 0 (some table) msg
  do
    let (_, msg, endGroup) ← run
    if endGroup ≠ none then throw .malformed
    else if run.marked .missingRequired then throw .missingRequired
    else pure msg

end

end Decoder

section

variable (env : DecodeEnv) (opts : DecodeOptions)

/-- The decoder that `hpb_Decode` starts with, over a call of itself into a new message. -/
def Decoder.start (nested : List UInt8 → TableRef → DecodeM Message) (depth : Nat) (buf : List UInt8) :
    Decoder :=
  let d : Decoder :=
    { env := env, opts := opts, buf := buf, recurse := fun _ _ _ _ => throw .maxDepthExceeded,
      nested := nested }
  d.withDepth depth

/-- `hpb_Decode` as the parser calls it: into a new message, with the default depth since the depth is
not among `d->options`. The bytes are a part of those that are being parsed, so the fuel of one more than
their number is not used up. -/
def decodeNested : Nat → List UInt8 → TableRef → DecodeM Message
  | 0 => fun _ _ => throw .outOfMemory
  | fuel + 1 => fun buf table =>
    (Decoder.start env opts (decodeNested fuel) defaultDepthLimit buf).decodeTop table Message.new

/-- The decoder of `hpb_Decode` from a depth on. -/
def Decoder.startFrom (depth : Nat) (buf : List UInt8) : Decoder :=
  Decoder.start env opts (fun data => decodeNested env opts (data.length + 1) data) depth buf

/-- `hpb_Decode` from a depth on. -/
def decodeFrom (depth : Nat) (buf : List UInt8) (table : TableRef) (msg : Message) : DecodeM Message :=
  (Decoder.startFrom env opts depth buf).decodeTop table msg

/-- `hpb_Decode`. -/
def decode (buf : List UInt8) (table : TableRef) (msg : Message) : DecodeM Message :=
  decodeFrom env opts opts.depthLimit buf table msg

end

end Hpb
