import Hpb.Collections.MapSorter
import Hpb.Message.Copy
import Hpb.Message.Required
import Hpb.Wire.DecodeAdmits
import Hpb.Wire.EncodeBlocks

/-!
# The encoder (`hpb/wire/encode.c`)

Which calls a message makes to the buffer, up to where it fails. The message is written from its end: the unknown
fields, the extensions and then the fields, the last one first; and so are the elements of an array.

* A part of the encoder is an `EncodeRun`: its calls and the error that ends it, if there is one. Memory that runs out
  is not among them, that is for the buffer to say.
* The depth is `e->depth`. A sub-message takes one off it; the item of a message set and the entry of a map do not.
* The order in which `hpb_strtable_next2` visits a map is a parameter.
* Reads that the code relies on not to happen end the run with `unreachable`: an object of `2 ^ 63` bytes, a null pointer
  among the elements of an array, a map whose entries have not two fields.
-/

namespace Hpb

/-- `hpb_EncodeStatus` of a run that fails with memory enough. -/
inductive EncodeError where
  | maxDepthExceeded
  | missingRequired
  | unreachable
  deriving DecidableEq, Repr

/-- The options of `hpb_Encode`; a depth of 0 stands for the default. -/
structure EncodeOptions where
  deterministic : Bool
  skipUnknown : Bool
  checkRequired : Bool
  maxDepth : Nat
  deriving DecidableEq, Repr

/-- `e.depth = depth ? depth : kHpb_WireFormat_DefaultDepthLimit`. -/
def EncodeOptions.depthLimit (opts : EncodeOptions) : Nat :=
  if opts.maxDepth = 0 then defaultDepthLimit else opts.maxDepth

/-- What a part of the encoder does. -/
structure EncodeRun where
  calls : List EncoderCall
  error : Option EncodeError

namespace EncodeRun

def nothing : EncodeRun := ⟨[], none⟩

def ofCalls (calls : List EncoderCall) : EncodeRun := ⟨calls, none⟩

/-- `encode_err`. -/
def stop (e : EncodeError) : EncodeRun := ⟨[], some e⟩

/-- One part, and another one if the first does not fail. -/
def andThen (r s : EncodeRun) : EncodeRun :=
  match r.error with
  | none => ⟨r.calls ++ s.calls, s.error⟩
  | some _ => r

/-- Some parts, one after the other. -/
def all (rs : List EncodeRun) : EncodeRun := rs.foldr andThen nothing

end EncodeRun

/-- `_hpb_MiniTableField` is packed: `f->mode & kHpb_LabelFlags_IsPacked`. -/
def MiniTableField.isPacked (f : MiniTableField) : Bool := f.mode &&& LabelFlags.isPacked != 0

namespace Encode

/-- `encode_zz32`. -/
def encodeZz32 (n : UInt32) : UInt32 := n <<< 1 ^^^ .ofBitVec (n.toBitVec.sshiftRight 31)

/-- `encode_zz64`. -/
def encodeZz64 (n : UInt64) : UInt64 := n <<< 1 ^^^ .ofBitVec (n.toBitVec.sshiftRight 63)

/-- The number that is written for a field whose values are varints. -/
def varintValue (type : FieldType) (v : UInt64) : UInt64 :=
  match type with
  | .uint32 => v.toUInt32.toUInt64
  | .int32 | .enum => .ofBitVec (v.toUInt32.toBitVec.signExtend 64)
  | .bool => v.toUInt8.toUInt64
  | .sint32 => (encodeZz32 v.toUInt32).toUInt64
  | .sint64 => encodeZz64 v
  | _ => v

/-- `encode_tag`. -/
def tag (number : Nat) (w : WireType) : EncoderCall := .tag (.ofNat number) w.bits.toUInt8

/-- `encodeval` of `CASE`. -/
def numberCall (type : FieldType) (v : UInt64) : EncoderCall :=
  match type.wireType with
  | .fixed64 => .fixed64 v
  | .fixed32 => .fixed32 v.toUInt32
  | _ => .varint (varintValue type v)

/-- The bytes of a string and its size. -/
def encodeString (data : List UInt8) : EncodeRun :=
  if h : data.length < 2 ^ 63 then .ofCalls [.string ⟨data, h⟩] else .stop .unreachable

/-- `encode_scalar` for a field in memory that is no sub-message, or a null pointer to one. -/
def encodePlain (f : MiniTableField) (s : Slot) : EncodeRun :=
  match f.descriptortype with
  | .group | .message => .nothing
  | .string | .bytes => (encodeString s.strVal).andThen (.ofCalls [tag f.number .delimited])
  | type => .ofCalls [numberCall type s.scalarVal, tag f.number type.wireType]

/-- A sub-message in its frame. -/
def framed (f : MiniTableField) (body : EncodeRun) : EncodeRun :=
  if f.descriptortype = .group then
    (EncodeRun.ofCalls [tag f.number .endGroup]).andThen (body.andThen (.ofCalls [tag f.number .startGroup]))
  else
    (EncodeRun.ofCalls [.preLen]).andThen (body.andThen (.ofCalls [.size, tag f.number .delimited]))

/-- The data of an array of numbers. -/
def numberArray (type : FieldType) (vals : List UInt64) : Option NumberArray :=
  match type.wireType with
  | .fixed64 =>
    if h : (FixedElems.eight vals).bytes.flatten.length < 2 ^ 63 then some (.fixed ⟨.eight vals, h⟩ 1) else none
  | .fixed32 =>
    let elems := FixedElems.four (vals.map UInt64.toUInt32)
    if h : elems.bytes.flatten.length < 2 ^ 63 then some (.fixed ⟨elems, h⟩ 5) else none
  | _ => some (.varint (vals.map (varintValue type)))

/-- `encode_array` for elements that are no sub-messages. -/
def encodeElements (f : MiniTableField) (xs : List Slot) : EncodeRun :=
  if f.descriptortype = .string ∨ f.descriptortype = .bytes then
    .all (xs.reverse.map fun x => (encodeString x.strVal).andThen (.ofCalls [tag f.number .delimited]))
  else
    match numberArray f.descriptortype (xs.map Slot.scalarVal) with
    | some arr => .ofCalls (encodeArray (.ofNat f.number) f.isPacked arr)
    | none => .stop .unreachable

/-- `_hpb_map_fromkey`. -/
def keySlot : MapKey → Slot
  | .scalar v => .ofScalar v
  | .str bytes => .ofStr bytes

/-- `encode_mapentry`, with what is done for the value. -/
def encodeMapentry (number : Nat) (key : MiniTableField) (k : MapKey) (value : EncodeRun) : EncodeRun :=
  (EncodeRun.ofCalls [.preLen]).andThen (value.andThen ((encodePlain key (keySlot k)).andThen
    (.ofCalls [.size, tag number .delimited])))

/-- `encode_shouldencode` for a field whose presence is that of its value. -/
def notZero : Slot → Bool
  | .zero => false
  | .scalar v => v != 0
  | .str bytes => bytes != []
  | _ => true

/-- `encode_shouldencode`. -/
def shouldencode (m : Message) (f : MiniTableField) : Bool :=
  if f.presence = 0 then notZero (m.data f.offset) else m.hasField f

/-- `encode_field`, with what is done in each mode. -/
def byMode (f : MiniTableField) (array map scalar : EncodeRun) : EncodeRun :=
  if f.fieldMode = FieldMode.array then array
  else if f.fieldMode = FieldMode.map then map
  else if f.fieldMode = FieldMode.scalar then scalar
  else .stop .unreachable

/-- The runs of the keys, in an order. -/
def inOrder {K : Type} [BEq K] (order : List K) (runs : List (K × EncodeRun)) : EncodeRun :=
  .all (order.map fun k => (runs.lookup k).getD .nothing)

/-- The unknown fields. -/
def encodeUnknown (opts : EncodeOptions) (unknown : List UInt8) : EncodeRun :=
  if opts.skipUnknown then .nothing
  else if h : unknown.length < 2 ^ 63 then .ofCalls [.bytes ⟨unknown, h⟩] else .stop .unreachable

/-- `encode_msgset_item`, with what is done for the message. -/
def encodeMsgsetItem (number : Nat) (body : EncodeRun) : EncodeRun :=
  (EncodeRun.ofCalls [tag Decoder.msgSetItem .endGroup, .preLen]).andThen (body.andThen (.ofCalls
    [.size, tag Decoder.msgSetMessage .delimited, .varint (.ofNat number), tag Decoder.msgSetTypeId .varint,
      tag Decoder.msgSetItem .startGroup]))

section

variable (S : Schema) (opts : EncodeOptions) (visit : List MapKey → List MapKey)

/-- The order of the entries of a map. -/
def mapOrder (type : FieldType) (keys : List MapKey) : List MapKey :=
  if opts.deterministic then sortKeys type keys else visit keys

/-- The order of the extensions of a message. -/
def extOrder (ids : List Nat) : List Nat :=
  if opts.deterministic then sortExts (fun id => (S.exts id).field.number) ids else ids

/-- `kHpb_EncodeOption_CheckRequired` for a table. -/
def lacksRequired (t : MiniTable) (hasbits : Nat → Bool) : Bool :=
  opts.checkRequired && (List.range t.requiredCount).any fun i => !hasbits (i + 1)

mutual

/-- `encode_scalar`. -/
def encodeScalar (depth : Nat) (sub : MiniTableSub) (f : MiniTableField) : Slot → EncodeRun
  | .msg isEmpty m =>
    if depth ≤ 1 then .stop .maxDepthExceeded
    else framed f (encodeMessage (depth - 1) (Copy.subTable sub isEmpty) m)
  | s => encodePlain f s

/-- `encode_array`. -/
def encodeArray (depth : Nat) (sub : MiniTableSub) (f : MiniTableField) : Slot → EncodeRun
  | .arr xs =>
    if xs.isEmpty then .nothing
    else if f.isSubMessage then
      if depth ≤ 1 then .stop .maxDepthExceeded else encodeMessages (depth - 1) sub f xs
    else encodeElements f xs
  | _ => .nothing

/-- The loop of `encode_array` over sub-messages. -/
def encodeMessages (depth : Nat) (sub : MiniTableSub) (f : MiniTableField) : List Slot → EncodeRun
  | [] => .nothing
  | .msg isEmpty m :: xs =>
    (encodeMessages depth sub f xs).andThen (framed f (encodeMessage depth (Copy.subTable sub isEmpty) m))
  | _ :: xs => (encodeMessages depth sub f xs).andThen (.stop .unreachable)

/-- `encode_map`. -/
def encodeMap (depth : Nat) (sub : MiniTableSub) (f : MiniTableField) : Slot → EncodeRun
  | .map es =>
    match (S.table sub.tableRef).fields with
    | [key, val] =>
      inOrder (mapOrder opts visit key.descriptortype (es.map Prod.fst))
        (encodeEntries depth ((S.table sub.tableRef).sub val) f.number key val es)
    | _ => .stop .unreachable
  | _ => .nothing

/-- What is done for each entry of a map. -/
def encodeEntries (depth : Nat) (sub : MiniTableSub) (number : Nat) (key val : MiniTableField) :
    List (MapKey × Slot) → List (MapKey × EncodeRun)
  | [] => []
  | (k, s) :: es =>
    (k, encodeMapentry number key k (encodeScalar depth sub val s)) :: encodeEntries depth sub number key val es

/-- What is done for each extension: `encode_ext`. -/
def encodeExts (depth : Nat) (isMessageSet : Bool) : List (Nat × Slot) → List (Nat × EncodeRun)
  | [] => []
  | (id, s) :: exts =>
    let ext := S.exts id
    let run := if isMessageSet then encodeItem depth ext s
      else byMode ext.field (encodeArray depth ext.sub ext.field s) (encodeMap depth ext.sub ext.field s)
        (encodeScalar depth ext.sub ext.field s)
    (id, run) :: encodeExts depth isMessageSet exts

/-- `encode_msgset_item`; the pointer of a message of the empty type is not one. -/
def encodeItem (depth : Nat) (ext : MiniTableExtension) : Slot → EncodeRun
  | .msg false m => encodeMsgsetItem ext.field.number (encodeMessage depth ext.sub.tableRef m)
  | _ => .stop .unreachable

/-- `encode_message`. -/
def encodeMessage (depth : Nat) (t : TableRef) : Message → EncodeRun
  | ⟨hasbits, oneofCase, data, unknown, exts⟩ =>
    let table := S.table t
    if lacksRequired opts table hasbits then .stop .missingRequired
    else
      let extensions := if table.ext = ExtMode.nonExtendable then EncodeRun.nothing
        else inOrder (extOrder S opts (exts.map Prod.fst))
          (encodeExts depth (table.ext = ExtMode.isMessageSet) exts)
      let fields := EncodeRun.all (table.fields.reverse.map fun f =>
        if shouldencode ⟨hasbits, oneofCase, data, unknown, exts⟩ f then
          byMode f (encodeArray depth (table.sub f) f (data f.offset)) (encodeMap depth (table.sub f) f (data f.offset))
            (encodeScalar depth (table.sub f) f (data f.offset))
        else .nothing)
      (encodeUnknown opts unknown).andThen (extensions.andThen fields)

end

end

end Encode

/-- What `hpb_Encode` gives: the state of the buffer that the text is in, or a status and no text. -/
inductive EncodeResult where
  | ok (e : EncState)
  | outOfMemory
  | failed (error : EncodeError)

/-- `hpb_Encode`; none if it does not return. -/
def hpbEncode (heap : Arena → Nat → Option Nat) (arena : Arena) (S : Schema) (opts : EncodeOptions)
    (visit : List MapKey → List MapKey) (t : TableRef) (m : Message) : Option EncodeResult :=
  let run := Encode.encodeMessage S opts visit opts.depthLimit t m
  match (Encoder.start arena).run heap run.calls with
  | .ok s => some (run.error.elim (.ok s.state) .failed)
  | .error .outOfMemory => some .outOfMemory
  | .error _ => none

end Hpb
