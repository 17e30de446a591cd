import Hpb.Wire.DecodeChecked

/-!
# Missing required fields

What `kHpb_DecodeOption_CheckRequired` reports. The messages of a parse whose data ends at a limit are
looked at then (`ended`): the one that is parsed, sub-messages, elements of arrays, map entries and their
values, and items of message sets. A group ends at its end group tag instead, and a map value that did not
come has no data.

* `decode_checkRequired`: the result with the option, for an input that is accepted without.
-/

namespace Hpb

open Metered

/-- The messages that a continuation of a run has, for what the run returns. -/
def after {α : Type} (x : DecodeM α) (F : α → Set (TableRef × Message)) : Set (TableRef × Message) :=
  {p | ∃ a, x.result = .ok a ∧ p ∈ F a}

/-- The messages whose data ends in the parse of a message one level below, and in a call of
`hpb_Decode`. -/
structure DataEnds where
  recurse : Nat → Nat → Option TableRef → Message → Set (TableRef × Message)
  nested : List UInt8 → TableRef → Set (TableRef × Message)

namespace DataEnds

variable (E : DataEnds) (d : Decoder)

/-- In the parse of a sub-message or group field. -/
def subField (sub : MiniTableSub) (field : MiniTableField) (size limit pos : Nat) (msg : Message) :
    Set (TableRef × Message) :=
  if field.descriptortype = .group then E.recurse limit pos (some sub.tableRef) msg
  else E.recurse (pos + size) pos (some sub.tableRef) msg

/-- In the promotion of a message. -/
def subMessageOf (sub : MiniTableSub) (slot : Slot) : Set (TableRef × Message) :=
  match slot with
  | .msg isEmpty m =>
    if ¬isEmpty ∨ sub.tableRef = .empty then ∅ else E.nested m.unknown sub.tableRef
  | _ => ∅

/-- In the parse of a map entry. -/
def mapEntry (sub : MiniTableSub) (size pos : Nat) : Set (TableRef × Message) :=
  let entry := d.env.schema.table sub.tableRef
  match entry.fields with
  | _ :: val :: _ => after (d.mapEntryValue entry val) fun value =>
    E.recurse (pos + size) pos (some sub.tableRef) (Message.new.setData val.offset value)
  | _ => ∅

/-- In the parse of a field that is neither an array nor a map. -/
def subMessage (sub : MiniTableSub) (field : MiniTableField) (size limit pos : Nat) (slot : Slot) :
    Set (TableRef × Message) :=
  E.subMessageOf sub slot ∪
    after (d.subMessageOf sub slot) fun a => E.subField sub field size limit pos a.2

/-- In the parse of a known field. -/
def toSlot (sub : MiniTableSub) (field : MiniTableField) (op : DecodeOp) (val : UInt64)
    (limit pos : Nat) (msg : Message) (slot : Slot) : Set (TableRef × Message) :=
  if field.fieldMode = FieldMode.array then
    if op = .subMessage then E.subField sub field val.toNat limit pos Message.new else ∅
  else if field.fieldMode = FieldMode.map then E.mapEntry d sub val.toNat pos
  else if op = .subMessage then
    E.subMessage d sub field val.toNat limit pos (Decoder.setPresence field op msg slot).2
  else ∅

def knownField (layout : TableRef) (found : FoundField) (op : DecodeOp) (val : UInt64)
    (limit pos : Nat) (msg : Message) : Set (TableRef × Message) :=
  match found with
  | .field f =>
    E.toSlot d ((d.env.schema.table layout).sub f) f op val limit pos msg (msg.data f.offset)
  | .extension id =>
    let e := d.env.schema.exts id
    E.toSlot d e.sub e.field op val limit pos msg (msg.ext id)
  | _ => ∅

/-- In an item of a message set. -/
def messageSetItem (t : TableRef) (typeId : UInt32) (data : List UInt8) : Set (TableRef × Message) :=
  match d.env.extreg.bind fun reg => reg t typeId.toNat with
  | some id => E.nested data (d.env.schema.exts id).sub.tableRef
  | none => ∅

/-- In an unknown group. -/
def skipField (tag : UInt32) (limit pos : Nat) : Set (TableRef × Message) :=
  if WireType.ofTag tag = some .startGroup then E.recurse limit pos none Message.new else ∅

/-- In the loop over the fields of an item of a message set. -/
def messageSetFields (t : TableRef) (limit : Nat) :
    Nat → Nat → Option UInt32 → Option (List UInt8) → Set (TableRef × Message)
  | 0, _, _, _ => ∅
  | fuel + 1, pos, typeId, payload => after (d.decodeTagAt pos) fun (pos, tag) =>
    if tag = Decoder.endItemTag then ∅
    else if tag = Decoder.typeIdTag then
      after (d.decodeVarintAt pos) fun (pos, tmp) =>
        match typeId, payload with
        | some _, _ => messageSetFields t limit fuel pos typeId payload
        | none, none => messageSetFields t limit fuel pos (some tmp.toUInt32) none
        | none, some data => E.messageSetItem d t tmp.toUInt32 data ∪
          messageSetFields t limit fuel pos (some tmp.toUInt32) payload
    else if tag = Decoder.messageTag then
      after (d.decodeSizeAt limit pos) fun (pos, size) =>
        let data := d.slice pos size
        match payload, typeId with
        | some _, _ => messageSetFields t limit fuel (pos + size) typeId payload
        | none, none => messageSetFields t limit fuel (pos + size) none (some data)
        | none, some id => E.messageSetItem d t id data ∪
          messageSetFields t limit fuel (pos + size) typeId (some data)
    else E.skipField tag limit pos ∪
      after (d.skipField tag limit pos) fun pos => messageSetFields t limit fuel pos typeId payload

def value (layout : Option TableRef) (found : FoundField) (tag : UInt32) (op : DecodeOp)
    (val : UInt64) (limit pos : Nat) (msg : Message) : Set (TableRef × Message) :=
  match op, layout, WireType.ofTag tag with
  | .unknownField, _, some _ => E.skipField tag limit pos
  | .messageSetItem, some t, _ => E.messageSetFields d t limit (limit - pos + 1) pos none none
  | _, some t, _ => E.knownField d t found op val limit pos msg
  | _, none, _ => ∅

def field (layout : Option TableRef) (tag : UInt32) (limit pos last : Nat) (msg : Message) :
    Set (TableRef × Message) :=
  let found := Decoder.findField d.env layout (tag.toNat / 8) last
  after (d.decodeWireValue layout found.1 (WireType.ofTag tag) limit pos) fun (pos, val, op) =>
    E.value d layout found.1 tag op val limit pos msg

/-- In the loop over the fields of a message, whose own data ends at the limit. -/
def fields (layout : Option TableRef) (limit : Nat) : Nat → Nat → Nat → Message →
    Set (TableRef × Message)
  | 0, _, _, _ => ∅
  | fuel + 1, pos, last, msg =>
    if pos < limit then
      after (d.decodeTagAt pos) fun (pos, tag) =>
        if WireType.ofTag tag = some .endGroup then ∅
        else E.field d layout tag limit pos last msg ∪
          after (d.decodeField layout tag limit pos last msg) fun (pos, last, msg) =>
            fields layout limit fuel pos last msg
    else {p | layout = some p.1 ∧ msg = p.2}

end DataEnds

/-- The messages whose data ends below, with the depth that is left. -/
def Decoder.endedBelow (d : Decoder) (nested : List UInt8 → TableRef → Set (TableRef × Message)) :
    Nat → Nat → Nat → Option TableRef → Message → Set (TableRef × Message)
  | 0 => fun _ _ _ _ => ∅
  | depth + 1 => fun limit pos layout msg =>
    DataEnds.fields ⟨d.endedBelow nested depth, nested⟩ (d.withDepth depth) layout limit (limit - pos + 1)
      pos 0 msg

/-- The messages whose data ends in the parse of a whole input. -/
def Decoder.endedTop (d : Decoder) (nested : List UInt8 → TableRef → Set (TableRef × Message))
    (depth : Nat) (table : TableRef) (msg : Message) : Set (TableRef × Message) :=
  DataEnds.fields ⟨d.endedBelow nested depth, nested⟩ (d.withDepth depth) (some table) d.buf.length
    (d.buf.length + 1) 0 0 msg

section

variable (env : DecodeEnv) (opts : DecodeOptions)

/-- The decoder of `hpb_Decode` before its depth is set. -/
def Decoder.base (nested : List UInt8 → TableRef → DecodeM Message) (buf : List UInt8) : Decoder where
  env := env
  opts := opts
  buf := buf
  recurse := fun _ _ _ _ => throw .maxDepthExceeded
  nested := nested

def endedNested : Nat → List UInt8 → TableRef → Set (TableRef × Message)
  | 0 => fun _ _ => ∅
  | fuel + 1 => fun buf table =>
    (Decoder.base env opts (decodeNested env opts fuel) buf).endedTop (endedNested fuel)
      defaultDepthLimit table Message.new

/-- The messages whose data ends when an input is parsed, as they are then. -/
def ended (buf : List UInt8) (table : TableRef) (msg : Message) : Set (TableRef × Message) :=
  (Decoder.base env opts (fun data => decodeNested env opts (data.length + 1) data) buf).endedTop
    (fun data => endedNested env opts (data.length + 1) data) opts.depthLimit table msg

end

/-! ### The run with the option -/

/-- Some of the messages lack a required field. -/
def Missing (S : Schema) (A : Set (TableRef × Message)) : Prop := ∃ p ∈ A, ¬p.2.Complete S p.1

section

variable {S : Schema}

theorem missing_empty : Missing S ∅ ↔ False := by
  simp [Missing]

theorem missing_union {A B : Set (TableRef × Message)} :
    Missing S (A ∪ B) ↔ Missing S A ∨ Missing S B := by
  simp only [Missing, Set.mem_union, or_and_right, exists_or]

theorem missing_after {α : Type} {x : DecodeM α} {F : α → Set (TableRef × Message)} :
    Missing S (after x F) ↔ ∃ a, x.result = .ok a ∧ Missing S (F a) := by
  constructor
  · rintro ⟨p, ⟨a, ha, hp⟩, hmissing⟩
    exact ⟨a, ha, p, hp, hmissing⟩
  · rintro ⟨a, ha, p, hp, hmissing⟩
    exact ⟨p, ⟨a, ha, hp⟩, hmissing⟩

end

/-- The second run does what the first does, and reports the messages of `A` that lack a required
field. -/
abbrev ReportsMissing {α : Type} (S : Schema) (A : Set (TableRef × Message)) (x y : DecodeM α) : Prop :=
  Reports .missingRequired .missingRequired (Missing S A) x y

section

variable {α β : Type} {S : Schema} {x : DecodeM α} {f g : α → DecodeM β}

theorem ReportsMissing.same (h : x.marked .missingRequired = false) : ReportsMissing S ∅ x x :=
  (Reports.same h).congr missing_empty.symm

theorem ReportsMissing.bind {A : Set (TableRef × Message)} {y : DecodeM α}
    {F : α → Set (TableRef × Message)} (hx : ReportsMissing S A x y)
    (hf : ∀ a, ReportsMissing S (F a) (f a) (g a)) :
    ReportsMissing S (A ∪ after x F) (x >>= f) (y >>= g) := by
  refine (Reports.bind hx fun a _ => hf a).congr ?_
  rw [missing_union, missing_after]

theorem ReportsMissing.bind_same {F : α → Set (TableRef × Message)}
    (h : x.marked .missingRequired = false) (hf : ∀ a, ReportsMissing S (F a) (f a) (g a)) :
    ReportsMissing S (after x F) (x >>= f) (x >>= g) := by
  refine (Reports.bind_same h fun a _ => hf a).congr ?_
  rw [missing_after]

theorem ReportsMissing.bind_last {A : Set (TableRef × Message)} {y : DecodeM α}
    (hx : ReportsMissing S A x y) (hf : ∀ a, (f a).marked .missingRequired = false) :
    ReportsMissing S A (x >>= f) (y >>= f) :=
  Reports.bind_last hx fun a => Reports.same (hf a)

end

namespace Decoder

section Silent

variable (d : Decoder)

theorem silent_isDone (limit pos : Nat) : (isDone limit pos).marked .missingRequired = false := by
  unfold isDone
  split
  · rfl
  · split <;> rfl

theorem silent_decodeVarintAt (pos : Nat) : (d.decodeVarintAt pos).marked .missingRequired = false := by
  unfold decodeVarintAt
  split <;> rfl

theorem silent_decodeTagAt (pos : Nat) : (d.decodeTagAt pos).marked .missingRequired = false := by
  unfold decodeTagAt
  split <;> rfl

theorem silent_decodeSizeAt (limit pos : Nat) :
    (d.decodeSizeAt limit pos).marked .missingRequired = false := by
  unfold decodeSizeAt
  split <;> rfl

theorem silent_verifyUtf8 (bytes : List UInt8) :
    (d.verifyUtf8 bytes).marked .missingRequired = false := by
  unfold verifyUtf8
  split <;> rfl

theorem silent_newSubMessage (sub : MiniTableSub) :
    (d.newSubMessage sub).marked .missingRequired = false := by
  unfold newSubMessage
  split <;> rfl

theorem silent_decodePacked (add : UInt64 → Message × List Slot → Message × List Slot)
    (limit fuel pos : Nat) (acc : Message × List Slot) :
    (d.decodePacked add limit fuel pos acc).marked .missingRequired = false := by
  induction fuel generalizing pos acc with
  | zero => rfl
  | succ fuel ih =>
    refine marked_bind_eq_false (silent_isDone limit pos) fun done => ?_
    split
    · rfl
    · exact marked_bind_eq_false (d.silent_decodeVarintAt pos) fun a => ih _ _

theorem silent_mapEntryValue (entry : MiniTable) (val : MiniTableField) :
    (d.mapEntryValue entry val).marked .missingRequired = false := by
  unfold mapEntryValue
  split
  · exact marked_bind_eq_false (d.silent_newSubMessage _) fun _ => rfl
  · rfl

theorem silent_decodeWireValue (layout : Option TableRef) (found : FoundField) (w : Option WireType)
    (limit pos : Nat) :
    (d.decodeWireValue layout found w limit pos).marked .missingRequired = false := by
  unfold decodeWireValue
  split
  · refine marked_bind_eq_false (d.silent_decodeVarintAt pos) fun a => ?_
    dsimp only
    split <;> rfl
  · rfl
  · rfl
  · exact marked_bind_eq_false (d.silent_decodeSizeAt limit pos) fun _ => rfl
  · rfl
  · rfl

end Silent

/-- The decoder with `kHpb_DecodeOption_CheckRequired`, over other calls. -/
def checking (d : Decoder)
    (r : Nat → Nat → Option TableRef → Message → DecodeM (Nat × Message × Option Nat))
    (n : List UInt8 → TableRef → DecodeM Message) : Decoder :=
  { d with opts := { d.opts with checkRequired := true }, recurse := r, nested := n }

section Reports

variable {d : Decoder} {E : DataEnds}
  {r : Nat → Nat → Option TableRef → Message → DecodeM (Nat × Message × Option Nat)}
  {n : List UInt8 → TableRef → DecodeM Message}
  (hr : ∀ limit pos layout msg, ReportsMissing d.env.schema (E.recurse limit pos layout msg)
    (d.recurse limit pos layout msg) (r limit pos layout msg))
  (hn : ∀ data t, ReportsMissing d.env.schema (E.nested data t) (d.nested data t) (n data t))

theorem decodePacked_checking (add : UInt64 → Message × List Slot → Message × List Slot)
    (limit fuel pos : Nat) (acc : Message × List Slot) :
    (d.checking r n).decodePacked add limit fuel pos acc = d.decodePacked add limit fuel pos acc := by
  induction fuel generalizing pos acc with
  | zero => rfl
  | succ fuel ih =>
    simp only [decodePacked, ih]
    rfl

section Recurse

include hr

theorem reports_decodeSubMessage (sub : MiniTableSub) (size pos : Nat) (msg : Message) :
    ReportsMissing d.env.schema (E.recurse (pos + size) pos (some sub.tableRef) msg)
      (d.decodeSubMessage sub size pos msg) ((d.checking r n).decodeSubMessage sub size pos msg) := by
  refine ReportsMissing.bind_last (hr _ _ _ _) fun a => ?_
  dsimp only
  split <;> rfl

theorem reports_decodeGroup (layout : Option TableRef) (number limit pos : Nat) (msg : Message) :
    ReportsMissing d.env.schema (E.recurse limit pos layout msg)
      (d.decodeGroup layout number limit pos msg)
      ((d.checking r n).decodeGroup layout number limit pos msg) := by
  refine Reports.of_bind (silent_isDone limit pos) fun done => ?_
  split
  · exact Reports.throw
  · refine ReportsMissing.bind_last (hr _ _ _ _) fun a => ?_
    dsimp only
    split <;> rfl

theorem reports_decodeUnknownGroup (number limit pos : Nat) :
    ReportsMissing d.env.schema (E.recurse limit pos none Message.new)
      (d.decodeUnknownGroup number limit pos)
      ((d.checking r n).decodeUnknownGroup number limit pos) :=
  ReportsMissing.bind_last (reports_decodeGroup hr none number limit pos Message.new) fun _ => rfl

theorem reports_decodeSubField (sub : MiniTableSub) (field : MiniTableField) (size limit pos : Nat)
    (msg : Message) :
    ReportsMissing d.env.schema (E.subField sub field size limit pos msg)
      (d.decodeSubField sub field size limit pos msg)
      ((d.checking r n).decodeSubField sub field size limit pos msg) := by
  unfold decodeSubField DataEnds.subField
  split
  · exact reports_decodeGroup hr _ _ _ _ _
  · exact reports_decodeSubMessage hr _ _ _ _

theorem reports_decodeToArray (sub : MiniTableSub) (field : MiniTableField) (op : DecodeOp)
    (val : UInt64) (limit pos : Nat) (msg : Message) (slot : Slot) :
    ReportsMissing d.env.schema
      (if op = .subMessage then E.subField sub field val.toNat limit pos Message.new else ∅)
      (d.decodeToArray sub field op val limit pos msg slot)
      ((d.checking r n).decodeToArray sub field op val limit pos msg slot) := by
  cases op with
  | subMessage =>
    refine Reports.of_bind (d.silent_newSubMessage sub) fun isEmpty => ?_
    exact ReportsMissing.bind_last (reports_decodeSubField hr _ _ _ _ _ _) fun _ => rfl
  | string =>
    exact ReportsMissing.same (marked_bind_eq_false (d.silent_verifyUtf8 _) fun _ => rfl)
  | fixPck lg2 =>
    refine ReportsMissing.same ?_
    dsimp only [decodeToArray]
    split <;> rfl
  | varPck lg2 =>
    dsimp only [decodeToArray]
    rw [decodePacked_checking]
    exact ReportsMissing.same (marked_bind_eq_false (d.silent_decodePacked _ _ _ _ _) fun _ => rfl)
  | enum =>
    refine ReportsMissing.same ?_
    dsimp only [decodeToArray]
    split <;> rfl
  | packedEnum =>
    dsimp only [decodeToArray]
    rw [decodePacked_checking]
    exact ReportsMissing.same (marked_bind_eq_false (d.silent_decodePacked _ _ _ _ _) fun _ => rfl)
  | _ => exact ReportsMissing.same rfl

theorem reports_decodeToMap (sub : MiniTableSub) (field : MiniTableField) (size pos : Nat)
    (msg : Message) (slot : Slot) :
    ReportsMissing d.env.schema (E.mapEntry d sub size pos) (d.decodeToMap sub field size pos msg slot)
      ((d.checking r n).decodeToMap sub field size pos msg slot) := by
  unfold decodeToMap DataEnds.mapEntry
  dsimp only [checking]
  match (d.env.schema.table sub.tableRef).fields with
  | key :: val :: _ =>
    refine ReportsMissing.bind_same (d.silent_mapEntryValue _ _) fun value => ?_
    refine ReportsMissing.bind_last (reports_decodeSubMessage hr _ _ _ _) fun a => ?_
    split
    · split <;> rfl
    · rfl
  | [] => exact Reports.throw
  | [_] => exact Reports.throw

theorem reports_unknownFieldEnd (number : Nat) (tag : UInt32) (w : WireType)
    (hw : WireType.ofTag tag = some w) (val : UInt64) (limit pos : Nat) :
    ReportsMissing d.env.schema (E.skipField tag limit pos)
      (d.unknownFieldEnd number w val limit pos)
      ((d.checking r n).unknownFieldEnd number w val limit pos) := by
  unfold unknownFieldEnd DataEnds.skipField
  rw [hw]
  by_cases hgroup : w = .startGroup
  · rw [if_pos hgroup, if_pos hgroup, if_pos (congrArg some hgroup)]
    exact reports_decodeUnknownGroup hr _ _ _
  · rw [if_neg hgroup, if_neg hgroup, if_neg fun h => hgroup (Option.some.inj h)]
    refine ReportsMissing.same ?_
    split <;> rfl

theorem reports_decodeUnknownField (layout : Option TableRef) (number : Nat) (tag : UInt32)
    (w : WireType) (hw : WireType.ofTag tag = some w) (val : UInt64) (limit pos : Nat) (msg : Message) :
    ReportsMissing d.env.schema (E.skipField tag limit pos)
      (d.decodeUnknownField layout number w val limit pos msg)
      ((d.checking r n).decodeUnknownField layout number w val limit pos msg) := by
  unfold decodeUnknownField
  split
  · exact Reports.throw
  · refine ReportsMissing.bind_last (reports_unknownFieldEnd hr number tag w hw val limit pos)
      fun stop => ?_
    split <;> rfl

theorem reports_skipField (tag : UInt32) (limit pos : Nat) :
    ReportsMissing d.env.schema (E.skipField tag limit pos) (d.skipField tag limit pos)
      ((d.checking r n).skipField tag limit pos) := by
  unfold skipField DataEnds.skipField
  match WireType.ofTag tag with
  | some .varint =>
    exact ReportsMissing.same (marked_bind_eq_false (d.silent_decodeVarintAt pos) fun _ => rfl)
  | some .fixed64 => exact ReportsMissing.same rfl
  | some .fixed32 => exact ReportsMissing.same rfl
  | some .delimited =>
    exact ReportsMissing.same (marked_bind_eq_false (d.silent_decodeSizeAt limit pos) fun _ => rfl)
  | some .startGroup => exact reports_decodeUnknownGroup hr _ _ _
  | some .endGroup => exact Reports.throw
  | none => exact Reports.throw

end Recurse

section Nested

include hn

theorem reports_subMessageOf (sub : MiniTableSub) (slot : Slot) :
    ReportsMissing d.env.schema (E.subMessageOf sub slot) (d.subMessageOf sub slot)
      ((d.checking r n).subMessageOf sub slot) := by
  cases slot with
  | msg isEmpty m =>
    dsimp only [subMessageOf, reuseSubMessage, DataEnds.subMessageOf]
    split
    · exact ReportsMissing.same rfl
    · refine Reports.of_bind (d.silent_newSubMessage sub) fun isEmpty => ?_
      refine Reports.of_bind rfl fun _ => ?_
      exact ReportsMissing.bind_last (Reports.level (hn _ _)) fun _ => rfl
  | _ => exact ReportsMissing.same (marked_bind_eq_false (d.silent_newSubMessage sub) fun _ => rfl)

theorem reports_addMessageSetItem (t : TableRef) (typeId : UInt32) (data : List UInt8) (msg : Message) :
    ReportsMissing d.env.schema (E.messageSetItem d t typeId data)
      (d.addMessageSetItem t typeId data msg)
      ((d.checking r n).addMessageSetItem t typeId data msg) := by
  unfold addMessageSetItem DataEnds.messageSetItem
  dsimp only [checking]
  cases d.env.extreg.bind fun reg => reg t typeId.toNat with
  | none => exact ReportsMissing.same rfl
  | some id =>
    refine Reports.of_bind (d.silent_newSubMessage _) fun isEmpty => ?_
    exact ReportsMissing.bind_last (hn _ _) fun _ => rfl

end Nested

section Both

include hr hn

theorem reports_decodeToSlot (sub : MiniTableSub) (field : MiniTableField) (op : DecodeOp)
    (val : UInt64) (limit pos : Nat) (msg : Message) (slot : Slot) :
    ReportsMissing d.env.schema (E.toSlot d sub field op val limit pos msg slot)
      (d.decodeToSlot sub field op val limit pos msg slot)
      ((d.checking r n).decodeToSlot sub field op val limit pos msg slot) := by
  unfold decodeToSlot DataEnds.toSlot
  split
  · exact reports_decodeToArray hr _ _ _ _ _ _ _ _
  · split
    · exact reports_decodeToMap hr _ _ _ _ _ _
    · by_cases hop : op = .subMessage
      · subst hop
        rw [if_pos rfl]
        have hne : ¬(DecodeOp.subMessage = .enum ∧ ¬d.checkEnum sub val) := fun h => nomatch h.1
        have hne' : ¬(DecodeOp.subMessage = .enum ∧ ¬(d.checking r n).checkEnum sub val) := hne
        unfold decodeToSubMessage
        rw [if_neg hne, if_neg hne']
        refine ReportsMissing.bind_last ?_ fun _ => rfl
        refine ReportsMissing.bind (reports_subMessageOf hn _ _) fun a => ?_
        exact ReportsMissing.bind_last (reports_decodeSubField hr _ _ _ _ _ _) fun _ => rfl
      · have heq : (d.checking r n).decodeToSubMessage sub field op val limit pos msg slot =
            d.decodeToSubMessage sub field op val limit pos msg slot := by
          cases op with
          | subMessage => exact absurd rfl hop
          | _ => rfl
        rw [if_neg hop, heq]
        refine ReportsMissing.same ?_
        unfold decodeToSubMessage
        split
        · rfl
        · refine marked_bind_eq_false ?_ fun _ => rfl
          cases op with
          | subMessage => exact absurd rfl hop
          | string => exact marked_bind_eq_false (d.silent_verifyUtf8 _) fun _ => rfl
          | _ => rfl

theorem reports_decodeKnownField (layout : TableRef) (found : FoundField) (op : DecodeOp)
    (val : UInt64) (limit pos : Nat) (msg : Message) :
    ReportsMissing d.env.schema (E.knownField d layout found op val limit pos msg)
      (d.decodeKnownField layout found op val limit pos msg)
      ((d.checking r n).decodeKnownField layout found op val limit pos msg) := by
  cases found with
  | field f => exact ReportsMissing.bind_last (reports_decodeToSlot hr hn _ _ _ _ _ _ _ _) fun _ => rfl
  | extension id =>
    exact ReportsMissing.bind_last (reports_decodeToSlot hr hn _ _ _ _ _ _ _ _) fun _ => rfl
  | _ => exact ReportsMissing.same rfl

theorem reports_decodeMessageSetItem (t : TableRef) (limit fuel pos : Nat) (typeId : Option UInt32)
    (payload : Option (List UInt8)) (msg : Message) :
    ReportsMissing d.env.schema (E.messageSetFields d t limit fuel pos typeId payload)
      (d.decodeMessageSetItem t limit fuel pos typeId payload msg)
      ((d.checking r n).decodeMessageSetItem t limit fuel pos typeId payload msg) := by
  -- an item that was added does not change what ends later
  have hadd : ∀ (id : UInt32) (data : List UInt8) (A : Set (TableRef × Message)) (msg : Message)
      (f g : Message → DecodeM (Nat × Message)), (∀ m, ReportsMissing d.env.schema A (f m) (g m)) →
      ReportsMissing d.env.schema (E.messageSetItem d t id data ∪ A)
        (d.addMessageSetItem t id data msg >>= f)
        ((d.checking r n).addMessageSetItem t id data msg >>= g) := by
    intro id data A msg f g hfg b hb
    obtain ⟨m, hm, -⟩ := result_bind_eq_ok.mp hb
    refine (Reports.bind (reports_addMessageSetItem hn t id data msg) fun a _ => hfg a).congr ?_ b hb
    rw [missing_union]
    refine or_congr Iff.rfl ⟨?_, fun h => ⟨m, hm, h⟩⟩
    rintro ⟨_, _, h⟩
    exact h
  induction fuel generalizing pos typeId payload msg with
  | zero => exact Reports.throw
  | succ fuel ih =>
    dsimp only [decodeMessageSetItem, DataEnds.messageSetFields]
    refine Reports.of_bind (silent_isDone limit pos) fun done => ?_
    cases done with
    | true => exact Reports.throw
    | false =>
      refine ReportsMissing.bind_same (d.silent_decodeTagAt pos) fun a => ?_
      by_cases hend : a.2 = endItemTag
      · simp only [if_pos hend]
        exact ReportsMissing.same rfl
      · simp only [if_neg hend]
        by_cases hid : a.2 = typeIdTag
        · simp only [if_pos hid]
          refine ReportsMissing.bind_same (d.silent_decodeVarintAt _) fun b => ?_
          cases typeId with
          | some id => exact ih _ _ _ _
          | none =>
            cases payload with
            | none => exact ih _ _ _ _
            | some data => exact hadd _ _ _ _ _ _ fun m => ih _ _ _ _
        · simp only [if_neg hid]
          by_cases hmsg : a.2 = messageTag
          · simp only [if_pos hmsg]
            refine ReportsMissing.bind_same (d.silent_decodeSizeAt limit _) fun b => ?_
            cases payload with
            | some data => exact ih _ _ _ _
            | none =>
              cases typeId with
              | none => exact ih _ _ _ _
              | some id => exact hadd _ _ _ _ _ _ fun m => ih _ _ _ _
          · simp only [if_neg hmsg]
            exact ReportsMissing.bind (reports_skipField hr _ _ _) fun pos => ih _ _ _ _

theorem reports_decodeValue (layout : Option TableRef) (found : FoundField) (tag : UInt32)
    (op : DecodeOp) (val : UInt64) (limit pos : Nat) (msg : Message) :
    ReportsMissing d.env.schema (E.value d layout found tag op val limit pos msg)
      (d.decodeValue layout found tag op val limit pos msg)
      ((d.checking r n).decodeValue layout found tag op val limit pos msg) := by
  have hother : ∀ t, ReportsMissing d.env.schema (E.knownField d t found op val limit pos msg)
      (d.decodeKnownField t found op val limit pos msg)
      ((d.checking r n).decodeKnownField t found op val limit pos msg) :=
    fun t => reports_decodeKnownField hr hn _ _ _ _ _ _ _
  unfold decodeValue DataEnds.value
  cases op with
  | unknownField =>
    cases hw : WireType.ofTag tag with
    | some w => exact reports_decodeUnknownField hr _ _ _ _ hw _ _ _ _
    | none =>
      cases layout with
      | some t => exact hother t
      | none => exact ReportsMissing.same rfl
  | messageSetItem =>
    cases layout with
    | some t =>
      refine Reports.of_bind rfl fun _ => Reports.level ?_
      exact reports_decodeMessageSetItem hr hn _ _ _ _ _ _ _
    | none => exact ReportsMissing.same rfl
  | _ =>
    cases layout with
    | some t => exact hother t
    | none => exact ReportsMissing.same rfl

theorem reports_decodeField (layout : Option TableRef) (tag : UInt32) (limit pos last : Nat)
    (msg : Message) :
    ReportsMissing d.env.schema (E.field d layout tag limit pos last msg)
      (d.decodeField layout tag limit pos last msg)
      ((d.checking r n).decodeField layout tag limit pos last msg) := by
  refine ReportsMissing.bind_same (d.silent_decodeWireValue _ _ _ _ _) fun a => ?_
  exact ReportsMissing.bind_last (reports_decodeValue hr hn _ _ _ _ _ _ _ _) fun _ => rfl

omit hr hn in
/-- The check of a message whose data ends. -/
theorem reports_checkRequired (hcheck : d.opts.checkRequired = false) (layout : Option TableRef)
    (msg : Message) :
    ReportsMissing d.env.schema {p | layout = some p.1 ∧ msg = p.2} (d.checkRequired layout msg)
      ((d.checking r n).checkRequired layout msg) := by
  have hunset : ∀ count, (List.range count).any (fun i => !msg.hasbits (i + 1)) = true ↔
      ¬∀ i < count, msg.hasbits (i + 1) = true := by
    intro count
    simp
  have hplain : d.checkRequired layout msg = pure () := by
    rw [checkRequired, hcheck, if_neg (by simp)]
  rw [hplain]
  cases layout with
  | none =>
    have hchecked : (d.checking r n).checkRequired none msg = pure () := by
      rw [checkRequired, if_neg (by simp [checking])]
    rw [hchecked]
    refine (Reports.same rfl).congr ⟨False.elim, ?_⟩
    rintro ⟨p, ⟨hp, -⟩, -⟩
    exact nomatch hp
  | some t =>
    have hmissing : Missing d.env.schema {p | some t = some p.1 ∧ msg = p.2} ↔
        ¬msg.Complete d.env.schema t := by
      constructor
      · rintro ⟨⟨t', m'⟩, ⟨ht, hm⟩, h⟩
        cases ht
        cases hm
        exact h
      · exact fun h => ⟨(t, msg), ⟨rfl, rfl⟩, h⟩
    refine Reports.congr ?_ hmissing.symm
    dsimp only [checkRequired]
    split
    next hset =>
      have hincomplete : ¬msg.Complete d.env.schema t := (hunset _).mp hset.2
      exact fun a ha => ⟨.inl ha, fun _ => hincomplete, fun _ => .inl rfl⟩
    next hset =>
      have hcomplete : ¬¬msg.Complete d.env.schema t := fun h => hset ⟨rfl, (hunset _).mpr h⟩
      exact (Reports.same rfl).congr ⟨False.elim, fun h => hcomplete h⟩

/-- **The loop reports the messages whose data ends.** -/
theorem reports_decodeFields (hcheck : d.opts.checkRequired = false) (layout : Option TableRef)
    (limit fuel pos last : Nat) (msg : Message) :
    ReportsMissing d.env.schema (E.fields d layout limit fuel pos last msg)
      (d.decodeFields layout limit fuel pos last msg)
      ((d.checking r n).decodeFields layout limit fuel pos last msg) := by
  induction fuel generalizing pos last msg with
  | zero => exact Reports.throw
  | succ fuel ih =>
    dsimp only [decodeFields, DataEnds.fields]
    obtain hlt | rfl | hgt := Nat.lt_trichotomy pos limit
    · have hdone : isDone limit pos = pure false := by rw [isDone, if_pos hlt]
      rw [if_pos hlt, hdone, Metered.pure_bind, Metered.pure_bind]
      refine ReportsMissing.bind_same (d.silent_decodeTagAt pos) fun a => ?_
      by_cases hend : WireType.ofTag a.2 = some .endGroup
      · simp only [if_pos hend]
        exact ReportsMissing.same rfl
      · simp only [if_neg hend]
        exact ReportsMissing.bind (reports_decodeField hr hn _ _ _ _ _ _) fun b => ih _ _ _
    · have hdone : isDone pos pos = pure true := by
        rw [isDone, if_neg (Nat.lt_irrefl pos), if_pos rfl]
      rw [if_neg (Nat.lt_irrefl pos), hdone, Metered.pure_bind, Metered.pure_bind]
      exact ReportsMissing.bind_last (reports_checkRequired hcheck layout msg) fun _ => rfl
    · intro b hb
      obtain ⟨done, hdone, -⟩ := result_bind_eq_ok.mp hb
      rw [isDone, if_neg (Nat.lt_asymm hgt), if_neg (Nat.ne_of_gt hgt)] at hdone
      exact nomatch hdone

end Both

end Reports

section Runs

variable {d : Decoder} {n : List UInt8 → TableRef → DecodeM Message}
  {ended : List UInt8 → TableRef → Set (TableRef × Message)}
  (hcheck : d.opts.checkRequired = false)
  (hn : ∀ data t, ReportsMissing d.env.schema (ended data t) (d.nested data t) (n data t))
include hcheck hn

theorem reports_recurseSubMessage
    {r : Nat → Nat → Option TableRef → Message → DecodeM (Nat × Message × Option Nat)} (depth : Nat)
    (limit pos : Nat) (layout : Option TableRef) (msg : Message) :
    ReportsMissing d.env.schema (d.endedBelow ended depth limit pos layout msg)
      (d.recurseSubMessage depth limit pos layout msg)
      ((d.checking r n).recurseSubMessage depth limit pos layout msg) := by
  induction depth generalizing limit pos layout msg with
  | zero => exact Reports.throw
  | succ depth ih =>
    refine Reports.level ?_
    exact reports_decodeFields (d := d.withDepth depth) (E := ⟨d.endedBelow ended depth, ended⟩) ih hn
      hcheck _ _ _ _ _ _

/-- **A whole parse fails exactly if it has a message that lacks a required field when its data ends.** -/
theorem decodeTop_checking
    {r : Nat → Nat → Option TableRef → Message → DecodeM (Nat × Message × Option Nat)} {depth : Nat}
    {table : TableRef} {msg m : Message} (hok : ((d.withDepth depth).decodeTop table msg).result = .ok m) :
    (Missing d.env.schema (d.endedTop ended depth table msg) ∧
        (((d.checking r n).withDepth depth).decodeTop table msg).result = .error .missingRequired) ∨
      (¬Missing d.env.schema (d.endedTop ended depth table msg) ∧
        Yields .missingRequired (((d.checking r n).withDepth depth).decodeTop table msg) m) := by
  let e := (d.checking r n).withDepth depth
  have hrun : ReportsMissing d.env.schema (d.endedTop ended depth table msg)
      ((d.withDepth depth).decodeMessage d.buf.length 0 (some table) msg)
      (e.decodeMessage e.buf.length 0 (some table) msg) :=
    reports_decodeFields (d := d.withDepth depth) (E := ⟨d.endedBelow ended depth, ended⟩)
      (reports_recurseSubMessage (r := r) hcheck hn depth) hn hcheck _ _ _ _ _ _
  obtain ⟨a, ha, hok⟩ := result_bind_eq_ok.mp hok
  have hend : a.2.2 = none ∧ a.2.1 = m := by
    dsimp only at hok
    split at hok
    · exact nomatch hok
    next hend =>
      split at hok
      · exact nomatch hok
      · exact ⟨not_not.mp hend, Except.ok.inj hok⟩
  obtain ⟨hres, hflag⟩ := hrun a ha
  change (_ ∧ (e.decodeTop table msg).result = _) ∨ (_ ∧ Yields _ (e.decodeTop table msg) m)
  unfold decodeTop
  dsimp only
  obtain hres | hres := hres
  · by_cases hmark : (e.decodeMessage e.buf.length 0 (some table) msg).marked .missingRequired = true
    · refine .inl ⟨hflag.mp (.inl hmark), ?_⟩
      rw [bind_of_ok hres]
      dsimp only
      rw [if_neg (not_not.mpr hend.1), if_pos hmark]
      rfl
    · refine .inr ⟨fun hmissing => ?_, ?_⟩
      · obtain hmark' | herr := hflag.mpr hmissing
        · exact hmark hmark'
        · rw [hres] at herr
          exact nomatch herr
      · refine yields_bind_iff.mpr ⟨a, ⟨hres, Bool.eq_false_iff.mpr hmark⟩, ?_⟩
        rw [if_neg (not_not.mpr hend.1), if_neg hmark, hend.2]
        exact Yields.pure
  · rw [bind_of_error hres]
    exact .inl ⟨hflag.mp (.inr hres), rfl⟩

end Runs

end Decoder

section

variable {env : DecodeEnv} {opts : DecodeOptions}

/-- The options with `kHpb_DecodeOption_CheckRequired`. -/
def DecodeOptions.checking (opts : DecodeOptions) : DecodeOptions := { opts with checkRequired := true }

theorem reports_decodeNested (hcheck : opts.checkRequired = false) (fuel : Nat) (data : List UInt8)
    (t : TableRef) :
    ReportsMissing env.schema (endedNested env opts fuel data t) (decodeNested env opts fuel data t)
      (decodeNested env opts.checking fuel data t) := by
  induction fuel generalizing data t with
  | zero => exact Reports.throw
  | succ fuel ih =>
    intro m hok
    have hrun := Decoder.decodeTop_checking (d := Decoder.base env opts (decodeNested env opts fuel) data)
      (r := fun _ _ _ _ => throw .maxDepthExceeded) hcheck ih hok
    obtain ⟨hmissing, herr⟩ | ⟨hnone, hok'⟩ := hrun
    · exact ⟨.inr herr, fun _ => hmissing, fun _ => .inr herr⟩
    · refine ⟨.inl hok'.1, ?_, fun hmissing => absurd hmissing hnone⟩
      rintro (hmark | herr)
      · exact absurd (hmark.symm.trans hok'.2) (fun h => nomatch h)
      · exact absurd (herr.symm.trans hok'.1) (fun h => nomatch h)

end

section Example

/-- A table with a required number and a message of the same table. -/
def requiredTable : MiniTable where
  subs := [.submsg 0]
  fields := [⟨1, 4, 1, noSub, .int32, FieldMode.scalar⟩, ⟨2, 8, 2, 0, .message, FieldMode.scalar⟩]
  size := 16
  fieldCount := 2
  ext := ExtMode.nonExtendable
  denseBelow := 2
  tableMask := 255
  requiredCount := 1

theorem requiredTable_searchable : MiniTable.Searchable requiredTable.fields requiredTable.denseBelow := by
  refine ⟨by decide, fun i hi => ?_⟩
  obtain rfl | rfl : i = 0 ∨ i = 1 := by
    change i < 2 at hi
    omega
  · exact ⟨_, rfl, rfl⟩
  · exact ⟨_, rfl, rfl⟩

theorem requiredTable_fieldCount : requiredTable.fieldCount = requiredTable.fields.length := rfl

def requiredSchema : Schema where
  tables := fun _ => requiredTable
  enums := fun _ => ⟨0, 0, []⟩
  exts := fun _ => ⟨⟨1, 0, 0, 0, .message, FieldMode.scalar⟩, .empty, .emptyMessage⟩
  fieldCount_eq := fun _ => requiredTable_fieldCount
  searchable := fun _ => requiredTable_searchable

theorem requiredSchema_table (t : TableRef) :
    requiredSchema.table t = .empty ∨ requiredSchema.table t = requiredTable := by
  cases t with
  | empty => exact .inl rfl
  | table id => exact .inr rfl

theorem requiredSchema_regular : requiredSchema.Regular where
  number t := by obtain h | h := requiredSchema_table t <;> rw [h] <;> decide
  offset t := by obtain h | h := requiredSchema_table t <;> rw [h] <;> decide
  hasbit t := by obtain h | h := requiredSchema_table t <;> rw [h] <;> decide
  repeated t := by obtain h | h := requiredSchema_table t <;> rw [h] <;> decide
  entry t := by
    have hmode : ∀ f ∈ (requiredSchema.table t).fields, f.fieldMode ≠ FieldMode.map := by
      obtain h | h := requiredSchema_table t <;> rw [h] <;> decide
    exact fun f hf hmap => absurd hmap (hmode f hf)
  extension _ := ⟨rfl, show ¬FieldMode.scalar &&& 3 = FieldMode.map by decide⟩

def requiredLabels : RequiredLabels requiredSchema where
  required _ f := f.number == 1
  presence_le t := by obtain h | h := requiredSchema_table t <;> rw [h] <;> decide
  covers t := by obtain h | h := requiredSchema_table t <;> rw [h] <;> decide

def requiredEnv : DecodeEnv where
  schema := requiredSchema
  extreg := none
  verifyUtf8 := fun _ => true
  encode := fun _ _ => none

end Example

end Hpb
