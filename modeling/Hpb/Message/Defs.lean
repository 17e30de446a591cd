import Hpb.Message.Equal
import Hpb.Message.Required
import Hpb.Reflection.DefBuilder

/-!
# Messages and their definitions (`hpb/reflection/field_def.c`, `message.c`)

What reflection reads of a message through its definition.

* `LinkedField`: the definition of a field with its field in the mini table.
* `MessageDefs`: the message definitions of a pool, and its extensions.
* `FieldDef.default`, `Message.getFieldByDef`: the value that a field is read as.
* `Message.present`: what it means for a field to be set.
* `MessageDefs.fieldChildren`, `extChildren`: the messages that a message holds.
-/

namespace Hpb

namespace Reflection

/-- The eight bytes of the union `defaultval`, if it is not a string. -/
def DefaultVal.bits : DefaultVal → UInt64
  | .sint v => .ofInt v
  | .uint v => .ofNat v
  | .dbl v => v
  | .flt v => v.toUInt64
  | .boolean v => if v then 1 else 0
  | .str _ | .msg => 0

namespace FieldDef

variable (f : FieldDef)

/-- `hpb_FieldDef_CType`, of a field that was resolved. -/
def cType : Option CType := f.type.map fieldCType

/-- `hpb_FieldDef_IsRepeated`. -/
def isRepeated : Bool := f.label = .repeated

/-- `hpb_FieldDef_IsSubMessage`. -/
def isSubMessage : Bool := f.cType = some .message

/-- `hpb_FieldDef_MessageSubDef`. -/
def messageSubDef : Option DefPtr :=
  match f.sub with
  | .msgdef p => if f.isSubMessage then some p else none
  | _ => none

/-- `hpb_FieldDef_Default`. A number is read from as many bytes of the union as its type has. -/
def default : Slot :=
  if f.isRepeated || f.isSubMessage then .zero
  else match f.cType, f.defaultval with
    | some .string, .str bytes | some .bytes, .str bytes => .ofStr bytes
    | some .bool, val => .ofScalar val.bits.toUInt8.toUInt64
    | some .int64, val | some .uint64, val | some .double, val => .ofScalar val.bits
    | some .enum, val | some .int32, val | some .uint32, val | some .float, val =>
      .ofScalar val.bits.toUInt32.toUInt64
    | _, _ => .zero

theorem default_repeated (h : f.isRepeated = true) : f.default = .zero := by
  rw [default, h, Bool.true_or, if_pos rfl]

theorem default_subMessage (h : f.isSubMessage = true) : f.default = .zero := by
  rw [default, h, Bool.or_true, if_pos rfl]

end FieldDef

end Reflection

open Reflection

theorem MiniTableField.isRepeatedOrMap_eq (f : MiniTableField) :
    f.isRepeatedOrMap = (f.fieldMode &&& FieldMode.scalar == 0) := by
  rw [isRepeatedOrMap, fieldMode, UInt8.and_assoc]
  rfl

/-- The definition of a field, with its field in the mini table that was built from it
(`hpb_FieldDef_MiniTable`). -/
structure LinkedField where
  defn : FieldDef
  mini : MiniTableField
  repeated_eq : defn.isRepeated = mini.isRepeatedOrMap
  /-- `hpb_FieldMode` has no value 3. -/
  mode : mini.fieldMode = FieldMode.map ∨ mini.fieldMode = FieldMode.array ∨
    mini.fieldMode = FieldMode.scalar
  sub : defn.isSubMessage = true → defn.messageSubDef.isSome

/-- The message definitions of a pool. -/
structure MessageDefs where
  /-- `hpb_MessageDef_Field`, in the order of the indexes. -/
  fields : DefPtr → List LinkedField
  /-- `hpb_MessageDef_IsMapEntry`. -/
  isMapEntry : DefPtr → Bool
  /-- `hpb_DefPool_FindExtensionByMiniTable`. -/
  extension : Nat → LinkedField
  /-- `hpb_MessageDef_FieldCount` is an `int`. -/
  count_lt : ∀ m, (fields m).length < 2 ^ 31
  /-- Only the members of a oneof share their place. -/
  apart : ∀ m, (fields m).Pairwise fun f g => f.mini.offset = g.mini.offset →
    f.mini.presence < 0 ∧ g.mini.presence = f.mini.presence ∧ f.mini.number ≠ g.mini.number
  /-- The table has a map where the definition has one. -/
  map_iff : ∀ m, ∀ f ∈ fields m, f.mini.fieldMode = FieldMode.map ↔
    f.defn.isRepeated = true ∧ ∃ p, f.defn.messageSubDef = some p ∧ isMapEntry p = true
  /-- The entries of a map have a key and a value. -/
  entry : ∀ p, isMapEntry p = true →
    ∃ key val, fields p = [key, val] ∧ key.defn.number = 1 ∧ val.defn.number = 2

namespace MessageDefs

variable (D : MessageDefs)

/-- `hpb_FieldDef_IsMap`. -/
def isMap (f : LinkedField) : Bool :=
  f.defn.isRepeated && match f.defn.messageSubDef with
    | some p => D.isMapEntry p
    | none => false

/-- The definition of the values of a map of messages; the entry has them as its field 2. -/
def valueDef (entry : DefPtr) : Option DefPtr :=
  match (D.fields entry).find? fun f => f.defn.number = 2 with
  | some f => f.defn.messageSubDef
  | none => none

end MessageDefs

/-- How a field holds messages, and of which definition. -/
inductive SubKind where
  | map (value : DefPtr)
  | array (sub : DefPtr)
  | single (sub : DefPtr)
  deriving DecidableEq, Repr

/-- How a field holds messages, if it holds any. -/
def MessageDefs.subKind (D : MessageDefs) (f : LinkedField) : Option SubKind :=
  match f.defn.messageSubDef with
  | none => none
  | some p =>
    if D.isMap f then (D.valueDef p).map .map
    else if f.defn.isRepeated then some (.array p)
    else some (.single p)

/-- `_hpb_MiniTable_ValueIsNonZero`: the bytes that a representation has are not all zero. -/
def Slot.nonZero (rep : FieldRep) (s : Slot) : Bool :=
  match rep, s with
  | _, .zero => false
  | .oneByte, .scalar v => v.toUInt8 ≠ 0
  | .fourByte, .scalar v => v.toUInt32 ≠ 0
  | .eightByte, .scalar v => v ≠ 0
  | _, .str bytes => bytes ≠ []
  | _, _ => true

theorem Slot.nonZero_zero (rep : FieldRep) : Slot.nonZero rep .zero = false := by
  cases rep <;> rfl

namespace Message

/-- `_hpb_Message_GetNonExtensionField`. -/
def getField (m : Message) (f : MiniTableField) (default : Slot) : Slot :=
  if (f.presence < 0 || default.nonZero f.rep) && !m.hasField f then default else m.data f.offset

/-- `hpb_Message_GetFieldByDef`, of a field that is not an extension. -/
def getFieldByDef (m : Message) (f : LinkedField) : Slot := m.getField f.mini f.defn.default

/-- A field is set: its has-bit or its oneof case says so or, if it has none, it holds something. -/
def present (m : Message) (f : MiniTableField) : Bool :=
  if f.presence ≠ 0 then m.hasField f
  else if f.fieldMode = FieldMode.map then !(m.data f.offset).entries.isEmpty
  else if f.fieldMode = FieldMode.array then !(m.data f.offset).elems.isEmpty
  else (m.data f.offset).nonZero f.rep

end Message

/-! ### The messages that a message holds -/

/-- The message that a value is. -/
def Slot.message? : Slot → Option Message
  | .msg _ m => some m
  | _ => none

theorem Slot.message?_eq_some {s : Slot} {m : Message} (h : s.message? = some m) :
    ∃ isEmpty, s = .msg isEmpty m := by
  cases s with
  | msg isEmpty m' => exact ⟨isEmpty, by rw [Option.some.inj h]⟩
  | _ => exact nomatch h

namespace SubKind

/-- The messages that the value of a field holds. -/
def held (s : Slot) : SubKind → List (DefPtr × Message)
  | map p => s.entries.filterMap fun e => e.2.message?.map (p, ·)
  | array p => s.elems.filterMap fun x => x.message?.map (p, ·)
  | single p => (s.message?.map (p, ·)).toList

/-- A value that holds what its field says. -/
def Fits (s : Slot) : SubKind → Prop
  | map _ => ∃ es, s = .map es ∧ ∀ e ∈ es, e.2.message?.isSome
  | array _ => ∃ xs, s = .arr xs ∧ ∀ x ∈ xs, x.message?.isSome
  | single _ => s.message?.isSome

theorem nested_of_held {s : Slot} {k : SubKind} {b : DefPtr × Message} (h : b ∈ k.held s) :
    s.Nested b.2 := by
  cases k with
  | map p =>
    obtain ⟨e, he, hb⟩ := List.mem_filterMap.mp h
    obtain ⟨m, hm, rfl⟩ := Option.map_eq_some_iff.mp hb
    obtain ⟨isEmpty, hx⟩ := Slot.message?_eq_some hm
    cases s with
    | map es =>
      have hmem : (e.1, Slot.msg isEmpty m) ∈ es := by
        rw [← hx]
        exact he
      exact .value hmem
    | _ => exact nomatch he
  | array p =>
    obtain ⟨x, hx, hb⟩ := List.mem_filterMap.mp h
    obtain ⟨m, hm, rfl⟩ := Option.map_eq_some_iff.mp hb
    obtain ⟨isEmpty, rfl⟩ := Slot.message?_eq_some hm
    cases s with
    | arr xs => exact .elem hx
    | _ => exact nomatch hx
  | single p =>
    obtain ⟨m, hm, rfl⟩ := Option.map_eq_some_iff.mp (Option.mem_toList.mp h)
    obtain ⟨isEmpty, rfl⟩ := Slot.message?_eq_some hm
    exact .msg isEmpty m

end SubKind

namespace MessageDefs

variable (D : MessageDefs)

/-- The messages that a field with a value holds. -/
def held (f : LinkedField) (s : Slot) : List (DefPtr × Message) :=
  match D.subKind f with
  | some k => k.held s
  | none => []

/-- The messages in the fields of a message that are set. -/
def fieldChildren (a : DefPtr × Message) : List (DefPtr × Message) :=
  (D.fields a.1).flatMap fun f =>
    if a.2.present f.mini then D.held f (a.2.data f.mini.offset) else []

/-- The messages in the extensions of a message. -/
def extChildren (a : DefPtr × Message) : List (DefPtr × Message) :=
  a.2.exts.flatMap fun e => D.held (D.extension e.1) e.2

variable {D} {a b : DefPtr × Message}

theorem nested_of_held {f : LinkedField} {s : Slot} (h : b ∈ D.held f s) : s.Nested b.2 := by
  rw [held] at h
  split at h
  · exact SubKind.nested_of_held h
  · exact nomatch h

theorem nested_of_fieldChildren (h : b ∈ D.fieldChildren a) : a.2.Nested b.2 := by
  obtain ⟨f, -, hb⟩ := List.mem_flatMap.mp h
  split at hb
  · exact .inl ⟨_, nested_of_held hb⟩
  · exact nomatch hb

theorem nested_of_extChildren (h : b ∈ D.extChildren a) : a.2.Nested b.2 := by
  obtain ⟨e, he, hb⟩ := List.mem_flatMap.mp h
  exact .inr ⟨e, he, nested_of_held hb⟩

end MessageDefs

end Hpb
