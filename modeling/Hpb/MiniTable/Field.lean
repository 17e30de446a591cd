import Hpb.MiniTable.Table

/-!
# The types of fields (`hpb/mini_table/field.h`, `message.h`)

What the type of a field is in its definition, and the sub-table that a field refers to.
-/

namespace Hpb

/-- `hpb_CType`. -/
inductive CType where
  | bool | float | int32 | uint32 | enum | message | double | int64 | uint64 | string | bytes
  deriving DecidableEq, Repr

namespace MiniTableField

/-- The field has the flag `kHpb_LabelFlags_IsAlternate`. -/
def isAlternate (f : MiniTableField) : Bool := f.mode &&& LabelFlags.isAlternate != 0

/-- `hpb_MiniTableField_Type`. -/
def type (f : MiniTableField) : FieldType :=
  if f.isAlternate then
    match f.descriptortype with
    | .int32 => .enum
    | .bytes => .string
    | t => t -- an assertion fails
  else f.descriptortype

/-- `hpb_MiniTableField_CType`. -/
def cType (f : MiniTableField) : CType :=
  match f.type with
  | .double => .double
  | .float => .float
  | .int64 | .sint64 | .sfixed64 => .int64
  | .int32 | .sfixed32 | .sint32 => .int32
  | .uint64 | .fixed64 => .uint64
  | .uint32 | .fixed32 => .uint32
  | .enum => .enum
  | .bool => .bool
  | .string => .string
  | .bytes => .bytes
  | .group | .message => .message

/-- `hpb_MiniTableField_IsClosedEnum`. -/
def isClosedEnum (f : MiniTableField) : Bool := f.descriptortype == .enum

/-- An enum field that is not closed. It has no sub-enum. -/
def isOpenEnum (f : MiniTableField) : Bool := f.isAlternate && f.descriptortype == .int32

theorem cType_message_iff (f : MiniTableField) : f.cType = .message ↔ f.isSubMessage := by
  unfold cType type isSubMessage
  cases f.isAlternate <;> cases f.descriptortype <;> decide

theorem cType_enum_iff (f : MiniTableField) : f.cType = .enum ↔ f.isClosedEnum ∨ f.isOpenEnum := by
  unfold cType type isClosedEnum isOpenEnum
  cases f.isAlternate <;> cases f.descriptortype <;> decide

end MiniTableField

namespace MiniTable

variable (t : MiniTable) (f : MiniTableField)

/-- `hpb_MiniTable_GetSubMessageTable`; the table is `none` if the field is not linked. There is no result
if the read is not one of a table: outside `subs`, or of an enum. -/
def getSubMessageTable : Option (Option Nat) :=
  match t.subs[f.submsgIndex]? with
  | some .emptyMessage => some none
  | some (.submsg id) => some (some id)
  | _ => none

/-- `hpb_MiniTable_GetSubEnumTable`; there is no result if the read is not one of an enum. -/
def getSubEnumTable : Option (Option Nat) :=
  match t.subs[f.submsgIndex]? with
  | some .nullEnum => some none
  | some (.subenum id) => some (some id)
  | _ => none

end MiniTable

end Hpb
