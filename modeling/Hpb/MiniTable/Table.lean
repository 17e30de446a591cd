import Mathlib.Data.List.Basic
import Mathlib.Tactic.Linarith

/-!
# Mini tables (`hpb/mini_table/internal/field.h`, `internal/message.h`, `message.c`)

The description of a message's layout and fields that the parser, the serializer and the accessors
read. Narrow integers are numbers here, wrapped to their width where the code stores them; a pointer
into `fields` is an index.
-/

namespace Hpb

/-- `hpb_FieldType`. -/
inductive FieldType where
  | double | float | int64 | uint64 | int32 | fixed64 | fixed32 | bool | string | group | message
  | bytes | uint32 | enum | sfixed32 | sfixed64 | sint32 | sint64
  deriving DecidableEq, Repr

namespace FieldType

/-- The number of a type in `descriptor.proto`. -/
def number : FieldType → Nat
  | double => 1
  | float => 2
  | int64 => 3
  | uint64 => 4
  | int32 => 5
  | fixed64 => 6
  | fixed32 => 7
  | bool => 8
  | string => 9
  | group => 10
  | message => 11
  | bytes => 12
  | uint32 => 13
  | enum => 14
  | sfixed32 => 15
  | sfixed64 => 16
  | sint32 => 17
  | sint64 => 18

/-- `hpb_FieldType_IsPackable`. -/
def isPackable : FieldType → Bool
  | string | bytes | message | group => false
  | _ => true

end FieldType

/-- `hpb_FieldRep`: how a field is stored. -/
inductive FieldRep where
  | oneByte | fourByte | stringView | eightByte
  deriving DecidableEq, Repr

namespace FieldRep

/-- The two bits of `mode` that hold the representation. -/
def bits : FieldRep → UInt8
  | oneByte => 0
  | fourByte => 1
  | stringView => 2
  | eightByte => 3

def ofBits (b : UInt8) : FieldRep :=
  if b = 0 then oneByte else if b = 1 then fourByte else if b = 2 then stringView else eightByte

end FieldRep

/-- `hpb_MiniTablePlatform`. -/
inductive Platform where
  | bits32 | bits64
  deriving DecidableEq, Repr

/-- `hpb_MtDecoder_SizeOfRep`. -/
def sizeOfRep : FieldRep → Platform → Nat
  | .oneByte, _ => 1
  | .fourByte, _ => 4
  | .stringView, .bits32 => 8
  | .stringView, .bits64 => 16
  | .eightByte, _ => 8

/-- `hpb_MtDecoder_AlignOfRep`. -/
def alignOfRep : FieldRep → Platform → Nat
  | .oneByte, _ => 1
  | .fourByte, _ => 4
  | .stringView, .bits32 => 4
  | .stringView, .bits64 => 8
  | .eightByte, _ => 8

/-- `HPB_ALIGN_UP`. -/
def alignUp (size align : Nat) : Nat := (size + align - 1) / align * align

/-- The value of an `int16_t` after an assignment. -/
def toInt16 (x : Int) : Int := (x + 2 ^ 15) % 2 ^ 16 - 2 ^ 15

/-- `hpb_MiniTableField`. -/
structure MiniTableField where
  number : Nat
  offset : Nat
  /-- If `> 0` the index of the has-bit, if `< 0` the complement of the offset of the oneof case. -/
  presence : Int
  submsgIndex : Nat
  descriptortype : FieldType
  /-- Mode, label flags and representation. -/
  mode : UInt8
  deriving DecidableEq, Repr

namespace FieldMode

def map : UInt8 := 0
def array : UInt8 := 1
def scalar : UInt8 := 2

end FieldMode

namespace LabelFlags

def isPacked : UInt8 := 4
def isExtension : UInt8 := 8
def isAlternate : UInt8 := 16

end LabelFlags

/-- `kHpb_NoSub`. -/
def noSub : Nat := 65535

namespace MiniTableField

/-- `_hpb_MiniTableField_GetRep`. -/
def rep (f : MiniTableField) : FieldRep := .ofBits (f.mode >>> 6)

/-- `hpb_FieldMode_Get`. -/
def fieldMode (f : MiniTableField) : UInt8 := f.mode &&& 3

/-- `hpb_IsRepeatedOrMap`. -/
def isRepeatedOrMap (f : MiniTableField) : Bool := f.mode &&& FieldMode.scalar == 0

/-- `hpb_IsSubMessage`. -/
def isSubMessage (f : MiniTableField) : Bool :=
  f.descriptortype == .message || f.descriptortype == .group

end MiniTableField

namespace ExtMode

def nonExtendable : Nat := 0
def extendable : Nat := 1
def isMessageSet : Nat := 2
def isMessageSetItem : Nat := 3
def isMapEntry : Nat := 4

end ExtMode

/-- `hpb_MiniTableSub`: a table or enum by its number, or what stands there before it is linked
(`_kHpb_MiniTable_Empty` and `NULL`). -/
inductive MiniTableSub where
  | emptyMessage
  | nullEnum
  | submsg (table : Nat)
  | subenum (enum : Nat)
  deriving DecidableEq, Repr

/-- `hpb_MiniTable`. -/
structure MiniTable where
  subs : List MiniTableSub
  fields : List MiniTableField
  size : Nat
  fieldCount : Nat
  ext : Nat
  denseBelow : Nat
  tableMask : Nat
  requiredCount : Nat
  deriving DecidableEq, Repr

namespace MiniTable

/-- The binary search of `hpb_MiniTable_FindFieldByNumber` over `[lo, hi]`. The range shrinks, so the
fuel of one more than its length is never used up. -/
def searchField (fields : List MiniTableField) (number : Nat) : Nat → Int → Int → Option Nat
  | 0, _, _ => none
  | fuel + 1, lo, hi =>
    if lo ≤ hi then
      let mid := (lo + hi) / 2
      match fields[mid.toNat]? with
      | none => none
      | some f =>
        if f.number < number then searchField fields number fuel (mid + 1) hi
        else if f.number > number then searchField fields number fuel lo (mid - 1)
        else some mid.toNat
    else none

/-- `hpb_MiniTable_FindFieldByNumber`. -/
def findFieldByNumber (fields : List MiniTableField) (denseBelow fieldCount number : Nat) :
    Option Nat :=
  -- 0 wraps to `SIZE_MAX`
  if number ≠ 0 ∧ number - 1 < denseBelow then some (number - 1)
  else searchField fields number (fieldCount + 1) denseBelow (fieldCount - 1 : Int)

end MiniTable

end Hpb
