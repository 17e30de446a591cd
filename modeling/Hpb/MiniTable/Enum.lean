import Mathlib.Data.List.Basic
import Mathlib.Tactic.Linarith

/-!
# Enum tables (`hpb/mini_table/enum.h`, `hpb/mini_table/internal/enum.h`)

A table of the values of a closed enum: words of a bit mask for the values below `maskLimit`, then a
list of `valueCount` further values.
-/

namespace Hpb

/-- `hpb_MiniTableEnum`. -/
structure MiniTableEnum where
  maskLimit : Nat
  valueCount : Nat
  data : List Nat
  deriving DecidableEq, Repr

/-- `_kHpb_FastEnumCheck_Status`. -/
inductive FastEnumCheckStatus where
  | valueIsInEnum | valueIsNotInEnum | cannotCheckFast
  deriving DecidableEq, Repr

namespace MiniTableEnum

/-- `_hpb_MiniTable_CheckEnumValueFast`. -/
def checkEnumValueFast (e : MiniTableEnum) (val : Nat) : FastEnumCheckStatus :=
  if val ≥ 64 then .cannotCheckFast
  else
    let mask := e.data.getD 0 0 ||| e.data.getD 1 0 <<< 32
    if mask &&& 1 <<< val ≠ 0 then .valueIsInEnum else .valueIsNotInEnum

/-- `_hpb_MiniTable_CheckEnumValueSlow`. -/
def checkEnumValueSlow (e : MiniTableEnum) (val : Nat) : Bool :=
  if val < e.maskLimit then e.data.getD (val / 32) 0 &&& 1 <<< (val % 32) != 0
  else ((e.data.drop (e.maskLimit / 32)).take e.valueCount).contains val

/-- `hpb_MiniTableEnum_CheckValue`. -/
def checkValue (e : MiniTableEnum) (val : Nat) : Bool :=
  match e.checkEnumValueFast val with
  | .cannotCheckFast => e.checkEnumValueSlow val
  | .valueIsInEnum => true
  | .valueIsNotInEnum => false

end MiniTableEnum

end Hpb
