import Hpb.Lib.BitField
import Mathlib.Tactic.Common

/-!
# The dispatch of the fast decoder (`hpb/wire/internal/decode.h`, `decode_fast.c`)

The two bytes at the pointer choose an entry of the fast table. The parser of the entry is given its data, with
these bytes xored into the low ones, and reads the place of the field from it.

* `dispatchIndex`, `dispatchData`: `_hpb_FastDecoder_TagDispatch`.
* `fieldMem`, `hasbitIndex`, `caseOfs`, `fieldNumber`: what `fastdecode_getfield` reads.
* `submsgIdx`: what the parsers of sub-messages read.
* `checkTag`: `fastdecode_checktag`.
-/

namespace Hpb

namespace FastDecoder

/-- The index in the table. -/
def dispatchIndex (mask : UInt8) (tag : UInt64) : Nat := ((tag &&& mask.toUInt64) >>> 3).toNat

/-- The data for the parser. -/
def dispatchData (fieldData tag : UInt64) : UInt64 := fieldData ^^^ tag

/-- `fastdecode_fieldmem`: the offset. -/
def fieldMem (data : UInt64) : Nat := (data >>> 48).toNat

def hasbitIndex (data : UInt64) : Nat := (data >>> 24).toUInt8.toNat

def caseOfs (data : UInt64) : Nat := (data >>> 32).toUInt16.toNat

def fieldNumber (data : UInt64) : Nat := (data >>> 24).toUInt8.toNat

def submsgIdx (data : UInt64) : Nat := ((data >>> 16) &&& 255).toUInt32.toNat

def checkTag (data : UInt16) (tagBytes : Nat) : Bool :=
  if tagBytes = 1 then data &&& 255 == 0 else data == 0

section

variable (data : UInt64)

theorem fieldMem_eq : fieldMem data = bitField 48 16 data.toNat := by
  have := data.toNat_lt
  rw [fieldMem, bitField, UInt64.toNat_shiftRight, Nat.shiftRight_eq_div_pow, Nat.shiftRight_eq_div_pow]
  simp
  omega

theorem hasbitIndex_eq : hasbitIndex data = bitField 24 8 data.toNat := by
  rw [hasbitIndex, bitField, UInt64.toNat_toUInt8, UInt64.toNat_shiftRight]
  rfl

theorem caseOfs_eq : caseOfs data = bitField 32 16 data.toNat := by
  rw [caseOfs, bitField, UInt64.toNat_toUInt16, UInt64.toNat_shiftRight]
  rfl

theorem fieldNumber_eq : fieldNumber data = bitField 24 8 data.toNat := hasbitIndex_eq data

theorem submsgIdx_eq : submsgIdx data = bitField 16 8 data.toNat := by
  have hand : ((data >>> 16) &&& 255).toNat = bitField 16 8 data.toNat := by
    rw [UInt64.toNat_and, UInt64.toNat_shiftRight]
    exact Nat.and_two_pow_sub_one_eq_mod _ 8
  have hlt : bitField 16 8 data.toNat < 2 ^ 8 := Nat.mod_lt _ (by decide)
  rw [submsgIdx, UInt64.toNat_toUInt32, hand]
  omega

end

end FastDecoder

end Hpb
