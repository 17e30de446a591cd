import Hpb.MiniDescriptor.Decode
import Hpb.MiniTable.Enum

/-!
# Building an enum table (`hpb/mini_descriptor/build_enum.c`)

The descriptor of an enum is a sequence of masks of five values each, and of skips. Values go to the bit
mask of the table as long as it is dense enough, and from then on to the list behind it. Memory does
not run out here, but `enum_data_capacity` is a `uint32_t`, and a write may be outside of what was
allocated (`outOfBounds`).
-/

namespace Hpb

/-- How a build ends without a table. -/
inductive BuildEnumError where
  | message (msg : String)
  | outOfBounds
  deriving DecidableEq, Repr

/-- `hpb_MdEnumDecoder`; `enum_data_count` is the length of the data. -/
structure MdEnumDecoder where
  table : MiniTableEnum
  valueCount : Nat
  dataCapacity : Nat
  deriving DecidableEq, Repr

namespace MdEnumDecoder

/-- `_hpb_MiniTable_AddEnumDataMember`. -/
def addEnumDataMember (d : MdEnumDecoder) (val : Nat) : Except BuildEnumError MdEnumDecoder :=
  let capacity :=
    if d.table.data.length = d.dataCapacity then max 2 (d.dataCapacity * 2 % 2 ^ 32)
    else d.dataCapacity
  if d.table.data.length < capacity then
    .ok { d with table := { d.table with data := d.table.data ++ [val] }, dataCapacity := capacity }
  else .error .outOfBounds

/-- The loop that makes room for a mask of `limit` bits, from a mask of `n` words less. -/
def growMask (limit : Nat) : Nat → MdEnumDecoder → Except BuildEnumError MdEnumDecoder
  | 0, d => .ok d
  | n + 1, d =>
    if d.table.maskLimit < limit then do
      let d ← d.addEnumDataMember 0
      growMask limit n { d with
        table := { d.table with maskLimit := (d.table.maskLimit + 32) % 2 ^ 32 } }
    else .ok d

/-- `hpb_MiniTableEnum_BuildValue`. The mask grows by 32 bits at a time, so that the fuel of as many
words as the mask needs is not used up. -/
def buildValue (d : MdEnumDecoder) (val : Nat) : Except BuildEnumError MdEnumDecoder := do
  let d := { d with valueCount := (d.valueCount + 1) % 2 ^ 32 }
  if d.table.valueCount ≠ 0 ∨ (val > 512 ∧ d.valueCount < val / 32) then
    let d ← d.addEnumDataMember val
    return { d with table := { d.table with valueCount := (d.table.valueCount + 1) % 2 ^ 32 } }
  else
    let newMaskLimit := (val / 32 + 1) * 32 % 2 ^ 32
    let d ← growMask newMaskLimit (val / 32 + 1) d
    match d.table.data[val / 32]? with
    | none => .error .outOfBounds
    | some word =>
      return { d with table := { d.table with
        data := d.table.data.set (val / 32) (word ||| 1 <<< (val % 32)) } }

/-- The values that the mask `mask` stands for, from `base` on: `i` more of them are to be looked at. -/
def buildMask : Nat → Nat → Nat → MdEnumDecoder → Except BuildEnumError MdEnumDecoder
  | 0, _, _, d => .ok d
  | i + 1, mask, base, d => do
    let d ← if mask % 2 = 1 then d.buildValue base else .ok d
    buildMask i (mask / 2) ((base + 1) % 2 ^ 32) d

/-- The loop of `hpb_MtDecoder_DoBuildMiniTableEnum`; `skip` characters were read already. -/
def buildValues (base : Nat) (d : MdEnumDecoder) :
    Nat → List UInt8 → Except BuildEnumError MdEnumDecoder
  | _, [] => .ok d
  | skip + 1, _ :: rest => buildValues base d skip rest
  | 0, ch :: rest =>
    if charValue ch ≤ 65 then do -- 'A'
      let d ← buildMask 5 (wrapUInt32 (fromBase92 ch)).toNat base d
      buildValues ((base + 5) % 2 ^ 32) d 0 rest
    else if 95 ≤ ch ∧ ch ≤ 126 then
      match decodeBase92Varint 95 126 ch rest with
      | .error msg => .error (.message msg)
      | .ok (n, skip) => buildValues ((base + skip.toNat) % 2 ^ 32) d n rest
    else .error (.message s!"Error building mini table: Unexpected character: {Char.ofNat ch.toNat}")

/-- The decoder before the first value: at least 64 bits of mask. -/
def start : MdEnumDecoder := ⟨⟨64, 0, [0, 0]⟩, 0, 2⟩

end MdEnumDecoder

/-- `hpb_MiniDescriptor_BuildEnum`. -/
def buildEnum : List UInt8 → Except BuildEnumError MiniTableEnum
  | [] => .ok MdEnumDecoder.start.table
  | vers :: data =>
    if vers = 33 then do
      let d ← MdEnumDecoder.buildValues 0 MdEnumDecoder.start 0 data
      return d.table
    else
      .error (.message s!"Error building mini table: Invalid enum version: {Char.ofNat vers.toNat}")

end Hpb
