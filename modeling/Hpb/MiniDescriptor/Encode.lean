import Hpb.MiniDescriptor.Base92
import Hpb.MiniTable.Table

/-!
# Writing mini descriptors (`hpb/mini_descriptor/internal/encode.c`)

Each function returns the characters that it writes and the encoder's state after it; the caller's
buffer has room. `uint32_t` values are numbers below `2 ^ 32`.

* `putBase92Varint`: numbers, least significant digits first.
* `MsgState`: `startMessage`, `putField`, `startOneof`, `putOneofField`.
* `encodeExtension`, `encodeMap`, `encodeMessageSet`: the other kinds of descriptors.
* `EnumState`: `startEnum`, `putEnumValue`, `endEnum`.
-/

namespace Hpb

/-- `_kHpb_ToBase92`. -/
def toBase92Table : List UInt8 :=
  [32, 33, 35, 36, 37, 38, 40, 41, 42, 43, 44, 45, 46, 47, 48, 49, 50, 51, 52, 53, 54, 55, 56, 57, 58,
    59, 60, 61, 62, 63, 64, 65, 66, 67, 68, 69, 70, 71, 72, 73, 74, 75, 76, 77, 78, 79, 80, 81, 82, 83,
    84, 85, 86, 87, 88, 89, 90, 91, 93, 94, 95, 96, 97, 98, 99, 100, 101, 102, 103, 104, 105, 106, 107,
    108, 109, 110, 111, 112, 113, 114, 115, 116, 117, 118, 119, 120, 121, 122, 123, 124, 125, 126]

/-- `_hpb_ToBase92`; the source asserts `0 ≤ x < 92`. -/
def toBase92 (x : Int) : UInt8 := toBase92Table.getD x.toNat 0

/-- The loop of `hpb_MtDataEncoder_PutBase92Varint`. A `uint32_t` has at most 32 digits, so the fuel is
not used up. -/
def putDigits (shift : Nat) (base : Int) : Nat → Nat → List UInt8
  | 0, _ => []
  | fuel + 1, val =>
    toBase92 (base + (val % 2 ^ shift : Nat)) ::
      if val / 2 ^ shift = 0 then [] else putDigits shift base fuel (val / 2 ^ shift)

/-- `hpb_MtDataEncoder_PutBase92Varint`. -/
def putBase92Varint (min max : UInt8) (val : Nat) : List UInt8 :=
  putDigits (log2Ceiling (fromBase92 max - fromBase92 min + 1)) (fromBase92 min) 32 val

/-- `kHpb_FieldModifier`. -/
structure FieldModifiers where
  isRepeated : Bool
  isPacked : Bool
  isClosedEnum : Bool
  isProto3Singular : Bool
  isRequired : Bool
  deriving DecidableEq, Repr

/-- `kHpb_MessageModifier`, the bits of `msg_mod`. -/
structure MsgModifiers where
  validateUtf8 : Bool
  defaultIsPacked : Bool
  isExtendable : Bool
  deriving DecidableEq, Repr

/-- The bits as a number. -/
def MsgModifiers.bits (m : MsgModifiers) : Nat :=
  m.validateUtf8.toNat + 2 * m.defaultIsPacked.toNat + 4 * m.isExtendable.toNat

/-- The number of a type in an encoded field, `kHpb_TypeToEncoded`. -/
def typeToEncoded : FieldType → Int
  | .double => 0
  | .float => 1
  | .int64 => 9
  | .uint64 => 10
  | .int32 => 6
  | .fixed64 => 3
  | .fixed32 => 2
  | .bool => 13
  | .string => 15
  | .group => 16
  | .message => 17
  | .bytes => 14
  | .uint32 => 7
  | .enum => 12
  | .sfixed32 => 4
  | .sfixed64 => 5
  | .sint32 => 8
  | .sint64 => 11

inductive OneofState where
  | notStarted | startedOneof | emittedOneofField
  deriving DecidableEq, Repr

/-- `hpb_MtDataEncoderInternal_MsgState`. -/
structure MsgState where
  msgModifiers : MsgModifiers
  lastFieldNum : Nat
  oneofState : OneofState
  deriving DecidableEq, Repr

namespace MsgState

/-- `hpb_MtDataEncoder_PutModifier`. -/
def putModifier (mod : Nat) : List UInt8 := if mod = 0 then [] else putBase92Varint 76 91 mod

/-- `hpb_MtDataEncoder_StartMessage`. -/
def startMessage (msgMod : MsgModifiers) : List UInt8 × MsgState :=
  (36 :: putModifier msgMod.bits, ⟨msgMod, 0, .notStarted⟩)

/-- `_hpb_MtDataEncoder_MaybePutFieldSkip`; fails if the numbers do not ascend. -/
def maybePutFieldSkip (s : MsgState) (fieldNum : Nat) : Option (List UInt8 × MsgState) :=
  if fieldNum ≤ s.lastFieldNum then none
  else
    some (if (s.lastFieldNum + 1) % 2 ^ 32 ≠ fieldNum then
        putBase92Varint 95 126 (fieldNum - s.lastFieldNum)
      else [], { s with lastFieldNum := fieldNum })

/-- `_hpb_MtDataEncoder_PutFieldType`. -/
def putFieldType (type : FieldType) (mod : FieldModifiers) : List UInt8 :=
  let encodedType := if mod.isClosedEnum then 18 else typeToEncoded type
  [toBase92 (if mod.isRepeated then encodedType + 20 else encodedType)]

/-- The modifiers that `_hpb_MtDataEncoder_MaybePutModifiers` writes. -/
def encodedModifiers (s : MsgState) (type : FieldType) (mod : FieldModifiers) : Nat :=
  (if mod.isRepeated && type.isPackable && mod.isPacked != s.msgModifiers.defaultIsPacked then 1 else 0) +
    (if mod.isProto3Singular then 4 else 0) + (if mod.isRequired then 2 else 0)

/-- `hpb_MtDataEncoder_PutField`. -/
def putField (s : MsgState) (type : FieldType) (fieldNum : Nat) (mod : FieldModifiers) :
    Option (List UInt8 × MsgState) := do
  let (skip, s) ← s.maybePutFieldSkip fieldNum
  return (skip ++ putFieldType type mod ++ putModifier (s.encodedModifiers type mod), s)

/-- `hpb_MtDataEncoder_StartOneof`. -/
def startOneof (s : MsgState) : List UInt8 × MsgState :=
  ([toBase92 (fromBase92 (if s.oneofState = .notStarted then 94 else 126))],
    { s with oneofState := .startedOneof })

/-- `hpb_MtDataEncoder_PutOneofField`. -/
def putOneofField (s : MsgState) (fieldNum : Nat) : List UInt8 × MsgState :=
  ((if s.oneofState = .emittedOneofField then [toBase92 (fromBase92 124)] else []) ++
      putBase92Varint (toBase92 0) (toBase92 63) fieldNum,
    { s with oneofState := .emittedOneofField })

end MsgState

/-- `hpb_MtDataEncoder_EncodeExtension`. -/
def encodeExtension (type : FieldType) (fieldNum : Nat) (mod : FieldModifiers) : Option (List UInt8) := do
  let (chars, _) ← MsgState.putField ⟨⟨false, false, false⟩, 0, .notStarted⟩ type fieldNum mod
  return 35 :: chars

/-- `hpb_MtDataEncoder_EncodeMap`. -/
def encodeMap (keyType valueType : FieldType) (keyMod valueMod : FieldModifiers) :
    Option (List UInt8) := do
  let (key, s) ← MsgState.putField ⟨⟨false, false, false⟩, 0, .notStarted⟩ keyType 1 keyMod
  let (value, _) ← s.putField valueType 2 valueMod
  return 37 :: key ++ value

/-- `hpb_MtDataEncoder_EncodeMessageSet`. -/
def encodeMessageSet : List UInt8 := [38]

/-- `hpb_MtDataEncoderInternal_EnumState`. -/
structure EnumState where
  presentValuesMask : Nat
  lastWrittenValue : Nat
  deriving DecidableEq, Repr

namespace EnumState

/-- `hpb_MtDataEncoder_StartEnum`. -/
def startEnum : List UInt8 × EnumState := ([33], ⟨0, 0⟩)

/-- `hpb_MtDataEncoder_FlushDenseEnumMask`. -/
def flushDenseEnumMask (s : EnumState) : List UInt8 × EnumState :=
  ([toBase92 s.presentValuesMask], ⟨0, (s.lastWrittenValue + 5) % 2 ^ 32⟩)

/-- `hpb_MtDataEncoder_PutEnumValue`; the source asserts that `val` is not below the last written
value. -/
def putEnumValue (s : EnumState) (val : Nat) : List UInt8 × EnumState :=
  let delta := val - s.lastWrittenValue
  let (flushed, s, delta) :=
    if delta ≥ 5 ∧ s.presentValuesMask ≠ 0 then
      let (chars, s) := s.flushDenseEnumMask
      (chars, s, delta - 5)
    else ([], s, delta)
  let (skipped, s, delta) :=
    if delta ≥ 5 then
      (putBase92Varint 95 126 delta,
        { s with lastWrittenValue := (s.lastWrittenValue + delta) % 2 ^ 32 }, 0)
    else ([], s, delta)
  (flushed ++ skipped, { s with presentValuesMask := s.presentValuesMask ||| 1 <<< delta })

/-- `hpb_MtDataEncoder_EndEnum`. -/
def endEnum (s : EnumState) : List UInt8 :=
  if s.presentValuesMask = 0 then [] else s.flushDenseEnumMask.1

/-- The values of an enum, one after the other, and its end. -/
def putEnumValues (s : EnumState) : List Nat → List UInt8
  | [] => s.endEnum
  | val :: vals =>
    let (chars, s) := s.putEnumValue val
    chars ++ putEnumValues s vals

end EnumState

/-- The descriptor of an enum with the values `vals`. -/
def encodeEnum (vals : List Nat) : List UInt8 :=
  let (chars, s) := EnumState.startEnum
  chars ++ s.putEnumValues vals

end Hpb
