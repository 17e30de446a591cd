import Hpb.Hash.Table

/-!
# Base 92 (`hpb/mini_descriptor/internal/base92.h`)

Mini descriptors are printable strings. Characters are bytes here; `char` is signed.
-/

namespace Hpb

/-- `_kHpb_FromBase92`. -/
def fromBase92Table : List Int :=
  [0, 1, -1, 2, 3, 4, 5, -1, 6, 7, 8, 9, 10, 11, 12, 13, 14, 15, 16, 17, 18, 19, 20, 21, 22, 23, 24,
    25, 26, 27, 28, 29, 30, 31, 32, 33, 34, 35, 36, 37, 38, 39, 40, 41, 42, 43, 44, 45, 46, 47, 48,
    49, 50, 51, 52, 53, 54, 55, 56, 57, -1, 58, 59, 60, 61, 62, 63, 64, 65, 66, 67, 68, 69, 70, 71,
    72, 73, 74, 75, 76, 77, 78, 79, 80, 81, 82, 83, 84, 85, 86, 87, 88, 89, 90, 91]

/-- `_hpb_FromBase92`. -/
def fromBase92 (ch : UInt8) : Int :=
  if ch < 32 ∨ 126 < ch then -1 else fromBase92Table.getD (ch.toNat - 32) (-1)

/-- The value of a `char`. -/
def charValue (ch : UInt8) : Int := if ch < 128 then ch.toNat else ch.toNat - 256

/-- The value of a `uint32_t` after an assignment. -/
def wrapUInt32 (x : Int) : UInt32 := UInt32.ofNat (x % 2 ^ 32).toNat

/-- `_hpb_Base92_DecodeVarint` after `first_ch`: the number of further characters it read, and the
value; `none` if it is overlong. -/
def decodeVarint (min max : UInt8) (val : UInt32) (shift : Nat) (ch : UInt8) :
    List UInt8 → Option (Nat × UInt32)
  | [] => some (0, val ||| wrapUInt32 (fromBase92 ch - fromBase92 min) <<< UInt32.ofNat shift)
  | c :: rest =>
    let val := val ||| wrapUInt32 (fromBase92 ch - fromBase92 min) <<< UInt32.ofNat shift
    if charValue c < min.toNat ∨ (max.toNat : Int) < charValue c then some (0, val)
    else
      let shift := shift + log2Ceiling (fromBase92 max - fromBase92 min)
      if shift ≥ 32 then none
      else (decodeVarint min max val shift c rest).map fun (n, v) => (n + 1, v)

end Hpb
