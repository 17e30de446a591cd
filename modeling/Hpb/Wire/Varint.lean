import Hpb.Wire.EpsCopyInputStream

/-!
# Variable-length integers (`hpb/wire/decode.c`, `reader.h`, `reader.c`, `decode_fast.c`, `encode.c`)

The readers look at the bytes `mem` from their pointer on; at least ten of them can be read. A result
is the number of bytes that were read and the value.

* `Decoder.decodeVarint`, `Decoder.decodeTag`, `Decoder.decodeSize`: the generic decoder.
* `WireReader.readVarint`: the reader for other parsers.
* `fastdecodeVarint64`, `fastdecodeLongsize`: the fast decoder.
* `encodeVarint64`: the writer.
-/

namespace Hpb

/-- `val += (byte - 1) << shift`. -/
def addByte (val : UInt64) (byte : UInt8) (shift : Nat) : UInt64 :=
  val + (byte.toUInt64 - 1) <<< UInt64.ofNat shift

/-- The loop of the long readers, from the byte `i` on. -/
def longVarint (mem : Nat → UInt8) : Nat → Nat → UInt64 → Option (Nat × UInt64)
  | 0, _, _ => none
  | fuel + 1, i, val =>
    let val := addByte val (mem i) (i * 7)
    if mem i &&& 128 = 0 then some (i + 1, val) else longVarint mem fuel (i + 1) val

namespace Decoder

/-- `_hpb_Decoder_DecodeLongVarint`. -/
def decodeLongVarint (mem : Nat → UInt8) (val : UInt64) : Option (Nat × UInt64) :=
  longVarint mem 9 1 val

/-- `_hpb_Decoder_DecodeVarint`; none is `kHpb_DecodeStatus_Malformed`. -/
def decodeVarint (mem : Nat → UInt8) : Option (Nat × UInt64) :=
  if mem 0 &&& 128 = 0 then some (1, (mem 0).toUInt64) else decodeLongVarint mem (mem 0).toUInt64

/-- `_hpb_Decoder_DecodeTag`. -/
def decodeTag (mem : Nat → UInt8) : Option (Nat × UInt32) :=
  if mem 0 &&& 128 = 0 then some (1, (mem 0).toUInt32)
  else
    match decodeLongVarint mem (mem 0).toUInt64 with
    | none => none
    | some (n, val) => if n > 5 ∨ val.toNat > 2 ^ 32 - 1 then none else some (n, val.toUInt32)

/-- `hpb_Decoder_DecodeSize`; `checkSize n size` is `hpb_EpsCopyInputStream_CheckSize` after `n` bytes. -/
def decodeSize (checkSize : Nat → Nat → Bool) (mem : Nat → UInt8) : Option (Nat × UInt32) :=
  match decodeVarint mem with
  | none => none
  | some (n, size) =>
    if size.toNat ≥ int32Max ∨ ¬checkSize n size.toNat then none else some (n, size.toUInt32)

end Decoder

namespace WireReader

/-- `_hpb_WireReader_ReadLongVarint`. -/
def readLongVarint (mem : Nat → UInt8) (val : UInt64) : Option (Nat × UInt64) :=
  longVarint mem 9 1 val

/-- `_hpb_WireReader_ReadVarint`. -/
def readVarintUpTo (mem : Nat → UInt8) (maxlen : Nat) (maxval : UInt64) : Option (Nat × UInt64) :=
  if mem 0 &&& 128 = 0 then some (1, (mem 0).toUInt64)
  else
    match readLongVarint mem (mem 0).toUInt64 with
    | none => none
    | some (n, val) => if (maxlen < 10 ∧ n > maxlen) ∨ val > maxval then none else some (n, val)

/-- `hpb_WireReader_ReadVarint`. -/
def readVarint (mem : Nat → UInt8) : Option (Nat × UInt64) := readVarintUpTo mem 10 18446744073709551615

end WireReader

/-- The loop of `fastdecode_varint64` and the tenth byte after it. -/
def fastVarintFrom (mem : Nat → UInt8) : Nat → Nat → UInt64 → Option (Nat × UInt64)
  | 0, i, val => if mem (1 + i) > 1 then none else some (2 + i, addByte val (mem (1 + i)) 63)
  | fuel + 1, i, val =>
    let val := addByte val (mem (1 + i)) (7 + 7 * i)
    if mem (1 + i) &&& 128 = 0 then some (2 + i, val) else fastVarintFrom mem fuel (i + 1) val

/-- `fastdecode_varint64`. -/
def fastdecodeVarint64 (mem : Nat → UInt8) : Option (Nat × UInt64) :=
  if mem 0 &&& 128 = 0 then some (1, (mem 0).toUInt64)
  else fastVarintFrom mem 8 0 (mem 0).toUInt64

/-- `*size += (byte - 1) << shift` for an `int`. -/
def addSizeByte (size : UInt32) (byte : UInt8) (shift : Nat) : UInt32 :=
  (addByte size.toUInt64 byte shift).toUInt32

/-- The loop of `fastdecode_longsize` and the last byte after it. -/
def fastLongsizeFrom (mem : Nat → UInt8) : Nat → Nat → UInt32 → Option (Nat × UInt32)
  | 0, i, size => if mem i ≥ 8 then none else some (i + 1, addSizeByte size (mem i) 28)
  | fuel + 1, i, size =>
    let size := addSizeByte size (mem i) (7 + 7 * i)
    if mem i &&& 128 = 0 then some (i + 1, size) else fastLongsizeFrom mem fuel (i + 1) size

/-- `fastdecode_longsize`, after the first byte of the size, which is in `size`. -/
def fastdecodeLongsize (mem : Nat → UInt8) (size : UInt32) : Option (Nat × UInt32) :=
  fastLongsizeFrom mem 3 0 (size &&& 255)

/-- The size as `fastdecode_delimited` reads it if its first byte is not the last one: that byte is
sign-extended. -/
def fastdecodeSize (mem : Nat → UInt8) : Option (Nat × UInt32) :=
  (fastdecodeLongsize (fun i => mem (i + 1)) (mem 0).toInt8.toInt32.toUInt32).map fun (n, size) =>
    (n + 1, size)

/-- The loop of `encode_varint64`. A `uint64_t` has at most ten digits, so the fuel is not used up. -/
def putSeptets : Nat → UInt64 → List UInt8
  | 0, _ => []
  | fuel + 1, val =>
    let rest := val >>> 7
    if rest = 0 then [(val &&& 127).toUInt8] else ((val &&& 127).toUInt8 ||| 128) :: putSeptets fuel rest

/-- `encode_varint64`. -/
def encodeVarint64 (val : UInt64) : List UInt8 := putSeptets 10 val

end Hpb
