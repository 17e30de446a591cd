import Mathlib.Data.List.Sort
import Hpb.Message.Defs
import Hpb.MiniTable.Compat
import Hpb.Wire.FieldStart
import Hpb.Wire.FastDispatch

/-!
# Fast tables (`hpbc/c_hpb.cc`)

The generator puts the fields of a message into a table that the fast decoder looks up by the first bytes of a
tag. A field has a place if its tag has at most two bytes, and an entry if its type is supported and its values
fit into the 64 bits of the entry.

* `GenMessage.tryFillTableEntry`, `GenMessage.fastDecodeTable`, `tableMask`: the generator.
* `GenMessage.TableRight`: what the fast decoder relies on.
-/

namespace Hpb

open Reflection FastDecoder

namespace Hpbc

/-- The name of the parser of an entry. -/
inductive ParserName where
  | generic
  | field (cardinality type : String) (tagBytes : Nat)
  | message (cardinality type : String) (tagBytes : Nat) (sizeCeil : String)
  deriving DecidableEq, Repr

/-- The name as it is written. -/
def ParserName.text : ParserName → String
  | .generic => "_hpb_FastDecoder_DecodeGeneric"
  | .field c t n => "hpb_p" ++ c ++ t ++ "_" ++ toString n ++ "bt"
  | .message c t n s => "hpb_p" ++ c ++ t ++ "_" ++ toString n ++ "bt_max" ++ s ++ "b"

/-- `TableEntry`. -/
structure TableEntry where
  parser : ParserName
  data : UInt64
  deriving DecidableEq, Repr

/-- An entry without a field. -/
def TableEntry.generic : TableEntry := ⟨.generic, 0⟩

/-- A message of the pool, with its mini table for platforms of 64 bits. -/
structure GenMessage where
  defn : Reflection.MessageDef
  mt : MiniTable
  /-- The size of the table of a field's message, if that is in the same file. -/
  subSize : FieldDef → Option Nat
  /-- The pool takes only such numbers. -/
  number : ∀ f ∈ defn.fields, 0 < f.number ∧ f.number < 2 ^ 29
  /-- The table was built from the definition. -/
  linked : ∀ f ∈ defn.fields, ∃ mf, mt.fieldByNumber f.number = some mf ∧ f.type = some mf.type
  /-- The offset is a `uint16_t`, the presence an `int16_t`. -/
  words : ∀ mf ∈ mt.fields, mf.offset < 2 ^ 16 ∧ -2 ^ 15 ≤ mf.presence ∧ mf.presence < 2 ^ 15

/-- `Chpb::GetWireTypeForField`. -/
def getWireTypeForField (f : FieldDef) : WireType :=
  if f.isPacked then .delimited
  else match f.type with
    | some .double | some .fixed64 | some .sfixed64 => .fixed64
    | some .float | some .fixed32 | some .sfixed32 => .fixed32
    | some .int64 | some .uint64 | some .int32 | some .bool | some .uint32 | some .enum | some .sint32
    | some .sint64 => .varint
    | some .group => .startGroup
    | some .message | some .string | some .bytes => .delimited
    | none => .varint -- the type of a field in a pool is known

/-- The bytes that `WriteVarint32ToArray` writes for the tag of a field. -/
def tagArray (f : FieldDef) : List UInt8 :=
  putSeptets 10 (makeTag f.number (getWireTypeForField f)).toUInt64

/-- `Chpb::GetEncodedTag`. -/
def getEncodedTag (f : FieldDef) : UInt64 := Decoder.littleEndian (fun i => (tagArray f).getD i 0) 8 0

/-- `Chpb::GetTableSlot`, without a result for -1. -/
def getTableSlot (f : FieldDef) : Option Nat :=
  let tag := getEncodedTag f
  if tag > 32767 then none else some ((tag &&& 248) >>> 3).toNat

/-- The order of `Chpb::FieldHotnessOrder`. -/
def hotter (f g : FieldDef) : Bool :=
  if (f.label = .required) = (g.label = .required) then f.number ≤ g.number else f.label = .required

/-- The type in the name of a parser, if it is supported. -/
def parserType (mf : MiniTableField) : Option String :=
  match mf.type with
  | .bool => some "b1"
  | .enum => if mf.isClosedEnum then none else some "v4"
  | .int32 | .uint32 => some "v4"
  | .int64 | .uint64 => some "v8"
  | .fixed32 | .sfixed32 | .float => some "f4"
  | .fixed64 | .sfixed64 | .double => some "f8"
  | .sint32 => some "z4"
  | .sint64 => some "z8"
  | .string => some "s"
  | .bytes => some "b"
  | .message => some "m"
  | .group => none

/-- The cardinality in the name of a parser, if it is supported. -/
def parserCardinality (mf : MiniTableField) : Option String :=
  if mf.fieldMode = FieldMode.map then none
  else if mf.fieldMode = FieldMode.array then some (if mf.mode &&& LabelFlags.isPacked ≠ 0 then "p" else "r")
  else if mf.fieldMode = FieldMode.scalar then some (if mf.presence < 0 then "o" else "s")
  else some ""

/-- The number of bytes of a tag in the name of a parser. -/
def tagBytes (encodedTag : UInt64) : Nat := if encodedTag > 255 then 2 else 1

/-- The size in the name of the parser of a sub-message: the first of the breaks that is large enough. -/
def sizeCeil (size : Option Nat) : String :=
  match size.bind fun size => [64, 128, 192, 256].find? fun brk => size + 8 ≤ brk with
  | some brk => toString brk
  | none => "max"

/-- What an entry says about the presence of a field: a oneof case and a number, or a has-bit. -/
def presenceData (inOneof : Bool) (f : FieldDef) (mf : MiniTableField) : Option UInt64 :=
  if inOneof then
    let caseOffset := UInt64.ofInt (-mf.presence - 1)
    if caseOffset > 65535 ∨ f.number > 255 then none
    else some ((UInt32.ofNat f.number <<< 24).toUInt64 ||| caseOffset <<< 32)
  else if mf.presence = 0 then some ((63 : UInt64) <<< 24) -- no has-bit
  else
    let hasbitIndex := UInt64.ofInt mf.presence
    if hasbitIndex > 31 then none else some (hasbitIndex <<< 24)

namespace GenMessage

variable (m : GenMessage)

/-- `hpb_FieldDef_RealContainingOneof`: whether there is one. -/
def inRealOneof (f : FieldDef) : Bool :=
  match f.oneof.bind fun i => m.defn.oneofs[i]? with
  | some oneof => !oneof.synthetic
  | none => false

/-- `Chpb::TryFillTableEntry`, for a field with its field in the mini table. -/
def fillTableEntry (f : FieldDef) (mf : MiniTableField) : Option TableEntry := do
  let type ← parserType mf
  let cardinality ← parserCardinality mf
  let expectedTag := getEncodedTag f
  let data := UInt64.ofNat mf.offset <<< 48 ||| expectedTag
  let presence ← presenceData (m.inRealOneof f) f mf
  let data := data ||| presence
  if f.cType = some .message then
    let idx := mf.submsgIndex
    if idx > 255 then none
    else some ⟨.message cardinality type (tagBytes expectedTag) (sizeCeil (m.subSize f)),
      data ||| UInt64.ofNat idx <<< 16⟩
  else some ⟨.field cardinality type (tagBytes expectedTag), data⟩

/-- `Chpb::TryFillTableEntry`. The table has the field. -/
def tryFillTableEntry (f : FieldDef) : Option TableEntry :=
  (m.mt.fieldByNumber f.number).bind (m.fillTableEntry f)

/-- `Chpb::FieldHotnessOrder`. -/
def fieldHotnessOrder : List FieldDef := m.defn.fields.mergeSort hotter

end GenMessage

/-- The loop that makes the table larger until it has the slot. Each round adds an entry, so the fuel is not
used up. -/
def growTable (slot : Nat) : Nat → List TableEntry → List TableEntry
  | 0, table => table
  | fuel + 1, table =>
    if table.length ≤ slot then
      let size := max 1 (table.length * 2)
      growTable slot fuel (table ++ List.replicate (size - table.length) .generic)
    else table

namespace GenMessage

variable (m : GenMessage)

/-- One round of the loop of `Chpb::FastDecodeTable`. -/
def addToTable (table : List TableEntry) (f : FieldDef) : List TableEntry :=
  match getTableSlot f, m.tryFillTableEntry f with
  | some slot, some ent =>
    let table := growTable slot (slot + 1) table
    if (table[slot]?.map (·.parser)) ≠ some .generic then table -- a hotter field is there
    else table.set slot ent
  | _, _ => table

/-- `Chpb::FastDecodeTable`. -/
def fastDecodeTable : List TableEntry := m.fieldHotnessOrder.foldl m.addToTable []

end GenMessage

/-- `table_mask` in `Chpb::WriteMessage`. -/
def tableMask (table : List TableEntry) : UInt8 :=
  if 1 < table.length then UInt8.ofNat ((table.length - 1) <<< 3) else 0 - 1

/-! ### What the decoder relies on -/

/-- `_hpb_FastDecoder_LoadTag` from bytes that begin with an encoded tag. -/
def StartsWith (loaded : UInt16) (encodedTag : UInt64) : Prop :=
  loaded.toNat % 2 ^ (8 * tagBytes encodedTag) = encodedTag.toNat

/-- The data has the values of a field where the parsers read them. -/
structure Unpacks (data : UInt64) (f : FieldDef) (mf : MiniTableField) : Prop where
  offset : fieldMem data = mf.offset
  /-- The number 63 stands for no has-bit. -/
  hasbit : 0 ≤ mf.presence → (hasbitIndex data : Int) = if mf.presence = 0 then 63 else mf.presence
  oneof : mf.presence < 0 → (caseOfs data : Int) = -mf.presence - 1 ∧ fieldNumber data = f.number
  submsg : mf.type = .message → submsgIdx data = mf.submsgIndex

/-- The number of bytes of a tag that a parser checks. -/
def ParserName.tagBytes : ParserName → Nat
  | .generic => 0
  | .field _ _ n | .message _ _ n _ => n

/-- The entry at an index is one for a field: the field's tag is dispatched to it, it has the values of the
field whatever bytes were loaded, and its parser accepts only the tag. -/
structure EntryRight (mask : UInt8) (i : Nat) (ent : TableEntry) (f : FieldDef) (mf : MiniTableField) : Prop where
  index : ∀ loaded, StartsWith loaded (getEncodedTag f) → dispatchIndex mask loaded.toUInt64 = i
  unpacks : ∀ loaded : UInt16, Unpacks (dispatchData ent.data loaded.toUInt64) f mf
  checks : ∀ loaded : UInt16, checkTag (dispatchData ent.data loaded.toUInt64).toUInt16 ent.parser.tagBytes = true ↔
    StartsWith loaded (getEncodedTag f)

/-- A table has no entries, and then there is no mask to dispatch with, or it has a power of two of them, at most
32. Each entry that is not generic is one for a field. Any two bytes lead into the table. -/
structure TableRight (table : List TableEntry) (m : GenMessage) : Prop where
  size : table = [] ∧ tableMask table = 255 ∨ ∃ k, 1 ≤ k ∧ k ≤ 5 ∧ table.length = 2 ^ k
  entries : ∀ i ent, table[i]? = some ent → ent.parser ≠ .generic →
    ∃ f ∈ m.defn.fields, ∃ mf, m.mt.fieldByNumber f.number = some mf ∧ EntryRight (tableMask table) i ent f mf
  inside : table ≠ [] → ∀ loaded : UInt16, dispatchIndex (tableMask table) loaded.toUInt64 < table.length

/-! ### The slot of a tag -/

/-- A mask of bits from 3 on, and a shift to the end. -/
theorem and_shiftRight_three (x k : Nat) : (x &&& ((2 ^ k - 1) <<< 3)) >>> 3 = bitField 3 k x := by
  rw [Nat.shiftRight_and_distrib, Nat.shiftLeft_shiftRight, Nat.and_two_pow_sub_one_eq_mod, bitField]

/-- The low byte of a number that is read from its bytes is the first one. -/
theorem littleEndian_mod (mem : Nat → UInt8) (n i : Nat) :
    (Decoder.littleEndian mem (n + 1) i).toNat % 256 = (mem i).toNat := by
  have hbyte : bitField 0 8 (mem i).toUInt64.toNat = (mem i).toNat := by
    rw [UInt8.toNat_toUInt64]
    exact bitField_of_lt (mem i).toNat_lt
  have hrest : ∀ x : UInt64, bitField 0 8 (x <<< 8).toNat = 0 := fun x => by
    have hshift : (x <<< 8).toNat = (x.toNat <<< 8) % 2 ^ 64 := UInt64.toNat_shiftLeft x 8
    rw [hshift, Nat.shiftLeft_eq, bitField, Nat.shiftRight_zero]
    omega
  have h : bitField 0 8 (Decoder.littleEndian mem (n + 1) i).toNat = (mem i).toNat := by
    rw [Decoder.littleEndian, UInt64.toNat_or, bitField_or, hbyte, hrest, Nat.or_zero]
  exact h

section Slot

variable {f : FieldDef} {slot : Nat}

theorem getTableSlot_eq_some (h : getTableSlot f = some slot) :
    (getEncodedTag f).toNat ≤ 32767 ∧ slot = bitField 3 5 (getEncodedTag f).toNat := by
  rw [getTableSlot] at h
  split at h
  · cases h
  next hle =>
    have hle : (getEncodedTag f).toNat ≤ 32767 := UInt64.le_iff_toNat_le.mp (UInt64.not_lt.mp hle)
    refine ⟨hle, ?_⟩
    rw [← Option.some.inj h, UInt64.toNat_shiftRight, UInt64.toNat_and]
    exact and_shiftRight_three _ 5

/-- The first byte of a tag has a bit of the number or is followed by another one. -/
theorem tagArray_head (hnumber : 0 < f.number ∧ f.number < 2 ^ 29) : 8 ≤ ((tagArray f).getD 0 0).toNat := by
  have hbits := (getWireTypeForField f).bits_lt
  have htag : (makeTag f.number (getWireTypeForField f)).toUInt64.toNat =
      f.number * 8 + (getWireTypeForField f).bits.toNat := by
    rw [UInt32.toNat_toUInt64, makeTag_toNat (by omega)]
  rw [tagArray, putSeptets]
  generalize (makeTag f.number (getWireTypeForField f)).toUInt64 = v at htag
  split
  next hrest =>
    have hlt := (shiftRight_seven_eq_zero_iff v).mp hrest
    change 8 ≤ (v &&& 127).toUInt8.toNat
    rw [septet_toNat]
    omega
  · change 8 ≤ ((v &&& 127).toUInt8 ||| 128).toNat
    rw [UInt8.toNat_or]
    exact Nat.le_trans (by decide) Nat.right_le_or

/-- **A field has one of the slots from 1 to 31.** -/
theorem getTableSlot_pos (hnumber : 0 < f.number ∧ f.number < 2 ^ 29) (h : getTableSlot f = some slot) :
    0 < slot ∧ slot < 32 := by
  obtain ⟨-, rfl⟩ := getTableSlot_eq_some h
  have hfirst := littleEndian_mod (fun i => (tagArray f).getD i 0) 7 0
  have hhead := tagArray_head hnumber
  rw [← hfirst] at hhead
  refine ⟨?_, Nat.mod_lt _ (by decide)⟩
  rw [bitField, Nat.shiftRight_eq_div_pow]
  change 8 ≤ (getEncodedTag f).toNat % 256 at hhead
  omega

end Slot

/-! ### The entries -/

section Entry

variable {f : FieldDef} {mf : MiniTableField}

theorem toNat_ofInt {i : Int} (h : 0 ≤ i) (hlt : i < 2 ^ 64) : ((UInt64.ofInt i).toNat : Int) = i := by
  rw [UInt64.ofInt, UInt64.toNat_ofNat']
  omega

theorem toNat_ofInt_neg {i : Int} (h : i < 0) (hlt : -2 ^ 32 ≤ i) : 65535 < (UInt64.ofInt i).toNat := by
  rw [UInt64.ofInt, UInt64.toNat_ofNat']
  omega

/-- A shift that loses no bits. -/
theorem toNat_shiftLeft {x s : UInt64} {n w : Nat} (hs : s.toNat = n) (hx : x.toNat < 2 ^ w) (hw : w + n ≤ 64)
    (hn : n < 64) : (x <<< s).toNat = x.toNat <<< n := by
  rw [UInt64.toNat_shiftLeft, hs, Nat.mod_eq_of_lt hn, Nat.mod_eq_of_lt (shiftLeft_lt hx hw)]

/-- What an entry says about the presence of a field. -/
theorem presenceData_eq_some {inOneof : Bool} {p : UInt64} (hlo : -2 ^ 15 ≤ mf.presence)
    (hhi : mf.presence < 2 ^ 15) (h : presenceData inOneof f mf = some p) :
    ∃ b c, p.toNat = c <<< 32 ||| b <<< 24 ∧ b < 2 ^ 8 ∧ c < 2 ^ 16 ∧
      (0 ≤ mf.presence → (b : Int) = if mf.presence = 0 then 63 else mf.presence) ∧
      (mf.presence < 0 → (c : Int) = -mf.presence - 1 ∧ b = f.number) := by
  rw [presenceData] at h
  dsimp only at h
  split at h
  · split at h
    · cases h
    next hfits =>
      rw [not_or] at hfits
      obtain ⟨hcase, hnumber⟩ := hfits
      have hcase : (UInt64.ofInt (-mf.presence - 1)).toNat ≤ 65535 := 
        UInt64.le_iff_toNat_le.mp (UInt64.not_lt.mp hcase)
      have hneg : mf.presence < 0 := by
        by_contra hno
        have := toNat_ofInt_neg (i := -mf.presence - 1) (by omega) (by omega)
        omega
      have hofs := toNat_ofInt (i := -mf.presence - 1) (by omega) (by omega)
      refine ⟨f.number, (UInt64.ofInt (-mf.presence - 1)).toNat, ?_, by omega, by omega, fun _ => by omega,
        fun _ => ⟨hofs, rfl⟩⟩
      have hnumber24 : (UInt32.ofNat f.number <<< 24).toUInt64.toNat = f.number <<< 24 := by
        have hshift : (UInt32.ofNat f.number <<< 24).toNat = ((UInt32.ofNat f.number).toNat <<< 24) % 2 ^ 32 :=
          UInt32.toNat_shiftLeft _ 24
        rw [UInt32.toNat_toUInt64, hshift, UInt32.toNat_ofNat', Nat.shiftLeft_eq, Nat.shiftLeft_eq]
        omega
      rw [← Option.some.inj h, UInt64.toNat_or, hnumber24, Nat.or_comm,
        toNat_shiftLeft (w := 16) rfl (by omega) (by decide) (by decide)]
      rfl
  · split at h
    next hzero =>
      refine ⟨63, 0, ?_, by decide, by decide, fun _ => by rw [if_pos hzero]; rfl, fun _ => by omega⟩
      rw [← Option.some.inj h]
      rfl
    next hzero =>
      split at h
      · cases h
      next hfits =>
        have hfits : (UInt64.ofInt mf.presence).toNat ≤ 31 := UInt64.le_iff_toNat_le.mp (UInt64.not_lt.mp hfits)
        have hpos : 0 ≤ mf.presence := by
          by_contra hno
          have := toNat_ofInt_neg (i := mf.presence) (by omega) (by omega)
          omega
        have hbit := toNat_ofInt hpos (by omega)
        refine ⟨(UInt64.ofInt mf.presence).toNat, 0, ?_, by omega, by decide, fun _ => by rw [if_neg hzero, hbit],
          fun _ => by omega⟩
        rw [← Option.some.inj h, Nat.zero_shiftLeft, Nat.zero_or]
        exact toNat_shiftLeft (w := 8) rfl (by omega) (by decide) (by decide)

/-- The 64 bits of an entry. -/
def packed (offset case presence submsg tag : Nat) : Nat :=
  offset <<< 48 ||| (case <<< 32 ||| presence <<< 24) ||| submsg <<< 16 ||| tag

/-- The parts of an entry are read where they were put, whatever the low bits of another number are. -/
theorem bitField_packed {offset c b i tag loaded : Nat} (ho : offset < 2 ^ 16) (hc : c < 2 ^ 16) (hb : b < 2 ^ 8)
    (hi : i < 2 ^ 8) (htag : tag < 2 ^ 16) (hloaded : loaded < 2 ^ 16) :
    bitField 48 16 (packed offset c b i tag ^^^ loaded) = offset ∧
      bitField 32 16 (packed offset c b i tag ^^^ loaded) = c ∧
      bitField 24 8 (packed offset c b i tag ^^^ loaded) = b ∧
      bitField 16 8 (packed offset c b i tag ^^^ loaded) = i ∧
      bitField 0 16 (packed offset c b i tag ^^^ loaded) = tag ^^^ loaded := by
  have hlow : ∀ {lo w x : Nat}, x < 2 ^ 16 → 16 ≤ lo → bitField lo w x = 0 := fun hx hle =>
    bitField_above (Nat.lt_of_lt_of_le hx (Nat.pow_le_pow_right (by decide) hle))
  refine ⟨?_, ?_, ?_, ?_, ?_⟩ <;> rw [bitField_xor, packed] <;> simp only [bitField_or]
  · rw [bitField_shiftLeft ho, bitField_shiftLeft_above hc (by decide), bitField_shiftLeft_above hb (by decide),
      bitField_shiftLeft_above hi (by decide), hlow htag (by decide), hlow hloaded (by decide)]
    simp
  · rw [bitField_below (by decide), bitField_shiftLeft hc, bitField_shiftLeft_above hb (by decide),
      bitField_shiftLeft_above hi (by decide), hlow htag (by decide), hlow hloaded (by decide)]
    simp
  · rw [bitField_below (by decide), bitField_below (by decide), bitField_shiftLeft hb,
      bitField_shiftLeft_above hi (by decide), hlow htag (by decide), hlow hloaded (by decide)]
    simp
  · rw [bitField_below (by decide), bitField_below (by decide), bitField_below (by decide), bitField_shiftLeft hi,
      hlow htag (by decide), hlow hloaded (by decide)]
    simp
  · rw [bitField_below (by decide), bitField_below (by decide), bitField_below (by decide),
      bitField_below (by decide), bitField_of_lt htag, bitField_of_lt hloaded]
    simp

/-- What an entry holds. -/
theorem fillTableEntry_eq_some {m : GenMessage} {ent : TableEntry} (hoffset : mf.offset < 2 ^ 16)
    (hlo : -2 ^ 15 ≤ mf.presence) (hhi : mf.presence < 2 ^ 15) (h : m.fillTableEntry f mf = some ent) :
    ent.parser.tagBytes = tagBytes (getEncodedTag f) ∧
      ∃ b c i, ent.data.toNat = packed mf.offset c b i (getEncodedTag f).toNat ∧ b < 2 ^ 8 ∧ c < 2 ^ 16 ∧ i < 2 ^ 8 ∧
        (0 ≤ mf.presence → (b : Int) = if mf.presence = 0 then 63 else mf.presence) ∧
        (mf.presence < 0 → (c : Int) = -mf.presence - 1 ∧ b = f.number) ∧
        (f.cType = some .message → i = mf.submsgIndex) := by
  simp only [GenMessage.fillTableEntry, Option.bind_eq_bind, Option.bind_eq_some_iff] at h
  obtain ⟨type, -, cardinality, -, p, hp, h⟩ := h
  obtain ⟨b, c, hpres, hb, hc, hbit, hcase⟩ := presenceData_eq_some hlo hhi hp
  have hofs : (UInt64.ofNat mf.offset <<< 48).toNat = mf.offset <<< 48 := by
    have hmod : (UInt64.ofNat mf.offset).toNat = mf.offset := UInt64.toNat_ofNat_of_lt' (Nat.lt_trans hoffset (by decide))
    rw [toNat_shiftLeft (w := 16) rfl (by rwa [hmod]) (by decide) (by decide), hmod]
    rfl
  have hdata : (UInt64.ofNat mf.offset <<< 48 ||| getEncodedTag f ||| p).toNat =
      mf.offset <<< 48 ||| (c <<< 32 ||| b <<< 24) ||| (getEncodedTag f).toNat := by
    rw [UInt64.toNat_or, UInt64.toNat_or, hofs, hpres, Nat.or_assoc, Nat.or_comm (getEncodedTag f).toNat,
      ← Nat.or_assoc]
  split at h
  next hmessage =>
    split at h
    · cases h
    next hidx =>
      have hmod : (UInt64.ofNat mf.submsgIndex).toNat = mf.submsgIndex := UInt64.toNat_ofNat_of_lt'
        (Nat.lt_of_le_of_lt (Nat.le_of_not_lt hidx) (by decide))
      have hsub : (UInt64.ofNat mf.submsgIndex <<< 16).toNat = mf.submsgIndex <<< 16 := by
        rw [toNat_shiftLeft (w := 8) rfl (by omega) (by decide) (by decide), hmod]
        rfl
      rw [← Option.some.inj h]
      refine ⟨rfl, b, c, mf.submsgIndex, ?_, hb, hc, by omega, hbit, hcase, fun _ => rfl⟩
      rw [UInt64.toNat_or, hdata, hsub, packed, Nat.or_assoc, Nat.or_comm (getEncodedTag f).toNat, ← Nat.or_assoc]
  next hmessage =>
    rw [← Option.some.inj h]
    refine ⟨rfl, b, c, 0, ?_, hb, hc, by decide, hbit, hcase, fun h => absurd h hmessage⟩
    rw [hdata, packed, Nat.zero_shiftLeft, Nat.or_zero]

/-- The parser of an entry checks the bytes of the tag. -/
theorem checkTag_iff {loaded data : UInt16} {e : UInt64}
    (hdata : data.toNat = e.toNat ^^^ loaded.toNat) : checkTag data (tagBytes e) = true ↔ StartsWith loaded e := by
  have hxor : ∀ a b : Nat, a ^^^ b = 0 ↔ b = a := fun a b => Nat.xor_eq_zero_iff.trans eq_comm
  have hloaded := loaded.toNat_lt
  rw [StartsWith, tagBytes, checkTag]
  by_cases htwo : e > 255
  · rw [if_pos htwo, if_neg (by decide), beq_iff_eq, ← UInt16.toNat_inj, hdata, Nat.mod_eq_of_lt hloaded]
    exact hxor _ _
  · have hone : e.toNat < 2 ^ 8 := Nat.lt_succ_of_le (UInt64.le_iff_toNat_le.mp (UInt64.not_lt.mp htwo))
    have hlow : (data &&& 255).toNat = e.toNat ^^^ loaded.toNat % 2 ^ 8 := by
      have hmod : e.toNat ^^^ loaded.toNat % 2 ^ 8 = (e.toNat ^^^ loaded.toNat) % 2 ^ 8 := by
        rw [Nat.xor_mod_two_pow, Nat.mod_eq_of_lt hone]
      rw [hmod, UInt16.toNat_and, hdata]
      exact Nat.and_two_pow_sub_one_eq_mod _ 8
    rw [if_neg htwo, if_pos rfl, beq_iff_eq, ← UInt16.toNat_inj, hlow]
    exact hxor _ _

/-- **An entry has the values of its field**, and its parser checks the field's tag. -/
theorem entry_right {m : GenMessage} {ent : TableEntry} {slot : Nat} (htype : f.type = some mf.type)
    (hwords : mf.offset < 2 ^ 16 ∧ -2 ^ 15 ≤ mf.presence ∧ mf.presence < 2 ^ 15)
    (hslot : getTableSlot f = some slot) (h : m.fillTableEntry f mf = some ent) (loaded : UInt16) :
    Unpacks (dispatchData ent.data loaded.toUInt64) f mf ∧
      (checkTag (dispatchData ent.data loaded.toUInt64).toUInt16 ent.parser.tagBytes = true ↔
        StartsWith loaded (getEncodedTag f)) := by
  obtain ⟨hbytes, b, c, i, hdata, hb, hc, hi, hbit, hcase, hsub⟩ :=
    fillTableEntry_eq_some hwords.1 hwords.2.1 hwords.2.2 h
  obtain ⟨htag, -⟩ := getTableSlot_eq_some hslot
  have hxor : (dispatchData ent.data loaded.toUInt64).toNat =
      packed mf.offset c b i (getEncodedTag f).toNat ^^^ loaded.toNat := by
    rw [dispatchData, UInt64.toNat_xor, hdata, UInt16.toNat_toUInt64]
  obtain ⟨h48, h32, h24, h16, h0⟩ := bitField_packed hwords.1 hc hb hi
    (Nat.lt_of_le_of_lt htag (by decide) : (getEncodedTag f).toNat < 2 ^ 16) loaded.toNat_lt
  rw [← hxor] at h48 h32 h24 h16 h0
  refine ⟨⟨?_, ?_, ?_, ?_⟩, ?_⟩
  · rw [fieldMem_eq, h48]
  · rw [hasbitIndex_eq, h24]
    exact hbit
  · rw [caseOfs_eq, h32, fieldNumber_eq, h24]
    exact hcase
  · intro hmessage
    rw [submsgIdx_eq, h16]
    exact hsub (by rw [FieldDef.cType, htype, hmessage]; rfl)
  · rw [hbytes]
    refine checkTag_iff ?_
    rw [UInt64.toNat_toUInt16, ← h0]
    rfl

end Entry

/-! ### The table -/

/-- The sizes that a table can have while it grows. -/
def Sized (n : Nat) : Prop := n = 0 ∨ ∃ k ≤ 5, n = 2 ^ k

/-- A table is made large enough for a slot; what is in it stays, and what is new is generic. -/
theorem growTable_spec {slot fuel : Nat} {table : List TableEntry} (hslot : slot < 32)
    (hfuel : slot < table.length + fuel) (hsize : Sized table.length) :
    slot < (growTable slot fuel table).length ∧ Sized (growTable slot fuel table).length ∧
      ∃ n, growTable slot fuel table = table ++ List.replicate n .generic := by
  induction fuel generalizing table with
  | zero => exact ⟨hfuel, hsize, 0, (List.append_nil _).symm⟩
  | succ fuel ih =>
    rw [growTable]
    split
    next hle =>
      dsimp only
      have hgrown : Sized (max 1 (table.length * 2)) := by
        obtain h0 | ⟨k, hk, hlen⟩ := hsize
        · rw [h0]
          exact .inr ⟨0, by decide, rfl⟩
        · have hpos : 0 < 2 ^ k := Nat.two_pow_pos k
          have hk5 : k ≠ 5 := by
            rintro rfl
            omega
          refine .inr ⟨k + 1, by omega, ?_⟩
          rw [hlen, Nat.pow_succ]
          omega
      have hlen : (table ++ List.replicate (max 1 (table.length * 2) - table.length) TableEntry.generic).length =
          max 1 (table.length * 2) := by
        rw [List.length_append, List.length_replicate]
        omega
      have hfuel : slot < (table ++ List.replicate (max 1 (table.length * 2) - table.length)
          TableEntry.generic).length + fuel := by omega
      obtain ⟨hlt, hsized, n, hn⟩ := ih hfuel (by rwa [hlen])
      refine ⟨hlt, hsized, max 1 (table.length * 2) - table.length + n, ?_⟩
      rw [hn, List.append_assoc, List.replicate_append_replicate]
    next hlt => exact ⟨by omega, hsize, 0, (List.append_nil _).symm⟩

/-- A table while fields are added: each entry that is not generic is in the slot of its field. -/
structure Filled (m : GenMessage) (table : List TableEntry) : Prop where
  size : table = [] ∨ ∃ k, 1 ≤ k ∧ k ≤ 5 ∧ table.length = 2 ^ k
  entries : ∀ i ent, table[i]? = some ent → ent.parser ≠ .generic →
    ∃ f ∈ m.defn.fields, getTableSlot f = some i ∧ m.tryFillTableEntry f = some ent

variable {m : GenMessage} {table : List TableEntry} {f : FieldDef} {slot k : Nat}

/-- A larger table is filled too. -/
theorem Filled.grow (h : Filled m table) (hpos : 0 < slot) (hslot : slot < 32) :
    Filled m (growTable slot (slot + 1) table) ∧ slot < (growTable slot (slot + 1) table).length := by
  have hsized : Sized table.length := by
    obtain rfl | ⟨k, -, hk, hlen⟩ := h.size
    · exact .inl rfl
    · exact .inr ⟨k, hk, hlen⟩
  have hfuel : slot < table.length + (slot + 1) := by omega
  obtain ⟨hlt, hsized, n, hn⟩ := growTable_spec hslot hfuel hsized
  refine ⟨⟨.inr ?_, fun i ent hent hne => ?_⟩, hlt⟩
  · obtain h0 | ⟨k, hk, hlen⟩ := hsized
    · omega
    · refine ⟨k, Nat.one_le_iff_ne_zero.mpr ?_, hk, hlen⟩
      rintro rfl
      omega
  · rw [hn] at hent
    by_cases hi : i < table.length
    · rw [List.getElem?_append_left hi] at hent
      exact h.entries i ent hent hne
    · rw [List.getElem?_append_right (Nat.le_of_not_lt hi)] at hent
      rw [List.getElem?_replicate] at hent
      obtain ⟨-, hent⟩ := Option.ite_none_right_eq_some.mp hent
      rw [← Option.some.inj hent] at hne
      exact absurd rfl hne

theorem Filled.addToTable (h : Filled m table) (hf : f ∈ m.defn.fields) : Filled m (m.addToTable table f) := by
  unfold GenMessage.addToTable
  split
  next slot ent hslot hent =>
    obtain ⟨hpos, hlt⟩ := getTableSlot_pos (m.number f hf) hslot
    obtain ⟨hgrown, hin⟩ := h.grow hpos hlt
    dsimp only
    split
    · exact hgrown
    · refine ⟨?_, fun i ent' hent' hne => ?_⟩
      · rw [← List.length_eq_zero_iff, List.length_set, List.length_eq_zero_iff]
        exact hgrown.size
      · by_cases hi : slot = i
        · subst hi
          rw [List.getElem?_set_self hin] at hent'
          rw [← Option.some.inj hent']
          exact ⟨f, hf, hslot, hent⟩
        · rw [List.getElem?_set_ne hi] at hent'
          exact hgrown.entries i ent' hent' hne
  next => exact h

theorem filled_fastDecodeTable (m : GenMessage) : Filled m m.fastDecodeTable := by
  have hrun : ∀ (fields : List FieldDef) (table : List TableEntry), (∀ f ∈ fields, f ∈ m.defn.fields) →
      Filled m table → Filled m (fields.foldl m.addToTable table) := by
    intro fields
    induction fields with
    | nil => exact fun table _ h => h
    | cons f fields ih =>
      intro table hall h
      obtain ⟨hf, hall⟩ := List.forall_mem_cons.mp hall
      exact ih _ hall (h.addToTable hf)
  refine hrun _ [] (fun f hf => ?_) ⟨.inl rfl, fun i ent h => nomatch h⟩
  exact List.mem_mergeSort.mp hf

/-! ### The dispatch -/

/-- The index for some bytes, in a table of `2 ^ k` entries. -/
theorem dispatchIndex_tableMask (hk : 1 ≤ k) (hk5 : k ≤ 5) (hlen : table.length = 2 ^ k) (tag : UInt64) :
    dispatchIndex (tableMask table) tag = bitField 3 k tag.toNat := by
  have hpow : 2 ^ 1 ≤ 2 ^ k ∧ 2 ^ k ≤ 2 ^ 5 :=
    ⟨Nat.pow_le_pow_right (by decide) hk, Nat.pow_le_pow_right (by decide) hk5⟩
  have hmask : (tableMask table).toUInt64.toNat = (2 ^ k - 1) <<< 3 := by
    rw [tableMask, if_pos (by omega), UInt8.toNat_toUInt64, UInt8.toNat_ofNat', hlen, Nat.shiftLeft_eq]
    omega
  rw [dispatchIndex, UInt64.toNat_shiftRight, UInt64.toNat_and, hmask]
  exact and_shiftRight_three _ k

/-- The bytes of a tag lead to its slot. -/
theorem bitField_of_startsWith {loaded : UInt16} (hslot : getTableSlot f = some slot) (hlt : slot < 2 ^ k)
    (hk : k ≤ 5) (hloaded : StartsWith loaded (getEncodedTag f)) : bitField 3 k loaded.toNat = slot := by
  obtain ⟨-, hbits⟩ := getTableSlot_eq_some hslot
  have hlow : loaded.toNat % 256 = (getEncodedTag f).toNat % 256 := by
    rw [StartsWith, tagBytes] at hloaded
    split at hloaded <;> omega
  have hfive : ∀ x, bitField 3 5 x = x % 256 / 8 := fun x => by
    rw [bitField, Nat.shiftRight_eq_div_pow]
    omega
  have hmod : bitField 3 k loaded.toNat = bitField 3 5 loaded.toNat % 2 ^ k :=
    (Nat.mod_mod_of_dvd _ (Nat.pow_dvd_pow 2 hk)).symm
  rw [hmod, hfive, hlow, ← hfive, ← hbits, Nat.mod_eq_of_lt hlt]

/-- **A table is what the fast decoder relies on.** -/
theorem tableRight (m : GenMessage) : TableRight m.fastDecodeTable m := by
  have hfilled := filled_fastDecodeTable m
  refine ⟨?_, fun i ent hent hne => ?_, fun hne loaded => ?_⟩
  · exact hfilled.size.imp_left fun h => ⟨h, by rw [h]; rfl⟩
  · obtain ⟨f, hf, hslot, hfill⟩ := hfilled.entries i ent hent hne
    obtain ⟨mf, hmf, hentry⟩ := Option.bind_eq_some_iff.mp hfill
    obtain ⟨mf', hmf', htype⟩ := m.linked f hf
    obtain rfl := Option.some.inj (hmf.symm.trans hmf')
    have hmem : mf ∈ m.mt.fields := by
      obtain ⟨j, -, hj⟩ := Option.bind_eq_some_iff.mp hmf
      exact List.mem_of_getElem? hj
    have hright := entry_right htype (m.words mf hmem) hslot hentry
    refine ⟨f, hf, mf, hmf, fun loaded hloaded => ?_, fun loaded => (hright loaded).1,
      fun loaded => (hright loaded).2⟩
    have hlt := (List.getElem?_eq_some_iff.mp hent).1
    obtain hnil | ⟨k, hk, hk5, hlen⟩ := hfilled.size
    · rw [hnil] at hlt
      exact absurd hlt (Nat.not_lt_zero i)
    · rw [dispatchIndex_tableMask hk hk5 hlen, UInt16.toNat_toUInt64]
      exact bitField_of_startsWith hslot (hlen ▸ hlt) hk5 hloaded
  · obtain hnil | ⟨k, hk, hk5, hlen⟩ := hfilled.size
    · exact absurd hnil hne
    · rw [dispatchIndex_tableMask hk hk5 hlen, hlen]
      exact Nat.mod_lt _ (Nat.two_pow_pos k)

/-- `message M { optional int32 a = 17; }`, with a has-bit and the offset 8. -/
def oneFieldMessage : GenMessage where
  defn :=
    { fullName := [77], options := {}, oneofs := [], realOneofCount := 0, extRanges := [], nestedEnums := []
      nestedExts := [], isSorted := true, inMessageSet := false, layout := 0, nestedMsgs := []
      fields :=
        [{ address := 0, fullName := [77, 46, 97], jsonName := [97], hasJsonName := false, number := 17, index := 0
           layoutIndex := 0, label := .optional, type := some .int32, isExtension := false, isPacked := false
           isProto3Optional := false, hasPresence := true, hasDefault := false, defaultval := .sint 0
           options := ⟨none⟩, oneof := none, msgdef := some ⟨.msg, 0, [77]⟩, sub := .none }] }
  mt := { MiniTable.empty with fields := [⟨17, 8, 1, noSub, .int32, FieldMode.scalar⟩], fieldCount := 1 }
  subSize := fun _ => none
  number := fun f hf => by
    obtain rfl := List.mem_singleton.mp hf
    decide
  linked := fun f hf => by
    obtain rfl := List.mem_singleton.mp hf
    exact ⟨_, rfl, rfl⟩
  words := fun mf hmf => by
    obtain rfl := List.mem_singleton.mp hmf
    decide

/-- The tag 136 is encoded as the bytes 136 and 1, and its slot is 17. -/
example : oneFieldMessage.fastDecodeTable.length = 32 ∧
    oneFieldMessage.fastDecodeTable[17]? = some ⟨.field "s" "v4" 2, 2251799830462856⟩ := by
  decide +kernel

/-- `message M {}`. -/
def emptyMessage : GenMessage where
  defn :=
    { fullName := [77], options := {}, fields := [], oneofs := [], realOneofCount := 0, extRanges := []
      nestedEnums := [], nestedExts := [], isSorted := true, inMessageSet := false, layout := 0, nestedMsgs := [] }
  mt := .empty
  subSize := fun _ => none
  number := fun _ h => nomatch h
  linked := fun _ h => nomatch h
  words := fun _ h => nomatch h

/-- A message without fields has a table of no entries. -/
theorem not_length_eq_two_pow : ¬∀ m : GenMessage, ∃ k ≤ 5, m.fastDecodeTable.length = 2 ^ k := by
  intro h
  obtain ⟨k, -, hk⟩ := h emptyMessage
  have hnil : emptyMessage.fastDecodeTable = [] := by
    rw [GenMessage.fastDecodeTable, GenMessage.fieldHotnessOrder]
    simp [emptyMessage]
  rw [hnil] at hk
  exact absurd hk (Nat.two_pow_pos k).ne

end Hpbc

end Hpb
