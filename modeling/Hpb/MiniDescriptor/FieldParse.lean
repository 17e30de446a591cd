import Hpb.MiniDescriptor.Parsed
import Hpb.MiniDescriptor.MessageSpec

/-!
# Reading back one field

The character of a field's type and the modifiers after it give back the field as it was described:
`setField_putFieldType` before the modifiers, `modifyField_encodedModifiers` after them.

* `modeBits`: the parts of a field's `mode`,
* `FieldSpec.toField`: the field that is read back. Sub-tables are counted by the fields before it.
-/

namespace Hpb

/-- The parts of `mode`. -/
def modeBits (repeated : Bool) (r : FieldRep) (alternate packed : Bool) : UInt8 :=
  (if repeated then FieldMode.array else FieldMode.scalar) ||| r.bits <<< 6 |||
    (if alternate then LabelFlags.isAlternate else 0) ||| (if packed then LabelFlags.isPacked else 0)

section

variable (repeated : Bool) (r : FieldRep) (alternate packed : Bool)

theorem modeBits_or_isAlternate :
    modeBits repeated r false packed ||| LabelFlags.isAlternate = modeBits repeated r true packed := by
  cases repeated <;> cases r <;> cases packed <;> rfl

theorem modeBits_or_isPacked :
    modeBits repeated r alternate false ||| LabelFlags.isPacked = modeBits repeated r alternate true := by
  cases repeated <;> cases r <;> cases alternate <;> rfl

theorem modeBits_xor_isPacked :
    modeBits repeated r alternate packed ^^^ LabelFlags.isPacked =
      modeBits repeated r alternate (!packed) := by
  cases repeated <;> cases r <;> cases alternate <;> cases packed <;> rfl

theorem modeBits_and_array :
    (modeBits repeated r alternate packed &&& FieldMode.array != 0) = repeated := by
  cases repeated <;> cases r <;> cases alternate <;> cases packed <;> rfl

theorem modeBits_and_isAlternate :
    modeBits repeated r alternate packed &&& LabelFlags.isAlternate ≠ 0 ↔ alternate := by
  cases repeated <;> cases r <;> cases alternate <;> cases packed <;> decide

theorem modeBits_and_isPacked :
    modeBits repeated r alternate packed &&& LabelFlags.isPacked ≠ 0 ↔ packed := by
  cases repeated <;> cases r <;> cases alternate <;> cases packed <;> decide

theorem modeBits_fieldMode :
    modeBits repeated r alternate packed &&& 3 =
      if repeated then FieldMode.array else FieldMode.scalar := by
  cases repeated <;> cases r <;> cases alternate <;> cases packed <;> rfl

end

/-- The character of the encoded type `n`. -/
def typeChar (repeated : Bool) (n : Nat) : UInt8 :=
  toBase92 (if repeated then (n : Int) + 20 else n)

/-- How a field of the encoded type `n` is stored. -/
def repOfEncoded (p : Platform) (repeated : Bool) (n : Nat) : FieldRep :=
  if repeated ∨ n = 16 ∨ n = 17 then pointerRep p else EncodedType.toFieldRep.getD n .oneByte

/-- The character of a field's type is below the other characters. -/
theorem charValue_typeChar (repeated : Bool) {n : Nat} (h : n < 19) :
    charValue (typeChar repeated n) ≤ 73 := by
  revert n
  cases repeated <;> decide

theorem modeOfChar_typeChar (p : Platform) (repeated : Bool) {n : Nat} (h : n < 19) :
    modeOfChar p (typeChar repeated n) = .ok (modeBits repeated (repOfEncoded p repeated n) false false,
      if repeated then noPresence else hasbitPresence, (n : Int)) := by
  revert n
  cases repeated <;> cases p <;> decide

namespace FieldSpec

/-- The number of a field's type in the descriptor. -/
def encodedType (s : FieldSpec) : Nat :=
  if s.mod.isClosedEnum then 18 else (typeToEncoded s.type).toNat

/-- How a field is stored. -/
def rep (p : Platform) (s : FieldSpec) : FieldRep := repOfEncoded p s.mod.isRepeated s.encodedType

/-- The presence class that the parser gives to a field. -/
def parsedClass (s : FieldSpec) : Nat :=
  if s.mod.isRepeated ∨ s.mod.isProto3Singular then noPresence
  else if s.mod.isRequired then requiredPresence
  else hasbitPresence

/-- The sub-tables of the same kind before this field. -/
def subIndex (before : List FieldSpec) (s : FieldSpec) : Nat :=
  match s.sub with
  | some sub => before.countP (·.sub = some sub)
  | none => noSub

/-- The field as it is parsed, after the fields `before`. -/
def toField (p : Platform) (m : MsgModifiers) (before : List FieldSpec) (s : FieldSpec) :
    MiniTableField where
  number := s.number
  offset := s.parsedClass
  presence := 0
  submsgIndex := s.subIndex before
  descriptortype := s.descriptortype m
  mode := modeBits s.mod.isRepeated (s.rep p) (s.isAlternate m) s.isPacked

/-- The field before its modifiers are read. -/
def unmodified (p : Platform) (m : MsgModifiers) (before : List FieldSpec) (s : FieldSpec) :
    MiniTableField :=
  { s.toField p m before with
    offset := if s.mod.isRepeated then noPresence else hasbitPresence
    mode := modeBits s.mod.isRepeated (s.rep p) (s.isAlternate m)
      (s.mod.isRepeated && s.type.isPackable && m.defaultIsPacked) }

end FieldSpec

/-- The sub-tables of the fields `fields`. -/
def subCountsOf (fields : List FieldSpec) : SubCounts :=
  ⟨fields.countP (·.sub = some .emptyMessage), fields.countP (·.sub = some .nullEnum)⟩

/-- The bits of the message modifiers. -/
theorem msgModifiers_bits (m : MsgModifiers) :
    (UInt32.ofNat m.bits &&& MessageModifier.validateUtf8 = 0 ↔ m.validateUtf8 = false) ∧
    (UInt32.ofNat m.bits &&& MessageModifier.defaultIsPacked ≠ 0 ↔ m.defaultIsPacked) ∧
    (UInt32.ofNat m.bits &&& MessageModifier.isExtendable ≠ 0 ↔ m.isExtendable) := by
  obtain ⟨u, q, e⟩ := m
  cases u <;> cases q <;> cases e <;> decide

section

variable {p : Platform} {m : MsgModifiers} {before : List FieldSpec} {s : FieldSpec}

theorem putFieldType_eq (s : FieldSpec) :
    MsgState.putFieldType s.type s.mod = [typeChar s.mod.isRepeated s.encodedType] := by
  have hcast : ((s.encodedType : Nat) : Int) =
      if s.mod.isClosedEnum then 18 else typeToEncoded s.type := by
    unfold FieldSpec.encodedType
    split_ifs
    · rfl
    · cases s.type <;> rfl
  unfold MsgState.putFieldType typeChar
  rw [hcast]

theorem encodedType_spec (hv : s.Valid) : s.encodedType < 19 ∧
    EncodedType.toType[s.encodedType]? = some s.type ∧
    (s.encodedType = 12 ↔ s.isOpenEnum) := by
  have hclosed := hv.closed
  unfold FieldSpec.encodedType FieldSpec.isOpenEnum
  cases hc : s.mod.isClosedEnum with
  | false => cases s.type <;> decide
  | true =>
    rw [hclosed hc]
    decide

theorem FieldSpec.descriptortype_isPackable : (s.descriptortype m).isPackable = s.type.isPackable := by
  unfold descriptortype isOpenEnum isUnchecked
  split_ifs with h₁ h₂
  · simp only [Bool.and_eq_true, beq_iff_eq] at h₁
    rw [h₁.1]
    rfl
  · simp only [Bool.and_eq_true, beq_iff_eq] at h₂
    rw [h₂.1]
    rfl
  · rfl

theorem FieldSpec.isUnchecked_iff :
    (s.type = .string ∧ UInt32.ofNat m.bits &&& MessageModifier.validateUtf8 = 0) ↔
      s.isUnchecked m := by
  rw [(msgModifiers_bits m).1, FieldSpec.isUnchecked]
  cases s.type <;> cases m.validateUtf8 <;> decide

/-- Which sub-tables a type of the table needs. -/
theorem FieldSpec.sub_eq (hv : s.Valid) :
    s.sub = if s.descriptortype m = .message ∨ s.descriptortype m = .group then some .emptyMessage
      else if s.descriptortype m = .enum then some .nullEnum else none := by
  have hclosed := hv.closed
  unfold FieldSpec.sub FieldSpec.descriptortype FieldSpec.isOpenEnum FieldSpec.isUnchecked
  cases hc : s.mod.isClosedEnum with
  | false => cases s.type <;> cases m.validateUtf8 <;> decide
  | true =>
    rw [hclosed hc]
    cases m.validateUtf8 <;> decide

theorem subCountsOf_append (hv : s.Valid) (hb : before.length < 2 ^ 15) :
    subCountsOf (before ++ [s]) =
      if s.descriptortype m = .message ∨ s.descriptortype m = .group then
        ⟨((subCountsOf before).submsgCount + 1) % 2 ^ 16, (subCountsOf before).subenumCount⟩
      else if s.descriptortype m = .enum then
        ⟨(subCountsOf before).submsgCount, ((subCountsOf before).subenumCount + 1) % 2 ^ 16⟩
      else subCountsOf before := by
  have hle : ∀ q : FieldSpec → Bool, (before.countP q + 1) % 2 ^ 16 = before.countP q + 1 := by
    intro q
    have : before.countP q ≤ before.length := List.countP_le_length
    exact Nat.mod_eq_of_lt (by omega)
  have hsub := FieldSpec.sub_eq (m := m) hv
  unfold subCountsOf
  simp only [List.countP_append, List.countP_singleton, hle, hsub]
  split_ifs <;> simp_all

/-- The type that the table stores, and the bit that says so. -/
theorem typeInTable_eq (f : MiniTableField) (r : FieldRep)
    (hf : f.mode = modeBits s.mod.isRepeated r false false) :
    (if s.isOpenEnum then ({ f with mode := f.mode ||| LabelFlags.isAlternate }, FieldType.int32)
      else if s.type = .string ∧ UInt32.ofNat m.bits &&& MessageModifier.validateUtf8 = 0 then
        ({ f with mode := f.mode ||| LabelFlags.isAlternate }, FieldType.bytes)
      else (f, s.type)) =
    ({ f with mode := modeBits s.mod.isRepeated r (s.isAlternate m) false }, s.descriptortype m) := by
  simp only [FieldSpec.isUnchecked_iff]
  unfold FieldSpec.isAlternate FieldSpec.descriptortype
  cases s.isOpenEnum with
  | true => simp [hf, modeBits_or_isAlternate]
  | false =>
    cases s.isUnchecked m with
    | true => simp [hf, modeBits_or_isAlternate]
    | false => simp [← hf]

theorem setTypeAndSub_eq {r : FieldRep} {offset : Nat} (hv : s.Valid) (hb : before.length < 2 ^ 15) :
    setTypeAndSub ⟨s.number, offset, 0, 0, s.type, modeBits s.mod.isRepeated r false false⟩ s.type
      (subCountsOf before) (UInt32.ofNat m.bits) s.isOpenEnum =
    (⟨s.number, offset, 0, s.subIndex before, s.descriptortype m,
      modeBits s.mod.isRepeated r (s.isAlternate m)
        (s.mod.isRepeated && s.type.isPackable && m.defaultIsPacked)⟩,
      subCountsOf (before ++ [s])) := by
  have hpackable : fieldIsPackable ⟨s.number, offset, 0, 0, s.descriptortype m,
      modeBits s.mod.isRepeated r (s.isAlternate m) false⟩ =
      (s.mod.isRepeated && s.type.isPackable) := by
    rw [fieldIsPackable, modeBits_and_array, FieldSpec.descriptortype_isPackable]
  have hpacked : (if (s.mod.isRepeated && s.type.isPackable) = true ∧ m.defaultIsPacked then
      (⟨s.number, offset, 0, 0, s.descriptortype m,
        modeBits s.mod.isRepeated r (s.isAlternate m) false ||| LabelFlags.isPacked⟩ : MiniTableField)
      else ⟨s.number, offset, 0, 0, s.descriptortype m,
        modeBits s.mod.isRepeated r (s.isAlternate m) false⟩) =
      ⟨s.number, offset, 0, 0, s.descriptortype m, modeBits s.mod.isRepeated r (s.isAlternate m)
        (s.mod.isRepeated && s.type.isPackable && m.defaultIsPacked)⟩ := by
    rw [modeBits_or_isPacked]
    cases s.mod.isRepeated && s.type.isPackable <;> cases m.defaultIsPacked <;> rfl
  unfold setTypeAndSub
  rw [typeInTable_eq _ r rfl]
  simp only [hpackable, (msgModifiers_bits m).2.1]
  rw [hpacked, subCountsOf_append (m := m) hv hb, FieldSpec.subIndex, FieldSpec.sub_eq (m := m) hv]
  split_ifs <;> rfl

/-- **The type of a field is read back.** -/
theorem setField_typeChar (hv : s.Valid) (hb : before.length < 2 ^ 15) :
    setField p (typeChar s.mod.isRepeated s.encodedType) s.number (UInt32.ofNat m.bits)
      (subCountsOf before) = .ok (s.unmodified p m before, subCountsOf (before ++ [s])) := by
  obtain ⟨hlt, htype, hopen⟩ := encodedType_spec hv
  have hopen' : decide ((s.encodedType : Int) = EncodedType.openEnum) = s.isOpenEnum := by
    rw [Bool.eq_iff_iff, decide_eq_true_iff, ← hopen]
    exact Int.ofNat_inj (n := 12)
  rw [setField, modeOfChar_typeChar p _ hlt]
  simp only [bind, Except.bind, Int.toNat_natCast, htype, hopen', pure, Except.pure]
  rw [if_neg (by omega), setTypeAndSub_eq hv hb]
  rfl

/-- The field's packedness differs from the message's default. -/
def FieldSpec.flips (m : MsgModifiers) (s : FieldSpec) : Bool :=
  s.mod.isRepeated && s.type.isPackable && s.mod.isPacked != m.defaultIsPacked

/-- The modifiers that are written for a field. -/
def FieldSpec.modifierBits (m : MsgModifiers) (s : FieldSpec) : Nat :=
  (if s.flips m then 1 else 0) + (if s.mod.isProto3Singular then 4 else 0) +
    (if s.mod.isRequired then 2 else 0)

theorem modifierBits_spec (m : MsgModifiers) (s : FieldSpec) : s.modifierBits m < 8 ∧
    (UInt32.ofNat (s.modifierBits m) &&& EncodedFieldModifier.flipPacked ≠ 0 ↔ s.flips m) ∧
    (UInt32.ofNat (s.modifierBits m) &&& EncodedFieldModifier.isProto3Singular ≠ 0 ↔
      s.mod.isProto3Singular) ∧
    (UInt32.ofNat (s.modifierBits m) &&& EncodedFieldModifier.isRequired ≠ 0 ↔ s.mod.isRequired) := by
  unfold FieldSpec.modifierBits
  cases s.flips m <;> cases s.mod.isProto3Singular <;> cases s.mod.isRequired <;> decide

/-- Flipping the default gives the field's own packedness. -/
theorem flips_xor (m : MsgModifiers) (s : FieldSpec) :
    s.isPacked = if s.flips m then !(s.mod.isRepeated && s.type.isPackable && m.defaultIsPacked)
      else s.mod.isRepeated && s.type.isPackable && m.defaultIsPacked := by
  unfold FieldSpec.isPacked FieldSpec.flips
  cases s.mod.isRepeated <;> cases s.type.isPackable <;> cases s.mod.isPacked <;>
    cases m.defaultIsPacked <;> rfl

theorem flipPacked_unmodified :
    flipPacked (UInt32.ofNat (s.modifierBits m)) (s.unmodified p m before) =
      .ok { s.unmodified p m before with mode := (s.toField p m before).mode } := by
  have hpackable : fieldIsPackable (s.unmodified p m before) =
      (s.mod.isRepeated && s.type.isPackable) := by
    rw [fieldIsPackable]
    change ((modeBits _ _ _ _ &&& _ != 0) && (s.descriptortype m).isPackable) = _
    rw [modeBits_and_array, FieldSpec.descriptortype_isPackable]
  have hxor := flips_xor m s
  unfold flipPacked
  simp only [(modifierBits_spec m s).2.1, hpackable]
  by_cases hflip : s.flips m = true
  · rw [if_pos hflip] at hxor ⊢
    have hcan : (s.mod.isRepeated && s.type.isPackable) = true := by
      unfold FieldSpec.flips at hflip
      rw [Bool.and_eq_true] at hflip
      exact hflip.1
    rw [if_pos hcan]
    have hmode : (s.unmodified p m before).mode ^^^ LabelFlags.isPacked =
        (s.toField p m before).mode := by
      change modeBits _ _ _ _ ^^^ _ = modeBits _ _ _ s.isPacked
      rw [modeBits_xor_isPacked, hxor]
    rw [hmode]
  · rw [if_neg hflip] at hxor ⊢
    have hmode : (s.unmodified p m before).mode = (s.toField p m before).mode := by
      change modeBits _ _ _ _ = modeBits _ _ _ s.isPacked
      rw [hxor]
    rw [← hmode]

/-- **The modifiers of a field are read back.** -/
theorem modifyField_unmodified (hv : s.Valid) :
    modifyField (UInt32.ofNat (s.modifierBits m)) (s.unmodified p m before) =
      .ok (s.toField p m before) := by
  have hreq := hv.notRequired
  have hsing := hv.notSingular
  obtain ⟨-, -, hs, hr⟩ := modifierBits_spec m s
  unfold modifyField
  rw [flipPacked_unmodified]
  simp only [bind, Except.bind, hs, hr]
  unfold FieldSpec.unmodified FieldSpec.toField FieldSpec.parsedClass
  cases hrep : s.mod.isRepeated with
  | true => simp [hsing hrep, hreq (Or.inl hrep), pure, Except.pure]
  | false =>
    cases hsg : s.mod.isProto3Singular with
    | true => simp [hreq (Or.inr hsg), pure, Except.pure]
    | false => cases s.mod.isRequired <;> simp [pure, Except.pure]

/-- Without modifiers the field is as its type says. -/
theorem unmodified_eq (hv : s.Valid) (h : s.modifierBits m = 0) :
    s.unmodified p m before = s.toField p m before := by
  have hmod : modifyField (UInt32.ofNat (s.modifierBits m)) (s.unmodified p m before) =
      .ok (s.toField p m before) := modifyField_unmodified hv
  rw [h] at hmod
  exact Except.ok.inj hmod

end

end Hpb
