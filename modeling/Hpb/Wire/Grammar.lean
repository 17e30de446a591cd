import Hpb.Wire.VarintSpec
import Hpb.Wire.Decode

/-!
# The wire format

What a sequence of fields is, apart from any table: a tag and a value each, where a group has its fields
and an end tag of its own number. Positions are in the bytes `buf`; past its end there are zeros.

* `TagAt`, `ValueAt`, `FieldsAt`, `RecordAt`: the grammar.
* `decodeVarint_eq_some`, `decodeTag_eq_some`, `decodeSize_eq_some`: what the readers accept.
-/

namespace Hpb

/-- A varint of at most `len` bytes from `pos` to `stop`; its low 64 bits are `val`. -/
def VarintAt (buf : List UInt8) (len pos stop val : Nat) : Prop :=
  ∃ n < len, Ends (bytesFrom buf pos) n ∧ stop = pos + n + 1 ∧
    val = septets (bytesFrom buf pos) (n + 1) % 2 ^ 64

/-- A tag from `pos` to `stop`. -/
def TagAt (buf : List UInt8) (pos stop number : Nat) (w : WireType) : Prop :=
  VarintAt buf 5 pos stop (number * 8 + w.bits.toNat) ∧ number * 8 + w.bits.toNat < 2 ^ 32

mutual

/-- A value from `pos` to `stop`, of a field with a number and a wire type. -/
inductive ValueAt (buf : List UInt8) : Nat → WireType → Nat → Nat → Prop where
  | varint {number pos stop val : Nat} (h : VarintAt buf 10 pos stop val) :
      ValueAt buf number .varint pos stop
  | fixed32 (number pos : Nat) : ValueAt buf number .fixed32 pos (pos + 4)
  | fixed64 (number pos : Nat) : ValueAt buf number .fixed64 pos (pos + 8)
  | delimited {number pos start size : Nat} (h : VarintAt buf 10 pos start size) :
      ValueAt buf number .delimited pos (start + size)
  | group {number pos mid stop : Nat} (hfields : FieldsAt buf pos mid)
      (hend : TagAt buf mid stop number .endGroup) : ValueAt buf number .startGroup pos stop

/-- Fields from `pos` to `stop`. -/
inductive FieldsAt (buf : List UInt8) : Nat → Nat → Prop where
  | nil (pos : Nat) : FieldsAt buf pos pos
  | cons {pos start mid stop number : Nat} {w : WireType} (htag : TagAt buf pos start number w)
      (hvalue : ValueAt buf number w start mid) (hfields : FieldsAt buf mid stop) :
      FieldsAt buf pos stop

end

/-- A field, with its tag, from `pos` to `stop`. -/
def RecordAt (buf : List UInt8) (pos stop number : Nat) (w : WireType) : Prop :=
  ∃ start, TagAt buf pos start number w ∧ ValueAt buf number w start stop

section Places

variable {buf buf' : List UInt8} {len pos stop val : Nat}

theorem VarintAt.lt (h : VarintAt buf len pos stop val) : pos < stop := by
  obtain ⟨n, -, -, rfl, -⟩ := h
  omega

/-- A varint in other bytes that agree with those it is read from. -/
theorem VarintAt.moved {base : Nat} (h : VarintAt buf len pos stop val)
    (hbyte : ∀ i, pos + i < stop → bytesFrom buf' (base + pos) i = bytesFrom buf pos i) :
    VarintAt buf' len (base + pos) (base + stop) val := by
  obtain ⟨n, hn, hends, rfl, hval⟩ := h
  have hsept : ∀ k ≤ n + 1, septets (bytesFrom buf' (base + pos)) k = septets (bytesFrom buf pos) k := by
    intro k hk
    induction k with
    | zero => rfl
    | succ k ih => rw [septets, septets, ih (by omega), hbyte k (by omega)]
  refine ⟨n, hn, ⟨fun i hi => ?_, ?_⟩, by omega, ?_⟩
  · rw [hbyte i (by omega)]
    exact hends.1 i hi
  · rw [hbyte n (by omega)]
    exact hends.2
  · rw [hsept (n + 1) (Nat.le_refl _)]
    exact hval

/-- A varint in other bytes with the same start. -/
theorem VarintAt.congr (h : VarintAt buf len pos stop val)
    (hsame : ∀ i < stop, buf'.getD i 0 = buf.getD i 0) : VarintAt buf' len pos stop val := by
  have hmoved : VarintAt buf' len (0 + pos) (0 + stop) val := h.moved fun i hi => by
    rw [Nat.zero_add]
    exact hsame _ hi
  rwa [Nat.zero_add, Nat.zero_add] at hmoved

/-- The bytes from a position on are those of one varint. -/
theorem VarintAt.unique {len' stop' val' : Nat} (h : VarintAt buf len pos stop val)
    (h' : VarintAt buf len' pos stop' val') : stop = stop' ∧ val = val' := by
  obtain ⟨n, -, hends, rfl, rfl⟩ := h
  obtain ⟨n', -, hends', rfl, rfl⟩ := h'
  obtain rfl := hends.unique hends'
  exact ⟨rfl, rfl⟩

theorem TagAt.lt {number : Nat} {w : WireType} (h : TagAt buf pos stop number w) : pos < stop := h.1.lt

theorem TagAt.unique {stop' number number' : Nat} {w w' : WireType} (h : TagAt buf pos stop number w)
    (h' : TagAt buf pos stop' number' w') : stop = stop' ∧ number = number' ∧ w = w' := by
  obtain ⟨hstop, hval⟩ := h.1.unique h'.1
  have hbits : ∀ w : WireType, w.bits.toNat < 8 := fun w => by cases w <;> decide
  have hw := hbits w
  have hw' := hbits w'
  have hsame : w.bits.toNat = w'.bits.toNat := by omega
  refine ⟨hstop, by omega, ?_⟩
  cases w <;> cases w' <;> first | rfl | exact absurd hsame (by decide)

/-- There is no value after an end tag. -/
theorem ValueAt.ne_endGroup {number : Nat} {w : WireType} (h : ValueAt buf number w pos stop) :
    w ≠ .endGroup := by
  cases h <;> decide

mutual

/-- A value ends where it ends. -/
theorem ValueAt.unique : ∀ {number number' pos stop stop' : Nat} {w : WireType},
    ValueAt buf number w pos stop → ValueAt buf number' w pos stop' → stop = stop'
  | _, _, _, _, _, _, .varint h, .varint h' => (h.unique h').1
  | _, _, _, _, _, _, .fixed32 _ _, .fixed32 _ _ => rfl
  | _, _, _, _, _, _, .fixed64 _ _, .fixed64 _ _ => rfl
  | _, _, _, _, _, _, .delimited h, .delimited h' => by
    obtain ⟨rfl, rfl⟩ := h.unique h'
    rfl
  | _, _, _, _, _, _, .group hfields hend, .group hfields' hend' => by
    obtain rfl := hfields.unique_group hend hfields' hend'
    exact (hend.unique hend').1

/-- The fields of a group end where its end tag is. -/
theorem FieldsAt.unique_group : ∀ {pos mid mid' stop stop' number number' : Nat}, FieldsAt buf pos mid →
    TagAt buf mid stop number .endGroup → FieldsAt buf pos mid' →
    TagAt buf mid' stop' number' .endGroup → mid = mid'
  | _, _, _, _, _, _, _, .nil _, _, .nil _, _ => rfl
  | _, _, _, _, _, _, _, .nil _, hend, .cons htag hvalue _, _ =>
    absurd (hend.unique htag).2.2.symm hvalue.ne_endGroup
  | _, _, _, _, _, _, _, .cons htag hvalue _, _, .nil _, hend' =>
    absurd (hend'.unique htag).2.2.symm hvalue.ne_endGroup
  | _, _, _, _, _, _, _, .cons htag hvalue hfields, hend, .cons htag' hvalue' hfields', hend' => by
    obtain ⟨rfl, -, rfl⟩ := htag.unique htag'
    obtain rfl := hvalue.unique hvalue'
    exact hfields.unique_group hend hfields' hend'

end

mutual

theorem ValueAt.le : ∀ {number pos stop : Nat} {w : WireType}, ValueAt buf number w pos stop → pos ≤ stop
  | _, _, _, _, .varint h => Nat.le_of_lt h.lt
  | _, _, _, _, .fixed32 _ _ => Nat.le_add_right _ _
  | _, _, _, _, .fixed64 _ _ => Nat.le_add_right _ _
  | _, _, _, _, .delimited h => Nat.le_trans (Nat.le_of_lt h.lt) (Nat.le_add_right _ _)
  | _, _, _, _, .group hfields hend => Nat.le_trans hfields.le (Nat.le_of_lt hend.lt)

theorem FieldsAt.le : ∀ {pos stop : Nat}, FieldsAt buf pos stop → pos ≤ stop
  | _, _, .nil _ => Nat.le_refl _
  | _, _, .cons htag hvalue hfields =>
    Nat.le_trans (Nat.le_of_lt htag.lt) (Nat.le_trans hvalue.le hfields.le)

end

/-- A field ends where it ends. -/
theorem RecordAt.unique {stop' number number' : Nat} {w w' : WireType} (h : RecordAt buf pos stop number w)
    (h' : RecordAt buf pos stop' number' w') : stop = stop' := by
  obtain ⟨start, htag, hvalue⟩ := h
  obtain ⟨start', htag', hvalue'⟩ := h'
  obtain ⟨rfl, -, rfl⟩ := htag.unique htag'
  exact hvalue.unique hvalue'

end Places

section Readers

variable {mem : Nat → UInt8} {n : Nat}

/-- A varint that is read has a last byte among the first ten. -/
theorem decodeVarint_eq_some {val : UInt64} (h : Decoder.decodeVarint mem = some (n, val)) :
    ∃ m < 10, n = m + 1 ∧ Ends mem m ∧ val = UInt64.ofNat (septets mem (m + 1)) := by
  obtain ⟨m, hm, he⟩ | hc := ends_or_continues mem 10
  · rw [decodeVarint_of_ends he hm] at h
    cases h
    exact ⟨m, hm, rfl, he, rfl⟩
  · rw [decodeVarint_of_continues hc] at h
    exact nomatch h

/-- A tag that is read has at most five bytes. -/
theorem decodeTag_eq_some {tag : UInt32} (h : Decoder.decodeTag mem = some (n, tag)) :
    ∃ m < 5, n = m + 1 ∧ Ends mem m ∧ tag.toNat = septets mem (m + 1) := by
  rw [Decoder.decodeTag] at h
  split at h
  next h0 =>
    have hb := (and_128_eq_zero_iff _).mp h0
    cases h
    refine ⟨0, by decide, rfl, ⟨fun i hi => absurd hi (Nat.not_lt_zero i), hb⟩, ?_⟩
    rw [septets_last hb]
    simp [septets]
  next h0 =>
    have hvarint : Decoder.decodeVarint mem = Decoder.decodeLongVarint mem (mem 0).toUInt64 := by
      rw [Decoder.decodeVarint, if_neg h0]
    split at h
    next => cases h
    next k val hlong =>
      obtain ⟨m, hm, rfl, he, rfl⟩ := decodeVarint_eq_some (hvarint.trans hlong)
      split at h
      next => cases h
      next hbad =>
        cases h
        have hm5 : m < 5 := by omega
        have hlt := septets_lt mem (m + 1)
        have hpow : 2 ^ (7 * (m + 1)) ≤ 2 ^ 35 := Nat.pow_le_pow_right (by decide) (by omega)
        rw [UInt64.toNat_ofNat'] at hbad
        refine ⟨m, hm5, rfl, he, ?_⟩
        rw [UInt64.toNat_toUInt32, UInt64.toNat_ofNat']
        omega

/-- A size that is read is within what may be read. -/
theorem decodeSize_eq_some {checkSize : Nat → Nat → Bool} {size : UInt32}
    (h : Decoder.decodeSize checkSize mem = some (n, size)) :
    ∃ m < 10, n = m + 1 ∧ Ends mem m ∧ size.toNat = septets mem (m + 1) % 2 ^ 64 ∧
      size.toNat < int32Max ∧ checkSize n size.toNat := by
  rw [Decoder.decodeSize] at h
  split at h
  next => cases h
  next k val hvarint =>
    obtain ⟨m, hm, rfl, he, rfl⟩ := decodeVarint_eq_some hvarint
    split at h
    next => cases h
    next hok =>
      cases h
      rw [UInt64.toNat_ofNat'] at hok
      have hmax : int32Max = 2 ^ 31 - 1 := rfl
      have hsize : (UInt64.ofNat (septets mem (m + 1))).toUInt32.toNat =
          septets mem (m + 1) % 2 ^ 64 := by
        rw [UInt64.toNat_toUInt32, UInt64.toNat_ofNat']
        omega
      refine ⟨m, hm, rfl, he, hsize, ?_, ?_⟩
      · omega
      · rw [hsize]
        simp only [not_or, not_not] at hok
        exact hok.2

end Readers

end Hpb
