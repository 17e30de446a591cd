import Hpb.Wire.Grammar

/-!
# The walk back to the tag of an unknown field (`hpb/wire/decode.c`)

The decoder finds the start of an unknown field by walking back from the end of its value. The walk is
given here with the first byte `lo` that it may read; it has no result if it would read one before it.

* `Decoder.fieldStartWithin`: the walk.
* `fieldStartWithin_eq`: it ends at the tag, and reads nothing before it.
* `fieldStart_eq`: the same of the walk that is part of the decoder.
-/

namespace Hpb

namespace Decoder

/-- `while (start[-1] & 0x80) start--`. -/
def skipContinuedWithin (buf : List UInt8) (lo : Nat) : Nat → Option Nat
  | 0 => none
  | pos + 1 =>
    if pos < lo then none
    else if buf.getD pos 0 &&& 128 ≠ 0 then skipContinuedWithin buf lo pos
    else some (pos + 1)

/-- `_hpb_Decoder_ReverseSkipVarint`, with the bits that were seen so far. -/
def reverseSkipVarintWithin (buf : List UInt8) (lo : Nat) (val : UInt32) : Nat → UInt32 → Option Nat
  | 0, _ => none
  | pos + 1, seen =>
    if pos < lo then none
    else
      let seen := (seen <<< 7) ||| (buf.getD pos 0 &&& 127).toUInt32
      if seen = val then some pos else reverseSkipVarintWithin buf lo val pos seen

/-- The walk from the end of a tag and a value to the start of the value. -/
def valueStartWithin (buf : List UInt8) (lo : Nat) (wireType : WireType) (pos : Nat) : Option Nat :=
  match wireType with
  | .varint | .delimited => skipContinuedWithin buf lo (pos - 1)
  | .fixed32 => if pos < 4 then none else some (pos - 4)
  | .fixed64 => if pos < 8 then none else some (pos - 8)
  | _ => some pos

/-- `fieldStart`, if it reads no byte before `lo`. -/
def fieldStartWithin (buf : List UInt8) (lo number : Nat) (wireType : WireType) (pos : Nat) : Option Nat :=
  (valueStartWithin buf lo wireType pos).bind fun start =>
    reverseSkipVarintWithin buf lo (makeTag number wireType) start 0

end Decoder

section Walk

variable {buf : List UInt8} {lo : Nat}

/-- The walk back over a varint ends at its start, if the byte before it is the last one of a varint. -/
theorem skipContinuedWithin_eq {pos n : Nat} (h : Ends (bytesFrom buf pos) n) (hpos : lo < pos)
    (hbefore : (buf.getD (pos - 1) 0).toNat < 128) : Decoder.skipContinuedWithin buf lo (pos + n) = some pos := by
  have hwalk : ∀ k ≤ n, Decoder.skipContinuedWithin buf lo (pos + k) = some pos := by
    intro k hk
    induction k with
    | zero =>
      obtain ⟨p, rfl⟩ : ∃ p, pos = p + 1 := ⟨pos - 1, by omega⟩
      rw [Nat.add_zero, Decoder.skipContinuedWithin, if_neg (by omega), if_neg]
      exact not_not.mpr (and_128_of_lt hbefore)
    | succ k ih =>
      rw [← Nat.add_assoc, Decoder.skipContinuedWithin, if_neg (by omega), if_pos]
      · exact ih (by omega)
      · exact and_128_of_ge (h.1 k (by omega))
  exact hwalk n (Nat.le_refl n)

theorem shiftLeft_seven_or {seen : UInt32} {b : UInt8} (h : seen.toNat < 2 ^ 25) :
    ((seen <<< 7) ||| (b &&& 127).toUInt32).toNat = seen.toNat * 128 + b.toNat % 128 := by
  have hb : (b &&& 127).toUInt32.toNat = b.toNat % 128 := by
    rw [UInt8.toNat_toUInt32, UInt8.toNat_and]
    exact Nat.and_two_pow_sub_one_eq_mod b.toNat 7
  have hs : (seen <<< 7).toNat = 2 ^ 7 * seen.toNat := by
    rw [UInt32.toNat_shiftLeft]
    change (seen.toNat <<< 7) % 2 ^ 32 = _
    rw [Nat.shiftLeft_eq]
    omega
  have hlt : b.toNat % 128 < 2 ^ 7 := Nat.mod_lt _ (by decide)
  rw [UInt32.toNat_or, hb, hs, ← Nat.two_pow_add_eq_or_of_lt hlt]
  omega

/-- The walk back over a number ends at its start: before that, it has only seen its higher digits. -/
theorem reverseSkipVarintWithin_eq {pos : Nat} {val : UInt32} (k : Nat) {seen : UInt32}
    (hval : 0 < val.toNat)
    (hlo : lo ≤ pos) (hseen : val.toNat = septets (bytesFrom buf pos) k + seen.toNat * 2 ^ (7 * k)) (hk : 0 < k) :
    Decoder.reverseSkipVarintWithin buf lo val (pos + k) seen = some pos := by
  induction k generalizing seen with
  | zero => exact absurd hk (Nat.lt_irrefl 0)
  | succ k ih =>
    have hpow : 2 ^ (7 * (k + 1)) = 128 * 2 ^ (7 * k) := by
      rw [Nat.mul_succ, Nat.pow_add]
      ring
    have hsmall : seen.toNat < 2 ^ 25 := by
      have hle : seen.toNat * 128 ≤ seen.toNat * 2 ^ (7 * (k + 1)) :=
        Nat.mul_le_mul_left _ (by rw [hpow]; exact Nat.le_mul_of_pos_right _ (Nat.two_pow_pos _))
      have := val.toNat_lt
      omega
    rw [← Nat.add_assoc, Decoder.reverseSkipVarintWithin, if_neg (by omega)]
    have hnext := shiftLeft_seven_or (b := buf.getD (pos + k) 0) hsmall
    generalize (seen <<< 7) ||| (buf.getD (pos + k) 0 &&& 127).toUInt32 = next at hnext
    have hdigit : (bytesFrom buf pos k).toNat % 128 = (buf.getD (pos + k) 0).toNat % 128 := rfl
    have hsum : val.toNat = septets (bytesFrom buf pos) k + next.toNat * 2 ^ (7 * k) := by
      rw [hseen, septets, hnext, hdigit, hpow]
      ring
    cases k with
    | zero =>
      have heq : next = val := by
        apply UInt32.toNat_inj.mp
        simp [septets] at hsum
        exact hsum.symm
      rw [if_pos heq, Nat.add_zero]
    | succ k =>
      have hne : next ≠ val := by
        rintro rfl
        have h128 : 2 ^ 7 ≤ 2 ^ (7 * (k + 1)) := Nat.pow_le_pow_right (by decide) (by omega)
        have hle : next.toNat * 2 ^ 7 ≤ next.toNat * 2 ^ (7 * (k + 1)) := Nat.mul_le_mul_left _ h128
        omega
      rw [if_neg hne]
      exact ih hsum (Nat.succ_pos k)

theorem WireType.bits_lt (w : WireType) : w.bits.toNat < 8 := by cases w <;> decide

theorem makeTag_toNat {number : Nat} {w : WireType} (h : number * 8 + w.bits.toNat < 2 ^ 32) :
    (makeTag number w).toNat = number * 8 + w.bits.toNat := by
  have hs : (UInt32.ofNat number <<< 3).toNat = 2 ^ 3 * number := by
    rw [UInt32.toNat_shiftLeft, UInt32.toNat_ofNat']
    change ((number % 2 ^ 32) <<< 3) % 2 ^ 32 = _
    rw [Nat.shiftLeft_eq]
    omega
  rw [makeTag, UInt32.toNat_or, hs, ← Nat.two_pow_add_eq_or_of_lt w.bits_lt]
  omega

/-- What `_hpb_Decoder_DecodeWireValue` reads of a value: all of it but the bytes of a delimited field and
the fields of a group. -/
def HeadAt (buf : List UInt8) (w : WireType) (pos stop val : Nat) : Prop :=
  match w with
  | .varint | .delimited => VarintAt buf 10 pos stop val
  | .fixed32 => stop = pos + 4
  | .fixed64 => stop = pos + 8
  | .startGroup => stop = pos
  | .endGroup => False

/-- **The walk back from the value ends at the tag.** -/
theorem fieldStartWithin_eq {pos start stop number val : Nat} {w : WireType}
    (htag : TagAt buf pos start number w) (hnumber : 0 < number) (hhead : HeadAt buf w start stop val)
    (hlo : lo ≤ pos) : Decoder.fieldStartWithin buf lo number w stop = some pos := by
  obtain ⟨⟨n, hn, hends, rfl, hval⟩, hlt⟩ := htag
  have hfull : septets (bytesFrom buf pos) (n + 1) = number * 8 + w.bits.toNat := by
    have h₁ := septets_lt (bytesFrom buf pos) (n + 1)
    have h₂ : 2 ^ (7 * (n + 1)) ≤ 2 ^ 35 := Nat.pow_le_pow_right (by decide) (by omega)
    omega
  have hskip : Decoder.reverseSkipVarintWithin buf lo (makeTag number w) (pos + (n + 1)) 0 = some pos := by
    refine reverseSkipVarintWithin_eq (n + 1) ?_ hlo ?_ (Nat.succ_pos n)
    · rw [makeTag_toNat hlt]
      omega
    · rw [makeTag_toNat hlt, hfull]
      simp
  -- the last byte of the tag is before the value
  have hbefore : (buf.getD (pos + n + 1 - 1) 0).toNat < 128 := hends.2
  have hvarint : VarintAt buf 10 (pos + n + 1) stop val →
      Decoder.skipContinuedWithin buf lo (stop - 1) = some (pos + (n + 1)) := by
    rintro ⟨m, -, hm, rfl, -⟩
    exact skipContinuedWithin_eq hm (by omega) hbefore
  have hstart : Decoder.valueStartWithin buf lo w stop = some (pos + (n + 1)) := by
    cases w with
    | varint => exact hvarint hhead
    | delimited => exact hvarint hhead
    | fixed32 =>
      obtain rfl : stop = pos + n + 1 + 4 := hhead
      rw [Decoder.valueStartWithin, if_neg (by omega)]
      rfl
    | fixed64 =>
      obtain rfl : stop = pos + n + 1 + 8 := hhead
      rw [Decoder.valueStartWithin, if_neg (by omega)]
      rfl
    | startGroup =>
      obtain rfl : stop = pos + n + 1 := hhead
      rfl
    | endGroup => exact hhead.elim
  rw [Decoder.fieldStartWithin, hstart]
  exact hskip

theorem skipContinued_of_within {pos start : Nat} (h : Decoder.skipContinuedWithin buf lo pos = some start) :
    Decoder.skipContinued buf pos = start := by
  induction pos with
  | zero => cases h
  | succ pos ih =>
    rw [Decoder.skipContinuedWithin] at h
    rw [Decoder.skipContinued]
    split at h
    · cases h
    · split at h
      next hcont => rw [if_pos hcont, ih h]
      next hcont => rw [if_neg hcont, Option.some.inj h]

theorem reverseSkipVarint_of_within {val seen : UInt32} {pos start : Nat}
    (h : Decoder.reverseSkipVarintWithin buf lo val pos seen = some start) :
    Decoder.reverseSkipVarint buf val pos seen = start := by
  induction pos generalizing seen with
  | zero => cases h
  | succ pos ih =>
    rw [Decoder.reverseSkipVarintWithin] at h
    rw [Decoder.reverseSkipVarint]
    dsimp only at h ⊢
    split at h
    · cases h
    · split at h
      next hseen => rw [if_pos hseen, Option.some.inj h]
      next hseen => rw [if_neg hseen, ih h]

/-- The walk of the decoder is the one that stays within the message. -/
theorem fieldStart_of_within {number pos start : Nat} {w : WireType}
    (h : Decoder.fieldStartWithin buf lo number w pos = some start) : Decoder.fieldStart buf number w pos = start := by
  obtain ⟨mid, hmid, hskip⟩ := Option.bind_eq_some_iff.mp h
  have hvalue : Decoder.fieldStart buf number w pos =
      Decoder.reverseSkipVarint buf (makeTag number w) mid 0 := by
    unfold Decoder.valueStartWithin at hmid
    unfold Decoder.fieldStart
    cases w with
    | varint => simp only [skipContinued_of_within hmid]
    | delimited => simp only [skipContinued_of_within hmid]
    | fixed32 => rw [← Option.some.inj (Option.ite_none_left_eq_some.mp hmid).2]
    | fixed64 => rw [← Option.some.inj (Option.ite_none_left_eq_some.mp hmid).2]
    | startGroup => rw [← Option.some.inj hmid]
    | endGroup => rw [← Option.some.inj hmid]
  rw [hvalue, reverseSkipVarint_of_within hskip]

theorem fieldStart_eq {pos start stop number val : Nat} {w : WireType} (htag : TagAt buf pos start number w)
    (hnumber : 0 < number) (hhead : HeadAt buf w start stop val) : Decoder.fieldStart buf number w stop = pos :=
  fieldStart_of_within (fieldStartWithin_eq htag hnumber hhead (Nat.le_refl pos))

end Walk

end Hpb
