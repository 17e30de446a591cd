import Hpb.Lib.Base128
import Hpb.Wire.Varint

/-!
# What the readers of variable-length integers accept

Each reader is described by the number that the bytes spell in base 128 (`septets`) and by the place
of its last byte (`Ends`). They differ in the numbers that do not fit: the generic decoder drops the
bits above the 64th, `fastdecode_varint64` rejects them, and `fastdecode_longsize` takes no more than
five bytes where `hpb_Decoder_DecodeSize` takes ten (`readersAgree_iff`).
-/

namespace Hpb

/-! ### Bytes -/

/-- The high bit of a byte. -/
theorem and_128_eq_zero_iff (b : UInt8) : b &&& 128 = 0 ↔ b.toNat < 128 := by
  have hall : ∀ b : Fin 256, (UInt8.ofNat b.val &&& 128 = 0 ↔ b.val < 128) := by
    decide +kernel
  have h := hall ⟨b.toNat, b.toNat_lt⟩
  rwa [UInt8.ofNat_toNat] at h

theorem and_128_of_lt {b : UInt8} (h : b.toNat < 128) : b &&& 128 = 0 := (and_128_eq_zero_iff b).mpr h

theorem and_128_of_ge {b : UInt8} (h : 128 ≤ b.toNat) : ¬b &&& 128 = 0 := fun hb =>
  absurd ((and_128_eq_zero_iff b).mp hb) (Nat.not_lt.mpr h)

theorem toUInt64_toNat (b : UInt8) : b.toUInt64.toNat = b.toNat := rfl

/-- What adding a byte does, up to the bit that is taken back. -/
theorem addByte_modEq (val : UInt64) (b : UInt8) {s : Nat} (hs : s < 64) :
    (addByte val b s).toNat + 2 ^ s ≡ val.toNat + b.toNat * 2 ^ s [MOD 2 ^ 64] := by
  have hshift : (UInt64.ofNat s).toNat % 64 = s := by
    rw [UInt64.toNat_ofNat']
    omega
  have hsub : (b.toUInt64 - 1).toNat + 1 ≡ b.toNat [MOD 2 ^ 64] := by
    rw [UInt64.toNat_sub, Nat.ModEq, Nat.mod_add_mod]
    change (2 ^ 64 - 1 + b.toNat + 1) % 2 ^ 64 = _
    omega
  have hx : ((b.toUInt64 - 1) <<< UInt64.ofNat s).toNat + 2 ^ s ≡ b.toNat * 2 ^ s [MOD 2 ^ 64] := by
    rw [UInt64.toNat_shiftLeft, hshift, Nat.shiftLeft_eq]
    have h₁ := (Nat.mod_modEq ((b.toUInt64 - 1).toNat * 2 ^ s) (2 ^ 64)).add_right (2 ^ s)
    rw [← Nat.succ_mul] at h₁
    exact h₁.trans (hsub.mul_right (2 ^ s))
  rw [addByte, UInt64.toNat_add]
  refine ((Nat.mod_modEq _ _).add_right (2 ^ s)).trans ?_
  rw [Nat.add_assoc]
  exact hx.add_left val.toNat

section

variable {mem : Nat → UInt8} {n : Nat}

/-- After `n` bytes that are followed by another one. -/
def Partial (mem : Nat → UInt8) (n : Nat) (val : UInt64) : Prop :=
  val.toNat ≡ septets mem n + 2 ^ (7 * n) [MOD 2 ^ 64]

theorem partial_first (h : 128 ≤ (mem 0).toNat) : Partial mem 1 (mem 0).toUInt64 := by
  have h₁ := septets_continued h
  simp only [septets, Nat.mul_zero, Nat.pow_zero, Nat.mul_one, Nat.zero_add] at h₁
  rw [Partial, toUInt64_toNat, h₁]
  simp [septets]
  exact Nat.ModEq.refl _

theorem Partial.addByte {val : UInt64} (h : Partial mem n val) (hn : 7 * n < 64) :
    (addByte val (mem n) (7 * n)).toNat ≡ septets mem n + (mem n).toNat * 2 ^ (7 * n)
      [MOD 2 ^ 64] :=
  add_next_byte h (addByte_modEq val (mem n) hn)

/-- The last byte completes the number. -/
theorem Partial.last {val : UInt64} (h : Partial mem n val) (hn : 7 * n < 64)
    (hb : (mem n).toNat < 128) :
    Hpb.addByte val (mem n) (7 * n) = UInt64.ofNat (septets mem (n + 1)) := by
  have h₁ := h.addByte hn
  rw [← septets_last hb] at h₁
  apply UInt64.toNat_inj.mp
  rw [UInt64.toNat_ofNat', ← h₁]
  exact (Nat.mod_eq_of_lt (UInt64.toNat_lt _)).symm

theorem Partial.continued {val : UInt64} (h : Partial mem n val) (hn : 7 * n < 64)
    (hb : 128 ≤ (mem n).toNat) : Partial mem (n + 1) (Hpb.addByte val (mem n) (7 * n)) := by
  have h₁ := h.addByte hn
  rwa [septets_continued hb] at h₁

/-! ### The generic readers -/

theorem longVarint_of_ends {fuel i : Nat} {val : UInt64} (h : Ends mem n) (hp : Partial mem i val)
    (hi : i ≤ n) (hn : n < 10) (hf : i + fuel = 10) :
    longVarint mem fuel i val = some (n + 1, UInt64.ofNat (septets mem (n + 1))) := by
  induction fuel generalizing i val with
  | zero => omega
  | succ fuel ih =>
    rw [longVarint]
    rw [Nat.mul_comm i 7]
    obtain hlt | rfl := Nat.lt_or_eq_of_le hi
    · have hb := h.1 i hlt
      rw [if_neg (and_128_of_ge hb)]
      exact ih (hp.continued (by omega) hb) hlt (by omega)
    · rw [if_pos (and_128_of_lt h.2), hp.last (by omega) h.2]

theorem longVarint_of_continues {fuel i : Nat} (val : UInt64) (h : Continues mem (i + fuel)) :
    longVarint mem fuel i val = none := by
  induction fuel generalizing i val with
  | zero => rfl
  | succ fuel ih =>
    rw [longVarint]
    rw [if_neg (and_128_of_ge (h i (by omega)))]
    exact ih _ (by rwa [Nat.add_right_comm, Nat.add_assoc])

/-- What both generic readers do after the first byte. -/
theorem decodeVarint_of_ends (h : Ends mem n) (hn : n < 10) :
    Decoder.decodeVarint mem = some (n + 1, UInt64.ofNat (septets mem (n + 1))) := by
  rw [Decoder.decodeVarint]
  cases n with
  | zero =>
    rw [if_pos (and_128_of_lt h.2), septets_last h.2]
    congr 2
    apply UInt64.toNat_inj.mp
    rw [UInt64.toNat_ofNat', toUInt64_toNat]
    have := h.2
    simp [septets]
  | succ n =>
    have hb := h.1 0 (by omega)
    rw [if_neg (and_128_of_ge hb)]
    exact longVarint_of_ends h (partial_first hb) (by omega) hn rfl

theorem decodeVarint_of_continues (h : Continues mem 10) : Decoder.decodeVarint mem = none := by
  rw [Decoder.decodeVarint, if_neg (and_128_of_ge (h 0 (by decide)))]
  exact longVarint_of_continues _ h

/-- **The two generic readers are the same.** -/
theorem readVarint_eq (mem : Nat → UInt8) : WireReader.readVarint mem = Decoder.decodeVarint mem := by
  rw [WireReader.readVarint, WireReader.readVarintUpTo, Decoder.decodeVarint]
  split_ifs with h
  · rfl
  · rw [WireReader.readLongVarint, Decoder.decodeLongVarint]
    cases longVarint mem 9 1 (mem 0).toUInt64 with
    | none => rfl
    | some r =>
      obtain ⟨n, val⟩ := r
      have hle : ¬val > 18446744073709551615 := by
        rw [gt_iff_lt, UInt64.lt_iff_toNat_lt]
        have := val.toNat_lt
        change ¬18446744073709551615 < val.toNat
        omega
      dsimp only
      rw [if_neg]
      rintro (hc | hc)
      · exact absurd hc.1 (by decide)
      · exact hle hc

/-! ### The fast reader -/

theorem fastVarintFrom_of_ends {fuel i : Nat} {val : UInt64} (h : Ends mem n)
    (hp : Partial mem (1 + i) val) (hi : 1 + i ≤ n) (hn : n < 9) (hf : i + fuel = 8) :
    fastVarintFrom mem fuel i val = some (n + 1, UInt64.ofNat (septets mem (n + 1))) := by
  induction fuel generalizing i val with
  | zero => omega
  | succ fuel ih =>
    rw [fastVarintFrom]
    rw [show 7 + 7 * i = 7 * (1 + i) by omega]
    obtain hlt | rfl := Nat.lt_or_eq_of_le hi
    · have hb := h.1 (1 + i) hlt
      rw [if_neg (and_128_of_ge hb)]
      exact ih (hp.continued (by omega) hb) hlt (by omega)
    · rw [if_pos (and_128_of_lt h.2), hp.last (by omega) h.2, show 2 + i = 1 + i + 1 by omega]

theorem fastVarintFrom_tenth {fuel i : Nat} {val : UInt64} (h : Continues mem 9)
    (hp : Partial mem (1 + i) val) (hf : i + fuel = 8) :
    fastVarintFrom mem fuel i val =
      if (mem 9).toNat > 1 then none else some (10, UInt64.ofNat (septets mem 10)) := by
  induction fuel generalizing i val with
  | zero =>
    obtain rfl : i = 8 := by omega
    rw [fastVarintFrom]
    have hlt : mem 9 > 1 ↔ (mem 9).toNat > 1 := UInt8.lt_iff_toNat_lt
    change (if mem 9 > 1 then none else some (10, addByte val (mem 9) (7 * 9))) = _
    by_cases hb : (mem 9).toNat > 1
    · rw [if_pos hb, if_pos (hlt.mpr hb)]
    · have hp' : Partial mem 9 val := hp
      rw [if_neg hb, if_neg (fun h => hb (hlt.mp h)), hp'.last (by decide) (by omega)]
  | succ fuel ih =>
    have hb := h (1 + i) (by omega)
    rw [fastVarintFrom]
    rw [show 7 + 7 * i = 7 * (1 + i) by omega, if_neg (and_128_of_ge hb)]
    exact ih (hp.continued (by omega) hb) (by omega)

/-- Ten bytes may spell too large a number, nine may not. -/
theorem septets_ten_lt : septets mem 10 < 2 ^ 64 ↔ (mem 9).toNat % 128 ≤ 1 := by
  have h := septets_lt mem 9
  rw [septets]
  omega

theorem fastdecodeVarint64_of_ends (h : Ends mem n) (hn : n < 10) :
    fastdecodeVarint64 mem = if septets mem (n + 1) < 2 ^ 64 then
      some (n + 1, UInt64.ofNat (septets mem (n + 1))) else none := by
  have hgen := decodeVarint_of_ends h hn
  rw [fastdecodeVarint64]
  rw [Decoder.decodeVarint] at hgen
  obtain hlt | rfl := Nat.lt_or_eq_of_le (Nat.le_of_lt_succ hn)
  · have hfit : septets mem (n + 1) < 2 ^ 64 :=
      Nat.lt_of_lt_of_le (septets_lt mem (n + 1)) (Nat.pow_le_pow_right (by decide) (by omega))
    rw [if_pos hfit]
    cases n with
    | zero =>
      rw [if_pos (and_128_of_lt h.2)] at hgen ⊢
      exact hgen
    | succ n =>
      have hb := h.1 0 (by omega)
      rw [if_neg (and_128_of_ge hb)]
      exact fastVarintFrom_of_ends h (partial_first hb) (by omega) hlt rfl
  · have hb := h.1 0 (by decide)
    have hten : septets mem 10 < 2 ^ 64 ↔ (mem 9).toNat ≤ 1 := by
      rw [septets_ten_lt, Nat.mod_eq_of_lt h.2]
    rw [if_neg (and_128_of_ge hb), fastVarintFrom_tenth h.1 (partial_first hb) rfl]
    by_cases hle : (mem 9).toNat ≤ 1
    · rw [if_neg (Nat.not_lt.mpr hle), if_pos (hten.mpr hle)]
    · rw [if_pos (Nat.lt_of_not_le hle), if_neg (fun hlt => hle (hten.mp hlt))]

theorem fastdecodeVarint64_of_continues (h : Continues mem 10) : fastdecodeVarint64 mem = none := by
  have hb := h 0 (by decide)
  have h9 := h 9 (by decide)
  rw [fastdecodeVarint64, if_neg (and_128_of_ge hb),
    fastVarintFrom_tenth (fun i hi => h i (by omega)) (partial_first hb) rfl, if_pos (by omega)]

/-! ### Sizes -/

/-- After `n` bytes of a size that are followed by another one. -/
def PartialSize (mem : Nat → UInt8) (n : Nat) (size : UInt32) : Prop :=
  size.toNat ≡ septets mem n + 2 ^ (7 * n) [MOD 2 ^ 32]

theorem addSizeByte_modEq (size : UInt32) (b : UInt8) {s : Nat} (hs : s < 64) :
    (addSizeByte size b s).toNat + 2 ^ s ≡ size.toNat + b.toNat * 2 ^ s [MOD 2 ^ 32] := by
  have h := (addByte_modEq size.toUInt64 b hs).of_dvd (show 2 ^ 32 ∣ 2 ^ 64 by decide)
  refine Nat.ModEq.trans (Nat.ModEq.add_right _ ?_) h
  rw [addSizeByte, UInt64.toNat_toUInt32]
  exact Nat.mod_modEq _ _

theorem PartialSize.addByte {size : UInt32} (h : PartialSize mem n size) (hn : 7 * n < 64) :
    (addSizeByte size (mem n) (7 * n)).toNat ≡ septets mem n + (mem n).toNat * 2 ^ (7 * n)
      [MOD 2 ^ 32] :=
  add_next_byte h (addSizeByte_modEq size (mem n) hn)

theorem PartialSize.last {size : UInt32} (h : PartialSize mem n size) (hn : 7 * n < 64)
    (hb : (mem n).toNat < 128) :
    addSizeByte size (mem n) (7 * n) = UInt32.ofNat (septets mem (n + 1)) := by
  have h₁ := h.addByte hn
  rw [← septets_last hb] at h₁
  apply UInt32.toNat_inj.mp
  rw [UInt32.toNat_ofNat', ← h₁]
  exact (Nat.mod_eq_of_lt (UInt32.toNat_lt _)).symm

theorem PartialSize.continued {size : UInt32} (h : PartialSize mem n size) (hn : 7 * n < 64)
    (hb : 128 ≤ (mem n).toNat) : PartialSize mem (n + 1) (addSizeByte size (mem n) (7 * n)) := by
  have h₁ := h.addByte hn
  rwa [septets_continued hb] at h₁

/-- The first byte, sign-extended and masked. -/
theorem partialSize_first (h : 128 ≤ (mem 0).toNat) :
    PartialSize mem 1 ((mem 0).toInt8.toInt32.toUInt32 &&& 255) := by
  have hall : ∀ b : Fin 256, ((UInt8.ofNat b.val).toInt8.toInt32.toUInt32 &&& 255).toNat = b.val := by
    decide +kernel
  have hb : ((mem 0).toInt8.toInt32.toUInt32 &&& 255).toNat = (mem 0).toNat := by
    have hb := hall ⟨(mem 0).toNat, (mem 0).toNat_lt⟩
    rwa [UInt8.ofNat_toNat] at hb
  have h₁ := septets_continued h
  simp only [septets, Nat.mul_zero, Nat.pow_zero, Nat.mul_one, Nat.zero_add] at h₁
  rw [PartialSize, hb, h₁]
  simp [septets]
  exact Nat.ModEq.refl _

theorem fastLongsizeFrom_of_ends {fuel i : Nat} {size : UInt32} (h : Ends mem n)
    (hp : PartialSize mem (i + 1) size) (hi : i + 1 ≤ n) (hn : n < 4) (hf : i + fuel = 3) :
    fastLongsizeFrom (fun i => mem (i + 1)) fuel i size =
      some (n, UInt32.ofNat (septets mem (n + 1))) := by
  induction fuel generalizing i size with
  | zero => omega
  | succ fuel ih =>
    rw [fastLongsizeFrom]
    rw [show 7 + 7 * i = 7 * (i + 1) by omega]
    obtain hlt | rfl := Nat.lt_or_eq_of_le hi
    · have hb := h.1 (i + 1) hlt
      rw [if_neg (and_128_of_ge hb)]
      exact ih (hp.continued (by omega) hb) hlt (by omega)
    · rw [if_pos (and_128_of_lt h.2), hp.last (by omega) h.2]

theorem fastLongsizeFrom_fifth {fuel i : Nat} {size : UInt32} (h : Continues mem 4)
    (hp : PartialSize mem (i + 1) size) (hf : i + fuel = 3) :
    fastLongsizeFrom (fun i => mem (i + 1)) fuel i size =
      if (mem 4).toNat ≥ 8 then none else some (4, UInt32.ofNat (septets mem 5)) := by
  induction fuel generalizing i size with
  | zero =>
    obtain rfl : i = 3 := by omega
    rw [fastLongsizeFrom]
    have hle : mem 4 ≥ 8 ↔ (mem 4).toNat ≥ 8 := UInt8.le_iff_toNat_le
    change (if mem 4 ≥ 8 then none else some (4, addSizeByte size (mem 4) (7 * 4))) = _
    by_cases hb : (mem 4).toNat ≥ 8
    · rw [if_pos hb, if_pos (hle.mpr hb)]
    · have hp' : PartialSize mem 4 size := hp
      rw [if_neg hb, if_neg (fun h => hb (hle.mp h)), hp'.last (by decide) (by omega)]
  | succ fuel ih =>
    have hb := h (i + 1) (by omega)
    rw [fastLongsizeFrom]
    rw [show 7 + 7 * i = 7 * (i + 1) by omega, if_neg (and_128_of_ge hb)]
    exact ih (hp.continued (by omega) hb) (by omega)

theorem septets_five_lt : septets mem 5 < 2 ^ 31 ↔ (mem 4).toNat % 128 < 8 := by
  have h := septets_lt mem 4
  rw [septets]
  omega

/-- The fast decoder takes sizes of at most five bytes below `2 ^ 31`. -/
theorem fastdecodeSize_of_ends (h : Ends mem n) (h0 : 0 < n) :
    fastdecodeSize mem = if n < 5 ∧ septets mem (n + 1) < 2 ^ 31 then
      some (n + 1, UInt32.ofNat (septets mem (n + 1))) else none := by
  have hp := partialSize_first (h.1 0 h0)
  rw [fastdecodeSize, fastdecodeLongsize]
  by_cases hn : n < 4
  · have hfit : septets mem (n + 1) < 2 ^ 31 :=
      Nat.lt_of_lt_of_le (septets_lt mem (n + 1)) (Nat.pow_le_pow_right (by decide) (by omega))
    rw [fastLongsizeFrom_of_ends h hp h0 hn rfl, if_pos ⟨by omega, hfit⟩]
    rfl
  · rw [fastLongsizeFrom_fifth (fun i hi => h.1 i (by omega)) hp rfl]
    by_cases h4 : n = 4
    · subst h4
      have hfive : septets mem 5 < 2 ^ 31 ↔ (mem 4).toNat < 8 := by
        rw [septets_five_lt, Nat.mod_eq_of_lt h.2]
      by_cases hlt : (mem 4).toNat < 8
      · rw [if_neg (Nat.not_le.mpr hlt), if_pos ⟨by decide, hfive.mpr hlt⟩]
        rfl
      · rw [if_pos (Nat.not_lt.mp hlt), if_neg (fun hc => hlt (hfive.mp hc.2))]
        rfl
    · have hb := h.1 4 (by omega)
      rw [if_pos (by omega), if_neg (fun hc => by omega)]
      rfl

theorem fastdecodeSize_of_continues (h : Continues mem 10) : fastdecodeSize mem = none := by
  have hb := h 4 (by decide)
  rw [fastdecodeSize, fastdecodeLongsize, fastLongsizeFrom_fifth (fun i hi => h i (by omega))
    (partialSize_first (h 0 (by decide))) rfl, if_pos (by omega)]
  rfl

theorem decodeSize_of_ends (checkSize : Nat → Nat → Bool) (h : Ends mem n) (hn : n < 10) :
    Decoder.decodeSize checkSize mem =
      if septets mem (n + 1) % 2 ^ 64 < int32Max ∧ checkSize (n + 1) (septets mem (n + 1) % 2 ^ 64) then
        some (n + 1, UInt32.ofNat (septets mem (n + 1))) else none := by
  rw [Decoder.decodeSize, decodeVarint_of_ends h hn]
  dsimp only
  rw [UInt64.toNat_ofNat']
  have hval : (UInt64.ofNat (septets mem (n + 1))).toUInt32 = UInt32.ofNat (septets mem (n + 1)) := by
    apply UInt32.toNat_inj.mp
    rw [UInt64.toNat_toUInt32, UInt64.toNat_ofNat', UInt32.toNat_ofNat']
    omega
  rw [hval]
  by_cases hc : septets mem (n + 1) % 2 ^ 64 < int32Max ∧
      checkSize (n + 1) (septets mem (n + 1) % 2 ^ 64) = true
  · rw [if_pos hc, if_neg]
    rintro (hge | hno)
    · exact absurd hc.1 (Nat.not_lt.mpr hge)
    · exact hno hc.2
  · rw [if_neg hc, if_pos]
    by_contra hno
    rw [not_or] at hno
    exact hc ⟨Nat.lt_of_not_le hno.1, not_not.mp hno.2⟩

end

/-! ### The writer -/

/-- The bytes `bytes` and zeros after them. -/
def memoryOf (bytes : List UInt8) (i : Nat) : UInt8 := bytes.getD i 0

theorem septet_toNat (val : UInt64) : (val &&& 127).toUInt8.toNat = val.toNat % 128 := by
  rw [UInt64.toNat_toUInt8, UInt64.toNat_and]
  change (val.toNat &&& 2 ^ 7 - 1) % 2 ^ 8 = _
  rw [Nat.and_two_pow_sub_one_eq_mod]
  omega

theorem or_128_toNat {b : UInt8} (h : b.toNat < 128) : (b ||| 128).toNat = b.toNat + 128 := by
  have hor := Nat.two_pow_add_eq_or_of_lt (i := 7) h 1
  rw [UInt8.toNat_or]
  change b.toNat ||| 2 ^ 7 * 1 = _
  rw [Nat.or_comm, ← hor]
  omega

theorem shiftRight_seven_toNat (val : UInt64) : (val >>> 7).toNat = val.toNat / 128 := by
  rw [UInt64.toNat_shiftRight]
  exact Nat.shiftRight_eq_div_pow _ _

/-- There is another byte if and only if the number is 128 or more. -/
theorem shiftRight_seven_eq_zero_iff (val : UInt64) : val >>> 7 = 0 ↔ val.toNat < 128 := by
  rw [← UInt64.toNat_inj, shiftRight_seven_toNat]
  change val.toNat / 128 = 0 ↔ _
  omega

theorem shiftRight_seven_lt {val : UInt64} {k : Nat} (h : val.toNat < 2 ^ (7 * (k + 1))) :
    (val >>> 7).toNat < 2 ^ (7 * k) := by
  rw [shiftRight_seven_toNat]
  rw [Nat.mul_succ, Nat.pow_add] at h
  exact Nat.div_lt_of_lt_mul (by rwa [Nat.mul_comm])

/-- A number below `2 ^ (7 * k)` takes at most `k` bytes. -/
theorem putSeptets_length_le (fuel : Nat) {val : UInt64} {k : Nat}
    (h : val.toNat < 2 ^ (7 * (k + 1))) : (putSeptets fuel val).length ≤ k + 1 := by
  induction fuel generalizing val k with
  | zero => simp [putSeptets]
  | succ fuel ih =>
    rw [putSeptets]
    split_ifs with h0
    · simp
    · have hge : ¬val.toNat < 128 := fun hlt => h0 ((shiftRight_seven_eq_zero_iff val).mpr hlt)
      cases k with
      | zero => omega
      | succ k =>
        have := ih (shiftRight_seven_lt h)
        rw [List.length_cons]
        omega

/-- The bytes that are written spell the number. -/
theorem putSeptets_spec {fuel : Nat} {val : UInt64} (rest : List UInt8)
    (hval : val.toNat < 2 ^ (7 * fuel)) (hf : 0 < fuel) :
    ∃ n < fuel, (putSeptets fuel val).length = n + 1 ∧
      Ends (memoryOf (putSeptets fuel val ++ rest)) n ∧
      septets (memoryOf (putSeptets fuel val ++ rest)) (n + 1) = val.toNat := by
  induction fuel generalizing val with
  | zero => omega
  | succ fuel ih =>
    have hb : (val &&& 127).toUInt8.toNat < 128 := by
      rw [septet_toNat]
      omega
    rw [putSeptets]
    by_cases h0 : val >>> 7 = 0
    · have hlt := (shiftRight_seven_eq_zero_iff val).mp h0
      have hfirst : memoryOf ([(val &&& 127).toUInt8] ++ rest) 0 = (val &&& 127).toUInt8 := rfl
      rw [if_pos h0]
      refine ⟨0, by omega, rfl, ⟨fun i hi => by omega, by rw [hfirst]; exact hb⟩, ?_⟩
      rw [septets_last (by rw [hfirst]; exact hb), hfirst, septet_toNat]
      simp [septets]
      omega
    · have hge : ¬val.toNat < 128 := fun hlt => h0 ((shiftRight_seven_eq_zero_iff val).mpr hlt)
      have hpos : 0 < fuel := by
        by_contra hzero
        obtain rfl : fuel = 0 := by omega
        omega
      obtain ⟨n, hn, hlen, hends, hsept⟩ := ih (shiftRight_seven_lt hval) hpos
      rw [if_neg h0]
      generalize hm : memoryOf (((val &&& 127).toUInt8 ||| 128) :: putSeptets fuel (val >>> 7) ++ rest) =
        mem
      have hfirst : (mem 0).toNat = val.toNat % 128 + 128 := by
        rw [← hm, ← septet_toNat, ← or_128_toNat hb]
        rfl
      have hmore : (fun i => mem (i + 1)) = memoryOf (putSeptets fuel (val >>> 7) ++ rest) := by
        rw [← hm]
        rfl
      refine ⟨n + 1, by omega, by rw [List.length_cons, hlen], ?_, ?_⟩
      · exact Ends.cons (hmore ▸ hends) (by omega)
      · rw [septets_succ, hmore, hsept, shiftRight_seven_toNat]
        omega

/-! ### Agreement -/

/-- The readers agree on the bytes `mem`; the sizes are read by the fast decoder with
`fastdecode_longsize` if the first byte is not the last one, and checked by its caller. -/
structure ReadersAgree (mem : Nat → UInt8) : Prop where
  wireReader : WireReader.readVarint mem = Decoder.decodeVarint mem
  fast : fastdecodeVarint64 mem = Decoder.decodeVarint mem
  size : 128 ≤ (mem 0).toNat → ∀ checkSize : Nat → Nat → Bool, Decoder.decodeSize checkSize mem =
    (fastdecodeSize mem).filter fun r => checkSize r.1 r.2.toNat

/-- The bytes spell no number of `2 ^ 64` or more in ten bytes, no size in six bytes or more, and not
the number `INT32_MAX` in five. -/
def Regular (mem : Nat → UInt8) : Prop :=
  ∀ n < 10, Ends mem n → septets mem (n + 1) < 2 ^ 64 ∧
    (5 ≤ n → int32Max ≤ septets mem (n + 1)) ∧ (n < 5 → septets mem (n + 1) ≠ int32Max)

/-- Every reader reads `val` from the bytes `mem`, and they are `len` bytes. -/
structure ReadsBack (mem : Nat → UInt8) (len : Nat) (val : UInt64) : Prop where
  decoder : Decoder.decodeVarint mem = some (len, val)
  wireReader : WireReader.readVarint mem = some (len, val)
  fast : fastdecodeVarint64 mem = some (len, val)
  size : val.toNat < int32Max → ∀ checkSize : Nat → Nat → Bool, checkSize len val.toNat →
    Decoder.decodeSize checkSize mem = some (len, val.toUInt32)
  fastSize : 128 ≤ val.toNat → val.toNat < int32Max → fastdecodeSize mem = some (len, val.toUInt32)

section

variable {mem : Nat → UInt8} {n : Nat}

theorem size_agrees_of_ends (h : Ends mem n) (h0 : 0 < n) (hn : n < 10)
    (hfit : septets mem (n + 1) < 2 ^ 64) :
    (∀ checkSize : Nat → Nat → Bool, Decoder.decodeSize checkSize mem =
      (fastdecodeSize mem).filter fun r => checkSize r.1 r.2.toNat) ↔
    (5 ≤ n → int32Max ≤ septets mem (n + 1)) ∧ (n < 5 → septets mem (n + 1) ≠ int32Max) := by
  have hgen := fun checkSize => decodeSize_of_ends checkSize h hn
  simp only [Nat.mod_eq_of_lt hfit] at hgen
  simp only [hgen, fastdecodeSize_of_ends h h0]
  unfold int32Max
  generalize septets mem (n + 1) = N at hfit
  constructor
  · intro hall
    have hall := hall fun _ _ => true
    refine ⟨fun h5 => ?_, fun h5 => ?_⟩
    · have hfast : ¬(n < 5 ∧ N < 2 ^ 31) := fun hc => by omega
      by_contra hlt
      have hslow : N < 2 ^ 31 - 1 ∧ true = true := ⟨by omega, rfl⟩
      rw [if_pos hslow, if_neg hfast] at hall
      cases hall
    · rintro rfl
      have hfast : n < 5 ∧ 2 ^ 31 - 1 < 2 ^ 31 := ⟨h5, by decide⟩
      rw [if_neg (by simp), if_pos hfast] at hall
      cases hall
  · rintro ⟨h5, hne⟩ checkSize
    by_cases hsmall : n < 5 ∧ N < 2 ^ 31
    · have hlt : N < 2 ^ 31 - 1 := by
        have := hne hsmall.1
        omega
      have hval : (UInt32.ofNat N).toNat = N := by
        rw [UInt32.toNat_ofNat']
        omega
      rw [if_pos hsmall, Option.filter_some, hval]
      simp only [hlt, true_and]
    · rw [if_neg hsmall, if_neg, Option.filter_none]
      intro hc
      omega

/-- **The readers agree on exactly the regular bytes.** -/
theorem readersAgree_iff_regular (mem : Nat → UInt8) : ReadersAgree mem ↔ Regular mem := by
  obtain ⟨n, hn, h⟩ | hc := ends_or_continues mem 10
  · have hfast : fastdecodeVarint64 mem = Decoder.decodeVarint mem ↔ septets mem (n + 1) < 2 ^ 64 := by
      rw [fastdecodeVarint64_of_ends h hn, decodeVarint_of_ends h hn]
      by_cases hfit : septets mem (n + 1) < 2 ^ 64
      · rw [if_pos hfit]
        exact ⟨fun _ => hfit, fun _ => rfl⟩
      · rw [if_neg hfit]
        exact ⟨fun hc => (by cases hc), fun hc => absurd hc hfit⟩
    have honly : Regular mem ↔ septets mem (n + 1) < 2 ^ 64 ∧
        (5 ≤ n → int32Max ≤ septets mem (n + 1)) ∧ (n < 5 → septets mem (n + 1) ≠ int32Max) := by
      refine ⟨fun hr => hr n hn h, fun hr m _ hm => ?_⟩
      obtain rfl := hm.unique h
      exact hr
    rw [honly]
    constructor
    · intro ha
      have hfit := hfast.mp ha.fast
      refine ⟨hfit, ?_⟩
      obtain h0 | h0 := Nat.eq_zero_or_pos n
      · subst h0
        have hlt := septets_lt mem 1
        exact ⟨fun h5 => absurd h5 (by decide),
          fun _ => Nat.ne_of_lt (Nat.lt_trans hlt (by decide))⟩
      · exact (size_agrees_of_ends h h0 hn hfit).mp (ha.size (h.1 0 h0))
    · rintro ⟨hfit, hsize⟩
      refine ⟨readVarint_eq mem, hfast.mpr hfit, fun h0 => ?_⟩
      have hpos : 0 < n := by
        by_contra hz
        obtain rfl : n = 0 := by omega
        exact absurd h.2 (Nat.not_lt.mpr h0)
      exact (size_agrees_of_ends h hpos hn hfit).mpr hsize
  · constructor
    · exact fun _ n hn h => absurd h.2 (Nat.not_lt.mpr (hc n hn))
    · intro _
      have hnone := decodeVarint_of_continues hc
      refine ⟨readVarint_eq mem, by rw [fastdecodeVarint64_of_continues hc, hnone], fun _ checkSize => ?_⟩
      rw [Decoder.decodeSize, hnone, fastdecodeSize_of_continues hc]
      rfl

end

/-- Every reader inverts the writer. -/
theorem readsBack_encodeVarint64 (val : UInt64) (rest : List UInt8) :
    ReadsBack (memoryOf (encodeVarint64 val ++ rest)) (encodeVarint64 val).length val := by
  have hval : val.toNat < 2 ^ (7 * 10) := Nat.lt_trans val.toNat_lt (by decide)
  obtain ⟨n, hn, hlen, hends, hsept⟩ := putSeptets_spec rest hval (by decide)
  have hofNat : UInt64.ofNat val.toNat = val := UInt64.ofNat_toNat
  have hto : UInt32.ofNat val.toNat = val.toUInt32 := by
    apply UInt32.toNat_inj.mp
    rw [UInt32.toNat_ofNat', UInt64.toNat_toUInt32]
  have hmod : val.toNat % 2 ^ 64 = val.toNat := Nat.mod_eq_of_lt val.toNat_lt
  have hgen := decodeVarint_of_ends hends hn
  have hfast := fastdecodeVarint64_of_ends hends hn
  rw [hsept, hofNat] at hgen hfast
  rw [if_pos val.toNat_lt] at hfast
  unfold encodeVarint64
  rw [hlen]
  refine ⟨hgen, by rw [readVarint_eq, hgen], hfast, fun hlt checkSize hcheck => ?_, fun hge hlt => ?_⟩
  · rw [decodeSize_of_ends checkSize hends hn, hsept, hmod, if_pos ⟨hlt, hcheck⟩, hto]
  · unfold int32Max at hlt
    have hshort : (putSeptets 10 val).length ≤ 5 :=
      putSeptets_length_le 10 (k := 4) (Nat.lt_trans hlt (by decide))
    have hpos : 0 < n := by
      by_contra hz
      obtain rfl : n = 0 := by omega
      have hone := septets_lt (memoryOf (putSeptets 10 val ++ rest)) (0 + 1)
      omega
    rw [fastdecodeSize_of_ends hends hpos, hsept, if_pos ⟨by omega, by omega⟩, hto]

/-- **The readers agree on exactly the regular bytes, and each of them inverts the writer.** -/
theorem varint_readers_agree (mem : Nat → UInt8) (val : UInt64) (rest : List UInt8) :
    (ReadersAgree mem ↔ Regular mem) ∧
      ReadsBack (memoryOf (encodeVarint64 val ++ rest)) (encodeVarint64 val).length val :=
  ⟨readersAgree_iff_regular mem, readsBack_encodeVarint64 val rest⟩

/-- Nine bytes that are followed by another one, then 2: the generic decoder drops the bit, the fast
decoder rejects it. -/
theorem not_readersAgree_2_pow_64 :
    ¬ReadersAgree (memoryOf [128, 128, 128, 128, 128, 128, 128, 128, 128, 2]) := by
  intro h
  exact absurd h.fast (by decide)

end Hpb
