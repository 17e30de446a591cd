import Mathlib.Tactic.Common
import Hpb.MiniDescriptor.Encode

/-!
# Reading back what was written in base 92

`Digits min max bits base` says that the characters from `min` to `max` are digits of `bits` bits, the
zero being `base`. For such a range `decodeVarint` reads back every `uint32_t` that `putBase92Varint`
wrote, and stops before the first character outside of the range (`decodeVarint_putBase92Varint`).

* `skipDigits`, `modifierDigits`, `oneofDigits`: the three ranges in use.
-/

namespace Hpb

/-- The characters from `min` to `max` are digits of `bits` bits. -/
structure Digits (min max : UInt8) (bits : Nat) (base : Int) : Prop where
  zero : fromBase92 min = base
  readBits : log2Ceiling (fromBase92 max - fromBase92 min) = bits
  writeBits : log2Ceiling (fromBase92 max - fromBase92 min + 1) = bits
  pos : 0 < bits
  small : bits ≤ 6
  digit : ∀ x < 2 ^ bits, fromBase92 (toBase92 (base + (x : Nat))) = base + (x : Nat) ∧
    (min.toNat : Int) ≤ charValue (toBase92 (base + (x : Nat))) ∧
    charValue (toBase92 (base + (x : Nat))) ≤ max.toNat

theorem skipDigits : Digits 95 126 5 60 := ⟨by decide, by decide, by decide, by decide, by decide, by decide⟩

theorem modifierDigits : Digits 76 91 4 42 :=
  ⟨by decide, by decide, by decide, by decide, by decide, by decide⟩

theorem oneofDigits : Digits 32 98 6 0 :=
  ⟨by decide, by decide, by decide, by decide, by decide, by decide⟩

theorem le_of_charValue {lo hi ch : UInt8} (h₁ : (lo.toNat : Int) ≤ charValue ch)
    (h₂ : charValue ch ≤ hi.toNat) : lo ≤ ch ∧ ch ≤ hi := by
  have hch := ch.toNat_lt
  unfold charValue at h₁ h₂
  split at h₁
  · rename_i hlt
    rw [if_pos hlt] at h₂
    exact ⟨UInt8.le_iff_toNat_le.mpr (by omega), UInt8.le_iff_toNat_le.mpr (by omega)⟩
  · omega

/-- The next character, if there is one, is outside of the range. -/
def Stops (min max : UInt8) (rest : List UInt8) : Prop :=
  ∀ c ∈ rest.head?, charValue c < min.toNat ∨ (max.toNat : Int) < charValue c

section

variable {min max : UInt8} {bits : Nat} {base : Int}

/-- The digit `x` at `shift` joins the digits below. -/
theorem or_shiftLeft_digit {acc : UInt32} {x shift : Nat} (hacc : acc.toNat < 2 ^ shift)
    (hx : x * 2 ^ shift < 2 ^ 32) (hs : shift < 32) :
    (acc ||| wrapUInt32 (x : Int) <<< UInt32.ofNat shift).toNat = acc.toNat + x * 2 ^ shift := by
  have hx32 : x < 2 ^ 32 := Nat.lt_of_le_of_lt (Nat.le_mul_of_pos_right _ (Nat.two_pow_pos _)) hx
  have hwrap : (wrapUInt32 (x : Int)).toNat = x := by
    unfold wrapUInt32
    rw [UInt32.toNat_ofNat']
    omega
  have hshift : (UInt32.ofNat shift).toNat % 32 = shift := by
    rw [UInt32.toNat_ofNat']
    omega
  rw [UInt32.toNat_or, UInt32.toNat_shiftLeft, hwrap, hshift, Nat.shiftLeft_eq, Nat.mod_eq_of_lt hx,
    Nat.or_comm, Nat.mul_comm, ← Nat.two_pow_add_eq_or_of_lt hacc, Nat.add_comm]

theorem putDigits_ne_nil (shift : Nat) (base : Int) (fuel val : Nat) :
    putDigits shift base (fuel + 1) val ≠ [] := by
  simp [putDigits]

/-- Reading one digit. -/
theorem wrapUInt32_digit (hd : Digits min max bits base) {x : Nat} (hx : x < 2 ^ bits) :
    wrapUInt32 (fromBase92 (toBase92 (base + (x : Nat))) - fromBase92 min) = wrapUInt32 (x : Int) := by
  rw [(hd.digit x hx).1, hd.zero]
  congr 1
  omega

theorem decodeVarint_putDigits (hd : Digits min max bits base) {fuel val shift : Nat} {acc : UInt32}
    {ch : UInt8} {cs rest : List UInt8} (hw : putDigits bits base fuel val = ch :: cs)
    (hfuel : val < 2 ^ (bits * fuel)) (hacc : acc.toNat < 2 ^ shift) (hs : shift < 32)
    (hval : val * 2 ^ shift < 2 ^ 32) (hrest : Stops min max rest) :
    ∃ v : UInt32, decodeVarint min max acc shift ch (cs ++ rest) = some (cs.length, v) ∧
      v.toNat = acc.toNat + val * 2 ^ shift := by
  induction fuel generalizing val shift acc ch cs with
  | zero => cases hw
  | succ fuel ih =>
    rw [putDigits] at hw
    obtain ⟨rfl, rfl⟩ := List.cons.inj hw
    have hdigit : val % 2 ^ bits < 2 ^ bits := Nat.mod_lt _ (Nat.two_pow_pos _)
    have hsplit : val = val % 2 ^ bits + 2 ^ bits * (val / 2 ^ bits) := (Nat.mod_add_div _ _).symm
    have hlow : val % 2 ^ bits * 2 ^ shift < 2 ^ 32 :=
      Nat.lt_of_le_of_lt (Nat.mul_le_mul_right _ (Nat.mod_le _ _)) hval
    have hor := or_shiftLeft_digit hacc hlow hs
    by_cases hq : val / 2 ^ bits = 0
    · -- the last digit
      rw [if_pos hq, List.nil_append]
      have hval' : val % 2 ^ bits = val := by
        rw [hq] at hsplit
        omega
      refine ⟨_, ?_, by rw [hor, hval']⟩
      cases rest with
      | nil => rw [decodeVarint, wrapUInt32_digit hd hdigit]; rfl
      | cons c rest =>
        rw [decodeVarint, if_pos (hrest c rfl), wrapUInt32_digit hd hdigit]
        rfl
    · rw [if_neg hq]
      have hq1 : 1 ≤ val / 2 ^ bits := Nat.one_le_iff_ne_zero.mpr hq
      have hge : 2 ^ bits ≤ val := (Nat.one_le_div_iff (Nat.two_pow_pos _)).mp hq1
      have hpow : 2 ^ (shift + bits) < 2 ^ 32 := by
        rw [Nat.pow_add, Nat.mul_comm]
        exact Nat.lt_of_le_of_lt (Nat.mul_le_mul_right _ hge) hval
      have hshift : shift + bits < 32 := (Nat.pow_lt_pow_iff_right (by decide)).mp hpow
      have hfuel' : val / 2 ^ bits < 2 ^ (bits * fuel) := by
        rw [Nat.div_lt_iff_lt_mul (Nat.two_pow_pos _), ← Nat.pow_add]
        rwa [Nat.mul_succ] at hfuel
      have hprod : val % 2 ^ bits * 2 ^ shift + val / 2 ^ bits * 2 ^ (shift + bits) =
          val * 2 ^ shift := by
        conv_rhs => rw [hsplit]
        rw [Nat.add_mul, Nat.pow_add]
        congr 1
        rw [Nat.mul_comm (2 ^ bits), Nat.mul_assoc, Nat.mul_comm (2 ^ bits) (2 ^ shift)]
      cases hcs : putDigits bits base fuel (val / 2 ^ bits) with
      | nil =>
        cases fuel with
        | zero => simp at hfuel'; omega
        | succ fuel => exact absurd hcs (putDigits_ne_nil _ _ _ _)
      | cons c cs =>
        have hc : c = toBase92 (base + (val / 2 ^ bits % 2 ^ bits : Nat)) := by
          cases fuel with
          | zero => cases hcs
          | succ fuel =>
            rw [putDigits] at hcs
            exact (List.cons.inj hcs).1.symm
        have hrange := (hd.digit _ (Nat.mod_lt (val / 2 ^ bits) (Nat.two_pow_pos bits))).2
        rw [← hc] at hrange
        have hacc' : (acc ||| wrapUInt32 ((val % 2 ^ bits : Nat) : Int) <<<
            UInt32.ofNat shift).toNat < 2 ^ (shift + bits) := by
          have hle : (val % 2 ^ bits + 1) * 2 ^ shift ≤ 2 ^ bits * 2 ^ shift :=
            Nat.mul_le_mul_right _ hdigit
          rw [Nat.add_mul, Nat.one_mul] at hle
          rw [hor, Nat.pow_add, Nat.mul_comm (2 ^ shift)]
          omega
        obtain ⟨v, hv, hvn⟩ := ih hcs hfuel' hacc' hshift (by omega)
        refine ⟨v, ?_, ?_⟩
        · rw [List.cons_append, decodeVarint, if_neg (by omega), wrapUInt32_digit hd hdigit,
            hd.readBits]
          dsimp only
          rw [if_neg (by omega), hv]
          rfl
        · rw [hvn, hor, Nat.add_assoc, hprod]

/-- **Reading back a number.** -/
theorem decodeVarint_putBase92Varint (hd : Digits min max bits base) {val : Nat} (hval : val < 2 ^ 32)
    {rest : List UInt8} (hrest : Stops min max rest) :
    ∃ ch cs, putBase92Varint min max val = ch :: cs ∧
      decodeVarint min max 0 0 ch (cs ++ rest) = some (cs.length, UInt32.ofNat val) := by
  cases hcs : putBase92Varint min max val with
  | nil => exact absurd hcs (putDigits_ne_nil _ _ _ _)
  | cons ch cs =>
    have hw : putDigits bits base 32 val = ch :: cs := by
      rw [← hcs, putBase92Varint, hd.writeBits, hd.zero]
    have hfuel : val < 2 ^ (bits * 32) :=
      Nat.lt_of_lt_of_le hval (Nat.pow_le_pow_right (by decide) (by have := hd.pos; omega))
    obtain ⟨v, hv, hvn⟩ := decodeVarint_putDigits hd hw hfuel (by decide : (0 : UInt32).toNat < 2 ^ 0)
      (by decide) (by omega) hrest
    refine ⟨ch, cs, rfl, ?_⟩
    rw [hv]
    congr 2
    apply UInt32.toNat_inj.mp
    rw [hvn, UInt32.toNat_ofNat']
    simp
    omega

/-- The first character of a number is in its range. -/
theorem putBase92Varint_head (hd : Digits min max bits base) (val : Nat) :
    ∃ ch cs, putBase92Varint min max val = ch :: cs ∧ (min.toNat : Int) ≤ charValue ch ∧
      charValue ch ≤ max.toNat := by
  refine ⟨_, _, by rw [putBase92Varint, hd.writeBits, hd.zero, putDigits], ?_⟩
  exact (hd.digit _ (Nat.mod_lt _ (Nat.two_pow_pos _))).2

end

end Hpb
