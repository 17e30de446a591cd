import Mathlib.Data.Nat.Bitwise
import Mathlib.Tactic.Linarith

/-!
# Fields of bits in a number

`bitField lo width x` are the `width` bits of `x` from `lo` on. A number that is put together from shifted parts
is read part by part: a field of `|||` or `^^^` is that of the operands, and a part that lies beside the field
reads as 0.
-/

namespace Hpb

/-- The bits from `lo` on. -/
def bitField (lo width x : Nat) : Nat := (x >>> lo) % 2 ^ width

section

variable {lo width x y v shift : Nat}

theorem bitField_or (lo width x y : Nat) :
    bitField lo width (x ||| y) = bitField lo width x ||| bitField lo width y := by
  rw [bitField, Nat.shiftRight_or_distrib, Nat.or_mod_two_pow, bitField, bitField]

theorem bitField_xor (lo width x y : Nat) :
    bitField lo width (x ^^^ y) = bitField lo width x ^^^ bitField lo width y := by
  rw [bitField, Nat.shiftRight_xor_distrib, Nat.xor_mod_two_pow, bitField, bitField]

/-- A number is a field of itself. -/
theorem bitField_of_lt (h : x < 2 ^ width) : bitField 0 width x = x := by
  rw [bitField, Nat.shiftRight_zero, Nat.mod_eq_of_lt h]

/-- A part is read where it was put. -/
theorem bitField_shiftLeft (h : v < 2 ^ width) : bitField lo width (v <<< lo) = v := by
  rw [bitField, Nat.shiftLeft_shiftRight, Nat.mod_eq_of_lt h]

/-- A part that ends below the field. -/
theorem bitField_above (h : x < 2 ^ lo) : bitField lo width x = 0 := by
  rw [bitField, Nat.shiftRight_eq_div_pow, Nat.div_eq_of_lt h, Nat.zero_mod]

/-- A part that starts above the field. -/
theorem bitField_below (h : lo + width ≤ shift) : bitField lo width (v <<< shift) = 0 := by
  obtain ⟨k, rfl⟩ : ∃ k, shift = k + width + lo := ⟨shift - width - lo, by omega⟩
  rw [bitField, Nat.shiftLeft_add, Nat.shiftLeft_shiftRight, Nat.shiftLeft_add, Nat.shiftLeft_eq _ width]
  exact Nat.mul_mod_left _ _

theorem shiftLeft_lt (h : v < 2 ^ width) (hle : width + shift ≤ lo) : v <<< shift < 2 ^ lo := by
  rw [Nat.shiftLeft_eq]
  calc v * 2 ^ shift < 2 ^ width * 2 ^ shift := Nat.mul_lt_mul_of_pos_right h (Nat.two_pow_pos shift)
    _ = 2 ^ (width + shift) := (Nat.pow_add 2 width shift).symm
    _ ≤ 2 ^ lo := Nat.pow_le_pow_right (by decide) hle

/-- A part that ends below the field, after a shift. -/
theorem bitField_shiftLeft_above (h : v < 2 ^ width) (hle : width + shift ≤ lo) {w : Nat} :
    bitField lo w (v <<< shift) = 0 :=
  bitField_above (shiftLeft_lt h hle)

end

end Hpb
