import Mathlib.Data.Nat.Digits.Lemmas
import Mathlib.Tactic.Linarith

/-!
# Decimal numerals

`decimal prec n` is the numeral of `n` with at least `prec` digits, as bytes of ASCII text: what a format
such as `%.3d` or, for a number that is not negative, `%03d` prints. `value` reads a list of digits back.
-/

namespace Decimal

def isDigit (b : UInt8) : Bool := 48 ≤ b && b ≤ 57

/-- The byte of a digit below ten. -/
def digit (d : Nat) : UInt8 := UInt8.ofNat (48 + d)

/-- The digit of a byte. -/
def digitVal (b : UInt8) : Nat := b.toNat - 48

/-- One more digit after a numeral of value `a`. -/
def push (a : Nat) (b : UInt8) : Nat := a * 10 + digitVal b

/-- The number that a list of digits denotes. -/
def value (bs : List UInt8) : Nat := bs.foldl push 0

/-- The numeral of `n`, filled up with zeros to `prec` digits. -/
def decimal (prec n : Nat) : List UInt8 := (Nat.digitsAppend 10 prec n).reverse.map digit

theorem digitVal_digit {d : Nat} (h : d < 10) : digitVal (digit d) = d := by
  simp only [digitVal, digit, UInt8.toNat_ofNat']
  omega

theorem isDigit_digit {d : Nat} (h : d < 10) : isDigit (digit d) = true := by
  interval_cases d <;> rfl

theorem digitVal_lt {b : UInt8} (h : isDigit b = true) : digitVal b < 10 := by
  simp only [isDigit, Bool.and_eq_true, decide_eq_true_eq, UInt8.le_iff_toNat_le] at h
  simp only [digitVal]
  exact Nat.lt_of_le_of_lt (Nat.sub_le_sub_right h.2 48) (by decide)

theorem isDigit_of_mem_decimal {prec n : Nat} {b : UInt8} (h : b ∈ decimal prec n) : isDigit b = true := by
  obtain ⟨d, hd, rfl⟩ := List.mem_map.mp h
  exact isDigit_digit (Nat.lt_of_mem_digitsAppend (by decide) prec d (List.mem_reverse.mp hd))

/-- A number below `10 ^ prec` has exactly `prec` digits. -/
theorem length_decimal {prec n : Nat} (h : n < 10 ^ prec) : (decimal prec n).length = prec := by
  rw [decimal, List.length_map, List.length_reverse, Nat.length_digitsAppend (by decide) prec h]

theorem foldr_push {ds : List Nat} (h : ∀ d ∈ ds, d < 10) :
    (ds.map digit).foldr (fun b a => push a b) 0 = Nat.ofDigits 10 ds := by
  induction ds with
  | nil => rfl
  | cons d ds ih =>
    rw [List.map_cons, List.foldr_cons, ih fun x hx => h x (List.mem_cons_of_mem _ hx), push,
      digitVal_digit (h d List.mem_cons_self), Nat.ofDigits_cons]
    omega

/-- **A numeral denotes its number.** -/
theorem value_decimal (prec n : Nat) : value (decimal prec n) = n := by
  rw [value, decimal, List.map_reverse, List.foldl_reverse,
    foldr_push fun d hd => Nat.lt_of_mem_digitsAppend (by decide) prec d hd, Nat.digitsAppend,
    Nat.ofDigits_append_replicate_zero, Nat.ofDigits_digits]

theorem foldl_push_lt {bs : List UInt8} (h : ∀ b ∈ bs, isDigit b = true) (a : Nat) :
    bs.foldl push a < (a + 1) * 10 ^ bs.length := by
  induction bs generalizing a with
  | nil => simp
  | cons b bs ih =>
    have hb := digitVal_lt (h b List.mem_cons_self)
    refine Nat.lt_of_lt_of_le (ih (fun x hx => h x (List.mem_cons_of_mem _ hx)) (push a b)) ?_
    rw [List.length_cons, Nat.pow_succ, ← Nat.mul_assoc, Nat.mul_right_comm]
    refine Nat.mul_le_mul_right _ ?_
    rw [push]
    omega

/-- The number of some digits is below the power of ten. -/
theorem value_lt {bs : List UInt8} (h : ∀ b ∈ bs, isDigit b = true) : value bs < 10 ^ bs.length := by
  have hlt := foldl_push_lt h 0
  rwa [Nat.zero_add, Nat.one_mul] at hlt

/-- More digits do not make the number smaller. -/
theorem le_foldl_push (a : Nat) (bs : List UInt8) : a ≤ bs.foldl push a := by
  induction bs generalizing a with
  | nil => exact Nat.le_refl a
  | cons b bs ih =>
    refine Nat.le_trans ?_ (ih (push a b))
    rw [push]
    omega

end Decimal
