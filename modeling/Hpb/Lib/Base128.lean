import Mathlib.Data.Nat.ModEq
import Mathlib.Tactic.Linarith
import Mathlib.Tactic.Ring

/-!
# Numbers in base 128, lowest digit first

A number is written in the low seven bits of consecutive bytes; the high bit of a byte says that
another one follows. `septets mem n` is the number in the first `n` bytes of `mem`, and `Ends mem n`
says that the byte at `n` is the last one.
-/

namespace Hpb

/-- The number in the first `n` bytes. -/
def septets (mem : Nat → UInt8) : Nat → Nat
  | 0 => 0
  | n + 1 => septets mem n + (mem n).toNat % 128 * 2 ^ (7 * n)

/-- The first `n` bytes are each followed by another one. -/
def Continues (mem : Nat → UInt8) (n : Nat) : Prop := ∀ i < n, 128 ≤ (mem i).toNat

/-- The byte at `n` is the last one of the number. -/
def Ends (mem : Nat → UInt8) (n : Nat) : Prop := Continues mem n ∧ (mem n).toNat < 128

section

variable {mem : Nat → UInt8} {m n : Nat}

theorem septets_lt (mem : Nat → UInt8) (n : Nat) : septets mem n < 2 ^ (7 * n) := by
  induction n with
  | zero => simp [septets]
  | succ n ih =>
    have hd : (mem n).toNat % 128 ≤ 127 := by omega
    have hmul : (mem n).toNat % 128 * 2 ^ (7 * n) ≤ 127 * 2 ^ (7 * n) := Nat.mul_le_mul_right _ hd
    have hpow : 2 ^ (7 * (n + 1)) = 128 * 2 ^ (7 * n) := by
      rw [Nat.mul_succ, Nat.pow_add]
      ring
    rw [septets, hpow]
    omega

/-- The first byte and the bytes after it. -/
theorem septets_succ (mem : Nat → UInt8) (n : Nat) :
    septets mem (n + 1) = (mem 0).toNat % 128 + 128 * septets (fun i => mem (i + 1)) n := by
  induction n with
  | zero => simp [septets]
  | succ n ih =>
    have hpow : 2 ^ (7 * (n + 1)) = 128 * 2 ^ (7 * n) := by
      rw [Nat.mul_succ, Nat.pow_add]
      ring
    rw [septets, ih, hpow, septets]
    ring

theorem Continues.succ (h : Continues mem n) (hn : 128 ≤ (mem n).toNat) : Continues mem (n + 1) := by
  intro i hi
  obtain hlt | rfl := Nat.lt_succ_iff_lt_or_eq.mp hi
  · exact h i hlt
  · exact hn

theorem Ends.cons (h : Ends (fun i => mem (i + 1)) n) (h0 : 128 ≤ (mem 0).toNat) :
    Ends mem (n + 1) := by
  refine ⟨fun i hi => ?_, h.2⟩
  cases i with
  | zero => exact h0
  | succ i => exact h.1 i (by omega)

/-- A number has one last byte. -/
theorem Ends.unique (h : Ends mem m) (h' : Ends mem n) : m = n := by
  obtain hlt | heq | hgt := Nat.lt_trichotomy m n
  · exact absurd h.2 (Nat.not_lt.mpr (h'.1 m hlt))
  · exact heq
  · exact absurd h'.2 (Nat.not_lt.mpr (h.1 n hgt))

/-- Among the first `n` bytes there is a last one, or none. -/
theorem ends_or_continues (mem : Nat → UInt8) (n : Nat) :
    (∃ m < n, Ends mem m) ∨ Continues mem n := by
  induction n with
  | zero => exact Or.inr fun i hi => absurd hi (Nat.not_lt_zero i)
  | succ n ih =>
    obtain ⟨m, hm, he⟩ | hc := ih
    · exact Or.inl ⟨m, Nat.lt_succ_of_lt hm, he⟩
    · by_cases hb : (mem n).toNat < 128
      · exact Or.inl ⟨n, Nat.lt_succ_self n, hc, hb⟩
      · exact Or.inr (hc.succ (Nat.not_lt.mp hb))

theorem septets_last (h : (mem n).toNat < 128) :
    septets mem (n + 1) = septets mem n + (mem n).toNat * 2 ^ (7 * n) := by
  rw [septets, Nat.mod_eq_of_lt h]

/-- A byte that is followed by another one counts for one more at the next place. -/
theorem septets_continued (h : 128 ≤ (mem n).toNat) :
    septets mem n + (mem n).toNat * 2 ^ (7 * n) = septets mem (n + 1) + 2 ^ (7 * (n + 1)) := by
  have hb := (mem n).toNat_lt
  have hmod : (mem n).toNat = (mem n).toNat % 128 + 128 := by omega
  have hpow : 2 ^ (7 * (n + 1)) = 128 * 2 ^ (7 * n) := by
    rw [Nat.mul_succ, Nat.pow_add]
    ring
  rw [septets, hpow]
  conv_lhs => rw [hmod]
  ring

/-- The bit that a byte counts too much is taken back with the next byte. -/
theorem add_next_byte {M v w b s : Nat} (hv : v ≡ s + 2 ^ n [MOD M])
    (hw : w + 2 ^ n ≡ v + b * 2 ^ n [MOD M]) : w ≡ s + b * 2 ^ n [MOD M] := by
  refine Nat.ModEq.add_right_cancel' (2 ^ n) (hw.trans ?_)
  have h := hv.add_right (b * 2 ^ n)
  rwa [show s + 2 ^ n + b * 2 ^ n = s + b * 2 ^ n + 2 ^ n by ring] at h

end

end Hpb
