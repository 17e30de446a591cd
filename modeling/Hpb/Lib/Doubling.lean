import Mathlib.Data.Nat.Find
import Mathlib.Tactic.Common
import Mathlib.Tactic.Linarith

/-!
# Doubling a machine word

The loop `while (n < bound) n *= 2` on words of `w` bits. Without overflow it stops at the first `n * 2 ^ k` that
is not below the bound. When the word wraps around it may stop later, or never: after `w` rounds the word is 0.
-/

/-- The loop, for at most some tests of its condition. -/
def doubleUntil (w : Nat) : Nat → Nat → Nat → Option Nat
  | 0, _, _ => none
  | rounds + 1, n, bound => if n < bound then doubleUntil w rounds (n * 2 % 2 ^ w) bound else some n

/-- `n * 2 ^ k` is the first that is not below the bound. -/
def FirstDouble (n bound k : Nat) : Prop := bound ≤ n * 2 ^ k ∧ ∀ j < k, n * 2 ^ j < bound

/-- The same for words of `w` bits. -/
def FirstDoubleMod (w n bound k : Nat) : Prop := bound ≤ n * 2 ^ k % 2 ^ w ∧ ∀ j < k, n * 2 ^ j % 2 ^ w < bound

section Doubling

variable {w rounds n bound r k : Nat}

theorem doubleUntil_eq_some (hn : n < 2 ^ w) :
    doubleUntil w rounds n bound = some r ↔ ∃ k < rounds, FirstDoubleMod w n bound k ∧ r = n * 2 ^ k % 2 ^ w := by
  induction rounds generalizing n with
  | zero => simp [doubleUntil]
  | succ rounds ih =>
    have hshift : ∀ k, n * 2 % 2 ^ w * 2 ^ k % 2 ^ w = n * 2 ^ (k + 1) % 2 ^ w := fun k => by
      rw [Nat.mod_mul_mod, Nat.mul_assoc, ← Nat.pow_succ']
    have hzero : n * 2 ^ 0 % 2 ^ w = n := by rw [Nat.pow_zero, Nat.mul_one, Nat.mod_eq_of_lt hn]
    rw [doubleUntil]
    split
    next hlt =>
      rw [ih (Nat.mod_lt _ (Nat.two_pow_pos w))]
      constructor
      · rintro ⟨k, hk, ⟨hle, hbelow⟩, rfl⟩
        rw [hshift] at hle ⊢
        refine ⟨k + 1, by omega, ⟨hle, fun j hj => ?_⟩, rfl⟩
        cases j with
        | zero => rwa [hzero]
        | succ j =>
          rw [← hshift]
          exact hbelow j (by omega)
      · rintro ⟨k, hk, ⟨hle, hbelow⟩, rfl⟩
        cases k with
        | zero =>
          rw [hzero] at hle
          omega
        | succ k =>
          refine ⟨k, by omega, ⟨by rwa [hshift], fun j hj => ?_⟩, (hshift k).symm⟩
          rw [hshift]
          exact hbelow (j + 1) (by omega)
    next hge =>
      constructor
      · rintro ⟨rfl⟩
        exact ⟨0, by omega, ⟨by omega, fun j hj => absurd hj (Nat.not_lt_zero j)⟩, hzero.symm⟩
      · rintro ⟨k, hk, ⟨-, hbelow⟩, rfl⟩
        cases k with
        | zero => rw [hzero]
        | succ k =>
          have := hbelow 0 (by omega)
          omega

/-- The word is 0 after `w` rounds, so the loop stops by then or never. -/
theorem FirstDoubleMod.le_width (h : FirstDoubleMod w n bound k) : k ≤ w := by
  by_contra hlt
  have hpow : ∀ j, w ≤ j → n * 2 ^ j % 2 ^ w = 0 := fun j hj =>
    Nat.mod_eq_zero_of_dvd (Nat.dvd_mul_left_of_dvd (Nat.pow_dvd_pow 2 hj) n)
  have hle := h.1
  have hbelow := h.2 w (by omega)
  rw [hpow k (by omega)] at hle
  rw [hpow w (Nat.le_refl w)] at hbelow
  omega

/-- **More than `w + 1` tests change nothing**: the bounded loop is the loop. -/
theorem doubleUntil_rounds (hn : n < 2 ^ w) (hr : w < rounds) :
    doubleUntil w rounds n bound = doubleUntil w (w + 1) n bound := by
  refine Option.ext fun r => ?_
  rw [doubleUntil_eq_some hn, doubleUntil_eq_some hn]
  constructor
  · rintro ⟨k, -, hk, rfl⟩
    exact ⟨k, Nat.lt_succ_of_le hk.le_width, hk, rfl⟩
  · rintro ⟨k, hlt, hk, rfl⟩
    exact ⟨k, by omega, hk, rfl⟩

/-- Without overflow the two notions agree. -/
theorem FirstDouble.mod (h : FirstDouble n bound k) (hlt : n * 2 ^ k < 2 ^ w) : FirstDoubleMod w n bound k := by
  refine ⟨by rw [Nat.mod_eq_of_lt hlt]; exact h.1, fun j hj => ?_⟩
  exact Nat.lt_of_le_of_lt (Nat.mod_le _ _) (h.2 j hj)

/-- A word that stops below half of its range never overflowed. -/
theorem FirstDoubleMod.exact (h : FirstDoubleMod (w + 1) n bound k) (hn : n < 2 ^ (w + 1))
    (hhalf : n * 2 ^ k % 2 ^ (w + 1) < 2 ^ w) : n * 2 ^ k < 2 ^ (w + 1) ∧ FirstDouble n bound k := by
  have hexact : ∀ j ≤ k, n * 2 ^ j < 2 ^ (w + 1) := by
    intro j
    induction j with
    | zero => intro _; rwa [Nat.pow_zero, Nat.mul_one]
    | succ j ih =>
      intro hj
      have hlt := ih (by omega)
      have hbelow := h.2 j (by omega)
      rw [Nat.mod_eq_of_lt hlt] at hbelow
      have hle := h.1
      rw [Nat.pow_succ, ← Nat.mul_assoc, Nat.pow_succ]
      omega
  have hmod : ∀ j ≤ k, n * 2 ^ j % 2 ^ (w + 1) = n * 2 ^ j := fun j hj => Nat.mod_eq_of_lt (hexact j hj)
  refine ⟨hexact k (Nat.le_refl k), ?_, fun j hj => ?_⟩
  · rw [← hmod k (Nat.le_refl k)]
    exact h.1
  · rw [← hmod j (Nat.le_of_lt hj)]
    exact h.2 j hj

theorem exists_firstDouble (hn : 0 < n) (bound : Nat) : ∃ k, FirstDouble n bound k := by
  have hex : ∃ k, bound ≤ n * 2 ^ k :=
    ⟨bound, Nat.le_trans (Nat.le_of_lt Nat.lt_two_pow_self) (Nat.le_mul_of_pos_left _ hn)⟩
  exact ⟨Nat.find hex, Nat.find_spec hex, fun j hj => Nat.lt_of_not_le (Nat.find_min hex hj)⟩

/-- The first one is the smallest. -/
theorem FirstDouble.le (h : FirstDouble n bound k) {j : Nat} (hj : bound ≤ n * 2 ^ j) : n * 2 ^ k ≤ n * 2 ^ j := by
  refine Nat.mul_le_mul_left n (Nat.pow_le_pow_right (by decide) ?_)
  by_contra hlt
  have := h.2 j (by omega)
  omega

end Doubling
