import Mathlib.Tactic.Common
import Mathlib.Tactic.IntervalCases
import Mathlib.Tactic.Linarith

/-!
# The proleptic Gregorian calendar

The calendar is what a clock does: `Date.next` is the day after a date, and `ofDay n` is the date `n` days
after 0001-01-01. Algorithms compute with closed forms instead. `Date.dayNumber` is one: it counts from
0000-03-01, in years that start in March, so that the leap day is the last day of its year
(`dayNumber_ofDay`).

A function that undoes `dayNumber` on valid dates computes the calendar (`eq_ofDay`).
-/

namespace Gregorian

/-- A year, a month from 1 and a day from 1. -/
structure Date where
  year : Nat
  month : Nat
  day : Nat
  deriving DecidableEq, Repr

/-- Every fourth year, but only every fourth of the centuries. -/
def isLeap (year : Nat) : Bool := year % 4 = 0 && (year % 100 ≠ 0 || year % 400 = 0)

def daysInMonth (year month : Nat) : Nat :=
  if month = 2 then if isLeap year then 29 else 28
  else if month = 4 ∨ month = 6 ∨ month = 9 ∨ month = 11 then 30
  else 31

/-- A date of the common era. -/
structure Date.Valid (d : Date) : Prop where
  year_pos : 1 ≤ d.year
  month_pos : 1 ≤ d.month
  month_le : d.month ≤ 12
  day_pos : 1 ≤ d.day
  day_le : d.day ≤ daysInMonth d.year d.month

/-- The day after. -/
def Date.next (d : Date) : Date :=
  if d.day < daysInMonth d.year d.month then { d with day := d.day + 1 }
  else if d.month < 12 then ⟨d.year, d.month + 1, 1⟩
  else ⟨d.year + 1, 1, 1⟩

/-- The date `n` days after 0001-01-01. -/
def ofDay : Nat → Date
  | 0 => ⟨1, 1, 1⟩
  | n + 1 => (ofDay n).next

/-- The year that starts with the last March before the date, or on it. -/
def Date.marchYear (d : Date) : Nat := if d.month ≤ 2 then d.year - 1 else d.year

/-- The month, counted from March. -/
def Date.marchMonth (d : Date) : Nat := if d.month ≤ 2 then d.month + 9 else d.month - 3

/-- The days from 0000-03-01 to the start of a March year. -/
def daysBeforeYear (y : Nat) : Nat := 365 * y + y / 4 - y / 100 + y / 400

/-- The days from the start of a March year to the start of its `m`th month. -/
def daysBeforeMonth (m : Nat) : Nat := (153 * m + 2) / 5

/-- The days from 0000-03-01 to the date. -/
def Date.dayNumber (d : Date) : Nat :=
  daysBeforeYear d.marchYear + daysBeforeMonth d.marchMonth + (d.day - 1)

theorem daysInMonth_pos (year month : Nat) : 1 ≤ daysInMonth year month := by
  unfold daysInMonth
  split_ifs <;> omega

theorem Date.Valid.next {d : Date} (h : d.Valid) : d.next.Valid := by
  have := h.year_pos
  have := h.month_pos
  have := h.month_le
  rw [Date.next]
  split
  · next hlt => exact ⟨h.year_pos, h.month_pos, h.month_le, Nat.le_add_left 1 _, hlt⟩
  · split
    · next hlt => exact ⟨h.year_pos, Nat.le_add_left 1 _, hlt, Nat.le_refl 1, daysInMonth_pos _ _⟩
    · exact ⟨Nat.le_add_left 1 _, Nat.le_refl 1, Nat.le_add_left 1 11, Nat.le_refl 1, daysInMonth_pos _ _⟩

theorem ofDay_valid (n : Nat) : (ofDay n).Valid := by
  induction n with
  | zero => exact ⟨by decide, by decide, by decide, by decide, by decide⟩
  | succ n ih => exact ih.next

/-- A March year has its leap day when the next year is a leap year. -/
theorem daysBeforeYear_succ (y : Nat) :
    daysBeforeYear (y + 1) = daysBeforeYear y + 337 + daysInMonth (y + 1) 2 := by
  have h4 : (y + 1) / 4 = y / 4 + if 4 ∣ y + 1 then 1 else 0 := Nat.succ_div
  have h100 : (y + 1) / 100 = y / 100 + if 100 ∣ y + 1 then 1 else 0 := Nat.succ_div
  have h400 : (y + 1) / 400 = y / 400 + if 400 ∣ y + 1 then 1 else 0 := Nat.succ_div
  have hle : y / 100 ≤ y / 4 := Nat.div_le_div_left (by decide) (by decide)
  have h2 : daysInMonth (y + 1) 2 = 28 + (if 4 ∣ y + 1 then 1 else 0) - (if 100 ∣ y + 1 then 1 else 0)
      + if 400 ∣ y + 1 then 1 else 0 := by
    simp only [daysInMonth, ↓reduceIte, isLeap, Bool.and_eq_true, Bool.or_eq_true, decide_eq_true_eq,
      Nat.dvd_iff_mod_eq_zero]
    split_ifs <;> omega
  have hone : (if 100 ∣ y + 1 then 1 else 0) ≤ if 4 ∣ y + 1 then 1 else 0 := by
    split_ifs <;> omega
  rw [h2, daysBeforeYear, daysBeforeYear, h4, h100, h400]
  omega

/-- A month other than February is as long as the gap to the next one. -/
theorem daysBeforeMonth_succ (year : Nat) {month : Nat} (hlo : 1 ≤ month) (hhi : month ≤ 12) (h : month ≠ 2) :
    daysBeforeMonth ((month + 9) % 12 + 1) = daysBeforeMonth ((month + 9) % 12) + daysInMonth year month := by
  interval_cases month <;> first | exact absurd rfl h | rfl

theorem Date.Valid.marchMonth_eq {d : Date} (h : d.Valid) : d.marchMonth = (d.month + 9) % 12 := by
  have := h.month_pos
  have := h.month_le
  rw [marchMonth]
  split <;> omega

theorem Date.Valid.dayNumber_next {d : Date} (h : d.Valid) : d.next.dayNumber = d.dayNumber + 1 := by
  have hy := h.year_pos
  have hm := h.month_pos
  have hm' := h.month_le
  have hd := h.day_pos
  have hd' := h.day_le
  obtain ⟨year, month, day⟩ := d
  dsimp only at *
  rw [Date.next]
  dsimp only
  split
  · next hlt =>
    simp only [dayNumber, marchYear, marchMonth]
    omega
  · next hlt =>
    have hlast : day = daysInMonth year month := Nat.le_antisymm hd' (Nat.le_of_not_lt hlt)
    by_cases h2 : month = 2
    · -- the last day of a March year
      subst h2
      obtain ⟨y, rfl⟩ : ∃ y, year = y + 1 := ⟨year - 1, by omega⟩
      have := daysBeforeYear_succ y
      simp [dayNumber, marchYear, marchMonth, daysBeforeMonth] at *
      omega
    · have hnext := daysBeforeMonth_succ year hm hm' h2
      split
      · next hm12 =>
        have hmarch : Date.marchMonth ⟨year, month + 1, 1⟩ = (month + 9) % 12 + 1 := by
          simp only [marchMonth]
          split <;> omega
        have hyear : Date.marchYear ⟨year, month + 1, 1⟩ = Date.marchYear ⟨year, month, day⟩ := by
          simp only [marchYear]
          split_ifs <;> omega
        rw [dayNumber, dayNumber, hmarch, hyear, h.marchMonth_eq, hnext]
        dsimp only
        omega
      · have h12 : month = 12 := by omega
        subst h12
        simp [dayNumber, marchYear, marchMonth, daysBeforeMonth] at *
        omega

/-- **The day number counts the days.** -/
theorem dayNumber_ofDay (n : Nat) : (ofDay n).dayNumber = n + 306 := by
  induction n with
  | zero => rfl
  | succ n ih => rw [ofDay, (ofDay_valid n).dayNumber_next, ih, Nat.add_right_comm]

/-- **An inverse of the day number is the calendar.** -/
theorem eq_ofDay {civil : Nat → Date} (h : ∀ d : Date, d.Valid → civil d.dayNumber = d) (n : Nat) :
    civil (n + 306) = ofDay n := by
  rw [← dayNumber_ofDay, h _ (ofDay_valid n)]

end Gregorian
