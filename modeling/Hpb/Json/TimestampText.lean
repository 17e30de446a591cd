import Hpb.Json.Integer

/-!
# The texts of timestamps

A timestamp is read by fixed widths (`Stamp`): its numbers have two digits, or four, and none of them is tested. The
day is computed with a closed form that is the calendar on valid dates only, and there is a test for the first instant
that the encoder prints but none for the last.

* `timestamp_ok_iff`: the texts that are accepted, and what they are read as,
* `unixtime_valid`: on a valid date that is the instant,
* `timestamp_right_iff`: every text that is accepted denotes an instant that the encoder prints, and is read as it, if
  and only if the numbers of the text are valid and the instant is not too late, unless it is refused as too early.
-/

namespace Hpb

open Decimal (value isDigit)
open Gregorian (Date daysInMonth)

/-- A number of `w` digits. -/
structure TsDigits (w : Nat) where
  digits : List UInt8
  length : digits.length = w
  isDigit : ∀ b ∈ digits, isDigit b = true

/-- The number. -/
def TsDigits.num {w : Nat} (ds : TsDigits w) : Nat := value ds.digits

theorem TsDigits.num_lt {w : Nat} (ds : TsDigits w) : ds.num < 10 ^ w := by
  have hlt := Decimal.value_lt ds.isDigit
  rwa [ds.length] at hlt

/-- What the text of a timestamp has: its numbers, the digits of its fraction if there is one, and its offset, where
`true` is a minus sign and `none` is `Z`. -/
structure Stamp where
  year : TsDigits 4
  mon : TsDigits 2
  day : TsDigits 2
  hour : TsDigits 2
  min : TsDigits 2
  sec : TsDigits 2
  frac : Option ((w : Fin 10) × TsDigits w)
  offset : Option (Bool × TsDigits 2 × TsDigits 2)

namespace Stamp

def fracText : Option ((w : Fin 10) × TsDigits w) → List UInt8
  | none => []
  | some ⟨_, ds⟩ => '.'.toUInt8 :: ds.digits

def offsetText : Option (Bool × TsDigits 2 × TsDigits 2) → List UInt8
  | none => ascii "Z"
  | some (neg, hour, min) => (if neg then '-'.toUInt8 else '+'.toUInt8) :: (hour.digits ++ (ascii ":" ++ min.digits))

/-- The text. -/
def text (s : Stamp) : List UInt8 :=
  s.year.digits ++ (ascii "-" ++ (s.mon.digits ++ (ascii "-" ++ (s.day.digits ++ (ascii "T" ++ (s.hour.digits ++
    (ascii ":" ++ (s.min.digits ++ (ascii ":" ++ (s.sec.digits ++ (fracText s.frac ++ offsetText s.offset)))))))))))

/-- The nanoseconds of a fraction. -/
def nanos : Option ((w : Fin 10) × TsDigits w) → Nat
  | none => 0
  | some ⟨w, ds⟩ => ds.num * 10 ^ (9 - w.val)

/-- The seconds that the local time is ahead of UTC. -/
def offsetSeconds : Option (Bool × TsDigits 2 × TsDigits 2) → Int
  | none => 0
  | some (neg, hour, min) => if neg then -((hour.num * 60 + min.num) * 60 : Nat) else ((hour.num * 60 + min.num) * 60 : Nat)

def offsetValid : Option (Bool × TsDigits 2 × TsDigits 2) → Prop
  | none => True
  | some (_, hour, min) => hour.num < 24 ∧ min.num < 60

/-- **A valid date, time of day and offset.** -/
structure Valid (s : Stamp) : Prop where
  mon : 1 ≤ s.mon.num ∧ s.mon.num ≤ 12
  day : 1 ≤ s.day.num ∧ s.day.num ≤ daysInMonth s.year.num s.mon.num
  hour : s.hour.num < 24
  min : s.min.num < 60
  sec : s.sec.num < 60
  offset : offsetValid s.offset

/-- The days from 1970-01-01. The calendar repeats after 400 years, of 146097 days: the date is looked up there, so that
the year may be 0. -/
def days (s : Stamp) : Int :=
  ((⟨s.year.num + 400, s.mon.num, s.day.num⟩ : Date).dayNumber : Int) - 719468 - 146097

/-- **The instant that is denoted**, in seconds from 1970-01-01T00:00:00Z. -/
def instant (s : Stamp) : Int :=
  s.days * 86400 + s.hour.num * 3600 + s.min.num * 60 + s.sec.num - offsetSeconds s.offset

/-- The code takes the text for one before 0001-01-01T00:00:00Z. -/
def TooEarly (s : Stamp) : Prop :=
  Jsondec.unixtime s.year.num s.mon.num s.day.num s.hour.num s.min.num s.sec.num - offsetSeconds s.offset < -62135596800

end Stamp

namespace Jsondec

/-- **Timestamps are read right**: what is accepted is valid, is read as the instant that it denotes, and can be
printed. -/
def TimestampRight (d : Jsondec) : Prop :=
  ∀ seconds nanos d', timestamp d = .ok ((seconds, nanos), d') → ∃ s : Stamp, ∃ d₁, string d = .ok (s.text, d₁) ∧
    s.Valid ∧ seconds = s.instant ∧ nanos = Stamp.nanos s.frac ∧ ∃ text, Jsonenc.timestamp seconds nanos = .ok text

section Parse

variable {d d' : Jsondec} {ptr t : List UInt8} {w n : Nat}

/-- TsDigits and what follows them are read. -/
theorem tsdigits_digits (ds : TsDigits w) (hw : w ≤ 9) (after tail : List UInt8) (d : Jsondec) :
    tsdigits w after (ds.digits ++ (after ++ tail)) d = .ok ((ds.num, tail), d) := by
  have htake : (ds.digits ++ (after ++ tail)).take w = ds.digits := List.take_left' ds.length
  have hdrop : (ds.digits ++ (after ++ tail)).drop w = after ++ tail := List.drop_left' ds.length
  have hmax : value ds.digits ≤ uint64Max := by
    have hlt := ds.num_lt
    have hpow : 10 ^ w ≤ 10 ^ 9 := Nat.pow_le_pow_right (by decide) hw
    simp only [uint64Max, TsDigits.num] at *
    omega
  rw [tsdigits, htake, bufToUint64_eq, List.takeWhile_eq_self_iff.mpr ds.isDigit,
    List.dropWhile_eq_nil_iff.mpr ds.isDigit, if_pos hmax]
  dsimp only
  rw [hdrop, List.take_left, if_neg (by simp), ← List.drop_drop, hdrop, List.drop_left]
  rfl

/-- What `jsondec_tsdigits` accepts. -/
theorem tsdigits_eq_ok {after : List UInt8} (h : tsdigits w after ptr d = .ok ((n, t), d')) (hw : w ≤ ptr.length) :
    ∃ ds : TsDigits w, ptr = ds.digits ++ (after ++ t) ∧ n = ds.num ∧ d' = d := by
  rw [tsdigits] at h
  cases hread : bufToUint64 (ptr.take w) with
  | none =>
    rw [hread] at h
    cases h
  | some p =>
    obtain ⟨val, left⟩ := p
    rw [hread] at h
    dsimp only at h
    obtain ⟨⟨hnot, hval⟩, hd⟩ := test_ok_iff.mp h
    rw [not_or, not_not, not_not] at hnot
    obtain ⟨rfl, hafter⟩ := hnot
    obtain ⟨rfl, rfl⟩ := Prod.mk.inj hval
    rw [bufToUint64_eq, all_digits_iff (P := (· ≤ uint64Max)) (f := fun m => m) (a := n)
      (by simp [and_comm, eq_comm])] at hread
    obtain ⟨hall, -, hn⟩ := hread
    refine ⟨⟨ptr.take w, List.length_take_of_le hw, hall⟩, ?_, hn, hd⟩
    change ptr = ptr.take w ++ (after ++ _)
    conv_lhs => rw [← List.take_append_drop w ptr, ← List.take_append_drop after.length (ptr.drop w), hafter,
      List.drop_drop]

/-- The text of an offset has no digit and no point in front. -/
theorem offsetText_head (offset : Option (Bool × TsDigits 2 × TsDigits 2)) :
    NoDigitHead (Stamp.offsetText offset) ∧ (Stamp.offsetText offset).head? ≠ some '.'.toUInt8 := by
  obtain _ | ⟨_ | _, hour, min⟩ := offset
  all_goals
    refine ⟨?_, fun h => absurd (Option.some.inj h) (by decide)⟩
    intro b hb
    cases hb
    decide

theorem nanos_frac (frac : Option ((w : Fin 10) × TsDigits w)) {tail : List UInt8} (htail : NoDigitHead tail)
    (hdot : tail.head? ≠ some '.'.toUInt8) (d : Jsondec) :
    nanos (Stamp.fracText frac ++ tail) d = .ok ((Stamp.nanos frac, tail), d) := by
  obtain _ | ⟨w, ds⟩ := frac
  · cases tail with
    | nil => rfl
    | cons b bs =>
      rw [Stamp.fracText, List.nil_append, nanos, if_neg fun h => hdot (congrArg some h)]
      rfl
  · have hw : w.val ≤ 9 := Nat.le_of_lt_succ w.isLt
    have hmax : value ds.digits ≤ uint64Max := by
      have hlt := ds.num_lt
      have hpow : 10 ^ w.val ≤ 10 ^ 9 := Nat.pow_le_pow_right (by decide) hw
      simp only [uint64Max, TsDigits.num] at *
      omega
    have hread : bufToUint64 (ds.digits ++ tail) = some (ds.num, tail) :=
      bufToUint64Loop_digits ds.isDigit htail hmax
    have hlen : (ds.digits ++ tail).length - tail.length = w := by
      rw [List.length_append, ds.length, Nat.add_sub_cancel]
    rw [Stamp.fracText, List.cons_append, nanos, if_pos rfl, hread]
    dsimp only
    rw [hlen, if_neg (by omega)]
    rfl

theorem nanos_eq_ok (h : nanos ptr d = .ok ((n, t), d')) :
    ∃ frac, ptr = Stamp.fracText frac ++ t ∧ n = Stamp.nanos frac ∧ d' = d := by
  cases ptr with
  | nil =>
    cases h
    exact ⟨none, rfl, rfl, rfl⟩
  | cons b p =>
    rw [nanos] at h
    split_ifs at h with hb
    · subst hb
      rw [bufToUint64_eq] at h
      split_ifs at h with hmax
      · dsimp only at h
        have hparts : p.takeWhile isDigit ++ p.dropWhile isDigit = p := List.takeWhile_append_dropWhile
        have hlen : p.length - (p.dropWhile isDigit).length = (p.takeWhile isDigit).length := by
          have := congrArg List.length hparts
          rw [List.length_append] at this
          omega
        rw [hlen] at h
        obtain ⟨⟨hnine, hval⟩, hd⟩ := test_ok_iff.mp h
        obtain ⟨rfl, rfl⟩ := Prod.mk.inj hval
        let w : Fin 10 := ⟨(p.takeWhile isDigit).length, by omega⟩
        let ds : TsDigits w := ⟨p.takeWhile isDigit, rfl, fun b hb => List.mem_takeWhile_imp hb⟩
        exact ⟨some ⟨w, ds⟩, by rw [Stamp.fracText, List.cons_append, hparts], rfl, hd⟩
      · cases h
    · cases h
      exact ⟨none, rfl, rfl, rfl⟩

theorem timeOffset_text (seconds : Int) (offset : Option (Bool × TsDigits 2 × TsDigits 2)) (d : Jsondec) :
    timeOffset seconds (Stamp.offsetText offset) d = .ok (seconds - Stamp.offsetSeconds offset, d) := by
  obtain _ | ⟨neg, hour, min⟩ := offset
  · change (Except.ok (seconds, d) : Except JsonFailure _) = _
    rw [Stamp.offsetSeconds, Int.sub_zero]
  · have hsign : (if neg then '-'.toUInt8 else '+'.toUInt8) = '-'.toUInt8 ∨
        (if neg then '-'.toUInt8 else '+'.toUInt8) = '+'.toUInt8 := by
      cases neg <;> simp
    have hlen : ¬(hour.digits ++ (ascii ":" ++ min.digits)).length ≠ 5 := by
      rw [List.length_append, List.length_append, hour.length, min.length]
      decide
    have hmin := tsdigits_digits min (by decide) [] [] d
    simp only [List.append_nil] at hmin
    rw [Stamp.offsetText, timeOffset, if_pos hsign, if_neg hlen, bind_ok (tsdigits_digits hour (by decide) _ _ d)]
    dsimp only
    rw [bind_ok hmin]
    cases neg with
    | true => exact congrArg Except.ok (Prod.ext (Int.sub_neg _ _).symm rfl)
    | false => rfl

theorem timeOffset_eq_ok {seconds v : Int} (h : timeOffset seconds ptr d = .ok (v, d')) :
    ∃ offset, ptr = Stamp.offsetText offset ∧ v = seconds - Stamp.offsetSeconds offset ∧ d' = d := by
  cases ptr with
  | nil => cases h
  | cons b p =>
    rw [timeOffset] at h
    by_cases hsign : b = '-'.toUInt8 ∨ b = '+'.toUInt8
    · rw [if_pos hsign] at h
      by_cases hlen : p.length = 5
      · rw [if_neg (not_not_intro hlen)] at h
        obtain ⟨⟨hourNum, ptr₁⟩, d₁, hhour, h₁⟩ := bind_eq_ok h
        obtain ⟨⟨minNum, ptr₂⟩, d₂, hmin, h₂⟩ := bind_eq_ok h₁
        obtain ⟨hour, rfl, rfl, rfl⟩ := tsdigits_eq_ok hhour (by omega)
        have hlen₁ : ptr₁.length = 2 := by
          rw [List.length_append, List.length_append, hour.length] at hlen
          have hcolon : (ascii ":").length = 1 := rfl
          omega
        obtain ⟨min, rfl, rfl, rfl⟩ := tsdigits_eq_ok hmin (by omega)
        have hnil : ptr₂ = [] := by
          rw [List.length_append, List.nil_append, min.length] at hlen₁
          exact List.length_eq_zero_iff.mp (by omega)
        subst hnil
        cases h₂
        obtain rfl | rfl := hsign
        · refine ⟨some (true, hour, min), by simp [Stamp.offsetText], ?_, rfl⟩
          exact (Int.sub_neg _ _).symm
        · exact ⟨some (false, hour, min), by simp [Stamp.offsetText], rfl, rfl⟩
      · rw [if_pos hlen] at h
        cases h
    · rw [if_neg hsign] at h
      split_ifs at h with hz hp
      · cases h
      · rw [not_not] at hp
        cases h
        exact ⟨none, by rw [hz, hp]; rfl, (Int.sub_zero _).symm, rfl⟩
      · cases h

/-- **The texts that are accepted**, and what they are read as. -/
theorem timestamp_ok_iff {seconds nanos : Int} : timestamp d = .ok ((seconds, nanos), d') ↔
    ∃ s : Stamp, string d = .ok (s.text, d') ∧ nanos = Stamp.nanos s.frac ∧ ¬s.TooEarly ∧
      seconds = unixtime s.year.num s.mon.num s.day.num s.hour.num s.min.num s.sec.num -
        Stamp.offsetSeconds s.offset := by
  constructor
  · intro h
    obtain ⟨str, d₁, hstring, h⟩ := bind_eq_ok h
    by_cases hlen : str.length < 20
    · rw [if_pos hlen] at h
      cases h
    rw [if_neg hlen] at h
    obtain ⟨⟨yearNum, ptr₁⟩, d₂, hyear, h₁⟩ := bind_eq_ok h
    obtain ⟨⟨monNum, ptr₂⟩, d₃, hmon, h₂⟩ := bind_eq_ok h₁
    obtain ⟨⟨dayNum, ptr₃⟩, d₄, hday, h₃⟩ := bind_eq_ok h₂
    obtain ⟨⟨hourNum, ptr₄⟩, d₅, hhour, h₄⟩ := bind_eq_ok h₃
    obtain ⟨⟨minNum, ptr₅⟩, d₆, hmin, h₅⟩ := bind_eq_ok h₄
    obtain ⟨⟨secNum, ptr₆⟩, d₇, hsec, h₆⟩ := bind_eq_ok h₅
    obtain ⟨⟨nanosNum, ptr₇⟩, d₈, hnanos, h₇⟩ := bind_eq_ok h₆
    obtain ⟨v, d₉, hoffset, h₈⟩ := bind_eq_ok h₇
    clear h h₁ h₂ h₃ h₄ h₅ h₆ h₇
    have hdash : (ascii "-").length = 1 := rfl
    have hT : (ascii "T").length = 1 := rfl
    have hcolon : (ascii ":").length = 1 := rfl
    obtain ⟨year, rfl, rfl, rfl⟩ := tsdigits_eq_ok hyear (by omega)
    simp only [List.length_append, year.length, hdash] at hlen
    obtain ⟨mon, rfl, rfl, rfl⟩ := tsdigits_eq_ok hmon (by omega)
    simp only [List.length_append, mon.length, hdash] at hlen
    obtain ⟨day, rfl, rfl, rfl⟩ := tsdigits_eq_ok hday (by omega)
    simp only [List.length_append, day.length, hT] at hlen
    obtain ⟨hour, rfl, rfl, rfl⟩ := tsdigits_eq_ok hhour (by omega)
    simp only [List.length_append, hour.length, hcolon] at hlen
    obtain ⟨min, rfl, rfl, rfl⟩ := tsdigits_eq_ok hmin (by omega)
    simp only [List.length_append, min.length, hcolon] at hlen
    obtain ⟨sec, rfl, rfl, rfl⟩ := tsdigits_eq_ok hsec (by omega)
    obtain ⟨frac, rfl, rfl, rfl⟩ := nanos_eq_ok hnanos
    obtain ⟨offset, rfl, rfl, rfl⟩ := timeOffset_eq_ok hoffset
    obtain ⟨⟨hearly, hval⟩, rfl⟩ := test_ok_iff.mp h₈
    obtain ⟨rfl, rfl⟩ := Prod.mk.inj hval
    exact ⟨⟨year, mon, day, hour, min, sec, frac, offset⟩, hstring, rfl, hearly, rfl⟩
  · rintro ⟨s, hstring, rfl, hearly, rfl⟩
    have hlen : ¬s.text.length < 20 := by
      have hoffset : 1 ≤ (Stamp.offsetText s.offset).length := by
        obtain _ | ⟨neg, hour, min⟩ := s.offset
        · decide
        · exact Nat.le_add_left 1 _
      simp only [Stamp.text, List.length_append, s.year.length, s.mon.length, s.day.length, s.hour.length, s.min.length,
        s.sec.length, show (ascii "-").length = 1 from rfl, show (ascii "T").length = 1 from rfl,
        show (ascii ":").length = 1 from rfl]
      omega
    obtain ⟨hdigit, hdot⟩ := offsetText_head s.offset
    have hsec : tsdigits 2 [] (s.sec.digits ++ (Stamp.fracText s.frac ++ Stamp.offsetText s.offset)) d' =
        .ok ((s.sec.num, Stamp.fracText s.frac ++ Stamp.offsetText s.offset), d') :=
      tsdigits_digits s.sec (by decide) [] _ d'
    rw [timestamp, bind_ok hstring, if_neg hlen, Stamp.text, bind_ok (tsdigits_digits s.year (by decide) _ _ d')]
    dsimp only
    rw [bind_ok (tsdigits_digits s.mon (by decide) _ _ d')]
    dsimp only
    rw [bind_ok (tsdigits_digits s.day (by decide) _ _ d')]
    dsimp only
    rw [bind_ok (tsdigits_digits s.hour (by decide) _ _ d')]
    dsimp only
    rw [bind_ok (tsdigits_digits s.min (by decide) _ _ d')]
    dsimp only
    rw [bind_ok hsec]
    dsimp only
    rw [bind_ok (nanos_frac s.frac hdigit hdot d')]
    dsimp only
    rw [bind_ok (timeOffset_text _ s.offset d')]
    exact test_ok_iff.mpr ⟨⟨hearly, rfl⟩, rfl⟩

end Parse

/-! ### The calendar -/

/-- The closed form repeats after 400 years. -/
theorem epochdays_add {y m d : Int} (hy : 0 ≤ y) (hy' : y ≤ 9999) (hd : 0 ≤ d) (hd' : d ≤ 99) : epochdays (y + 400) m d = epochdays y m d + 146097 := by
  simp only [epochdays]
  generalize hc : (if uint32 (m - 3) > uint32 m then (1 : Int) else 0) = c
  have hc' : 0 ≤ c ∧ c ≤ 1 := by
    rw [← hc]
    split_ifs <;> decide
  generalize hmonth : uint32 (uint32 (uint32 (m - 3) + if c ≠ 0 then 12 else 0) * 62719 + 769) / 2048 = month
  have hmonth' : 0 ≤ month ∧ month < 2 ^ 21 := by
    rw [← hmonth]
    simp only [uint32]
    omega
  have hyear : uint32 (y + 4800 - c) = y + 4800 - c := by
    simp only [uint32]
    omega
  have hyear' : uint32 (y + 400 + 4800 - c) = y + 5200 - c := by
    simp only [uint32]
    omega
  have hleap : ∀ z : Int, 0 ≤ z → z ≤ 20000 → uint32 (z / 4 - z / 100 + z / 400) = z / 4 - z / 100 + z / 400 := by
    intro z hz hz'
    simp only [uint32]
    omega
  rw [hyear, hyear', hleap _ (by omega) (by omega), hleap _ (by omega) (by omega), toInt32_eq (by omega) (by omega),
    toInt32_eq (by omega) (by omega)]
  omega

/-- **On a valid date and time of day the code computes the instant.** -/
theorem unixtime_valid {s : Stamp} (h : s.Valid) :
    unixtime s.year.num s.mon.num s.day.num s.hour.num s.min.num s.sec.num - Stamp.offsetSeconds s.offset =
      s.instant := by
  have hyear := s.year.num_lt
  have hday := s.day.num_lt
  have hvalid : (⟨s.year.num + 400, s.mon.num, s.day.num⟩ : Date).Valid := by
    refine ⟨Nat.le_trans (by decide) (Nat.le_add_left 400 _), h.mon.1, h.mon.2, h.day.1, ?_⟩
    have hleap : Gregorian.isLeap (s.year.num + 400) = Gregorian.isLeap s.year.num := by
      simp only [Gregorian.isLeap, show (s.year.num + 400) % 4 = s.year.num % 4 by omega,
        show (s.year.num + 400) % 100 = s.year.num % 100 by omega,
        show (s.year.num + 400) % 400 = s.year.num % 400 by omega]
    have hdays : daysInMonth (s.year.num + 400) s.mon.num = daysInMonth s.year.num s.mon.num := by
      rw [daysInMonth, daysInMonth, hleap]
    exact hdays ▸ h.day.2
  have hepoch := epochdays_eq hvalid (by change s.year.num + 400 ≤ 10399; omega)
  have hadd := epochdays_add (y := s.year.num) (m := s.mon.num) (d := s.day.num) (by omega) (by omega)
    (by omega) (by omega)
  have hcast : ((s.year.num + 400 : Nat) : Int) = (s.year.num : Int) + 400 := by omega
  dsimp only at hepoch
  rw [hcast, hadd] at hepoch
  rw [unixtime, Stamp.instant, Stamp.days]
  omega

/-! ### The texts that are read right -/

theorem fracText_inj {frac frac' : Option ((w : Fin 10) × TsDigits w)} {tail tail' : List UInt8}
    (htail : NoDigitHead tail ∧ tail.head? ≠ some '.'.toUInt8) (htail' : NoDigitHead tail' ∧ tail'.head? ≠ some '.'.toUInt8)
    (h : Stamp.fracText frac ++ tail = Stamp.fracText frac' ++ tail') : frac = frac' ∧ tail = tail' := by
  have hparts : ∀ {w : Nat} (ds : TsDigits w) {t : List UInt8}, NoDigitHead t →
      (ds.digits ++ t).takeWhile isDigit = ds.digits := by
    intro w ds t ht
    rw [List.takeWhile_append_of_pos ds.isDigit]
    cases t with
    | nil => simp
    | cons b bs => rw [List.takeWhile_cons_of_neg (by simp [ht b rfl]), List.append_nil]
  cases frac with
  | none =>
    cases frac' with
    | none => exact ⟨rfl, h⟩
    | some p => exact absurd (congrArg List.head? h) htail.2
  | some p =>
    cases frac' with
    | none => exact absurd (congrArg List.head? h).symm htail'.2
    | some p' =>
      obtain ⟨w, ds⟩ := p
      obtain ⟨w', ds'⟩ := p'
      have h : ds.digits ++ tail = ds'.digits ++ tail' := (List.cons.inj h).2
      have hds : ds.digits = ds'.digits := by rw [← hparts ds htail.1, h, hparts ds' htail'.1]
      have hw : w = w' := Fin.ext (ds.length.symm.trans ((congrArg List.length hds).trans ds'.length))
      subst hw
      obtain ⟨digits, hlength, hdigit⟩ := ds
      obtain ⟨digits', hlength', hdigit'⟩ := ds'
      obtain rfl : digits = digits' := hds
      exact ⟨rfl, List.append_cancel_left h⟩

theorem digits_append_inj {w : Nat} {ds ds' : TsDigits w} {t t' : List UInt8} (h : ds.digits ++ t = ds'.digits ++ t') :
    ds = ds' ∧ t = t' := by
  obtain ⟨digits, hlength, hdigit⟩ := ds
  obtain ⟨digits', hlength', hdigit'⟩ := ds'
  obtain ⟨rfl, ht⟩ := List.append_inj h (hlength.trans hlength'.symm)
  exact ⟨rfl, ht⟩

theorem offsetText_inj {offset offset' : Option (Bool × TsDigits 2 × TsDigits 2)}
    (h : Stamp.offsetText offset = Stamp.offsetText offset') : offset = offset' := by
  have hz : ∀ neg : Bool, 'Z'.toUInt8 ≠ if neg then '-'.toUInt8 else '+'.toUInt8 := by decide
  have hsign : ∀ neg neg' : Bool,
      (if neg then '-'.toUInt8 else '+'.toUInt8) = (if neg' then '-'.toUInt8 else '+'.toUInt8) → neg = neg' := by decide
  obtain _ | ⟨neg, hour, min⟩ := offset
  · obtain _ | ⟨neg', hour', min'⟩ := offset'
    · rfl
    · exact absurd (List.cons.inj h).1 (hz neg')
  · obtain _ | ⟨neg', hour', min'⟩ := offset'
    · exact absurd (List.cons.inj h).1.symm (hz neg)
    · obtain ⟨hneg, hrest⟩ := List.cons.inj h
      obtain ⟨hhour, hmin⟩ := digits_append_inj hrest
      have hdigits : min.digits ++ [] = min'.digits ++ [] := congrArg (· ++ []) (List.append_cancel_left hmin)
      obtain ⟨hmin, -⟩ := digits_append_inj hdigits
      rw [hsign neg neg' hneg, hhour, hmin]

/-- A text is read in one way. -/
theorem text_inj {s s' : Stamp} (h : s.text = s'.text) : s = s' := by
  obtain ⟨year, mon, day, hour, min, sec, frac, offset⟩ := s
  obtain ⟨year', mon', day', hour', min', sec', frac', offset'⟩ := s'
  simp only [Stamp.text] at h
  obtain ⟨hyear, h₁⟩ := digits_append_inj h
  obtain ⟨hmon, h₂⟩ := digits_append_inj (List.append_cancel_left h₁)
  obtain ⟨hday, h₃⟩ := digits_append_inj (List.append_cancel_left h₂)
  obtain ⟨hhour, h₄⟩ := digits_append_inj (List.append_cancel_left h₃)
  obtain ⟨hmin, h₅⟩ := digits_append_inj (List.append_cancel_left h₄)
  obtain ⟨hsec, h₆⟩ := digits_append_inj (List.append_cancel_left h₅)
  obtain ⟨hfrac, h₇⟩ := fracText_inj (offsetText_head offset) (offsetText_head offset') h₆
  rw [hyear, hmon, hday, hhour, hmin, hsec, hfrac, offsetText_inj h₇]

theorem nanos_lt (frac : Option ((w : Fin 10) × TsDigits w)) : Stamp.nanos frac < 1000000000 := by
  obtain _ | ⟨w, ds⟩ := frac
  · decide
  · have hw : w.val ≤ 9 := Nat.le_of_lt_succ w.isLt
    calc ds.num * 10 ^ (9 - w.val) < 10 ^ w.val * 10 ^ (9 - w.val) :=
          Nat.mul_lt_mul_of_pos_right ds.num_lt (Nat.pow_pos (by decide))
      _ = 1000000000 := by rw [← Nat.pow_add, Nat.add_sub_cancel' hw]

/-- What the encoder can print. -/
theorem timestamp_prints_iff {seconds : Int} {n : Nat} (hn : n < 1000000000) :
    (∃ text, Jsonenc.timestamp seconds n = .ok text) ↔ -62135596800 ≤ seconds ∧ seconds ≤ 253402300799 := by
  rw [Jsonenc.timestamp]
  by_cases hlo : seconds < -62135596800
  · rw [if_pos hlo]
    exact ⟨by rintro ⟨_, ⟨⟩⟩, fun h => by omega⟩
  by_cases hhi : seconds > 253402300799
  · rw [if_neg hlo, if_pos hhi]
    exact ⟨by rintro ⟨_, ⟨⟩⟩, fun h => by omega⟩
  rw [if_neg hlo, if_neg hhi, jsonencNanos_eq hn]
  exact ⟨fun _ => ⟨Int.not_lt.mp hlo, Int.not_lt.mp hhi⟩, fun _ => ⟨_, rfl⟩⟩

theorem TimestampRight.valid {d d' : Jsondec} (h : TimestampRight d) {s : Stamp} (hstring : string d = .ok (s.text, d'))
    (hearly : ¬s.TooEarly) : s.Valid ∧ s.instant ≤ 253402300799 := by
  obtain ⟨s', d₁, hstring', hvalid, hseconds, -, hprints⟩ :=
    h _ _ d' (timestamp_ok_iff.mpr ⟨s, hstring, rfl, hearly, rfl⟩)
  obtain rfl : s = s' := text_inj (Prod.mk.inj (Except.ok.inj (hstring.symm.trans hstring'))).1
  rw [hseconds] at hprints
  exact ⟨hvalid, ((timestamp_prints_iff (nanos_lt s.frac)).mp hprints).2⟩

/-- **What is accepted is valid, is read as the instant that it denotes and can be printed**, if and only if a text that
is not refused as too early has valid numbers and an instant up to 9999-12-31T23:59:59Z. -/
theorem timestamp_right_iff (d : Jsondec) : TimestampRight d ↔
    ∀ (s : Stamp) d', string d = .ok (s.text, d') → ¬s.TooEarly → s.Valid ∧ s.instant ≤ 253402300799 := by
  constructor
  · exact fun hright s d' hstring hearly => hright.valid hstring hearly
  · intro h seconds nanos d' hok
    obtain ⟨s, hstring, rfl, hearly, rfl⟩ := timestamp_ok_iff.mp hok
    obtain ⟨hvalid, hhi⟩ := h s d' hstring hearly
    have hinstant := unixtime_valid hvalid
    have hlo : -62135596800 ≤ s.instant := hinstant ▸ Int.not_lt.mp hearly
    exact ⟨s, d', hstring, hvalid, hinstant, rfl, (timestamp_prints_iff (nanos_lt s.frac)).mpr
      (hinstant.symm ▸ ⟨hlo, hhi⟩)⟩

/-- `2020-13-01T00:00:00Z`. -/
def thirteenth : Stamp where
  year := ⟨ascii "2020", rfl, List.all_eq_true.mp (by decide)⟩
  mon := ⟨ascii "13", rfl, List.all_eq_true.mp (by decide)⟩
  day := ⟨ascii "01", rfl, List.all_eq_true.mp (by decide)⟩
  hour := ⟨ascii "00", rfl, List.all_eq_true.mp (by decide)⟩
  min := ⟨ascii "00", rfl, List.all_eq_true.mp (by decide)⟩
  sec := ⟨ascii "00", rfl, List.all_eq_true.mp (by decide)⟩
  frac := none
  offset := none

/-- A thirteenth month is accepted. -/
theorem not_timestamp_right : ¬∀ d, TimestampRight d := by
  intro h
  have hplain : ∀ b ∈ thirteenth.text, Plain b := by
    have hall : (thirteenth.text.all fun b => decide (Plain b)) = true := by decide
    exact fun b hb => of_decide_eq_true (List.all_eq_true.mp hall b hb)
  have hstring := string_plain [] hplain (d := { rest := quote :: (thirteenth.text ++ [quote]) }) rfl
  have hearly : ¬thirteenth.TooEarly := by
    unfold Stamp.TooEarly
    decide
  exact absurd ((h _).valid hstring hearly).1.mon.2 (by decide)

end Jsondec

end Hpb
