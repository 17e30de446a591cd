import Hpb.Json.Lex
import Hpb.Lib.Gregorian
import Hpb.Wire.EpsCopyInputStream

/-!
# Timestamps in JSON (`jsonenc_timestamp`, `jsondec_timestamp`)

The encoder turns a day number into a date with the algorithm of Fliegel and Van Flandern (`Jsonenc.civil`),
and the decoder turns a date into a day number with a closed form (`Jsondec.epochdays`). Both are the
calendar of `Gregorian`: the first undoes `dayNumber` on valid dates, the second is `dayNumber` up to the
day it counts from.
-/

namespace Hpb

open Decimal (decimal)

/-- `UINT64_MAX`. -/
def uint64Max : Nat := 2 ^ 64 - 1

/-- The loop of `hpb_BufToUint64`. -/
def bufToUint64Loop (u64 : Nat) : List UInt8 → Option (Nat × List UInt8)
  | [] => some (u64, [])
  | b :: bs =>
    if Decimal.isDigit b then
      let ch := Decimal.digitVal b
      if u64 > uint64Max / 10 ∨ u64 * 10 > uint64Max - ch then none
      else bufToUint64Loop (u64 * 10 + ch) bs
    else some (u64, b :: bs)

/-- `hpb_BufToUint64`: the value and the bytes after it; `none` is an overflow. -/
def bufToUint64 (bs : List UInt8) : Option (Nat × List UInt8) := bufToUint64Loop 0 bs

/-- What `printf` prints for an `int` and `%0*d`. -/
def printfZeroPadded (width : Nat) (n : Int) : List UInt8 :=
  if n < 0 then '-'.toUInt8 :: decimal (width - 1) n.natAbs else decimal width n.toNat

/-- What `printf` prints for an `int` and `%.*d`. -/
def printfPrecision (prec : Nat) (n : Int) : List UInt8 :=
  if n < 0 then '-'.toUInt8 :: decimal prec n.natAbs else decimal prec n.toNat

namespace Jsonenc

/-- The loop of `jsonenc_nanos`, which is entered with a number that is not zero. -/
def trimNanos (digits nanos : Nat) : Nat × Nat :=
  if _h : nanos % 1000 = 0 ∧ nanos ≠ 0 then trimNanos (digits - 3) (nanos / 1000) else (digits, nanos)

/-- `jsonenc_nanos`. -/
def nanos (nanos : Int) : Except String (List UInt8) :=
  if nanos = 0 then .ok []
  else if nanos < 0 ∨ nanos ≥ 1000000000 then
    .error "error formatting timestamp as JSON: invalid nanos"
  else
    let trimmed := trimNanos 9 nanos.toNat
    .ok ('.'.toUInt8 :: printfPrecision trimmed.1 trimmed.2)

/-- Julian day (plus 68569) to year, month and day, in `jsonenc_timestamp`. In the range of the encoder
every value fits an `int`. -/
def civil (L : Int) : Int × Int × Int :=
  let N := (4 * L).tdiv 146097
  let L := L - (146097 * N + 3).tdiv 4
  let I := (4000 * (L + 1)).tdiv 1461001
  let L := L - (1461 * I).tdiv 4 + 31
  let J := (80 * L).tdiv 2447
  let K := L - (2447 * J).tdiv 80
  let L := J.tdiv 11
  let J := J + 2 - 12 * L
  let I := 100 * (N - 49) + I + L
  (I, J, K)

/-- `jsonenc_timestamp`, on the two fields of the message. -/
def timestamp (seconds nanos : Int) : Except String (List UInt8) :=
  if seconds < -62135596800 then
    .error "error formatting timestamp as JSON: minimum acceptable value is 0001-01-01T00:00:00Z"
  else if seconds > 253402300799 then
    .error "error formatting timestamp as JSON: maximum acceptable value is 9999-12-31T23:59:59Z"
  else do
    let seconds := seconds + 62135596800
    let (I, J, K) := civil (seconds.tdiv 86400 - 719162 + 68569 + 2440588)
    let sec := seconds.tmod 60
    let min := (seconds.tdiv 60).tmod 60
    let hour := (seconds.tdiv 3600).tmod 24
    let frac ← Jsonenc.nanos nanos
    return Jsondec.quote :: printfZeroPadded 4 I ++ ascii "-" ++ printfZeroPadded 2 J ++ ascii "-" ++
      printfZeroPadded 2 K ++ ascii "T" ++ printfZeroPadded 2 hour ++ ascii ":" ++ printfZeroPadded 2 min ++
      ascii ":" ++ printfZeroPadded 2 sec ++ frac ++ ascii "Z" ++ [Jsondec.quote]

end Jsonenc

namespace Jsondec

/-- `jsondec_tsdigits` at `ptr`: the number and the text after it. -/
def tsdigits (digits : Nat) (after ptr : List UInt8) : JsonM (Nat × List UInt8) :=
  match bufToUint64 (ptr.take digits) with
  | none => err "Integer overflow"
  | some (val, left) =>
    if left ≠ [] ∨ (ptr.drop digits).take after.length ≠ after then err "Malformed timestamp"
    else return (val, ptr.drop (digits + after.length))

/-- `jsondec_nanos` at `ptr`. -/
def nanos (ptr : List UInt8) : JsonM (Nat × List UInt8) :=
  match ptr with
  | [] => return (0, [])
  | b :: p =>
    if b = '.'.toUInt8 then
      match bufToUint64 p with
      | none => err "Integer overflow"
      | some (nanos, nanoEnd) =>
        let digits := p.length - nanoEnd.length
        if digits > 9 then err "Too many digits for partial seconds"
        else return (nanos * 10 ^ (9 - digits), nanoEnd)
    else return (0, b :: p)

/-- Conversion to `uint32_t`. -/
def uint32 (a : Int) : Int := a % 2 ^ 32

/-- `jsondec_epochdays`. -/
def epochdays (y m d : Int) : Int :=
  let yearBase := 4800
  let mAdj := uint32 (m - 3)
  let carry := if mAdj > uint32 m then 1 else 0
  let adjust := if carry ≠ 0 then 12 else 0
  let yAdj := uint32 (y + yearBase - carry)
  let monthDays := uint32 (uint32 (mAdj + adjust) * 62719 + 769) / 2048
  let leapDays := uint32 (yAdj / 4 - yAdj / 100 + yAdj / 400)
  toInt32 (yAdj * 365 + leapDays + monthDays + (d - 1) - 2472632)

/-- `jsondec_unixtime`. -/
def unixtime (y m d h min s : Int) : Int := epochdays y m d * 86400 + h * 3600 + min * 60 + s

/-- The offset of `jsondec_timestamp`, at `ptr`: the seconds in UTC. -/
def timeOffset (seconds : Int) (ptr : List UInt8) : JsonM Int :=
  match ptr with
  | [] => err "Malformed timestamp"
  | b :: ptr =>
    if b = '-'.toUInt8 ∨ b = '+'.toUInt8 then
      if ptr.length ≠ 5 then err "Malformed timestamp"
      else do
        let (ofsHour, ptr) ← tsdigits 2 (ascii ":") ptr
        let (ofsMin, _) ← tsdigits 2 [] ptr
        let ofs : Int := ((ofsHour * 60 + ofsMin) * 60 : Nat)
        return if b = '-'.toUInt8 then seconds + ofs else seconds - ofs
    else if b = 'Z'.toUInt8 then
      if ptr ≠ [] then err "Malformed timestamp" else return seconds
    else err "Malformed timestamp"

/-- `jsondec_timestamp`: the values of the two fields that it sets. -/
def timestamp : JsonM (Int × Int) := do
  let str ← string
  if str.length < 20 then err "Malformed timestamp"
  else
    let (year, ptr) ← tsdigits 4 (ascii "-") str
    let (mon, ptr) ← tsdigits 2 (ascii "-") ptr
    let (day, ptr) ← tsdigits 2 (ascii "T") ptr
    let (hour, ptr) ← tsdigits 2 (ascii ":") ptr
    let (min, ptr) ← tsdigits 2 (ascii ":") ptr
    let (sec, ptr) ← tsdigits 2 [] ptr
    let (nanos, ptr) ← nanos ptr
    let seconds ← timeOffset (unixtime year mon day hour min sec) ptr
    if seconds < -62135596800 then err "Timestamp out of range"
    else return (seconds, (nanos : Int))

end Jsondec

section Calendar

open Gregorian

/-- A March year has 365 days, or 366 before a leap year. -/
theorem dayOfYear_le {d : Date} (h : d.Valid) :
    daysBeforeMonth d.marchMonth + (d.day - 1) ≤ 364 + if isLeap (d.marchYear + 1) then 1 else 0 := by
  have hy := h.year_pos
  have hd := h.day_le
  obtain ⟨year, month, day⟩ := d
  dsimp only at *
  by_cases h2 : month = 2
  · subst h2
    have hsub : year - 1 + 1 = year := by omega
    simp only [daysInMonth, ↓reduceIte, Date.marchMonth, Date.marchYear, daysBeforeMonth, Nat.reduceLeDiff, hsub] at *
    split_ifs at * <;> omega
  · have := h.month_pos
    have := h.month_le
    dsimp only at *
    rw [h.marchMonth_eq]
    dsimp only
    interval_cases month <;> simp [daysInMonth, daysBeforeMonth] at * <;> omega

theorem civil_century {c r : Int} (hc : 0 ≤ c) (hr : 0 ≤ r) (h : r ≤ 36523 + if c % 4 = 3 then 1 else 0) :
    (4 * (1789689 + 36524 * c + c / 4 + r)).tdiv 146097 = c + 49 := by
  rw [Int.tdiv_eq_ediv_of_nonneg (by omega)]
  split_ifs at h <;> omega

theorem civil_centuryStart {c : Int} (hc : 0 ≤ c) :
    (146097 * (c + 49) + 3).tdiv 4 = 1789689 + 36524 * c + c / 4 := by
  rw [Int.tdiv_eq_ediv_of_nonneg (by omega)]
  omega

theorem civil_year {i r : Int} (hi : 0 ≤ i) (hi' : i < 100) (hr : 0 ≤ r) (h : r ≤ 364 + if i % 4 = 3 then 1 else 0) :
    (4000 * (1461 * i / 4 + r + 1)).tdiv 1461001 = i := by
  rw [Int.tdiv_eq_ediv_of_nonneg (by omega)]
  split_ifs at h <;> omega

/-- The day of a month is below the next month, or in February. -/
theorem day_le_nextMonth {d : Date} (h : d.Valid) :
    daysBeforeMonth d.marchMonth + d.day ≤ daysBeforeMonth (d.marchMonth + 1) ∨ d.marchMonth = 11 ∧ d.day ≤ 29 := by
  have hle := h.day_le
  by_cases h2 : d.month = 2
  · refine .inr ⟨by simp [Date.marchMonth, h2], Nat.le_trans hle ?_⟩
    rw [daysInMonth, if_pos h2]
    split <;> decide
  · refine .inl ?_
    rw [h.marchMonth_eq, daysBeforeMonth_succ d.year h.month_pos h.month_le h2]
    exact Nat.add_le_add_left hle _

theorem civil_month {m day : Nat} (hm : m < 12) (hd : 1 ≤ day)
    (h : daysBeforeMonth m + day ≤ daysBeforeMonth (m + 1) ∨ m = 11 ∧ day ≤ 29) :
    (80 * (((daysBeforeMonth m + (day - 1) : Nat) : Int) + 31)).tdiv 2447 = m + 1 ∧
      ((daysBeforeMonth m + (day - 1) : Nat) : Int) + 31 - (2447 * ((m : Int) + 1)).tdiv 80 = day := by
  rw [Int.tdiv_eq_ediv_of_nonneg (by omega), Int.tdiv_eq_ediv_of_nonneg (by omega)]
  interval_cases m <;> simp only [daysBeforeMonth] at h ⊢ <;> omega

theorem daysBeforeYear_century (c : Nat) {i : Nat} (hi : i < 100) :
    (daysBeforeYear (100 * c + i) : Int) = 36524 * c + (c : Int) / 4 + 1461 * (i : Int) / 4 := by
  have h100 : (100 * c + i) / 100 = c := by omega
  have h400 : (100 * c + i) / 400 = c / 4 := by omega
  have h4 : (100 * c + i) / 4 = 25 * c + i / 4 := by omega
  rw [daysBeforeYear, h100, h400, h4]
  omega

theorem isLeap_century {c i : Nat} (_hi : i < 100) (h : isLeap (100 * c + i + 1) = true) :
    i % 4 = 3 ∧ (i = 99 → c % 4 = 3) := by
  simp only [isLeap, Bool.and_eq_true, Bool.or_eq_true, decide_eq_true_eq] at h
  omega

/-- **The encoder's algorithm undoes the day number.** -/
theorem civil_dayNumber {d : Date} (h : d.Valid) :
    Jsonenc.civil (d.dayNumber + 1789689) = ((d.year : Int), (d.month : Int), (d.day : Int)) := by
  have hyear := h.year_pos
  have hmon := h.month_pos
  have hmon' := h.month_le
  have hlen := dayOfYear_le h
  have hm12 : d.marchMonth < 12 := by
    rw [h.marchMonth_eq]
    exact Nat.mod_lt _ (by decide)
  obtain ⟨c, i, hi, hci⟩ : ∃ c i : Nat, i < 100 ∧ d.marchYear = 100 * c + i :=
    ⟨d.marchYear / 100, d.marchYear % 100, Nat.mod_lt _ (by decide), (Nat.div_add_mod _ 100).symm⟩
  obtain ⟨hJ, hK⟩ := civil_month hm12 h.day_pos (day_le_nextMonth h)
  have hnum : (d.dayNumber : Int) + 1789689 = 1789689 + 36524 * c + (c : Int) / 4 +
      (1461 * (i : Int) / 4 + ((daysBeforeMonth d.marchMonth + (d.day - 1) : Nat) : Int)) := by
    have := daysBeforeYear_century c hi
    rw [Date.dayNumber, hci, Nat.add_assoc, Nat.cast_add, this]
    omega
  generalize hr : daysBeforeMonth d.marchMonth + (d.day - 1) = r at *
  have hleap : r ≤ 364 ∨ r = 365 ∧ i % 4 = 3 ∧ (i = 99 → c % 4 = 3) := by
    rw [hci] at hlen
    split at hlen
    · next hl =>
      have := isLeap_century hi hl
      omega
    · exact .inl (by omega)
  have hN := civil_century (c := c) (r := 1461 * (i : Int) / 4 + r) (by omega) (by omega) (by split <;> omega)
  have hI := civil_year (i := i) (r := r) (by omega) (by omega) (by omega) (by split <;> omega)
  have hL : (1461 * (i : Int)).tdiv 4 = 1461 * (i : Int) / 4 := Int.tdiv_eq_ediv_of_nonneg (by omega)
  rw [hnum, Jsonenc.civil]
  simp only [hN, civil_centuryStart (Int.natCast_nonneg c), add_sub_cancel_left, hI, hL, hJ, hK]
  rw [Int.tdiv_eq_ediv_of_nonneg (by omega)]
  refine Prod.ext_iff.mpr ⟨?_, Prod.ext_iff.mpr ⟨?_, rfl⟩⟩
  · change 100 * ((c : Int) + 49 - 49) + i + ((d.marchMonth : Int) + 1) / 11 = d.year
    simp only [Date.marchYear] at hci
    simp only [Date.marchMonth]
    split at hci <;> split <;> omega
  · change (d.marchMonth : Int) + 1 + 2 - 12 * (((d.marchMonth : Int) + 1) / 11) = d.month
    simp only [Date.marchMonth]
    split <;> omega

/-- The decoder's month table. -/
theorem epochdays_month {m : Nat} (hm : m < 12) :
    Jsondec.uint32 ((m : Int) * 62719 + 769) / 2048 = daysBeforeMonth m := by
  interval_cases m <;> rfl

/-- The decoder counts from 4800 BC, and all centuries are the same multiple of 400 years later. -/
theorem epochdays_year {y : Nat} (hy : y < 20000) :
    ((y : Int) + 4800) * 365 + Jsondec.uint32 (((y : Int) + 4800) / 4 - ((y : Int) + 4800) / 100 +
      ((y : Int) + 4800) / 400) = daysBeforeYear y + 1753164 := by
  have h4 : ((y : Int) + 4800) / 4 = (y : Int) / 4 + 1200 := by omega
  have h100 : ((y : Int) + 4800) / 100 = (y : Int) / 100 + 48 := by omega
  have h400 : ((y : Int) + 4800) / 400 = (y : Int) / 400 + 12 := by omega
  have hle : y / 100 ≤ y / 4 := Nat.div_le_div_left (by decide) (by decide)
  rw [h4, h100, h400, Jsondec.uint32, Int.emod_eq_of_lt (by omega) (by omega), daysBeforeYear]
  omega

/-- **The decoder's closed form is the day number**, counted from 1970-01-01. -/
theorem epochdays_eq {d : Date} (h : d.Valid) (hy : d.year ≤ 10399) :
    Jsondec.epochdays d.year d.month d.day = (d.dayNumber : Int) - 719468 := by
  have hyear := h.year_pos
  have hmon := h.month_pos
  have hmon' := h.month_le
  have hday := h.day_pos
  have hm12 : d.marchMonth < 12 := by
    rw [h.marchMonth_eq]
    exact Nat.mod_lt _ (by decide)
  have hcarry : (if Jsondec.uint32 (d.month - 3) > Jsondec.uint32 d.month then (1 : Int) else 0) =
      if d.month ≤ 2 then 1 else 0 := by
    simp only [Jsondec.uint32]
    split_ifs <;> omega
  have hyAdj : Jsondec.uint32 (d.year + 4800 - if d.month ≤ 2 then 1 else 0) = (d.marchYear : Int) + 4800 := by
    simp only [Jsondec.uint32, Date.marchYear]
    split_ifs <;> omega
  have hmAdj : Jsondec.uint32 (Jsondec.uint32 (d.month - 3) +
      if (if d.month ≤ 2 then (1 : Int) else 0) ≠ 0 then 12 else 0) = (d.marchMonth : Int) := by
    simp only [Jsondec.uint32, Date.marchMonth]
    split_ifs <;> omega
  have hmarch : d.marchYear < 20000 := by
    rw [Date.marchYear]
    split <;> omega
  have hdays : daysBeforeYear d.marchYear ≤ 20000 * 366 := by
    rw [daysBeforeYear]
    omega
  have hday' : daysBeforeMonth d.marchMonth + (d.day - 1) ≤ 365 := by
    have := dayOfYear_le h
    split at this <;> omega
  rw [Jsondec.epochdays]
  simp only [hcarry, hyAdj, hmAdj, epochdays_month hm12, epochdays_year hmarch, Date.dayNumber]
  rw [toInt32_eq (by omega) (by omega)]
  omega

end Calendar

section Text

open Decimal Gregorian

/-- The text does not go on with a digit. -/
def NoDigitHead (bs : List UInt8) : Prop := ∀ b ∈ bs.head?, isDigit b = false

theorem bufToUint64Loop_digits {ds tail : List UInt8} (hds : ∀ b ∈ ds, isDigit b = true)
    (htail : NoDigitHead tail) {u64 : Nat} (hle : ds.foldl push u64 ≤ uint64Max) :
    bufToUint64Loop u64 (ds ++ tail) = some (ds.foldl push u64, tail) := by
  induction ds generalizing u64 with
  | nil =>
    cases tail with
    | nil => rfl
    | cons b bs =>
      have hb : isDigit b = false := htail b rfl
      simp [bufToUint64Loop, hb]
  | cons b bs ih =>
    have hb := hds b List.mem_cons_self
    rw [List.foldl_cons] at hle ⊢
    have hpush := Nat.le_trans (le_foldl_push (push u64 b) bs) hle
    have hlt := digitVal_lt hb
    have hno : ¬(u64 > uint64Max / 10 ∨ u64 * 10 > uint64Max - digitVal b) := by
      simp only [push, uint64Max] at hpush ⊢
      omega
    rw [List.cons_append, bufToUint64Loop, if_pos hb]
    dsimp only
    rw [if_neg hno]
    exact ih (fun x hx => hds x (List.mem_cons_of_mem _ hx)) hle

/-- A numeral is read back. -/
theorem bufToUint64_decimal {prec n : Nat} (hn : n ≤ uint64Max) {tail : List UInt8} (htail : NoDigitHead tail) :
    bufToUint64 (decimal prec n ++ tail) = some (n, tail) := by
  have hval : (decimal prec n).foldl push 0 = n := value_decimal prec n
  rw [bufToUint64, bufToUint64Loop_digits (fun b hb => isDigit_of_mem_decimal hb) htail (by rw [hval]; exact hn),
    hval]

theorem tsdigits_decimal {w n : Nat} (hw : w ≤ 9) (hn : n < 10 ^ w) (after tail : List UInt8) (d : Jsondec) :
    Jsondec.tsdigits w after (decimal w n ++ (after ++ tail)) d = .ok ((n, tail), d) := by
  have hlen := length_decimal hn
  have hmax : n ≤ uint64Max := by
    have : 10 ^ w ≤ 10 ^ 9 := Nat.pow_le_pow_right (by decide) hw
    simp only [uint64Max]
    omega
  have htake : (decimal w n ++ (after ++ tail)).take w = decimal w n ++ [] := by
    rw [List.take_left' hlen, List.append_nil]
  have hdrop : (decimal w n ++ (after ++ tail)).drop w = after ++ tail := List.drop_left' hlen
  rw [Jsondec.tsdigits, htake, bufToUint64_decimal hmax (by intro b hb; cases hb)]
  dsimp only
  rw [hdrop, List.take_left, if_neg (by simp), ← List.drop_drop, hdrop, List.drop_left]
  rfl

/-- The fraction of a second with 0, 3, 6 or 9 digits, as few as are exact. -/
def fraction (nanos : Nat) : List UInt8 :=
  if nanos = 0 then []
  else if nanos % 1000000 = 0 then '.'.toUInt8 :: decimal 3 (nanos / 1000000)
  else if nanos % 1000 = 0 then '.'.toUInt8 :: decimal 6 (nanos / 1000)
  else '.'.toUInt8 :: decimal 9 nanos

theorem trimNanos_eq {n : Nat} (hpos : n ≠ 0) (hlt : n < 1000000000) :
    Jsonenc.trimNanos 9 n = if n % 1000000 = 0 then (3, n / 1000000)
      else if n % 1000 = 0 then (6, n / 1000) else (9, n) := by
  rw [Jsonenc.trimNanos]
  split
  · next h1 =>
    rw [Jsonenc.trimNanos]
    split
    · next h2 =>
      rw [Jsonenc.trimNanos, dif_neg (by omega), if_pos (by omega), Nat.div_div_eq_div_mul]
    · next h2 => rw [if_neg (by omega), if_pos h1.1]
  · next h1 => rw [if_neg (by omega), if_neg (by omega)]

theorem jsonencNanos_eq {n : Nat} (hlt : n < 1000000000) :
    Jsonenc.nanos n = .ok (fraction n) := by
  rw [Jsonenc.nanos, fraction]
  by_cases h0 : n = 0
  · rw [if_pos (by omega), if_pos h0]
  · rw [if_neg (by omega), if_neg (by omega), if_neg h0]
    dsimp only
    rw [Int.toNat_natCast, trimNanos_eq h0 hlt]
    split_ifs <;> rfl

theorem jsondecNanos_digits {w n : Nat} (hw : w ≤ 9) (hn : n < 10 ^ w) {tail : List UInt8}
    (htail : NoDigitHead tail) (d : Jsondec) :
    Jsondec.nanos ('.'.toUInt8 :: (decimal w n ++ tail)) d = .ok ((n * 10 ^ (9 - w), tail), d) := by
  have hlen := length_decimal hn
  have hmax : n ≤ uint64Max := by
    have : 10 ^ w ≤ 10 ^ 9 := Nat.pow_le_pow_right (by decide) hw
    simp only [uint64Max]
    omega
  have hdigits : (decimal w n ++ tail).length - tail.length = w := by
    rw [List.length_append, hlen, Nat.add_sub_cancel]
  rw [Jsondec.nanos, if_pos rfl, bufToUint64_decimal hmax htail]
  dsimp only
  rw [hdigits, if_neg (by omega)]
  rfl

theorem jsondecNanos_fraction {n : Nat} (hlt : n < 1000000000) {tail : List UInt8} (htail : NoDigitHead tail)
    (hdot : tail.head? ≠ some '.'.toUInt8) (d : Jsondec) :
    Jsondec.nanos (fraction n ++ tail) d = .ok ((n, tail), d) := by
  rw [fraction]
  split
  · next h0 =>
    subst h0
    cases tail with
    | nil => rfl
    | cons b bs =>
      rw [List.nil_append, Jsondec.nanos, if_neg fun h => hdot (congrArg some h)]
      rfl
  · split
    · next h6 =>
      rw [List.cons_append, jsondecNanos_digits (by decide) (by omega) htail]
      congr 3
      omega
    · split
      · next h3 =>
        rw [List.cons_append, jsondecNanos_digits (by decide) (by omega) htail]
        congr 3
        omega
      · rw [List.cons_append, jsondecNanos_digits (by decide) (by omega) htail]
        congr 3
        omega

/-- The text of a date and a time of day in UTC, without its quotes. -/
def timestampText (date : Date) (hour min sec nanos : Nat) : List UInt8 :=
  decimal 4 date.year ++ (ascii "-" ++ (decimal 2 date.month ++ (ascii "-" ++ (decimal 2 date.day ++
    (ascii "T" ++ (decimal 2 hour ++ (ascii ":" ++ (decimal 2 min ++ (ascii ":" ++ (decimal 2 sec ++
      (fraction nanos ++ ascii "Z")))))))))))

theorem year_le {n : Nat} (hn : n ≤ 3652058) : (ofDay n).year ≤ 9999 := by
  have hnum := dayNumber_ofDay n
  have hyear := (ofDay_valid n).year_pos
  have hmon := (ofDay_valid n).month_pos
  by_contra hgt
  rw [Date.dayNumber, Date.marchYear, Date.marchMonth] at hnum
  split at hnum
  · simp only [daysBeforeYear, daysBeforeMonth] at hnum
    obtain heq | hlt : (ofDay n).year - 1 = 9999 ∨ 10000 ≤ (ofDay n).year - 1 := by omega
    · rw [heq] at hnum
      omega
    · omega
  · simp only [daysBeforeYear] at hnum
    omega

theorem plain_of_isDigit {b : UInt8} (h : isDigit b = true) : Jsondec.Plain b := by
  simp only [isDigit, Bool.and_eq_true, decide_eq_true_eq] at h
  refine ⟨?_, ?_, ?_⟩
  · rintro rfl
    exact absurd h.1 (by decide)
  · rintro rfl
    exact absurd h.2 (by decide)
  · exact UInt8.le_trans (by decide) h.1

theorem mem_fraction {n : Nat} {b : UInt8} (h : b ∈ fraction n) : isDigit b = true ∨ b = '.'.toUInt8 := by
  rw [fraction] at h
  split_ifs at h
  · cases h
  all_goals
    obtain rfl | h := List.mem_cons.mp h
    · exact .inr rfl
    · exact .inl (isDigit_of_mem_decimal h)

theorem plain_of_mem_timestampText {date : Date} {hour min sec nanos : Nat} {b : UInt8}
    (h : b ∈ timestampText date hour min sec nanos) : Jsondec.Plain b := by
  have hnum : ∀ {prec n : Nat}, b ∈ decimal prec n → Jsondec.Plain b :=
    fun hb => plain_of_isDigit (isDigit_of_mem_decimal hb)
  have hsep : ∀ {s : List UInt8}, (s.all fun x => decide (Jsondec.Plain x)) = true → b ∈ s → Jsondec.Plain b :=
    fun hs hb => of_decide_eq_true (List.all_eq_true.mp hs b hb)
  have hfrac : b ∈ fraction nanos → Jsondec.Plain b := by
    intro hb
    obtain hb | rfl := mem_fraction hb
    · exact plain_of_isDigit hb
    · decide
  simp only [timestampText, List.mem_append] at h
  obtain h | h | h | h | h | h | h | h | h | h | h | h | h := h
  all_goals first | exact hnum h | exact hfrac h | exact hsep (by decide) h

theorem length_timestampText {date : Date} (hy : date.year ≤ 9999) (hm : date.month ≤ 12) (hd : date.day ≤ 31)
    {hour min sec nanos : Nat} (hh : hour < 24) (hmin : min < 60) (hs : sec < 60) :
    20 ≤ (timestampText date hour min sec nanos).length := by
  simp only [timestampText, List.length_append]
  rw [length_decimal (by omega), length_decimal (by omega), length_decimal (by omega), length_decimal (by omega),
    length_decimal (by omega), length_decimal (by omega)]
  simp only [show (ascii "-").length = 1 from rfl, show (ascii "T").length = 1 from rfl,
    show (ascii ":").length = 1 from rfl, show (ascii "Z").length = 1 from rfl]
  omega

/-- The decoder reads the text of an instant back. -/
theorem Jsondec.timestamp_text {date : Date} (hy : date.year ≤ 9999) (hm : date.month ≤ 12) (hd : date.day ≤ 31)
    {hour min sec nanos : Nat} (hh : hour < 24) (hmin : min < 60) (hs : sec < 60) (hn : nanos < 1000000000)
    (hlo : -62135596800 ≤ unixtime date.year date.month date.day hour min sec) {d : Jsondec} {tail : List UInt8}
    (hrest : d.rest = quote :: (timestampText date hour min sec nanos ++ quote :: tail)) :
    timestamp d = .ok ((unixtime date.year date.month date.day hour min sec, nanos),
      { d with
        rest := tail
        column := d.column + ((timestampText date hour min sec nanos).length + 2) }) := by
  have hlen : 20 ≤ (timestampText date hour min sec nanos).length := length_timestampText hy hm hd hh hmin hs
  rw [timestamp, bind_ok (string_plain _ (fun b hb => plain_of_mem_timestampText hb) hrest),
    if_neg (Nat.not_lt.mpr hlen)]
  generalize { d with
        rest := tail
        column := d.column + (((timestampText date hour min sec nanos).length : Int) + 2) } = d'
  have hzone : NoDigitHead (ascii "Z") := by
    intro b hb
    cases hb
    rfl
  have h0 : ∀ {w k : Nat} (t : List UInt8), w ≤ 9 → k < 10 ^ w → tsdigits w [] (decimal w k ++ t) d' = .ok ((k, t), d') :=
    fun t hw hk => tsdigits_decimal hw hk [] t d'
  rw [timestampText, bind_ok (tsdigits_decimal (by decide) (by omega) _ _ d')]
  dsimp only
  rw [bind_ok (tsdigits_decimal (by decide) (by omega) _ _ d')]
  dsimp only
  rw [bind_ok (tsdigits_decimal (by decide) (by omega) _ _ d')]
  dsimp only
  rw [bind_ok (tsdigits_decimal (by decide) (by omega) _ _ d')]
  dsimp only
  rw [bind_ok (tsdigits_decimal (by decide) (by omega) _ _ d')]
  dsimp only
  rw [bind_ok (h0 _ (by decide) (by omega))]
  dsimp only
  rw [bind_ok (jsondecNanos_fraction hn hzone (by decide) d')]
  dsimp only
  have hoffset : timeOffset (unixtime date.year date.month date.day hour min sec) (ascii "Z") d' =
      .ok (unixtime date.year date.month date.day hour min sec, d') := rfl
  rw [bind_ok hoffset, if_neg (Int.not_lt.mpr hlo)]
  rfl

theorem printfZeroPadded_natCast (width n : Nat) : printfZeroPadded width n = decimal width n := by
  rw [printfZeroPadded, if_neg (by omega), Int.toNat_natCast]

/-- The encoder prints the date of the calendar. -/
theorem Jsonenc.timestamp_text {n hour min sec nanos : Nat} (hn : n ≤ 3652058) (hh : hour < 24) (hmin : min < 60)
    (hs : sec < 60) (hnanos : nanos < 1000000000) :
    Jsonenc.timestamp (-62135596800 + 86400 * n + 3600 * hour + 60 * min + sec) nanos =
      .ok (Jsondec.quote :: timestampText (ofDay n) hour min sec nanos ++ [Jsondec.quote]) := by
  have hday : (-62135596800 + 86400 * (n : Int) + 3600 * hour + 60 * min + sec + 62135596800) =
      86400 * n + 3600 * hour + 60 * min + sec := by omega
  have hdays : (86400 * (n : Int) + 3600 * hour + 60 * min + sec).tdiv 86400 - 719162 + 68569 + 2440588 =
      (ofDay n).dayNumber + 1789689 := by
    rw [dayNumber_ofDay, Int.tdiv_eq_ediv_of_nonneg (by omega)]
    omega
  have hsec : (86400 * (n : Int) + 3600 * hour + 60 * min + sec).tmod 60 = sec := by
    rw [Int.tmod_eq_emod_of_nonneg (by omega)]
    omega
  have hminute : ((86400 * (n : Int) + 3600 * hour + 60 * min + sec).tdiv 60).tmod 60 = min := by
    rw [Int.tdiv_eq_ediv_of_nonneg (by omega), Int.tmod_eq_emod_of_nonneg (by omega)]
    omega
  have hhour : ((86400 * (n : Int) + 3600 * hour + 60 * min + sec).tdiv 3600).tmod 24 = hour := by
    rw [Int.tdiv_eq_ediv_of_nonneg (by omega), Int.tmod_eq_emod_of_nonneg (by omega)]
    omega
  rw [Jsonenc.timestamp, if_neg (by omega), if_neg (by omega)]
  simp only [hday, hdays, hsec, hminute, hhour, civil_dayNumber (ofDay_valid n), jsonencNanos_eq hnanos,
    printfZeroPadded_natCast, timestampText, List.append_assoc, List.cons_append]
  rfl

/-- **The JSON of a timestamp is its date in the calendar, and is read back exactly.** -/
theorem timestamp_roundTrip (seconds nanos : Int) (hlo : -62135596800 ≤ seconds) (hhi : seconds ≤ 253402300799)
    (hn0 : 0 ≤ nanos) (hn : nanos ≤ 999999999) :
    ∃ n hour min sec : Nat, n ≤ 3652058 ∧ hour < 24 ∧ min < 60 ∧ sec < 60 ∧
      seconds = -62135596800 + 86400 * n + 3600 * hour + 60 * min + sec ∧
      Jsondec.epochdays (ofDay n).year (ofDay n).month (ofDay n).day = n - 719162 ∧
      Jsonenc.civil ((n : Int) - 719162 + 68569 + 2440588) =
        (((ofDay n).year : Int), ((ofDay n).month : Int), ((ofDay n).day : Int)) ∧
      ∃ text, Jsonenc.timestamp seconds nanos = .ok text ∧
        text = Jsondec.quote :: timestampText (ofDay n) hour min sec nanos.toNat ++ [Jsondec.quote] ∧
        ∀ (d : Jsondec) (tail : List UInt8), d.rest = text ++ tail →
          Jsondec.timestamp d =
            .ok ((seconds, nanos), { d with rest := tail, column := d.column + text.length }) := by
  obtain ⟨s, hs⟩ : ∃ s : Nat, seconds = -62135596800 + s := ⟨(seconds + 62135596800).toNat, by omega⟩
  obtain ⟨k, rfl⟩ : ∃ k : Nat, nanos = k := ⟨nanos.toNat, by omega⟩
  have hnday : s / 86400 ≤ 3652058 := by omega
  have hhour : s / 3600 % 24 < 24 := Nat.mod_lt _ (by decide)
  have hmin : s / 60 % 60 < 60 := Nat.mod_lt _ (by decide)
  have hsec : s % 60 < 60 := Nat.mod_lt _ (by decide)
  have hsum : seconds = -62135596800 + 86400 * (s / 86400 : Nat) + 3600 * (s / 3600 % 24 : Nat) +
      60 * (s / 60 % 60 : Nat) + (s % 60 : Nat) := by omega
  generalize s / 86400 = n at *
  generalize s / 3600 % 24 = hour at *
  generalize s / 60 % 60 = min at *
  generalize s % 60 = sec at *
  have hvalid := ofDay_valid n
  have hnum := dayNumber_ofDay n
  have hday : (ofDay n).day ≤ 31 := by
    refine Nat.le_trans hvalid.day_le ?_
    rw [daysInMonth]
    split_ifs <;> decide
  have hepoch : Jsondec.epochdays (ofDay n).year (ofDay n).month (ofDay n).day = n - 719162 := by
    rw [epochdays_eq hvalid (Nat.le_trans (year_le hnday) (by decide)), hnum]
    omega
  have hunix : Jsondec.unixtime (ofDay n).year (ofDay n).month (ofDay n).day hour min sec = seconds := by
    rw [Jsondec.unixtime, hepoch]
    omega
  have hcivil := civil_dayNumber hvalid
  rw [hnum] at hcivil
  have hk : k < 1000000000 := by omega
  rw [Int.toNat_natCast]
  refine ⟨n, hour, min, sec, hnday, hhour, hmin, hsec, hsum, hepoch, ?_, _,
    by rw [hsum]; exact Jsonenc.timestamp_text hnday hhour hmin hsec hk, rfl, ?_⟩
  · rw [← hcivil]
    congr 1
    omega
  · intro d tail hrest
    have hrest' : d.rest =
        Jsondec.quote :: (timestampText (ofDay n) hour min sec k ++ Jsondec.quote :: tail) := by
      simpa using hrest
    rw [Jsondec.timestamp_text (year_le hnday) hvalid.month_le hday hhour hmin hsec hk
      (by rw [hunix]; exact hlo) hrest', hunix]
    congr 3
    simp
    omega

/-- The last nanosecond of the leap day of 1600. -/
theorem timestamp_roundTrip_leapDay :
    ((-62135596800 : Int) ≤ -11670912001 ∧ (-11670912001 : Int) ≤ 253402300799) ∧
    ∃ text, Jsonenc.timestamp (-11670912001) 999999999 = .ok text ∧
      ∀ d : Jsondec, d.rest = text → ∃ d', Jsondec.timestamp d = .ok ((-11670912001, 999999999), d') ∧ d'.rest = [] := by
  obtain ⟨n, hour, min, sec, -, -, -, -, -, -, -, text, htext, -, hdec⟩ :=
    timestamp_roundTrip (-11670912001) 999999999 (by decide) (by decide) (by decide) (by decide)
  exact ⟨by decide, text, htext, fun d hd => ⟨_, hdec d [] (by rw [hd, List.append_nil]), rfl⟩⟩

end Text

end Hpb
