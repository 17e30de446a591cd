import Hpb.Json.Integer

/-!
# Durations in JSON (`jsonenc_duration`, `jsondec_duration`)

A duration has the sign in both of its numbers, and its text has it once, in front of the seconds. A duration of less
than a second has no sign in its seconds: the decoder returns the minus sign of `-0` beside the value
(`bufToInt64_minus`).

* `durationText`: the text of a duration, by its sign, seconds and nanoseconds,
* `duration_roundTrip`: what the encoder prints is read back exactly.
-/

namespace Hpb

open Decimal (decimal isDigit isDigit_of_mem_decimal value_decimal)

namespace Jsonenc

/-- `jsonenc_duration`, on the two fields of the message. -/
def duration (seconds nanos : Int) : Except String (List UInt8) :=
  if seconds > 315576000000 ∨ seconds < -315576000000 ∨
      (seconds ≠ 0 ∧ nanos ≠ 0 ∧ decide (seconds < 0) ≠ decide (nanos < 0)) then .error "bad duration"
  else do
    let negative := seconds < 0 ∨ nanos < 0
    let seconds := if seconds < 0 then -seconds else seconds
    let frac ← Jsonenc.nanos (if nanos < 0 then toInt32 (-nanos) else nanos)
    return ascii "\"" ++ (if negative then ascii "-" else []) ++ printfPrecision 1 seconds ++ frac ++ ascii "s\""

end Jsonenc

namespace Jsondec

/-- `jsondec_duration`: the values of the two fields that it sets. -/
def duration : JsonM (Int × Int) := do
  let str ← string
  match bufToInt64 str with
  | none => err "Integer overflow"
  | some (seconds, ptr, neg) =>
    let (nanos, ptr) ← nanos ptr
    if ptr ≠ ascii "s" then err "Malformed duration"
    else if seconds < -315576000000 ∨ seconds > 315576000000 then err "Duration out of range"
    else return (seconds, if neg then -(nanos : Int) else nanos)

end Jsondec

section Duration

variable {seconds nanos : Nat} {neg : Bool}

/-- The text of a duration, without its quotes. -/
def durationText (neg : Bool) (seconds nanos : Nat) : List UInt8 :=
  (if neg then ['-'.toUInt8] else []) ++ (decimal 1 seconds ++ (fraction nanos ++ ascii "s"))

/-- A number with a sign. -/
def signed (neg : Bool) (n : Nat) : Int := if neg then -n else n

theorem jsonencNanos_ok {n : Int} {text : List UInt8} (h : Jsonenc.nanos n = .ok text) :
    ∃ k : Nat, n = k ∧ k < 1000000000 ∧ text = fraction k := by
  by_cases hn : 0 ≤ n ∧ n < 1000000000
  · obtain ⟨k, rfl⟩ := Int.eq_ofNat_of_zero_le hn.1
    have hk : k < 1000000000 := by omega
    rw [jsonencNanos_eq hk] at h
    exact ⟨k, rfl, hk, (Except.ok.inj h).symm⟩
  · rw [Jsonenc.nanos, if_neg (by omega), if_pos (by omega)] at h
    cases h

theorem printfPrecision_natCast (prec n : Nat) : printfPrecision prec n = decimal prec n := by
  rw [printfPrecision, if_neg (by omega), Int.toNat_natCast]

/-- **The encoder prints the durations in its range** whose numbers agree in their signs. -/
theorem duration_ok {s n : Int} {text : List UInt8} (hlo : -2 ^ 31 ≤ n) (hhi : n < 2 ^ 31)
    (h : Jsonenc.duration s n = .ok text) : ∃ neg seconds nanos, s = signed neg seconds ∧ n = signed neg nanos ∧
      seconds ≤ 315576000000 ∧ nanos < 1000000000 ∧
      text = Jsondec.quote :: (durationText neg seconds nanos ++ [Jsondec.quote]) := by
  rw [Jsonenc.duration] at h
  split at h
  case isTrue => cases h
  next hin =>
    push Not at hin
    obtain ⟨hmax, hmin, hsigns⟩ := hin
    dsimp only at h
    cases hfrac : Jsonenc.nanos (if n < 0 then toInt32 (-n) else n) with
    | error e =>
      rw [hfrac] at h
      cases h
    | ok frac =>
      rw [hfrac] at h
      obtain ⟨k, hk, hlt, rfl⟩ := jsonencNanos_ok hfrac
      have hnanos : n.natAbs = k := by
        simp only [toInt32] at hk
        split_ifs at hk <;> omega
      have hsign : ∀ m : Int, (m = s ∨ m = n) → m = signed (decide (s < 0 ∨ n < 0)) m.natAbs := by
        rintro m hm
        simp only [signed, decide_eq_true_eq]
        by_cases hs : s = 0
        · split_ifs <;> omega
        by_cases hn : n = 0
        · split_ifs <;> omega
        have hsame := hsigns hs hn
        rw [decide_eq_decide] at hsame
        split_ifs <;> omega
      refine ⟨decide (s < 0 ∨ n < 0), s.natAbs, k, hsign s (.inl rfl), hnanos ▸ hsign n (.inr rfl), by omega, hlt, ?_⟩
      have habs : (if s < 0 then -s else s) = (s.natAbs : Int) := by
        split_ifs <;> omega
      rw [habs, printfPrecision_natCast] at h
      rw [← Except.ok.inj h, durationText, List.append_assoc, List.append_assoc]
      by_cases hneg : s < 0 ∨ n < 0
      · rw [if_pos hneg, if_pos (decide_eq_true hneg)]
        simp only [List.append_assoc]
        rfl
      · rw [if_neg hneg, if_neg (by simpa using hneg)]
        simp only [List.append_assoc]
        rfl

theorem takeWhile_decimal (prec n : Nat) {tail : List UInt8} (htail : NoDigitHead tail) :
    (decimal prec n ++ tail).takeWhile isDigit = decimal prec n ∧ (decimal prec n ++ tail).dropWhile isDigit = tail := by
  have hdigits : ∀ b ∈ decimal prec n, isDigit b = true := fun b hb => isDigit_of_mem_decimal hb
  rw [List.takeWhile_append_of_pos hdigits, List.dropWhile_append_of_pos hdigits]
  cases tail with
  | nil => simp
  | cons b bs =>
    have hb : ¬isDigit b = true := by simp [htail b rfl]
    rw [List.takeWhile_cons_of_neg hb, List.dropWhile_cons_of_neg hb, List.append_nil]
    exact ⟨rfl, rfl⟩

theorem noDigitHead_fraction {n : Nat} {tail : List UInt8} (h : NoDigitHead tail) :
    NoDigitHead (fraction n ++ tail) := by
  rw [fraction]
  split_ifs
  · exact h
  all_goals
    intro b hb
    cases hb
    decide

/-- The characters of a duration. -/
theorem mem_durationText {b : UInt8} (h : b ∈ durationText neg seconds nanos) :
    (neg = true ∧ b = '-'.toUInt8) ∨ isDigit b = true ∨ b = '.'.toUInt8 ∨ b = 's'.toUInt8 := by
  simp only [durationText, List.mem_append] at h
  obtain h | h | h | h := h
  · split_ifs at h with hneg
    · exact .inl ⟨hneg, List.mem_singleton.mp h⟩
    · cases h
  · exact .inr (.inl (isDigit_of_mem_decimal h))
  · exact .inr ((mem_fraction h).imp_right .inl)
  · exact .inr (.inr (.inr (List.mem_singleton.mp h)))

/-- The text of a duration is read. -/
theorem Jsondec.duration_text (hs : seconds ≤ 315576000000) (hn : nanos < 1000000000) {d : Jsondec}
    {tail : List UInt8} (hd : d.rest = quote :: (durationText neg seconds nanos ++ quote :: tail)) :
    ∃ d', duration d = .ok ((signed neg seconds, signed neg nanos), d') ∧ d'.rest = tail := by
  have hplain : ∀ b ∈ durationText neg seconds nanos, Plain b := by
    intro b hb
    obtain ⟨-, rfl⟩ | hb | rfl | rfl := mem_durationText hb
    · decide
    · exact plain_of_isDigit hb
    · decide
    · decide
  have htail : NoDigitHead (ascii "s") := by
    intro b hb
    cases hb
    rfl
  have hread : bufToInt64 (durationText neg seconds nanos) =
      some (signed neg seconds, fraction nanos ++ ascii "s", neg) := by
    obtain ⟨htake, hdrop⟩ := takeWhile_decimal 1 seconds (noDigitHead_fraction (n := nanos) htail)
    cases neg with
    | true =>
      rw [durationText, if_pos rfl, List.singleton_append, bufToInt64_minus, htake, hdrop, value_decimal,
        if_pos (by omega)]
      rfl
    | false =>
      have hminus : (durationText false seconds nanos).head? ≠ some '-'.toUInt8 := by
        intro h
        obtain ⟨⟨⟩, -⟩ | h | h | h := mem_durationText (List.mem_of_mem_head? h)
        all_goals exact absurd h (by decide)
      have htext : durationText false seconds nanos = decimal 1 seconds ++ (fraction nanos ++ ascii "s") := rfl
      rw [bufToInt64_digits hminus, htext, htake, hdrop, value_decimal, if_pos (by omega)]
      rfl
  have hrange : ¬(signed neg seconds < -315576000000 ∨ signed neg seconds > 315576000000) := by
    rw [signed]
    split_ifs <;> omega
  refine ⟨{ d with
    rest := tail
    column := d.column + ((durationText neg seconds nanos).length + 2) }, ?_, rfl⟩
  rw [duration, bind_ok (string_plain _ hplain hd), hread]
  dsimp only
  rw [bind_ok (jsondecNanos_fraction hn htail (by decide) _), if_neg (fun h => h rfl), if_neg hrange]
  rfl

/-- **Durations are read back**: what `jsonenc_duration` prints is read as the same pair. -/
theorem duration_roundTrip {s n : Int} (hlo : -2 ^ 31 ≤ n) (hhi : n < 2 ^ 31) {text : List UInt8}
    (h : Jsonenc.duration s n = .ok text) (d : Jsondec) (tail : List UInt8) :
    ∃ d', Jsondec.duration { d with rest := text ++ tail } = .ok ((s, n), d') ∧ d'.rest = tail := by
  obtain ⟨neg, seconds, nanos, rfl, rfl, hs, hn, rfl⟩ := duration_ok hlo hhi h
  exact Jsondec.duration_text hs hn (by simp)

/-- Half a second back. -/
theorem duration_roundTrip_negative : ((-2 ^ 31 : Int) ≤ -500000000 ∧ (-500000000 : Int) < 2 ^ 31) ∧
    ∃ text, Jsonenc.duration 0 (-500000000) = .ok text ∧ ∃ d',
      Jsondec.duration { rest := text ++ [] } = .ok ((0, -500000000), d') ∧ d'.rest = [] := by
  have htext : Jsonenc.duration 0 (-500000000) = .ok (ascii "\"-0.500s\"") := by decide +kernel
  exact ⟨by decide, _, htext, duration_roundTrip (by decide) (by decide) htext { rest := [] } []⟩

end Duration

end Hpb
