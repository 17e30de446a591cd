import Hpb.Json.StringRoundTrip
import Hpb.Json.Timestamp
import Hpb.MiniTable.Field
import Mathlib.Data.List.TakeWhile

/-!
# Integers in JSON strings

The fields of 64 bits are written as strings, and a string is accepted for every integer field and for the keys of maps.
`hpb_BufToUint64` and `hpb_BufToInt64` read the digits at the start of a text, and the decoder tests that there is
nothing behind them. None of them tests that there is a digit.

* `bufToUint64_eq`, `bufToInt64_eq`: what is read, and when there is an overflow,
* `Numeral`: the texts of a number,
* `quoted_right_iff`: the decoder accepts exactly the numerals in the range of the type, and yields their number, if and
  only if the text is sound.
-/

namespace Hpb

open Decimal (value isDigit)

/-- Conversion to `int64_t`. -/
def toInt64 (a : Int) : Int := (a + 2 ^ 63) % 2 ^ 64 - 2 ^ 63

/-- `hpb_BufToInt64`: the value, the bytes after it, and whether there is a minus sign; `none` is an overflow. -/
def bufToInt64 (bs : List UInt8) : Option (Int × List UInt8 × Bool) :=
  let neg := bs.head? = some '-'.toUInt8
  match bufToUint64 (if neg then bs.tail else bs) with
  | none => none
  | some (u64, ptr) =>
    if u64 > 2 ^ 63 - 1 + (if neg then 1 else 0) then none
    else some (if neg then toInt64 (-u64) else toInt64 u64, ptr, neg)

theorem bufToUint64Loop_eq (bs : List UInt8) {u64 : Nat} (h : u64 ≤ uint64Max) : bufToUint64Loop u64 bs =
    if (bs.takeWhile isDigit).foldl Decimal.push u64 ≤ uint64Max then
      some ((bs.takeWhile isDigit).foldl Decimal.push u64, bs.dropWhile isDigit)
    else none := by
  induction bs generalizing u64 with
  | nil => exact (if_pos h).symm
  | cons b bs ih =>
    rw [bufToUint64Loop]
    by_cases hb : isDigit b = true
    · rw [if_pos hb, List.takeWhile_cons_of_pos hb, List.dropWhile_cons_of_pos hb, List.foldl_cons]
      have hlt := Decimal.digitVal_lt hb
      dsimp only
      by_cases hover : u64 > uint64Max / 10 ∨ u64 * 10 > uint64Max - Decimal.digitVal b
      · have hpush : uint64Max < Decimal.push u64 b := by
          rw [Decimal.push]
          simp only [uint64Max] at *
          omega
        rw [if_pos hover, if_neg (Nat.not_le.mpr (Nat.lt_of_lt_of_le hpush (Decimal.le_foldl_push _ _)))]
      · have hpush : u64 * 10 + Decimal.digitVal b ≤ uint64Max := by
          simp only [uint64Max] at *
          omega
        rw [if_neg hover, ih hpush]
        rfl
    · rw [if_neg hb, List.takeWhile_cons_of_neg hb, List.dropWhile_cons_of_neg hb]
      exact (if_pos h).symm

/-- **The digits at the start are read**, with an overflow if they do not fit. -/
theorem bufToUint64_eq (bs : List UInt8) : bufToUint64 bs =
    if value (bs.takeWhile isDigit) ≤ uint64Max then some (value (bs.takeWhile isDigit), bs.dropWhile isDigit)
    else none :=
  bufToUint64Loop_eq bs (Nat.zero_le _)

/-- What `hpb_BufToInt64` reads behind a minus sign. -/
theorem bufToInt64_minus (bs : List UInt8) : bufToInt64 ('-'.toUInt8 :: bs) =
    if value (bs.takeWhile isDigit) ≤ 2 ^ 63 then
      some (-(value (bs.takeWhile isDigit) : Int), bs.dropWhile isDigit, true)
    else none := by
  rw [bufToInt64]
  simp only [List.head?_cons, ↓reduceIte, List.tail_cons, bufToUint64_eq, decide_true]
  generalize value (bs.takeWhile isDigit) = n
  by_cases h : n ≤ 2 ^ 63
  · rw [if_pos (by simp only [uint64Max]; omega), if_pos h]
    dsimp only
    rw [if_neg (by omega)]
    have hint : toInt64 (-n) = -n := by
      simp only [toInt64]
      omega
    rw [hint]
  · rw [if_neg h]
    split
    · rfl
    next hsome =>
      split_ifs at hsome
      cases hsome
      exact if_pos (by omega)

/-- What `hpb_BufToInt64` reads without a minus sign. -/
theorem bufToInt64_digits {bs : List UInt8} (hminus : bs.head? ≠ some '-'.toUInt8) : bufToInt64 bs =
    if value (bs.takeWhile isDigit) < 2 ^ 63 then
      some ((value (bs.takeWhile isDigit) : Int), bs.dropWhile isDigit, false)
    else none := by
  rw [bufToInt64]
  simp only [hminus, ↓reduceIte, bufToUint64_eq, decide_false]
  generalize value (bs.takeWhile isDigit) = n
  by_cases h : n < 2 ^ 63
  · rw [if_pos (by simp only [uint64Max]; omega), if_pos h]
    dsimp only
    rw [if_neg (by omega)]
    have hint : toInt64 n = n := by
      simp only [toInt64]
      omega
    rw [hint]
  · rw [if_neg h]
    split
    · rfl
    next hsome =>
      split_ifs at hsome
      cases hsome
      exact if_pos (by omega)

namespace Jsondec

/-- `jsondec_strtouint64`. -/
def strtouint64 (str : List UInt8) : JsonM Nat :=
  match bufToUint64 str with
  | none => err "Integer overflow"
  | some (ret, left) => if left ≠ [] then err "Non-number characters in quoted integer" else return ret

/-- `jsondec_strtoint64`. -/
def strtoint64 (str : List UInt8) : JsonM Int :=
  match bufToInt64 str with
  | none => err "Integer overflow"
  | some (ret, left, _) => if left ≠ [] then err "Non-number characters in quoted integer" else return ret

/-- Conversion of a double to an integer. -/
def truncate (q : Rat) : Int := q.num.tdiv q.den

/-- `jsondec_int`, without the arguments of the message for a number that is not integral. -/
def int {D : Type} (dbl : Doubles D) (type : CType) : JsonM Int := do
  let val ← match ← peek with
    | .number => do
      let q := dbl.value (← number dbl)
      if q > 9223372036854774784 ∨ q < -9223372036854775808 then err "JSON number is out of range."
      else if (truncate q : Rat) ≠ q then err "JSON number was not integral (%f != %lld)"
      else pure (truncate q)
    | .string => do strtoint64 (← string)
    | _ => err "Expected number or string"
  if (type = .int32 ∨ type = .enum) ∧ (val > 2 ^ 31 - 1 ∨ val < -2 ^ 31) then err "Integer out of range."
  else return val

/-- `jsondec_uint`, without the arguments of the message for a number that is not integral. -/
def uint {D : Type} (dbl : Doubles D) (type : CType) : JsonM Nat := do
  let val ← match ← peek with
    | .number => do
      let q := dbl.value (← number dbl)
      if q > 18446744073709549568 ∨ q < 0 then err "JSON number is out of range."
      else if (truncate q : Rat) ≠ q then err "JSON number was not integral (%f != %llu)"
      else pure (truncate q).toNat
    | .string => do strtouint64 (← string)
    | _ => err "Expected number or string"
  if type = .uint32 ∧ val > 2 ^ 32 - 1 then err "Integer out of range."
  else return val

/-- A type that is read by `jsondec_int` or `jsondec_uint`. -/
inductive IntegerType where
  | int32 | int64 | uint32 | uint64
  deriving DecidableEq

namespace IntegerType

/-- `hpb_FieldDef_CType`. -/
def cType : IntegerType → CType
  | .int32 => .int32
  | .int64 => .int64
  | .uint32 => .uint32
  | .uint64 => .uint64

/-- The numbers of a type. -/
def InRange : IntegerType → Int → Prop
  | .int32, v => -2 ^ 31 ≤ v ∧ v < 2 ^ 31
  | .int64, v => -2 ^ 63 ≤ v ∧ v < 2 ^ 63
  | .uint32, v => 0 ≤ v ∧ v < 2 ^ 32
  | .uint64, v => 0 ≤ v ∧ v < 2 ^ 64

def IsSigned : IntegerType → Prop
  | .int32 | .int64 => True
  | .uint32 | .uint64 => False

end IntegerType

/-- `jsondec_value`, for the integer types. -/
def integer {D : Type} (dbl : Doubles D) (type : IntegerType) : JsonM Int :=
  match type with
  | .uint32 | .uint64 => do return ((← uint dbl type.cType : Nat) : Int)
  | .int32 | .int64 => int dbl type.cType

/-- The text of a number: digits, and a minus sign in front of them or none. -/
inductive Numeral : List UInt8 → Int → Prop where
  | natural {ds : List UInt8} (hne : ds ≠ []) (hds : ∀ b ∈ ds, isDigit b = true) : Numeral ds (value ds)
  | negative {ds : List UInt8} (hne : ds ≠ []) (hds : ∀ b ∈ ds, isDigit b = true) :
      Numeral ('-'.toUInt8 :: ds) (-value ds)

/-- **A quoted integer is read right**: it is accepted if it is the text of a number of the type, with that number. -/
def QuotedRight (type : IntegerType) (str : List UInt8) : Prop :=
  ∀ {D : Type} (dbl : Doubles D) (d d' : Jsondec), string d = .ok (str, d') →
    ∀ v d'', integer dbl type d = .ok (v, d'') ↔ (Numeral str v ∧ type.InRange v) ∧ d'' = d'

/-- **The text is sound**: there is a digit where digits are accepted, and no unsigned zero has a minus sign. -/
def QuotedSound (type : IntegerType) (str : List UInt8) : Prop :=
  str ≠ [] ∧ (type.IsSigned → str ≠ ['-'.toUInt8]) ∧
    (¬type.IsSigned → ∀ zeros, str = '-'.toUInt8 :: zeros → zeros ≠ [] → ∃ b ∈ zeros, b ≠ '0'.toUInt8)

section Quoted

variable {str : List UInt8} {d d' : Jsondec} {v : Int} {n : Nat}

/-- Nothing is behind the digits if there are only digits. -/
theorem all_digits_iff {α β : Type} {bs : List UInt8} {P : Nat → Prop} [DecidablePred P] {f : Nat → α} {a : α}
    {mk : α → List UInt8 → β} {b : β} (hmk : ∀ x left, mk x left = b ↔ left = [] ∧ a = x) :
    (if P (value (bs.takeWhile isDigit)) then some (mk (f (value (bs.takeWhile isDigit))) (bs.dropWhile isDigit))
      else none) = some b ↔ (∀ b ∈ bs, isDigit b = true) ∧ P (value bs) ∧ a = f (value bs) := by
  rw [Option.ite_none_right_eq_some, Option.some.injEq, hmk, List.dropWhile_eq_nil_iff]
  by_cases hall : ∀ b ∈ bs, isDigit b = true
  · rw [List.takeWhile_eq_self_iff.mpr hall]
    tauto
  · tauto

theorem strtouint64_ok_iff : strtouint64 str d = .ok (n, d') ↔
    ((∀ b ∈ str, isDigit b = true) ∧ value str ≤ uint64Max ∧ n = value str) ∧ d' = d := by
  have hread : strtouint64 str d = .ok (n, d') ↔ bufToUint64 str = some (n, []) ∧ d' = d := by
    rw [strtouint64]
    cases bufToUint64 str with
    | none => simp [err]
    | some p =>
      obtain ⟨ret, _ | ⟨b, left⟩⟩ := p
      · exact ⟨by rintro ⟨⟩; exact ⟨rfl, rfl⟩, by rintro ⟨⟨⟩, rfl⟩; rfl⟩
      · simp [err]
  rw [hread, bufToUint64_eq,
    all_digits_iff (P := (· ≤ uint64Max)) (f := fun m => m) (a := n) (by simp [and_comm, eq_comm])]

/-- The texts that `jsondec_strtoint64` accepts. -/
theorem strtoint64_ok_iff : strtoint64 str d = .ok (v, d') ↔
    ((∃ ds, str = '-'.toUInt8 :: ds ∧ (∀ b ∈ ds, isDigit b = true) ∧ value ds ≤ 2 ^ 63 ∧ v = -value ds) ∨
      ((∀ b ∈ str, isDigit b = true) ∧ value str < 2 ^ 63 ∧ v = value str)) ∧ d' = d := by
  have hread : strtoint64 str d = .ok (v, d') ↔ (∃ neg, bufToInt64 str = some (v, [], neg)) ∧ d' = d := by
    rw [strtoint64]
    cases bufToInt64 str with
    | none => simp [err]
    | some p =>
      obtain ⟨ret, _ | ⟨b, left⟩, neg⟩ := p
      · exact ⟨by rintro ⟨⟩; exact ⟨⟨neg, rfl⟩, rfl⟩, by rintro ⟨⟨_, ⟨⟩⟩, rfl⟩; rfl⟩
      · simp [err]
  have hsign : ∀ {sign : Bool} {x : Int} {left : List UInt8} {P : Prop} [Decidable P],
      (∃ neg, (if P then some (x, left, sign) else none) = some (v, [], neg)) ↔
        (if P then some (x, left) else none) = some (v, []) := by
    intro sign x left P _
    split_ifs <;> simp
  rw [hread, and_congr_left_iff]
  rintro -
  by_cases hminus : str.head? = some '-'.toUInt8
  · obtain ⟨ds, rfl⟩ : ∃ ds, str = '-'.toUInt8 :: ds := List.head?_eq_some_iff.mp hminus
    have hnot : ¬∀ b ∈ '-'.toUInt8 :: ds, isDigit b = true := fun h => absurd (h _ List.mem_cons_self) (by decide)
    rw [bufToInt64_minus, hsign,
      all_digits_iff (P := (· ≤ 2 ^ 63)) (f := fun m => -(m : Int)) (a := v) (by simp [and_comm, eq_comm])]
    constructor
    · exact fun h => .inl ⟨ds, rfl, h⟩
    · rintro (⟨ds', hds, h⟩ | ⟨h, -⟩)
      · rwa [(List.cons.inj hds).2]
      · exact absurd h hnot
  · have hnot : ∀ ds, str ≠ '-'.toUInt8 :: ds := fun ds h => hminus (h ▸ rfl)
    rw [bufToInt64_digits hminus, hsign,
      all_digits_iff (P := (· < 2 ^ 63)) (f := fun m => (m : Int)) (a := v) (by simp [and_comm, eq_comm])]
    exact ⟨.inr, fun h => h.resolve_left fun ⟨ds, hds, _⟩ => hnot ds hds⟩

/-- A string is peeked at. -/
theorem peek_string (h : string d = .ok (str, d')) : ∃ d₁, peek d = .ok (.string, d₁) ∧ string d₁ = .ok (str, d') := by
  obtain ⟨⟨⟩, d₁, hskip, hrest⟩ := bind_eq_ok (show (skipws >>= _) d = _ from h)
  obtain ⟨b, d₂, hnext, hloop⟩ := bind_eq_ok hrest
  obtain ⟨bs, hd⟩ : ∃ bs, d₁.rest = b :: bs := by
    obtain ⟨b', d₃, hderef, hadvance⟩ := bind_eq_ok (show (deref >>= _) d₁ = _ from hnext)
    rw [deref] at hderef
    split at hderef
    · cases hderef
    next b'' bs hd =>
      cases hderef
      cases hadvance
      exact ⟨bs, hd⟩
  by_cases hq : b = quote
  · subst hq
    have hskip₁ : skipws d₁ = .ok ((), d₁) := skipws_of_head hd (by decide) (by decide)
    refine ⟨d₁, ?_, ?_⟩
    · rw [peek, bind_ok hskip, rawpeek, bind_ok (deref_cons hd)]
      rfl
    · rw [string, bind_ok hskip₁]
      exact hrest
  · rw [if_pos hq] at hloop
    cases hloop

theorem bind_ok_iff {α β : Type} {x : JsonM α} {f : α → JsonM β} {b : β} :
    (x >>= f) d = .ok (b, d') ↔ ∃ a d₁, x d = .ok (a, d₁) ∧ f a d₁ = .ok (b, d') :=
  ⟨bind_eq_ok, fun ⟨_, _, hx, hf⟩ => (bind_ok hx).trans hf⟩

theorem int_string {D : Type} {dbl : Doubles D} {type : CType} (h : string d = .ok (str, d')) :
    int dbl type d = (do
      let val ← strtoint64 str
      if (type = .int32 ∨ type = .enum) ∧ (val > 2 ^ 31 - 1 ∨ val < -2 ^ 31) then err "Integer out of range."
      else return val : JsonM Int) d' := by
  obtain ⟨d₁, hpeek, hstring⟩ := peek_string h
  rw [int, bind_ok hpeek]
  exact bind_ok hstring

theorem uint_string {D : Type} {dbl : Doubles D} {type : CType} (h : string d = .ok (str, d')) :
    uint dbl type d = (do
      let val ← strtouint64 str
      if type = .uint32 ∧ val > 2 ^ 32 - 1 then err "Integer out of range." else return val : JsonM Nat) d' := by
  obtain ⟨d₁, hpeek, hstring⟩ := peek_string h
  rw [uint, bind_ok hpeek]
  exact bind_ok hstring

/-- A value is accepted if it passes a test. -/
theorem test_ok_iff {α : Type} {P : Prop} [Decidable P] {fmt : String} {a b : α} :
    (if P then err fmt else return a : JsonM α) d = .ok (b, d') ↔ (¬P ∧ b = a) ∧ d' = d := by
  split_ifs with h
  · simp [err, h]
  · exact ⟨by rintro ⟨⟩; exact ⟨⟨h, rfl⟩, rfl⟩, by rintro ⟨⟨-, rfl⟩, rfl⟩; rfl⟩

/-- The numbers that are read from a text. -/
def ReadAs (type : IntegerType) (str : List UInt8) (v : Int) : Prop :=
  ((∀ b ∈ str, isDigit b = true) ∧ v = value str) ∨
    (type.IsSigned ∧ ∃ ds, str = '-'.toUInt8 :: ds ∧ (∀ b ∈ ds, isDigit b = true) ∧ v = -value ds)

/-- **What is read from a string** is accepted if it is in the range of the type. -/
theorem integer_string {D : Type} {dbl : Doubles D} {type : IntegerType} {d'' : Jsondec}
    (h : string d = .ok (str, d')) :
    integer dbl type d = .ok (v, d'') ↔ (ReadAs type str v ∧ type.InRange v) ∧ d'' = d' := by
  have hsigned : ∀ (type : CType), int dbl type d = .ok (v, d'') ↔
      (((∃ ds, str = '-'.toUInt8 :: ds ∧ (∀ b ∈ ds, isDigit b = true) ∧ value ds ≤ 2 ^ 63 ∧ v = -value ds) ∨
        ((∀ b ∈ str, isDigit b = true) ∧ value str < 2 ^ 63 ∧ v = value str)) ∧
        ¬((type = .int32 ∨ type = .enum) ∧ (v > 2 ^ 31 - 1 ∨ v < -2 ^ 31))) ∧ d'' = d' := by
    intro type
    rw [int_string h, bind_ok_iff]
    constructor
    · rintro ⟨val, d₁, hval, htest⟩
      obtain ⟨⟨hin, rfl⟩, rfl⟩ := test_ok_iff.mp htest
      obtain ⟨hread, rfl⟩ := strtoint64_ok_iff.mp hval
      exact ⟨⟨hread, hin⟩, rfl⟩
    · rintro ⟨⟨hread, htest⟩, rfl⟩
      exact ⟨v, _, strtoint64_ok_iff.mpr ⟨hread, rfl⟩, test_ok_iff.mpr ⟨⟨htest, rfl⟩, rfl⟩⟩
  have hunsigned : ∀ (type : CType), (do return ((← uint dbl type : Nat) : Int) : JsonM Int) d = .ok (v, d'') ↔
      (((∀ b ∈ str, isDigit b = true) ∧ value str ≤ uint64Max ∧ v = value str) ∧
        ¬(type = .uint32 ∧ v > 2 ^ 32 - 1)) ∧ d'' = d' := by
    intro type
    rw [bind_ok_iff]
    constructor
    · rintro ⟨n, d₁, hn, hval⟩
      cases hval
      rw [uint_string h, bind_ok_iff] at hn
      obtain ⟨val, d₂, hval, htest⟩ := hn
      obtain ⟨⟨hin, rfl⟩, rfl⟩ := test_ok_iff.mp htest
      obtain ⟨⟨hall, hle, rfl⟩, rfl⟩ := strtouint64_ok_iff.mp hval
      exact ⟨⟨⟨hall, hle, rfl⟩, fun hover => hin ⟨hover.1, by omega⟩⟩, rfl⟩
    · rintro ⟨⟨⟨hall, hle, rfl⟩, htest⟩, rfl⟩
      refine ⟨value str, d'', ?_, rfl⟩
      rw [uint_string h, bind_ok_iff]
      exact ⟨_, _, strtouint64_ok_iff.mpr ⟨⟨hall, hle, rfl⟩, rfl⟩,
        test_ok_iff.mpr ⟨⟨fun hover => htest ⟨hover.1, by omega⟩, rfl⟩, rfl⟩⟩
  cases type with
  | int32 =>
    rw [integer, hsigned, and_congr_left_iff]
    simp only [ReadAs, IntegerType.IsSigned, IntegerType.InRange, IntegerType.cType, true_and, true_or]
    rintro -
    constructor
    · rintro ⟨⟨ds, hds, hall, -, rfl⟩ | ⟨hall, -, rfl⟩, hin⟩
      · exact ⟨.inr ⟨ds, hds, hall, rfl⟩, by omega⟩
      · exact ⟨.inl ⟨hall, rfl⟩, by omega⟩
    · rintro ⟨⟨hall, rfl⟩ | ⟨ds, hds, hall, rfl⟩, hin⟩
      · exact ⟨.inr ⟨hall, by omega, rfl⟩, by omega⟩
      · exact ⟨.inl ⟨ds, hds, hall, by omega, rfl⟩, by omega⟩
  | int64 =>
    rw [integer, hsigned, and_congr_left_iff]
    simp only [ReadAs, IntegerType.IsSigned, IntegerType.InRange, IntegerType.cType, true_and, reduceCtorEq, or_self,
      false_and, not_false_eq_true, and_true]
    rintro -
    constructor
    · rintro (⟨ds, hds, hall, hle, rfl⟩ | ⟨hall, hle, rfl⟩)
      · exact ⟨.inr ⟨ds, hds, hall, rfl⟩, by omega⟩
      · exact ⟨.inl ⟨hall, rfl⟩, by omega⟩
    · rintro ⟨⟨hall, rfl⟩ | ⟨ds, hds, hall, rfl⟩, hin⟩
      · exact .inr ⟨hall, by omega, rfl⟩
      · exact .inl ⟨ds, hds, hall, by omega, rfl⟩
  | uint32 =>
    rw [integer, hunsigned, and_congr_left_iff]
    simp only [ReadAs, IntegerType.IsSigned, IntegerType.InRange, IntegerType.cType, true_and, false_and, or_false,
      uint64Max]
    rintro -
    constructor
    · rintro ⟨⟨hall, -, rfl⟩, hin⟩
      exact ⟨⟨hall, rfl⟩, by omega⟩
    · rintro ⟨⟨hall, rfl⟩, hin⟩
      exact ⟨⟨hall, by omega, rfl⟩, by omega⟩
  | uint64 =>
    rw [integer, hunsigned, and_congr_left_iff]
    simp only [ReadAs, IntegerType.IsSigned, IntegerType.InRange, IntegerType.cType, false_and, or_false,
      uint64Max, reduceCtorEq, not_false_eq_true, and_true]
    rintro -
    constructor
    · rintro ⟨hall, hle, rfl⟩
      exact ⟨⟨hall, rfl⟩, by omega⟩
    · rintro ⟨⟨hall, rfl⟩, hin⟩
      exact ⟨hall, by omega, rfl⟩

theorem foldl_push_eq_zero {ds : List UInt8} {a : Nat} :
    ds.foldl Decimal.push a = 0 ↔ a = 0 ∧ ∀ b ∈ ds, Decimal.digitVal b = 0 := by
  induction ds generalizing a with
  | nil => simp
  | cons b ds ih =>
    rw [List.foldl_cons, ih, List.forall_mem_cons, Decimal.push, and_assoc.symm]
    refine and_congr_left fun _ => ?_
    omega

/-- The number is zero if every digit is. -/
theorem value_eq_zero_iff {ds : List UInt8} (hds : ∀ b ∈ ds, isDigit b = true) :
    value ds = 0 ↔ ∀ b ∈ ds, b = '0'.toUInt8 := by
  have hzero : ∀ b, isDigit b = true → (Decimal.digitVal b = 0 ↔ b = '0'.toUInt8) := by
    intro b hb
    simp only [isDigit, Bool.and_eq_true, decide_eq_true_eq, UInt8.le_iff_toNat_le] at hb
    rw [Decimal.digitVal, ← UInt8.toNat_inj]
    have hlow : 48 ≤ b.toNat := hb.1
    change b.toNat - 48 = 0 ↔ b.toNat = 48
    omega
  rw [value, foldl_push_eq_zero]
  exact ⟨fun h b hb => (hzero b (hds b hb)).mp (h.2 b hb), fun h => ⟨rfl, fun b hb => (hzero b (hds b hb)).mpr (h b hb)⟩⟩

theorem zero_inRange (type : IntegerType) : type.InRange 0 := by
  cases type <;> simp [IntegerType.InRange]

theorem numeral_iff : Numeral str v ↔ (str ≠ [] ∧ (∀ b ∈ str, isDigit b = true) ∧ v = value str) ∨
    ∃ ds, str = '-'.toUInt8 :: ds ∧ ds ≠ [] ∧ (∀ b ∈ ds, isDigit b = true) ∧ v = -value ds := by
  constructor
  · intro h
    cases h with
    | natural hne hds => exact .inl ⟨hne, hds, rfl⟩
    | negative hne hds => exact .inr ⟨_, rfl, hne, hds, rfl⟩
  · rintro (⟨hne, hds, rfl⟩ | ⟨ds, rfl, hne, hds, rfl⟩)
    · exact .natural hne hds
    · exact .negative hne hds

theorem quotedRight_iff {type : IntegerType} :
    QuotedRight type str ↔ ∀ v, type.InRange v → (ReadAs type str v ↔ Numeral str v) := by
  constructor
  · intro hright v hin
    obtain ⟨d', hstring, -⟩ := string_roundTrip str [] { rest := [] }
    let dbl : Doubles Unit := ⟨fun _ => (), fun _ => false, fun _ => 0⟩
    have hiff := hright dbl _ d' hstring v d'
    rw [integer_string hstring] at hiff
    simpa only [and_true, hin] using hiff
  · intro h D dbl d d' hstring v d''
    rw [integer_string hstring, and_congr_left_iff]
    exact fun _ => and_congr_left (h v)

/-- **A quoted integer is read right if and only if its text is sound**, and there is an overflow if and only if the
digits in front do not fit. -/
theorem quoted_right_iff (type : IntegerType) (str bs : List UInt8) :
    (bufToUint64 bs = none ↔ uint64Max < value (bs.takeWhile isDigit)) ∧
    (bufToInt64 bs = none ↔ if bs.head? = some '-'.toUInt8 then 2 ^ 63 < value (bs.tail.takeWhile isDigit)
      else 2 ^ 63 - 1 < value (bs.takeWhile isDigit)) ∧
    (QuotedRight type str ↔ QuotedSound type str) := by
  refine ⟨by simp [bufToUint64_eq], ?_, quotedRight_iff.trans ?_⟩
  · by_cases h : bs.head? = some '-'.toUInt8
    · obtain ⟨ds, rfl⟩ := List.head?_eq_some_iff.mp h
      simp [bufToInt64_minus]
    · rw [if_neg h, bufToInt64_digits h, ite_eq_right_iff]
      simp only [reduceCtorEq, imp_false]
      omega
  have hminus : ∀ ds, ¬∀ b ∈ '-'.toUInt8 :: ds, isDigit b = true := fun ds h =>
    absurd (h _ List.mem_cons_self) (by decide)
  constructor
  · intro h
    have hzero := h 0 (zero_inRange type)
    rw [numeral_iff, ReadAs] at hzero
    refine ⟨?_, ?_, ?_⟩
    · rintro rfl
      obtain ⟨hne, -⟩ | ⟨ds, hds, -⟩ := hzero.mp (.inl ⟨by simp, rfl⟩)
      · exact hne rfl
      · cases hds
    · rintro hsigned rfl
      obtain ⟨-, hall, -⟩ | ⟨ds, hds, hne, -⟩ := hzero.mp (.inr ⟨hsigned, [], rfl, by simp, rfl⟩)
      · exact hminus [] hall
      · exact hne (List.cons.inj hds).2.symm
    · rintro hunsigned zeros rfl hne
      by_contra hall
      push Not at hall
      have hdigits : ∀ b ∈ zeros, isDigit b = true := fun b hb => by
        rw [hall b hb]
        decide
      have hvalue : (0 : Int) = -value zeros := by
        rw [(value_eq_zero_iff hdigits).mpr hall]
        rfl
      obtain ⟨hall', -⟩ | ⟨hsigned, -⟩ := hzero.mpr (.inr ⟨zeros, rfl, hne, hdigits, hvalue⟩)
      · exact hminus zeros hall'
      · exact hunsigned hsigned
  · rintro ⟨hne, hsigned, hunsigned⟩ v hin
    rw [numeral_iff, ReadAs]
    constructor
    · rintro (⟨hall, rfl⟩ | ⟨hs, ds, rfl, hall, rfl⟩)
      · exact .inl ⟨hne, hall, rfl⟩
      · exact .inr ⟨ds, rfl, fun h => hsigned hs (h ▸ rfl), hall, rfl⟩
    · rintro (⟨-, hall, rfl⟩ | ⟨ds, rfl, hds, hall, rfl⟩)
      · exact .inl ⟨hall, rfl⟩
      · by_cases hs : type.IsSigned
        · exact .inr ⟨hs, ds, rfl, hall, rfl⟩
        · obtain ⟨b, hb, hb'⟩ := hunsigned hs ds rfl hds
          have hvalue : value ds = 0 := by
            cases type with
            | int32 | int64 => exact absurd trivial hs
            | uint32 | uint64 =>
              have hin := hin.1
              omega
          exact absurd ((value_eq_zero_iff hall).mp hvalue b hb) hb'

/-- The empty string is read as zero. -/
theorem not_quoted_right : ¬∀ type str, QuotedRight type str := by
  intro h
  have hzero := (quotedRight_iff.mp (h .int32 [])) 0 (zero_inRange .int32)
  rw [numeral_iff, ReadAs] at hzero
  obtain ⟨hne, -⟩ | ⟨ds, hds, -⟩ := hzero.mp (.inl ⟨by simp, rfl⟩)
  · exact hne rfl
  · cases hds

end Quoted

end Jsondec

end Hpb
