import Mathlib.Data.UInt
import Hpb.Io.TokenText

/-!
# Integers (`hpb_Parse_Integer`)

`hpb_Parse_Integer` reads the text of an integer, in base 8, 10 or 16. A text ends before its first zero byte, so it
is a list of bytes here that has none.

* `numeral_bound`: a numeral is at least each of its prefixes,
* `restDigits_eq`: the loop stops if and only if the number does not fit `uint64_t`,
* `parseInteger_exact`: what is returned for the text of an integer.
-/

namespace Hpb

namespace Tokenizer

/-- The base of a text, and its digits. -/
def splitBase (text : List UInt8) : Nat × List UInt8 :=
  if text.head? = some '0'.toUInt8 then
    if text[1]? = some 'x'.toUInt8 ∨ text[1]? = some 'X'.toUInt8 then (16, text.drop 2)
    else (8, text)
  else (10, text)

/-- The first loop: the zeros in front and the first digit that is not zero. -/
def leadingDigit (base : Nat) : List UInt8 → Option (UInt64 × List UInt8)
  | [] => some (0, [])
  | c :: cs =>
    let digit := digitValue c
    if base ≤ digit then none
    else if digit ≠ 0 then some (UInt64.ofNat digit, cs)
    else leadingDigit base cs

/-- `overflow_if_mul_base`. -/
def overflowIfMulBase (base : Nat) : UInt64 := UInt64.ofNat ((2 ^ 64 - 1) / base + 1)

/-- The second loop. -/
def restDigits (base : Nat) (result : UInt64) : List UInt8 → Option UInt64
  | [] => some result
  | c :: cs =>
    let digit := digitValue c
    if base ≤ digit then none
    else if overflowIfMulBase base ≤ result then none
    else
      let result := result * UInt64.ofNat base + UInt64.ofNat digit
      if result < UInt64.ofNat base then none
      else restDigits base result cs

/-- `hpb_Parse_Integer`; `none` is the `false` result. -/
def parseInteger (text : List UInt8) (maxValue : UInt64) : Option UInt64 := do
  let (base, ds) := splitBase text
  let (result, ds) ← leadingDigit base ds
  let result ← restDigits base result ds
  if maxValue < result then none else some result

end Tokenizer

open Tokenizer

/-- The number of more digits after a number. -/
def pushDigits (base : Nat) (v : Nat) (ds : List UInt8) : Nat := ds.foldl (fun v d => v * base + digitValue d) v

theorem numeral_eq (base : Nat) (ds : List UInt8) : numeral base ds = pushDigits base 0 ds := by
  rw [numeral, Nat.ofDigits_eq_foldr, List.map_reverse, List.foldr_reverse, List.foldl_map, pushDigits]
  congr 1
  funext v d
  rw [Nat.mul_comm, Nat.add_comm]
  rfl

/-- More digits do not make a number smaller. -/
theorem le_pushDigits {base : Nat} (hbase : 0 < base) (v : Nat) (ds : List UInt8) : v ≤ pushDigits base v ds := by
  induction ds generalizing v with
  | nil => exact Nat.le_refl v
  | cons d ds ih =>
    refine Nat.le_trans ?_ (ih (v * base + digitValue d))
    exact Nat.le_trans (Nat.le_mul_of_pos_right v hbase) (Nat.le_add_right _ _)

theorem toNat_ofNat {n : Nat} (h : n < 2 ^ 64) : (UInt64.ofNat n).toNat = n := UInt64.toNat_ofNat_of_lt' h

section Loop

variable {base : Nat} {ds : List UInt8}

/-- A round of the second loop. -/
theorem restDigits_cons (hbase : 2 ≤ base) (hsmall : base ≤ 16) {result : UInt64} (hpos : 0 < result.toNat) {c : UInt8}
    (hc : digitValue c < base) : restDigits base result (c :: ds) =
      if result.toNat * base + digitValue c < 2 ^ 64 then
        restDigits base (UInt64.ofNat (result.toNat * base + digitValue c)) ds
      else none := by
  have hmul : base ≤ result.toNat * base := Nat.le_mul_of_pos_left base hpos
  have hover : (overflowIfMulBase base).toNat = (2 ^ 64 - 1) / base + 1 := by
    have : (2 ^ 64 - 1) / base ≤ (2 ^ 64 - 1) / 2 := Nat.div_le_div_left hbase (by decide)
    exact toNat_ofNat (by omega)
  have hfits : overflowIfMulBase base ≤ result ↔ 2 ^ 64 ≤ result.toNat * base := by
    rw [UInt64.le_iff_toNat_le, hover, Nat.succ_le_iff, Nat.div_lt_iff_lt_mul (by omega)]
    omega
  have hnext : (result * UInt64.ofNat base + UInt64.ofNat (digitValue c)).toNat =
      (result.toNat * base + digitValue c) % 2 ^ 64 := by
    simp
  rw [restDigits]
  dsimp only
  rw [if_neg (by omega)]
  by_cases hlarge : 2 ^ 64 ≤ result.toNat * base
  · rw [if_pos (hfits.mpr hlarge), if_neg (by omega)]
  · rw [if_neg (fun h => hlarge (hfits.mp h))]
    have hlt : result * UInt64.ofNat base + UInt64.ofNat (digitValue c) < UInt64.ofNat base ↔
        ¬result.toNat * base + digitValue c < 2 ^ 64 := by
      rw [UInt64.lt_iff_toNat_lt, hnext, toNat_ofNat (by omega : base < 2 ^ 64)]
      omega
    by_cases hsum : result.toNat * base + digitValue c < 2 ^ 64
    · rw [if_neg (fun h => hlt.mp h hsum), if_pos hsum]
      congr 1
      exact UInt64.toNat_inj.mp (hnext.trans (by simp))
    · rw [if_pos (hlt.mpr hsum), if_neg hsum]

/-- **The second loop** stops if and only if the number does not fit. -/
theorem restDigits_eq (hbase : 2 ≤ base) (hsmall : base ≤ 16) (hds : ∀ d ∈ ds, digitValue d < base) {v : Nat}
    (hpos : 0 < v) (hv : v < 2 ^ 64) : restDigits base (UInt64.ofNat v) ds =
      if pushDigits base v ds < 2 ^ 64 then some (UInt64.ofNat (pushDigits base v ds)) else none := by
  induction ds generalizing v with
  | nil => exact (if_pos hv).symm
  | cons c ds ih =>
    obtain ⟨hc, hds⟩ := List.forall_mem_cons.mp hds
    have hval : (UInt64.ofNat v).toNat = v := toNat_ofNat hv
    rw [restDigits_cons hbase hsmall (by omega) hc, hval]
    have hle := le_pushDigits (by omega : 0 < base) (v * base + digitValue c) ds
    change _ = if pushDigits base (v * base + digitValue c) ds < _ then _ else _
    split
    next hfit =>
      have : v ≤ v * base := Nat.le_mul_of_pos_right v (by omega)
      exact ih hds (by omega) hfit
    next hfit => exact (if_neg (by omega)).symm

/-- Both loops. -/
theorem digits_eq (hbase : 2 ≤ base) (hsmall : base ≤ 16) (hds : ∀ d ∈ ds, digitValue d < base) :
    ((leadingDigit base ds).bind fun r => restDigits base r.1 r.2) =
      if numeral base ds < 2 ^ 64 then some (UInt64.ofNat (numeral base ds)) else none := by
  rw [numeral_eq]
  induction ds with
  | nil => rfl
  | cons c ds ih =>
    obtain ⟨hc, hds⟩ := List.forall_mem_cons.mp hds
    have hpush : pushDigits base 0 (c :: ds) = pushDigits base (digitValue c) ds := by
      rw [pushDigits, List.foldl_cons, Nat.zero_mul, Nat.zero_add]
      rfl
    rw [leadingDigit, hpush]
    rw [if_neg (by omega)]
    by_cases hzero : digitValue c = 0
    · rw [if_neg (by omega), hzero]
      exact ih hds
    · rw [if_pos hzero]
      exact restDigits_eq hbase hsmall hds (by omega) (by omega)

/-- A text whose base and digits are known. -/
theorem parseInteger_eq {text : List UInt8} (hsplit : splitBase text = (base, ds)) (hbase : 2 ≤ base)
    (hsmall : base ≤ 16) (hds : ∀ d ∈ ds, digitValue d < base) (maxValue : UInt64) : parseInteger text maxValue =
      if numeral base ds ≤ maxValue.toNat then some (UInt64.ofNat (numeral base ds)) else none := by
  have hmax := maxValue.toNat_lt
  have hloops := digits_eq hbase hsmall hds
  rw [parseInteger, hsplit]
  change (((leadingDigit base ds).bind fun r => (restDigits base r.1 r.2).bind fun result =>
    if maxValue < result then none else some result)) = _
  rw [← Option.bind_assoc, hloops]
  by_cases hfit : numeral base ds < 2 ^ 64
  · rw [if_pos hfit, Option.bind_some]
    have hlt : maxValue < UInt64.ofNat (numeral base ds) ↔ ¬numeral base ds ≤ maxValue.toNat := by
      rw [UInt64.lt_iff_toNat_lt, toNat_ofNat hfit, Nat.not_le]
    by_cases hle : numeral base ds ≤ maxValue.toNat
    · rw [if_neg (fun h => hlt.mp h hle), if_pos hle]
    · rw [if_pos (hlt.mpr hle), if_neg hle]
  · rw [if_neg hfit, if_neg (by omega)]
    rfl

end Loop

/-- The digits of a base are below it. -/
theorem digitValue_lt (d : UInt8) : (isHexDigit d = true → digitValue d < 16) ∧
    (isOctalDigit d = true → digitValue d < 8) ∧ (isDigit d = true → digitValue d < 10) := by
  have hall : ∀ n < 256, (isHexDigit (UInt8.ofNat n) = true → digitValue (UInt8.ofNat n) < 16) ∧
      (isOctalDigit (UInt8.ofNat n) = true → digitValue (UInt8.ofNat n) < 8) ∧
      (isDigit (UInt8.ofNat n) = true → digitValue (UInt8.ofNat n) < 10) := by decide +kernel
  have hd := hall d.toNat d.toNat_lt
  rwa [UInt8.ofNat_toNat] at hd

/-- **The text of an integer is read**, at any length, if and only if the integer is at most the maximum. -/
theorem IntegerText.parseInteger {text : List UInt8} {v : Nat} (h : IntegerText text v) (maxValue : UInt64) :
    parseInteger text maxValue = if v ≤ maxValue.toNat then some (UInt64.ofNat v) else none := by
  cases h with
  | @hex x ds hx hne hds =>
    refine parseInteger_eq ?_ (by decide) (by decide) (fun d hd => (digitValue_lt d).1 (hds d hd)) maxValue
    obtain rfl | rfl := hx <;> rfl
  | @octal ds hds =>
    have hzero : numeral 8 ('0'.toUInt8 :: ds) = numeral 8 ds := by
      rw [numeral_eq, numeral_eq, pushDigits, List.foldl_cons]
      rfl
    rw [← hzero]
    refine parseInteger_eq ?_ (by decide) (by decide) ?_ maxValue
    · rw [splitBase, if_pos List.head?_cons, if_neg]
      cases ds with
      | nil => decide
      | cons d ds =>
        rintro (hx | hx)
        all_goals
          have hd := hds d List.mem_cons_self
          rw [Option.some.inj hx] at hd
          exact absurd hd (by decide)
    · exact List.forall_mem_cons.mpr ⟨by decide, fun d hd => (digitValue_lt d).2.1 (hds d hd)⟩
  | @decimal d ds hd hzero hds =>
    refine parseInteger_eq ?_ (by decide) (by decide) ?_ maxValue
    · rw [splitBase, if_neg]
      exact fun h => hzero (Option.some.inj h)
    · exact List.forall_mem_cons.mpr ⟨(digitValue_lt d).2.2 hd, fun d hd => (digitValue_lt d).2.2 (hds d hd)⟩

/-- **`hpb_Parse_Integer` is exact**: for the text of an integer it returns the integer if that is at most the maximum,
and false otherwise. The integers that the tokenizer returns have such texts. -/
theorem parseInteger_exact :
    (∀ (text : List UInt8) (v : Nat), IntegerText text v → ∀ maxValue : UInt64,
      Tokenizer.parseInteger text maxValue = if v ≤ maxValue.toNat then some (UInt64.ofNat v) else none) ∧
    ∀ (opts : TokenizerOptions) (chunks : List (List UInt8)), (∀ c ∈ chunks, c ≠ []) → chunks.flatten.length < 2 ^ 64 →
      (∀ c ∈ chunks, c.length ≤ 2 ^ 31) ∨ TextsFit opts chunks.flatten →
      ∀ x ∈ (tokenize opts chunks).1, x.1.type = .integer → ∃ v, IntegerText x.2 v :=
  ⟨fun _ _ h maxValue => h.parseInteger maxValue, fun opts _ hne hsize h x hx htype =>
    (text_of_tokenize opts hne hsize h x hx).1 htype⟩

/-- The text `0x1F`, and the token of the same text. -/
theorem parseInteger_exact_hex : Tokenizer.parseInteger [48, 120, 49, 70] 31 = some 31 ∧
    ∃ v, IntegerText [48, 120, 49, 70] v := by
  obtain ⟨hread, htoken⟩ := parseInteger_exact
  have htext : IntegerText [48, 120, 49, 70] 31 := .hex (.inl rfl) (List.cons_ne_nil _ _)
    (List.all_eq_true.mp (by decide))
  refine ⟨(hread _ 31 htext 31).trans rfl, ?_⟩
  exact htoken ⟨false, false, false, false⟩ [[48, 120], [49, 70]] (by decide) (by decide) (.inl (by decide))
    (⟨.integer, 0, 0, 4, none⟩, [48, 120, 49, 70]) (by decide) rfl

end Hpb
