import Hpb.Io.ParseInteger
import Hpb.Json.StringToken

/-!
# Strings (`hpb_Parse_String`)

`hpb_Parse_String` reads the text of a string. The escapes were validated by `ConsumeString`; the branches of the
reader for texts that are no string are recorded as fallbacks.

* `Pieces`: what the characters and escapes of a text denote,
* `Pieces.unique`: they denote one thing,
* `parseFrom_eq`: what the reader does with the text of a string,
* `parseString_denotes`: it returns what the text denotes, and takes no fallback but for code points above `0x10ffff`.
-/

namespace Hpb

namespace Tokenizer

/-- The branches of `hpb_Parse_String` for texts that `ConsumeString` does not let through, or should not. -/
inductive Fallback where
  /-- The text is empty. -/
  | empty
  /-- `FetchUnicodePoint` fails. -/
  | notFetched
  /-- `_hpb_Unicode_ToUTF8` writes nothing. -/
  | outOfRange
  /-- `TranslateEscape` does not know the escape. -/
  | unknownEscape
  deriving DecidableEq, Repr

/-- The output of `hpb_Parse_String`, and the fallbacks that it took. -/
structure Parsed where
  output : List UInt8
  fallbacks : List Fallback
  deriving DecidableEq, Repr

/-- One output after another. -/
def Parsed.append (a b : Parsed) : Parsed := ⟨a.output ++ b.output, a.fallbacks ++ b.fallbacks⟩

/-- The escapes that `TranslateEscape` knows. -/
def translateEscape : UInt8 → Option UInt8
  | 97 => some 7
  | 98 => some 8
  | 102 => some 12
  | 110 => some 10
  | 114 => some 13
  | 116 => some 9
  | 118 => some 11
  | 92 => some 92
  | 63 => some 63
  | 39 => some 39
  | 34 => some 34
  | _ => none

/-- One more digit of an escape, if there is one. -/
def moreDigit (p : UInt8 → Bool) (base : Nat) : Nat × List UInt8 → Nat × List UInt8
  | (code, c :: cs) => if p c then (code * base + digitValue c, cs) else (code, c :: cs)
  | (code, []) => (code, [])

/-- The loop of `ReadHexDigits`, with `n` digits to go. -/
def readHexFrom (result : Nat) : Nat → List UInt8 → Option Nat
  | 0, _ => some result
  | _ + 1, [] => none
  | n + 1, c :: cs => readHexFrom ((result * 16 + digitValue c) % 2 ^ 32) n cs

/-- `ReadHexDigits`. -/
def readHexDigits (len : Nat) (ptr : List UInt8) : Option Nat := if len = 0 then none else readHexFrom 0 len ptr

/-- `UnicodeLength`. -/
def unicodeLength (key : UInt8) : Nat := if key = 'u'.toUInt8 then 4 else if key = 'U'.toUInt8 then 8 else 0

/-- `FetchUnicodePoint`: the code point and what is behind it. -/
def fetchUnicodePoint (key : UInt8) (p : List UInt8) : Option (Nat × List UInt8) :=
  match readHexDigits (unicodeLength key) p with
  | none => none
  | some codePoint =>
    let p := p.drop (unicodeLength key)
    if Unicode.isHigh codePoint ∧ p.take 2 = [92, 'u'.toUInt8] then
      match readHexDigits 4 (p.drop 2) with
      | some trailSurrogate =>
        if Unicode.isLow trailSurrogate then some (Unicode.fromPair codePoint trailSurrogate, p.drop 6)
        else some (codePoint, p)
      | none => some (codePoint, p)
    else some (codePoint, p)

/-- A number in eight hexadecimal digits, as `%08x` prints it. -/
def hex8 (n : Nat) : List UInt8 :=
  (List.range 8).reverse.map fun i =>
    let d := n / 16 ^ i % 16
    UInt8.ofNat (if d < 10 then 48 + d else 87 + d)

/-- `AppendUTF8`. -/
def appendUTF8 (codePoint : Nat) : Parsed :=
  match Unicode.toUTF8 codePoint with
  | [] => ⟨92 :: 'U'.toUInt8 :: hex8 codePoint, [.outOfRange]⟩
  | bytes => ⟨bytes, []⟩

/-- An escape, whose backslash is read: what is appended, and what is behind it. -/
def parseEscape (e : UInt8) (ptr : List UInt8) : Parsed × List UInt8 :=
  if isOctalDigit e then
    let (code, ptr) := moreDigit isOctalDigit 8 (moreDigit isOctalDigit 8 (digitValue e, ptr))
    (⟨[UInt8.ofNat code], []⟩, ptr)
  else if e = 'x'.toUInt8 then
    let (code, ptr) := moreDigit isHexDigit 16 (moreDigit isHexDigit 16 (0, ptr))
    (⟨[UInt8.ofNat code], []⟩, ptr)
  else if e = 'u'.toUInt8 ∨ e = 'U'.toUInt8 then
    match fetchUnicodePoint e ptr with
    | none => (⟨[e], [.notFetched]⟩, ptr)
    | some (unicode, ptr) => (appendUTF8 unicode, ptr)
  else
    match translateEscape e with
    | some c => (⟨[c], []⟩, ptr)
    | none => (⟨['?'.toUInt8], [.unknownEscape]⟩, ptr)

/-- The loop of `hpb_Parse_String`. Each round reads a character, so as much fuel as there are characters is enough. -/
def parseFrom (delimiter : UInt8) : Nat → List UInt8 → Parsed
  | 0, _ => ⟨[], []⟩
  | _ + 1, [] => ⟨[], []⟩
  | fuel + 1, c :: ptr =>
    match c == 92, ptr with
    | true, e :: ptr =>
      let (piece, ptr) := parseEscape e ptr
      piece.append (parseFrom delimiter fuel ptr)
    | _, ptr =>
      if c = delimiter ∧ ptr = [] then parseFrom delimiter fuel ptr
      else Parsed.append ⟨[c], []⟩ (parseFrom delimiter fuel ptr)

/-- `hpb_Parse_String`. -/
def parseString : List UInt8 → Parsed
  | [] => ⟨[], [.empty]⟩
  | delimiter :: ptr => parseFrom delimiter ptr.length ptr

end Tokenizer

open Tokenizer

/-! ### What a text denotes -/

/-- What a character or an escape denotes. -/
inductive StringPiece where
  | byte (c : UInt8)
  | number (value : Nat)
  | point (codePoint : Nat)
  deriving DecidableEq, Repr

/-- The bytes of a code point: its UTF-8 encoding, with a lone surrogate in three bytes as other numbers of its size,
and a text for what is no code point. -/
def pointBytes (codePoint : Nat) : List UInt8 :=
  if codePoint.isValidChar then String.utf8EncodeChar (Char.ofNat codePoint)
  else if codePoint ≤ 0x10ffff then
    [UInt8.ofNat (0xe0 + codePoint / 4096), UInt8.ofNat (0x80 + codePoint / 64 % 64), UInt8.ofNat (0x80 + codePoint % 64)]
  else 92 :: 'U'.toUInt8 :: hex8 codePoint

namespace StringPiece

/-- The bytes of a piece, a number modulo 256. -/
def bytes : StringPiece → List UInt8
  | byte c => [c]
  | number value => [UInt8.ofNat value]
  | point codePoint => pointBytes codePoint

/-- A number that is no code point. -/
def fallbacks : StringPiece → List Fallback
  | point codePoint => if 0x10ffff < codePoint then [.outOfRange] else []
  | _ => []

end StringPiece

/-- The text starts with no character of a class. -/
def EndsAt (p : UInt8 → Bool) (rest : List UInt8) : Prop := ∀ c ∈ rest.head?, p c = false

/-- The digits of an escape of a code point. -/
structure PointDigits (key : UInt8) (ds : List UInt8) : Prop where
  length : key = 'u'.toUInt8 ∧ ds.length = 4 ∨ key = 'U'.toUInt8 ∧ ds.length = 8
  digits : ∀ d ∈ ds, isHexDigit d = true

/-- The text starts with a `\u` escape of a tail surrogate. -/
def TailAhead (rest : List UInt8) : Prop :=
  ∃ low rest' : List UInt8, rest = 92 :: 'u'.toUInt8 :: (low ++ rest') ∧ PointDigits 'u'.toUInt8 low ∧
    Unicode.isLow (numeral 16 low) = true

/-- The text after a backslash starts with an escape for a piece, and goes on with `rest`. -/
inductive EscapeOf : List UInt8 → StringPiece → List UInt8 → Prop where
  | simple {e c : UInt8} {rest : List UInt8} (he : translateEscape e = some c) : EscapeOf (e :: rest) (.byte c) rest
  | octal {ds rest : List UInt8} (hne : ds ≠ []) (hlen : ds.length ≤ 3) (hds : ∀ d ∈ ds, isOctalDigit d = true)
      (hend : EndsAt isOctalDigit rest ∨ ds.length = 3) : EscapeOf (ds ++ rest) (.number (numeral 8 ds)) rest
  | hex {ds rest : List UInt8} (hne : ds ≠ []) (hlen : ds.length ≤ 2) (hds : ∀ d ∈ ds, isHexDigit d = true)
      (hend : EndsAt isHexDigit rest ∨ ds.length = 2) :
      EscapeOf ('x'.toUInt8 :: (ds ++ rest)) (.number (numeral 16 ds)) rest
  | point {key : UInt8} {ds rest : List UInt8} (hds : PointDigits key ds)
      (hsingle : Unicode.isHigh (numeral 16 ds) = true → ¬TailAhead rest) :
      EscapeOf (key :: (ds ++ rest)) (.point (numeral 16 ds)) rest
  | pair {key : UInt8} {ds low rest : List UInt8} (hds : PointDigits key ds)
      (hhigh : Unicode.isHigh (numeral 16 ds) = true) (hlow : PointDigits 'u'.toUInt8 low)
      (hislow : Unicode.isLow (numeral 16 low) = true) :
      EscapeOf (key :: (ds ++ 92 :: 'u'.toUInt8 :: (low ++ rest)))
        (.point (0x10000 + (numeral 16 ds - 0xd800) * 0x400 + (numeral 16 low - 0xdc00))) rest

/-- **What the characters and escapes of a text denote.** -/
inductive Pieces : List UInt8 → List StringPiece → Prop where
  | nil : Pieces [] []
  | char {c : UInt8} {bs : List UInt8} {ps : List StringPiece} (hc : c ≠ 92) (h : Pieces bs ps) :
      Pieces (c :: bs) (.byte c :: ps)
  | escape {p : StringPiece} {bs rest : List UInt8} {ps : List StringPiece} (he : EscapeOf bs p rest)
      (h : Pieces rest ps) : Pieces (92 :: bs) (p :: ps)

section Unique

variable {bs rest rest' : List UInt8} {p p' : StringPiece} {e key : UInt8} {ds ds' : List UInt8}

/-- What is read behind an escape is shorter. -/
theorem EscapeOf.length_lt (h : EscapeOf bs p rest) : rest.length < bs.length := by
  cases h with
  | simple he => exact Nat.lt_succ_self _
  | octal hne =>
    have := List.length_pos_iff.mpr hne
    rw [List.length_append]
    omega
  | hex hne =>
    rw [List.length_cons, List.length_append]
    omega
  | point hds =>
    rw [List.length_cons, List.length_append]
    omega
  | pair hds =>
    simp only [List.length_cons, List.length_append]
    omega

/-- Digits of which there are as many as can be. -/
theorem digits_eq_of_append {q : UInt8 → Bool} {n : Nat} (hds : ∀ d ∈ ds, q d = true) (hds' : ∀ d ∈ ds', q d = true)
    (hlen : ds.length ≤ n) (hlen' : ds'.length ≤ n) (hend : EndsAt q rest ∨ ds.length = n)
    (hend' : EndsAt q rest' ∨ ds'.length = n) (h : ds ++ rest = ds' ++ rest') : ds = ds' ∧ rest = rest' := by
  have hone : ∀ {ds ds' rest rest' : List UInt8}, (∀ d ∈ ds', q d = true) → ds'.length ≤ n →
      EndsAt q rest ∨ ds.length = n → (∃ t, ds' = ds ++ t ∧ rest = t ++ rest') → ds = ds' ∧ rest = rest' := by
    rintro ds ds' rest rest' hds' hlen' hend ⟨t, rfl, rfl⟩
    cases t with
    | nil => simp
    | cons d t =>
      obtain hend | hend := hend
      · have hd := hds' d (by simp)
        rw [hend d rfl] at hd
        cases hd
      · rw [List.length_append, List.length_cons] at hlen'
        omega
  obtain ht | ht := List.append_eq_append_iff.mp h
  · exact hone hds' hlen' hend ht
  · obtain ⟨h₁, h₂⟩ := hone hds hlen hend' ht
    exact ⟨h₁.symm, h₂.symm⟩

/-- The letters of escapes that have no digits are none of the others. -/
theorem translateEscape_ne {c : UInt8} (h : translateEscape e = some c) :
    isOctalDigit e = false ∧ e ≠ 'x'.toUInt8 ∧ e ≠ 'u'.toUInt8 ∧ e ≠ 'U'.toUInt8 := by
  have hall : ∀ n < 256, translateEscape (UInt8.ofNat n) ≠ none → isOctalDigit (UInt8.ofNat n) = false ∧
      UInt8.ofNat n ≠ 'x'.toUInt8 ∧ UInt8.ofNat n ≠ 'u'.toUInt8 ∧ UInt8.ofNat n ≠ 'U'.toUInt8 := by decide +kernel
  have he := hall e.toNat e.toNat_lt
  rw [UInt8.ofNat_toNat, h] at he
  exact he nofun

theorem PointDigits.letter (h : PointDigits key ds) : key = 'u'.toUInt8 ∨ key = 'U'.toUInt8 :=
  h.length.imp And.left And.left

/-- The number of digits is known from the letter. -/
theorem PointDigits.append_inj (h : PointDigits key ds) (h' : PointDigits key ds') (heq : ds ++ rest = ds' ++ rest') :
    ds = ds' ∧ rest = rest' := by
  refine List.append_inj heq ?_
  obtain ⟨rfl, hlen⟩ | ⟨rfl, hlen⟩ := h.length <;> obtain ⟨hkey, hlen'⟩ | ⟨hkey, hlen'⟩ := h'.length
  · exact hlen.trans hlen'.symm
  · cases hkey
  · cases hkey
  · exact hlen.trans hlen'.symm

theorem octal_head (hne : ds ≠ []) (hds : ∀ d ∈ ds, isOctalDigit d = true) (h : e :: rest' = ds ++ rest) :
    isOctalDigit e = true := by
  obtain ⟨d, ds, rfl⟩ := List.exists_cons_of_ne_nil hne
  cases h
  exact hds e List.mem_cons_self

theorem not_octal_key (h : PointDigits key ds) : isOctalDigit key = false ∧ key ≠ 'x'.toUInt8 := by
  obtain rfl | rfl := h.letter <;> decide

/-- A text starts with one escape at most. -/
theorem EscapeOf.unique (h : EscapeOf bs p rest) (h' : EscapeOf bs p' rest') : p = p' ∧ rest = rest' := by
  cases h with
  | @simple e c _ he =>
    obtain ⟨hoctal, hx, hu, hU⟩ := translateEscape_ne he
    have hkey : ∀ {key : UInt8} {ds : List UInt8}, PointDigits key ds → e ≠ key := by
      rintro key ds hds rfl
      exact hds.letter.elim hu hU
    generalize hs : e :: rest = s at h'
    cases h' with
    | simple he' =>
      cases hs
      cases he.symm.trans he'
      exact ⟨rfl, rfl⟩
    | octal hne' _ hds' _ =>
      rw [octal_head hne' hds' hs] at hoctal
      cases hoctal
    | hex => exact absurd (List.cons.inj hs).1 hx
    | point hds' _ => exact absurd (List.cons.inj hs).1 (hkey hds')
    | pair hds' _ _ _ => exact absurd (List.cons.inj hs).1 (hkey hds')
  | @octal ds _ hne hlen hds hend =>
    generalize hs : ds ++ rest = s at h'
    cases h' with
    | simple he' =>
      have hhead := octal_head hne hds hs.symm
      rw [(translateEscape_ne he').1] at hhead
      cases hhead
    | octal hne' hlen' hds' hend' =>
      obtain ⟨rfl, rfl⟩ := digits_eq_of_append hds hds' hlen hlen' hend hend' hs
      exact ⟨rfl, rfl⟩
    | hex => exact absurd (octal_head hne hds hs.symm) (by decide)
    | point hds' _ => exact absurd (octal_head hne hds hs.symm) (by rw [(not_octal_key hds').1]; decide)
    | pair hds' _ _ _ => exact absurd (octal_head hne hds hs.symm) (by rw [(not_octal_key hds').1]; decide)
  | @hex ds _ hne hlen hds hend =>
    generalize hs : 'x'.toUInt8 :: (ds ++ rest) = s at h'
    cases h' with
    | simple he' => exact absurd (List.cons.inj hs).1.symm (translateEscape_ne he').2.1
    | octal hne' _ hds' _ => exact absurd (octal_head hne' hds' hs) (by decide)
    | hex hne' hlen' hds' hend' =>
      obtain ⟨rfl, rfl⟩ := digits_eq_of_append hds hds' hlen hlen' hend hend' (List.cons.inj hs).2
      exact ⟨rfl, rfl⟩
    | point hds' _ => exact absurd (List.cons.inj hs).1.symm (not_octal_key hds').2
    | pair hds' _ _ _ => exact absurd (List.cons.inj hs).1.symm (not_octal_key hds').2
  | @point key ds _ hds hsingle =>
    generalize hs : key :: (ds ++ rest) = s at h'
    cases h' with
    | simple he' =>
      obtain ⟨-, -, hu, hU⟩ := translateEscape_ne he'
      exact absurd ((List.cons.inj hs).1 ▸ hds.letter) (by simp [hu, hU])
    | octal hne' _ hds' _ => exact absurd (octal_head hne' hds' hs) (by rw [(not_octal_key hds).1]; decide)
    | hex => exact absurd (List.cons.inj hs).1 (not_octal_key hds).2
    | point hds' _ =>
      obtain ⟨rfl, heq⟩ := List.cons.inj hs
      obtain ⟨rfl, rfl⟩ := hds.append_inj hds' heq
      exact ⟨rfl, rfl⟩
    | pair hds' hhigh' hlow' hislow' =>
      obtain ⟨rfl, heq⟩ := List.cons.inj hs
      obtain ⟨rfl, rfl⟩ := hds.append_inj hds' heq
      exact absurd ⟨_, _, rfl, hlow', hislow'⟩ (hsingle hhigh')
  | @pair key ds low _ hds hhigh hlow hislow =>
    generalize hs : key :: (ds ++ 92 :: 'u'.toUInt8 :: (low ++ rest)) = s at h'
    cases h' with
    | simple he' =>
      obtain ⟨-, -, hu, hU⟩ := translateEscape_ne he'
      exact absurd ((List.cons.inj hs).1 ▸ hds.letter) (by simp [hu, hU])
    | octal hne' _ hds' _ => exact absurd (octal_head hne' hds' hs) (by rw [(not_octal_key hds).1]; decide)
    | hex => exact absurd (List.cons.inj hs).1 (not_octal_key hds).2
    | point hds' hsingle' =>
      obtain ⟨rfl, heq⟩ := List.cons.inj hs
      obtain ⟨rfl, rfl⟩ := hds.append_inj hds' heq
      exact absurd ⟨_, _, rfl, hlow, hislow⟩ (hsingle' hhigh)
    | pair hds' hhigh' hlow' hislow' =>
      obtain ⟨rfl, heq⟩ := List.cons.inj hs
      obtain ⟨rfl, hlows⟩ := hds.append_inj hds' heq
      obtain ⟨rfl, rfl⟩ := hlow.append_inj hlow' (List.cons.inj (List.cons.inj hlows).2).2
      exact ⟨rfl, rfl⟩

/-- **A text denotes one thing at most.** -/
theorem Pieces.unique {ps ps' : List StringPiece} (h : Pieces bs ps) (h' : Pieces bs ps') : ps = ps' := by
  induction h generalizing ps' with
  | nil =>
    cases h'
    rfl
  | char hc h ih =>
    cases h' with
    | char hc' h' => rw [ih h']
    | escape he h' => exact absurd rfl hc
  | escape he h ih =>
    cases h' with
    | char hc' h' => exact absurd rfl hc'
    | escape he' h' =>
      obtain ⟨rfl, rfl⟩ := he.unique he'
      rw [ih h']

end Unique

/-! ### What the reader does -/

/-- `AppendUTF8` writes the bytes of a code point. -/
theorem appendUTF8_eq (codePoint : Nat) : appendUTF8 codePoint =
    ⟨(StringPiece.point codePoint).bytes, (StringPiece.point codePoint).fallbacks⟩ := by
  rw [StringPiece.bytes, StringPiece.fallbacks, pointBytes, appendUTF8]
  by_cases hvalid : codePoint.isValidChar
  · have hchar : (Char.ofNat codePoint).toNat = codePoint := by
      rw [Char.ofNat, dif_pos hvalid]
      rfl
    have hmax : ¬0x10ffff < codePoint := by
      unfold Nat.isValidChar at hvalid
      omega
    have hutf := Unicode.toUTF8_eq (Char.ofNat codePoint)
    rw [hchar] at hutf
    have hne := Jsondec.utf8EncodeChar_ne_nil (Char.ofNat codePoint)
    rw [if_pos hvalid, if_neg hmax, hutf]
    split
    next hnil =>
      rw [hnil] at hne
      cases hne
    next => rfl
  · rw [if_neg hvalid]
    by_cases hmax : codePoint ≤ 0x10ffff
    · -- a surrogate
      have hrange : 0xd800 ≤ codePoint ∧ codePoint ≤ 0xdfff := by
        unfold Nat.isValidChar at hvalid
        omega
      have hor : ∀ x < 64, x ||| 0x80 = 0x80 + x := by decide
      have hand : ∀ x, x &&& 0x3f = x % 64 := fun x => Nat.and_two_pow_sub_one_eq_mod x 6
      have htop : codePoint / 4096 = 13 := by omega
      rw [if_pos hmax, if_neg (by omega), Unicode.toUTF8, if_neg (by omega), if_neg (by omega), if_pos (by omega), hand,
        hand, hor _ (Nat.mod_lt _ (by decide)), hor _ (Nat.mod_lt _ (by decide)), Nat.shiftRight_eq_div_pow,
        Nat.shiftRight_eq_div_pow, htop]
      rfl
    · have hnone : Unicode.toUTF8 codePoint = [] := by
        rw [Unicode.toUTF8, if_neg (by omega), if_neg (by omega), if_neg (by omega), if_neg hmax]
      rw [hnone, if_neg hmax, if_pos (by omega)]

section Read

variable {delimiter : UInt8} {bs : List UInt8} {p : UInt8 → Bool}

/-- Characters that are no backslash are taken from the front of a string. -/
theorem StringBody.tail {c : UInt8} (h : StringBody delimiter (c :: bs)) (hc : c ≠ 92) : StringBody delimiter bs := by
  cases h with
  | char _ _ _ _ h => exact h
  | escape => exact absurd rfl hc

/-- One more digit of an escape is a digit of the string, as the delimiter is none. -/
theorem moreDigit_body (hend : p delimiter = false) (hslash : p 92 = false) (h : StringBody delimiter bs)
    (code base : Nat) :
    (∃ c rest, bs = c :: rest ∧ p c = true ∧ StringBody delimiter rest ∧
      moreDigit p base (code, bs ++ [delimiter]) = (code * base + digitValue c, rest ++ [delimiter])) ∨
    EndsAt p bs ∧ moreDigit p base (code, bs ++ [delimiter]) = (code, bs ++ [delimiter]) := by
  cases bs with
  | nil =>
    refine .inr ⟨nofun, ?_⟩
    rw [List.nil_append, moreDigit, if_neg (by rw [hend]; decide)]
  | cons c rest =>
    rw [List.cons_append, moreDigit]
    by_cases hc : p c = true
    · have hne : c ≠ 92 := by
        rintro rfl
        rw [hslash] at hc
        cases hc
      exact .inl ⟨c, rest, rfl, hc, h.tail hne, if_pos hc⟩
    · refine .inr ⟨?_, if_neg hc⟩
      rintro _ ⟨⟩
      exact Bool.eq_false_iff.mpr hc

/-- Two more digits of an escape. -/
theorem moreDigits_body (hend : p delimiter = false) (hslash : p 92 = false) (h : StringBody delimiter bs)
    (code base : Nat) :
    ∃ ds rest, bs = ds ++ rest ∧ ds.length ≤ 2 ∧ (∀ d ∈ ds, p d = true) ∧ (EndsAt p rest ∨ ds.length = 2) ∧
      StringBody delimiter rest ∧
      moreDigit p base (moreDigit p base (code, bs ++ [delimiter])) = (pushDigits base code ds, rest ++ [delimiter]) := by
  obtain ⟨c, rest, rfl, hc, hrest, hone⟩ | ⟨hno, hsame⟩ := moreDigit_body hend hslash h code base
  · rw [hone]
    obtain ⟨c', rest', rfl, hc', hrest', htwo⟩ | ⟨hno, hsame⟩ := moreDigit_body hend hslash hrest
      (code * base + digitValue c) base
    · exact ⟨[c, c'], rest', rfl, Nat.le_refl 2, List.forall_mem_cons.mpr ⟨hc, List.forall_mem_singleton.mpr hc'⟩,
        .inr rfl, hrest', htwo⟩
    · exact ⟨[c], rest, rfl, Nat.le_succ 1, List.forall_mem_singleton.mpr hc, .inl hno, hrest, hsame⟩
  · exact ⟨[], bs, rfl, by decide, nofun, .inl hno, h, by rw [hsame, hsame]; rfl⟩

theorem pushDigits_lt {b : Nat} {ds : List UInt8} (hds : ∀ d ∈ ds, digitValue d < b) (v : Nat) :
    pushDigits b v ds < (v + 1) * b ^ ds.length := by
  induction ds generalizing v with
  | nil => simp [pushDigits]
  | cons d ds ih =>
    obtain ⟨hd, hds⟩ := List.forall_mem_cons.mp hds
    refine Nat.lt_of_lt_of_le (ih hds (v * b + digitValue d)) ?_
    rw [List.length_cons, Nat.pow_succ, ← Nat.mul_assoc, Nat.mul_right_comm]
    refine Nat.mul_le_mul_right _ ?_
    rw [Nat.succ_mul]
    omega

theorem readHexFrom_eq (ds t : List UInt8) (v : Nat) :
    readHexFrom (v % 2 ^ 32) ds.length (ds ++ t) = some (pushDigits 16 v ds % 2 ^ 32) := by
  induction ds generalizing v with
  | nil => rfl
  | cons d ds ih =>
    rw [List.length_cons, List.cons_append, readHexFrom]
    have hmod : (v % 2 ^ 32 * 16 + digitValue d) % 2 ^ 32 = (v * 16 + digitValue d) % 2 ^ 32 := by omega
    rw [hmod, ih]
    rfl

/-- The digits of a code point are read. -/
theorem PointDigits.readHexDigits {key : UInt8} {ds : List UInt8} (h : PointDigits key ds) (t : List UInt8) :
    readHexDigits (unicodeLength key) (ds ++ t) = some (numeral 16 ds) ∧ (ds ++ t).drop (unicodeLength key) = t := by
  have hlen : unicodeLength key = ds.length ∧ 0 < ds.length ∧ ds.length ≤ 8 := by
    obtain ⟨rfl, hlen⟩ | ⟨rfl, hlen⟩ := h.length <;> rw [hlen] <;> decide
  have hlt := pushDigits_lt (b := 16) (fun d hd => (digitValue_lt d).1 (h.digits d hd)) 0
  have hpow : 16 ^ ds.length ≤ 16 ^ 8 := Nat.pow_le_pow_right (by decide) hlen.2.2
  have hread := readHexFrom_eq ds t 0
  rw [Nat.mod_eq_of_lt (by omega : pushDigits 16 0 ds < 2 ^ 32), ← numeral_eq] at hread
  rw [hlen.1, List.drop_left, Tokenizer.readHexDigits, if_neg (by omega)]
  exact ⟨hread, rfl⟩

/-- What a backslash starts in a string. -/
theorem EscapeText.head {e : List UInt8} (h : EscapeText e) : ∃ c cs, e = c :: cs ∧
    (c = 'u'.toUInt8 → PointDigits 'u'.toUInt8 cs) := by
  have hsimple : isEscape 'u'.toUInt8 = false ∧ isOctalDigit 'u'.toUInt8 = false := by decide
  cases h with
  | @simple c he =>
    refine ⟨c, [], rfl, ?_⟩
    rintro rfl
    rw [hsimple.1] at he
    cases he
  | @octal c hd =>
    refine ⟨c, [], rfl, ?_⟩
    rintro rfl
    rw [hsimple.2] at hd
    cases hd
  | hex hd => exact ⟨_, _, rfl, fun h => absurd h (by decide)⟩
  | unicode hlen hds => exact ⟨_, _, rfl, fun _ => ⟨.inl ⟨rfl, hlen⟩, hds⟩⟩
  | codePoint hd hlen hds => exact ⟨_, _, rfl, fun h => absurd h (by decide)⟩

/-- A `\u` escape ahead, in a string that has more text behind it. -/
theorem StringBody.ahead (hd : delimiter ≠ 92) (h : StringBody delimiter bs) :
    ((bs ++ [delimiter]).take 2 = [92, 'u'.toUInt8] ∧ ∃ low rest, bs = 92 :: 'u'.toUInt8 :: (low ++ rest) ∧
      PointDigits 'u'.toUInt8 low ∧ StringBody delimiter rest) ∨
    (bs ++ [delimiter]).take 2 ≠ [92, 'u'.toUInt8] ∧ ¬TailAhead bs := by
  cases h with
  | nil => exact .inr ⟨fun h => hd (List.cons.inj h).1, nofun⟩
  | char _ _ hne _ _ =>
    refine .inr ⟨fun h => hne (List.cons.inj h).1, ?_⟩
    rintro ⟨low, rest, heq, -⟩
    exact hne (List.cons.inj heq).1
  | @escape e rest he h =>
    obtain ⟨c, cs, rfl, hpoint⟩ := he.head
    by_cases hc : c = 'u'.toUInt8
    · subst hc
      exact .inl ⟨rfl, cs, rest, rfl, hpoint rfl, h⟩
    · refine .inr ⟨fun h => hc (List.cons.inj (List.cons.inj h).2).1, ?_⟩
      rintro ⟨low, rest', heq, -⟩
      exact hc (List.cons.inj (List.cons.inj heq).2).1

/-- The value of a surrogate pair. -/
theorem isHigh_iff (n : Nat) : Unicode.isHigh n = true ↔ 0xd800 ≤ n ∧ n ≤ 0xdbff := by
  simp [Unicode.isHigh]

theorem isLow_iff (n : Nat) : Unicode.isLow n = true ↔ 0xdc00 ≤ n ∧ n ≤ 0xdfff := by
  simp [Unicode.isLow]

/-- **`FetchUnicodePoint` reads the code point of an escape**, or of a surrogate pair. -/
theorem fetchUnicodePoint_body {key : UInt8} {ds : List UInt8} (hd : delimiter ≠ 92) (hds : PointDigits key ds)
    (h : StringBody delimiter bs) : ∃ codePoint rest,
      fetchUnicodePoint key (ds ++ (bs ++ [delimiter])) = some (codePoint, rest ++ [delimiter]) ∧
        EscapeOf (key :: (ds ++ bs)) (.point codePoint) rest ∧ StringBody delimiter rest := by
  obtain ⟨hread, hdrop⟩ := hds.readHexDigits (bs ++ [delimiter])
  rw [fetchUnicodePoint, hread]
  dsimp only
  rw [hdrop]
  by_cases hhigh : Unicode.isHigh (numeral 16 ds) = true
  swap
  · rw [if_neg (fun hb => hhigh hb.1)]
    exact ⟨_, bs, rfl, .point hds fun hh => absurd hh hhigh, h⟩
  obtain ⟨htake, low, rest, rfl, hlow, hrest⟩ | ⟨htake, hno⟩ := h.ahead hd
  swap
  · rw [if_neg (fun hb => htake hb.2)]
    exact ⟨_, bs, rfl, .point hds fun _ => hno, h⟩
  have htrail : Tokenizer.readHexDigits 4 ((92 :: 'u'.toUInt8 :: (low ++ rest) ++ [delimiter]).drop 2) =
      some (numeral 16 low) := by
    have := (hlow.readHexDigits (rest ++ [delimiter])).1
    rwa [← List.append_assoc] at this
  rw [if_pos ⟨hhigh, htake⟩, htrail]
  dsimp only
  by_cases hislow : Unicode.isLow (numeral 16 low) = true
  · rw [if_pos hislow, Jsondec.fromPair_eq ((isHigh_iff _).mp hhigh) ((isLow_iff _).mp hislow)]
    refine ⟨_, rest, ?_, .pair hds hhigh hlow hislow, hrest⟩
    have hdrop₆ : (92 :: 'u'.toUInt8 :: (low ++ rest) ++ [delimiter]).drop 6 = rest ++ [delimiter] := by
      have := (hlow.readHexDigits (rest ++ [delimiter])).2
      rwa [← List.append_assoc] at this
    rw [hdrop₆]
  · rw [if_neg hislow]
    refine ⟨_, _, rfl, .point hds fun _ => ?_, h⟩
    rintro ⟨low', rest', heq, hlow', hislow'⟩
    obtain ⟨rfl, -⟩ := hlow.append_inj hlow' (List.cons.inj (List.cons.inj heq).2).2
    exact hislow hislow'

/-- The escapes of one letter. -/
theorem isEscape_spec {e : UInt8} (h : isEscape e = true) : isOctalDigit e = false ∧ e ≠ 'x'.toUInt8 ∧
    e ≠ 'u'.toUInt8 ∧ e ≠ 'U'.toUInt8 ∧ ∃ c, translateEscape e = some c := by
  have hall : ∀ n < 256, isEscape (UInt8.ofNat n) = true → (translateEscape (UInt8.ofNat n)).isSome = true := by
    decide +kernel
  have he := hall e.toNat e.toNat_lt
  rw [UInt8.ofNat_toNat] at he
  obtain ⟨c, hc⟩ := Option.isSome_iff_exists.mp (he h)
  obtain ⟨hoctal, hx, hu, hU⟩ := translateEscape_ne hc
  exact ⟨hoctal, hx, hu, hU, c, hc⟩

/-- **An escape of a string is read**, with its digits from the characters behind it. -/
theorem parseEscape_body {e : List UInt8} (hd : delimiter = 34 ∨ delimiter = 39) (he : EscapeText e)
    (h : StringBody delimiter bs) : ∃ c cs piece rest, e ++ bs = c :: cs ∧
      parseEscape c (cs ++ [delimiter]) = (⟨piece.bytes, piece.fallbacks⟩, rest ++ [delimiter]) ∧
        EscapeOf (e ++ bs) piece rest ∧ StringBody delimiter rest := by
  have hclass : delimiter ≠ 92 ∧ isOctalDigit delimiter = false ∧ isHexDigit delimiter = false := by
    obtain rfl | rfl := hd <;> decide
  have hpoint : ∀ {key : UInt8} {ds : List UInt8}, PointDigits key ds → ∃ c cs piece rest, key :: ds ++ bs = c :: cs ∧
      parseEscape c (cs ++ [delimiter]) = (⟨piece.bytes, piece.fallbacks⟩, rest ++ [delimiter]) ∧
        EscapeOf (key :: ds ++ bs) piece rest ∧ StringBody delimiter rest := by
    intro key ds hds
    obtain ⟨codePoint, rest, hfetch, hescape, hrest⟩ := fetchUnicodePoint_body hclass.1 hds h
    refine ⟨key, ds ++ bs, .point codePoint, rest, rfl, ?_, hescape, hrest⟩
    obtain ⟨hoctal, hx⟩ := not_octal_key hds
    rw [parseEscape, if_neg (by rw [hoctal]; decide), if_neg hx, if_pos hds.letter, List.append_assoc, hfetch]
    dsimp only
    rw [appendUTF8_eq]
  cases he with
  | @simple c he =>
    obtain ⟨hoctal, hx, hu, hU, out, hout⟩ := isEscape_spec he
    refine ⟨c, bs, .byte out, bs, rfl, ?_, .simple hout, h⟩
    rw [parseEscape, if_neg (by rw [hoctal]; decide), if_neg hx, if_neg (by simp [hu, hU]), hout]
    rfl
  | @octal d hd' =>
    obtain ⟨ds, rest, rfl, hlen, hds, hend, hrest, hrun⟩ := moreDigits_body (p := isOctalDigit) hclass.2.1 (by decide) h
      (digitValue d) 8
    have hvalue : pushDigits 8 (digitValue d) ds = numeral 8 (d :: ds) := by
      rw [numeral_eq, pushDigits, pushDigits, List.foldl_cons, Nat.zero_mul, Nat.zero_add]
    refine ⟨d, ds ++ rest, .number (numeral 8 (d :: ds)), rest, rfl, ?_, ?_, hrest⟩
    · rw [parseEscape, if_pos hd', hrun, hvalue]
      rfl
    · exact .octal (List.cons_ne_nil _ _) (Nat.succ_le_succ hlen) (List.forall_mem_cons.mpr ⟨hd', hds⟩)
        (hend.imp_right (congrArg Nat.succ))
  | @hex d hd' =>
    have hne : d ≠ 92 ∧ d ≠ 0 ∧ d ≠ 10 ∧ d ≠ delimiter := by
      refine ⟨?_, ?_, ?_, ?_⟩ <;> rintro rfl
      · cases hd'
      · cases hd'
      · cases hd'
      · rw [hclass.2.2] at hd'
        cases hd'
    have hbody : StringBody delimiter (d :: bs) := .char hne.2.1 hne.2.2.1 hne.1 hne.2.2.2 h
    obtain ⟨ds, rest, hsplit, hlen, hds, hend, hrest, hrun⟩ := moreDigits_body (p := isHexDigit) hclass.2.2 (by decide)
      hbody 0 16
    refine ⟨'x'.toUInt8, d :: bs, .number (numeral 16 ds), rest, rfl, ?_, ?_, hrest⟩
    · rw [parseEscape, if_neg (by decide), if_pos rfl, hrun, ← numeral_eq]
      rfl
    · change EscapeOf ('x'.toUInt8 :: d :: bs) _ _
      rw [hsplit]
      refine .hex ?_ hlen hds hend
      rintro rfl
      obtain hend | hend := hend
      · rw [List.nil_append] at hsplit
        rw [← hsplit] at hend
        rw [hend d rfl] at hd'
        cases hd'
      · cases hend
  | unicode hlen hds => exact hpoint ⟨.inl ⟨rfl, hlen⟩, hds⟩
  | @codePoint d ds hd' hlen hds =>
    refine hpoint ⟨.inr ⟨rfl, by simp [hlen]⟩, ?_⟩
    have hfirst : isHexDigit d = true := by obtain rfl | rfl := hd' <;> decide
    exact List.forall_mem_cons.mpr ⟨by decide, List.forall_mem_cons.mpr ⟨by decide, List.forall_mem_cons.mpr ⟨hfirst, hds⟩⟩⟩

theorem parseFrom_char {c : UInt8} (hc : c ≠ 92) (fuel : Nat) (ptr : List UInt8) :
    parseFrom delimiter (fuel + 1) (c :: ptr) = if c = delimiter ∧ ptr = [] then parseFrom delimiter fuel ptr
      else Parsed.append ⟨[c], []⟩ (parseFrom delimiter fuel ptr) := by
  rw [parseFrom]
  exact fun _ _ heq _ => hc (beq_iff_eq.mp heq)

theorem parseFrom_escape (fuel : Nat) (e : UInt8) (ptr : List UInt8) : parseFrom delimiter (fuel + 1) (92 :: e :: ptr) =
    (parseEscape e ptr).1.append (parseFrom delimiter fuel (parseEscape e ptr).2) := rfl

/-- **The loop reads the text of a string up to its end.** -/
theorem parseFrom_eq (hd : delimiter = 34 ∨ delimiter = 39) (h : StringBody delimiter bs) {fuel : Nat}
    (hfuel : bs.length < fuel) : ∃ ps, Pieces bs ps ∧ parseFrom delimiter fuel (bs ++ [delimiter]) =
      ⟨ps.flatMap StringPiece.bytes, ps.flatMap StringPiece.fallbacks⟩ := by
  induction fuel generalizing bs with
  | zero => exact absurd hfuel (Nat.not_lt_zero _)
  | succ fuel ih =>
    have hne : delimiter ≠ 92 := by obtain rfl | rfl := hd <;> decide
    cases h with
    | nil =>
      refine ⟨[], .nil, ?_⟩
      rw [List.nil_append, parseFrom_char hne, if_pos ⟨rfl, rfl⟩]
      cases fuel <;> rfl
    | @char c bs hzero hline hescape hend h =>
      obtain ⟨ps, hps, hrun⟩ := ih h (Nat.lt_of_succ_lt_succ hfuel)
      refine ⟨.byte c :: ps, .char hescape hps, ?_⟩
      rw [List.cons_append, parseFrom_char hescape, if_neg (fun hb => hend hb.1), hrun]
      rfl
    | @escape e bs he h =>
      obtain ⟨c, cs, piece, rest, hcons, hrun, hescape, hrest⟩ := parseEscape_body hd he h
      have hlt := hescape.length_lt
      obtain ⟨ps, hps, hloop⟩ := ih hrest (by rw [List.length_cons] at hfuel; omega)
      refine ⟨piece :: ps, .escape hescape hps, ?_⟩
      rw [List.cons_append, hcons, List.cons_append, parseFrom_escape, hrun, hloop]
      rfl

end Read

/-- **`hpb_Parse_String` returns what the text of a string denotes.** -/
theorem StringText.parseString {text : List UInt8} (h : StringText text) : ∃ delimiter body ps,
    text = delimiter :: (body ++ [delimiter]) ∧ Pieces body ps ∧
      parseString text = ⟨ps.flatMap StringPiece.bytes, ps.flatMap StringPiece.fallbacks⟩ := by
  cases h with
  | @mk delimiter body hd h =>
    obtain ⟨ps, hps, hrun⟩ := parseFrom_eq hd h (by simp : body.length < (body ++ [delimiter]).length)
    exact ⟨delimiter, body, ps, rfl, hps, hrun⟩

/-- **A string that the tokenizer returns is read as what it denotes**, and in one way only: `hpb_Parse_String` takes no
fallback but that for numbers above `0x10ffff`, which it writes as a text. -/
theorem parseString_denotes :
    (∀ text : List UInt8, StringText text → ∃ delimiter body ps, text = delimiter :: (body ++ [delimiter]) ∧
      Pieces body ps ∧ (∀ ps', Pieces body ps' → ps' = ps) ∧
      parseString text = ⟨ps.flatMap StringPiece.bytes, ps.flatMap StringPiece.fallbacks⟩) ∧
    ∀ (opts : TokenizerOptions) (chunks : List (List UInt8)), (∀ c ∈ chunks, c ≠ []) → chunks.flatten.length < 2 ^ 64 →
      (∀ c ∈ chunks, c.length ≤ 2 ^ 31) ∨ TextsFit opts chunks.flatten →
      ∀ x ∈ (tokenize opts chunks).1, x.1.type = .string → StringText x.2 := by
  refine ⟨fun text h => ?_, fun opts _ hne hsize h x hx htype => (text_of_tokenize opts hne hsize h x hx).2 htype⟩
  obtain ⟨delimiter, body, ps, htext, hps, hrun⟩ := h.parseString
  exact ⟨delimiter, body, ps, htext, hps, fun _ h' => h'.unique hps, hrun⟩

/-- The string `"\1"`, in two chunks. -/
theorem parseString_denotes_escape : StringText [34, 92, 49, 34] ∧
    ∃ ps, Pieces [92, 49] ps ∧ parseString [34, 92, 49, 34] = ⟨ps.flatMap StringPiece.bytes, ps.flatMap StringPiece.fallbacks⟩ := by
  obtain ⟨hread, htoken⟩ := parseString_denotes
  have htext : StringText [34, 92, 49, 34] :=
    htoken ⟨false, false, false, false⟩ [[34, 92], [49, 34]] (by decide) (by decide) (.inl (by decide))
      (⟨.string, 0, 0, 4, none⟩, [34, 92, 49, 34]) (by decide) rfl
  obtain ⟨delimiter, body, ps, heq, hps, -, hrun⟩ := hread _ htext
  obtain ⟨rfl, hbody⟩ := List.cons.inj heq
  have hbody : [92, 49] ++ [34] = body ++ [34] := hbody
  obtain rfl : [92, 49] = body := List.append_cancel_right hbody
  exact ⟨htext, ps, hps, hrun⟩

/-- The tokenizer returns the string `"\U00110000"`, and its escape is no code point. -/
theorem not_parseString_denotes : ¬∀ (opts : TokenizerOptions) (chunks : List (List UInt8)),
    ∀ x ∈ (tokenize opts chunks).1, x.1.type = .string → (parseString x.2).fallbacks = [] := by
  intro h
  have hfallback := h ⟨false, false, false, false⟩ [[34, 92, 85, 48, 48, 49, 49, 48, 48, 48, 48, 34]]
    (⟨.string, 0, 0, 12, none⟩, [34, 92, 85, 48, 48, 49, 49, 48, 48, 48, 48, 34]) (by decide) rfl
  exact absurd hfallback (by decide)

end Hpb
