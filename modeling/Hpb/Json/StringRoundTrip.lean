import Hpb.Json.StringToken

/-!
# Strings are read back

The encoder writes a byte with a short escape, as `\u00xx`, or as it stands (`jsonenc_stringbody`). Every control
character is escaped, so the decoder finds none behind a byte (`Cut.stringbody`), and the string is read back
(`string_roundTrip`).
-/

namespace Hpb

namespace Jsonenc

/-- `%x`. -/
def hexDigit (n : Nat) : UInt8 := if n < 10 then UInt8.ofNat (48 + n) else UInt8.ofNat (97 + (n - 10))

/-- `%04x`, up to `0xffff`. -/
def hex4 (n : Nat) : List UInt8 :=
  [hexDigit (n / 4096 % 16), hexDigit (n / 256 % 16), hexDigit (n / 16 % 16), hexDigit (n % 16)]

/-- The `switch` of `jsonenc_stringbody`. -/
def stringbyte (ch : UInt8) : List UInt8 :=
  if ch = '\n'.toUInt8 then ascii "\\n"
  else if ch = '\r'.toUInt8 then ascii "\\r"
  else if ch = '\t'.toUInt8 then ascii "\\t"
  else if ch = '\"'.toUInt8 then ascii "\\\""
  else if ch = 12 then ascii "\\f"
  else if ch = 8 then ascii "\\b"
  else if ch = '\\'.toUInt8 then ascii "\\\\"
  else if ch < 0x20 then ascii "\\u" ++ hex4 ch.toNat
  else [ch]

/-- `jsonenc_stringbody`. -/
def stringbody (str : List UInt8) : List UInt8 := str.flatMap stringbyte

/-- `jsonenc_string`. -/
def string (str : List UInt8) : List UInt8 := ascii "\"" ++ stringbody str ++ ascii "\""

end Jsonenc

namespace Jsondec

/-- A control character that is written with four digits. -/
theorem unicodeEscape_hex4 : ∀ n < 0x20, UnicodeEscape (Jsonenc.hex4 n) [UInt8.ofNat n] := by
  intro n hn
  have hhex : ∀ m < 16, hexVal (Jsonenc.hexDigit m) = some m := by decide
  have hchar : (Char.ofNat n).toNat = n := by
    rw [Char.ofNat, dif_pos (by unfold Nat.isValidChar; omega)]
    rfl
  have hvalue : String.utf8EncodeChar (Char.ofNat n) = [UInt8.ofNat n] := by
    rw [← Unicode.toUTF8_eq, hchar, Unicode.toUTF8, if_pos (by omega)]
  rw [← hvalue]
  refine .single ?_
  rw [hchar]
  have hmk := Hex4.mk (hhex (n / 4096 % 16) (by omega)) (hhex (n / 256 % 16) (by omega)) (hhex (n / 16 % 16) (by omega))
    (hhex (n % 16) (by omega))
  rwa [show n / 4096 % 16 * 4096 + n / 256 % 16 * 256 + n / 16 % 16 * 16 + n % 16 = n by omega] at hmk

/-- A byte is written as an escape for it, or as it stands. -/
theorem stringbyte_cases (b : UInt8) :
    Escape (Jsonenc.stringbyte b) [b] ∨ (Plain b ∧ Jsonenc.stringbyte b = [b]) := by
  rw [Jsonenc.stringbyte]
  split_ifs with h₁ h₂ h₃ h₄ h₅ h₆ h₇ h₈
  · exact .inl (h₁ ▸ .short (by decide))
  · exact .inl (h₂ ▸ .short (by decide))
  · exact .inl (h₃ ▸ .short (by decide))
  · exact .inl (h₄ ▸ .short (by decide))
  · exact .inl (h₅ ▸ .short (by decide))
  · exact .inl (h₆ ▸ .short (by decide))
  · exact .inl (h₇ ▸ .short (by decide))
  · have hescape := unicodeEscape_hex4 b.toNat h₈
    rw [UInt8.ofNat_toNat] at hescape
    exact .inl (.unicode hescape)
  · exact .inr ⟨⟨h₄, h₇, UInt8.not_lt.mp h₈⟩, rfl⟩

/-- What `jsonenc_stringbody` writes is the inside of a JSON string. -/
theorem jsonString_stringbody (str : List UInt8) : JsonString (Jsonenc.stringbody str) str := by
  induction str with
  | nil => exact .nil
  | cons b str ih =>
    rw [Jsonenc.stringbody, List.flatMap_cons]
    obtain h | ⟨hb, h⟩ := stringbyte_cases b
    · exact .escape h ih
    · rw [h]
      exact .plain hb ih

/-- The inside of a JSON string is read. -/
theorem string_jsonString {d : Jsondec} {body value tail : List UInt8} (h : JsonString body value)
    (hd : d.rest = quote :: (body ++ quote :: tail)) : ∃ d', string d = .ok (value, d') ∧ d'.rest = tail := by
  obtain ⟨its, hcut, hnone, rfl⟩ := h.cut tail
  obtain ⟨d₁, hrest, hloop⟩ := string_loop [] (by simp) hd
  obtain ⟨k, hk⟩ := (stringLoop_ends [] hcut hrest (Nat.le_refl _)).accepts (noneBehind_of_forall hnone false)
    tail rfl
  exact ⟨_, hloop.trans hk, rfl⟩

/-- **Strings are read back**: `jsondec_string` of what `jsonenc_string` writes is the string. -/
theorem string_roundTrip (str tail : List UInt8) (d : Jsondec) :
    ∃ d', string { d with rest := Jsonenc.string str ++ tail } = .ok (str, d') ∧ d'.rest = tail := by
  refine string_jsonString (jsonString_stringbody str) ?_
  simp only [Jsonenc.string, List.append_assoc]
  rfl

end Jsondec

end Hpb
