import Hpb.Io.ParseString
import Hpb.Io.StringTokens
import Hpb.Text.Output

/-!
# The strings of the text encoder are read back

`txtenc_string` writes a string of bytes with escapes. The tokenizer takes what it writes as one token, and
`hpb_Parse_String` reads the bytes back: an escape of three octal digits ends after the third one, and a letter after a
backslash is an escape of its own.
-/

namespace Hpb

open Tokenizer

namespace Txtenc

/-- What is written for a byte: an escape of one letter, one of three octal digits, or the byte. -/
theorem byteText_cases (c : UInt8) :
    (∃ e, byteText true c = [92, e] ∧ isEscape e = true ∧ translateEscape e = some c) ∨
      byteText true c = 92 :: octal3 c ∨
      byteText true c = [c] ∧ c ≠ 0 ∧ c ≠ 10 ∧ c ≠ 92 ∧ c ≠ 34 := by
  unfold byteText
  split
  next hc => exact .inl ⟨110, by decide, by decide, hc ▸ rfl⟩
  next hline =>
    split
    next hc => exact .inl ⟨114, by decide, by decide, hc ▸ rfl⟩
    next =>
      split
      next hc => exact .inl ⟨116, by decide, by decide, hc ▸ rfl⟩
      next =>
        split
        next hc => exact .inl ⟨34, by decide, by decide, by rw [hc]; rfl⟩
        next hquote =>
          split
          next hc => exact .inl ⟨39, by decide, by decide, by rw [hc]; rfl⟩
          next =>
            split
            next hc => exact .inl ⟨92, by decide, by decide, by rw [hc]; rfl⟩
            next hslash =>
              split
              next => exact .inr (.inl rfl)
              next hprint =>
                refine .inr (.inr ⟨rfl, ?_, hline, hslash, hquote⟩)
                rintro rfl
                exact hprint (by decide)

/-- The digits of an octal escape denote the byte. -/
theorem octal3_digits (c : UInt8) :
    (octal3 c).length = 3 ∧ (∀ d ∈ octal3 c, isOctalDigit d = true) ∧ numeral 8 (octal3 c) = c.toNat := by
  have hall : ∀ n < 256, (octal3 (UInt8.ofNat n)).length = 3 ∧ (octal3 (UInt8.ofNat n)).all isOctalDigit = true ∧
      numeral 8 (octal3 (UInt8.ofNat n)) = n := by decide +kernel
  have h := hall c.toNat c.toNat_lt
  rwa [UInt8.ofNat_toNat, List.all_eq_true] at h

/-- Digits are characters of a string. -/
theorem body_digits {ds bs : List UInt8} (hds : ∀ d ∈ ds, isOctalDigit d = true) (h : StringBody 34 bs) :
    StringBody 34 (ds ++ bs) := by
  induction ds with
  | nil => exact h
  | cons d ds ih =>
    obtain ⟨hd, hds⟩ := List.forall_mem_cons.mp hds
    refine .char ?_ ?_ ?_ ?_ (ih hds) <;> rintro rfl <;> cases hd

/-- The text of a byte may stand in a string. -/
theorem byteText_body (c : UInt8) {bs : List UInt8} (h : StringBody 34 bs) : StringBody 34 (byteText true c ++ bs) := by
  obtain ⟨e, heq, he, -⟩ | heq | ⟨heq, hzero, hline, hslash, hquote⟩ := byteText_cases c
  · rw [heq]
    exact .escape (.simple he) h
  · obtain ⟨-, hds, -⟩ := octal3_digits c
    obtain ⟨hd, hds⟩ := List.forall_mem_cons.mp hds
    rw [heq]
    have hrest := body_digits hds h
    exact StringBody.escape (e := [_]) (.octal hd) hrest
  · rw [heq]
    exact .char hzero hline hslash hquote h

/-- The text of a byte denotes the byte, whatever comes after it. -/
theorem byteText_pieces (c : UInt8) {bs : List UInt8} {ps : List StringPiece} (h : Pieces bs ps) :
    ∃ p, Pieces (byteText true c ++ bs) (p :: ps) ∧ p.bytes = [c] ∧ p.fallbacks = [] := by
  obtain ⟨e, heq, -, he⟩ | heq | ⟨heq, -, -, hslash, -⟩ := byteText_cases c
  · rw [heq]
    exact ⟨.byte c, .escape (.simple he) h, rfl, rfl⟩
  · obtain ⟨hlen, hds, hvalue⟩ := octal3_digits c
    rw [heq]
    refine ⟨.number c.toNat, ?_, ?_, rfl⟩
    · rw [← hvalue]
      exact .escape (.octal (List.cons_ne_nil _ _) (Nat.le_of_eq hlen) hds (.inr hlen)) h
    · rw [StringPiece.bytes, UInt8.ofNat_toNat]
  · rw [heq]
    exact ⟨.byte c, .char hslash h, rfl, rfl⟩

/-- **What is written for a string is the text of one string**, which denotes it. -/
theorem stringText_spec (str : List UInt8) :
    StringText (stringText true str) ∧ parseString (stringText true str) = ⟨str, []⟩ := by
  have hbody : ∀ str : List UInt8, StringBody 34 (str.flatMap (byteText true)) ∧
      ∃ ps, Pieces (str.flatMap (byteText true)) ps ∧ ps.flatMap StringPiece.bytes = str ∧
        ps.flatMap StringPiece.fallbacks = [] := by
    intro str
    induction str with
    | nil => exact ⟨.nil, [], .nil, rfl, rfl⟩
    | cons c str ih =>
      obtain ⟨hbody, ps, hps, hbytes, hfallbacks⟩ := ih
      obtain ⟨p, hp, hpbytes, hpfallbacks⟩ := byteText_pieces c hps
      refine ⟨byteText_body c hbody, p :: ps, hp, ?_, ?_⟩
      · rw [List.flatMap_cons, hpbytes, hbytes]
        rfl
      · rw [List.flatMap_cons, hpfallbacks, hfallbacks]
        rfl
  obtain ⟨hstring, ps, hps, hbytes, hfallbacks⟩ := hbody str
  have htext : StringText (stringText true str) := .mk (.inl rfl) hstring
  refine ⟨htext, ?_⟩
  obtain ⟨delimiter, body, ps', heq, hps', hrun⟩ := htext.parseString
  obtain ⟨rfl, hsplit⟩ := List.cons.inj heq
  obtain rfl := List.append_cancel_right hsplit
  rw [hrun, hps'.unique hps, hbytes, hfallbacks]

/-- What an encoder has written to its buffer. -/
def written (e : Txtenc) : List UInt8 := e.out.buf.take e.out.pos

/-- A text that leaves room in the buffer is in it. -/
theorem written_of_follows {e : Txtenc} {text : List UInt8} (h : e.out.Follows text)
    (hroom : e.nullz.1 < e.out.buf.length) : e.written = text := by
  have htotal : e.nullz.1 = text.length := h.total
  refine (h.take_buf ?_).2
  have hpos := h.pos
  unfold FixedWriter.room
  omega

end Txtenc

/-- **A string of bytes that `txtenc_string` writes is one token**, and `hpb_Parse_String` returns the bytes, if the
text and a zero byte fit the buffer. -/
theorem txtencString_tokenize (options : TxtencOptions) (b buf : List UInt8) (hsize : buf.length < 2 ^ 64)
    (hroom : ((Txtenc.new options buf).string b true).nullz.1 < buf.length) :
    parseString ((Txtenc.new options buf).string b true).written = ⟨b, []⟩ ∧
      ∀ (opts : TokenizerOptions) (chunks : List (List UInt8)), (∀ c ∈ chunks, c ≠ []) →
        chunks.flatten = ((Txtenc.new options buf).string b true).written →
        ∃ token last, tokenize opts chunks =
          ([(token, ((Txtenc.new options buf).string b true).written)], .ok last) ∧
          token.type = .string ∧ last.type = .end_ := by
  obtain ⟨hfollows, hlen⟩ := (Txtenc.writes_string (.new options buf) b true).follows (FixedWriter.follows_new buf)
  have hbuf : ((Txtenc.new options buf).string b true).out.buf.length = buf.length := hlen
  have htext : ((Txtenc.new options buf).string b true).written = Txtenc.stringText true b :=
    Txtenc.written_of_follows hfollows (by rw [hbuf]; exact hroom)
  obtain ⟨hstring, hparse⟩ := Txtenc.stringText_spec b
  have htotal : ((Txtenc.new options buf).string b true).nullz.1 = (Txtenc.stringText true b).length := hfollows.total
  rw [htext]
  refine ⟨hparse, fun opts chunks hne hflat => hstring.tokenize opts hne hflat ?_⟩
  omega

/-- The bytes 1, `8` and 255 in a buffer of 16 bytes. -/
theorem txtencString_tokenize_bytes :
    parseString ((Txtenc.new ⟨false, false, false⟩ (List.replicate 16 0)).string [1, 56, 255] true).written =
        ⟨[1, 56, 255], []⟩ ∧
      ∃ token last, tokenize ⟨false, false, false, false⟩ [[34, 92, 48], [48, 49, 56, 92, 51, 55, 55, 34]] =
        ([(token, [34, 92, 48, 48, 49, 56, 92, 51, 55, 55, 34])], .ok last) ∧
        token.type = .string ∧ last.type = .end_ := by
  obtain ⟨hparse, htokens⟩ := txtencString_tokenize ⟨false, false, false⟩ [1, 56, 255] (List.replicate 16 0)
    (by decide) (by decide)
  have hwritten : ((Txtenc.new ⟨false, false, false⟩ (List.replicate 16 0)).string [1, 56, 255] true).written =
      [34, 92, 48, 48, 49, 56, 92, 51, 55, 55, 34] := by decide
  refine ⟨hparse, ?_⟩
  have h := htokens ⟨false, false, false, false⟩ [[34, 92, 48], [48, 49, 56, 92, 51, 55, 55, 34]] (by decide)
    (by rw [hwritten]; rfl)
  rwa [hwritten] at h

end Hpb
