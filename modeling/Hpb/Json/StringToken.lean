import Hpb.Json.Lex

/-!
# What `jsondec_string` accepts

A JSON string has bytes that stand for themselves, and escapes (`Escape`); `JsonString` is the grammar, `JsonToken` a
string behind white space. The scanner tests the byte behind the one that it stores: a control character directly
behind the opening quote or behind an escape is not tested, and behind the last byte there is none.

* `Cut`: the bytes and escapes of a text, up to the first quote, the first malformed escape or the end,
* `stringLoop_ends`: what the scanner does with them,
* `string_right_iff`: it accepts the JSON strings and reads no byte behind the input if and only if no text slips.
-/

namespace Hpb

namespace Unicode

/-- `_hpb_Unicode_ToUTF8` writes the UTF-8 encoding of a character. -/
theorem toUTF8_eq (c : Char) : toUTF8 c.toNat = String.utf8EncodeChar c := by
  have hor₂ : ∀ x < 32, x ||| 0xc0 = x + 0xc0 := by decide
  have hor₃ : ∀ x < 16, x ||| 0xe0 = x + 0xe0 := by decide
  have hor₄ : ∀ x < 8, x ||| 0xf0 = x + 0xf0 := by decide
  have hor : ∀ x < 64, x ||| 0x80 = x + 0x80 := by decide
  have hand : ∀ x, x &&& 0x3f = x % 64 := fun x => Nat.and_two_pow_sub_one_eq_mod x 6
  have hmod : ∀ x, x % 64 ||| 0x80 = x % 64 + 0x80 := fun x => hor _ (Nat.mod_lt x (by decide))
  have hmax : c.toNat ≤ 0x10ffff := by
    have := c.valid
    unfold UInt32.isValidChar Nat.isValidChar at this
    change c.toNat < 0xd800 ∨ 0xdfff < c.toNat ∧ c.toNat < 0x110000 at this
    omega
  rw [toUTF8, String.utf8EncodeChar, show c.val.toNat = c.toNat from rfl]
  generalize c.toNat = v at hmax ⊢
  simp only [hand, hmod, Nat.shiftRight_eq_div_pow, Nat.reducePow]
  by_cases h₁ : v ≤ 0x7f
  · rw [if_pos h₁, if_pos h₁]
  rw [if_neg h₁, if_neg h₁]
  by_cases h₂ : v ≤ 0x7ff
  · rw [if_pos h₂, if_pos h₂, hor₂ _ (by omega), Nat.mod_eq_of_lt (by omega : v / 64 < 32)]
  rw [if_neg h₂, if_neg h₂]
  by_cases h₃ : v ≤ 0xffff
  · rw [if_pos h₃, if_pos h₃, hor₃ _ (by omega), Nat.mod_eq_of_lt (by omega : v / 4096 < 16)]
  rw [if_neg h₃, if_neg h₃, if_pos hmax, hor₄ _ (by omega), Nat.mod_eq_of_lt (by omega : v / 262144 < 8)]

end Unicode

namespace Jsondec

/-! ### The grammar -/

/-- The number that four hexadecimal digits stand for. -/
inductive Hex4 : List UInt8 → Nat → Prop where
  | mk {a b c d : UInt8} {w x y z : Nat} (ha : hexVal a = some w) (hb : hexVal b = some x) (hc : hexVal c = some y)
      (hd : hexVal d = some z) : Hex4 [a, b, c, d] (w * 4096 + x * 256 + y * 16 + z)

/-- The escapes of two characters, and the characters they stand for. -/
def shortEscapes : List (UInt8 × UInt8) :=
  [(quote, quote), (backslash, backslash), ('/'.toUInt8, '/'.toUInt8), ('b'.toUInt8, 8), ('f'.toUInt8, 12),
    ('n'.toUInt8, 10), ('r'.toUInt8, 13), ('t'.toUInt8, 9)]

/-- What follows `\u`, and the UTF-8 of the character. -/
inductive UnicodeEscape : List UInt8 → List UInt8 → Prop where
  | single {digits : List UInt8} {c : Char} (h : Hex4 digits c.toNat) :
      UnicodeEscape digits (String.utf8EncodeChar c)
  | pair {high low : List UInt8} {h l : Nat} {c : Char} (hhigh : Hex4 high h) (hlow : Hex4 low l)
      (hh : 0xd800 ≤ h ∧ h ≤ 0xdbff) (hl : 0xdc00 ≤ l ∧ l ≤ 0xdfff)
      (hc : c.toNat = 0x10000 + (h - 0xd800) * 0x400 + (l - 0xdc00)) :
      UnicodeEscape (high ++ backslash :: 'u'.toUInt8 :: low) (String.utf8EncodeChar c)

/-- An escape and what it stands for. -/
inductive Escape : List UInt8 → List UInt8 → Prop where
  | short {c x : UInt8} (h : (c, x) ∈ shortEscapes) : Escape [backslash, c] [x]
  | unicode {e v : List UInt8} (h : UnicodeEscape e v) : Escape (backslash :: 'u'.toUInt8 :: e) v

/-- The inside of a JSON string and what it stands for. -/
inductive JsonString : List UInt8 → List UInt8 → Prop where
  | nil : JsonString [] []
  | plain {b : UInt8} {s v : List UInt8} (hb : Plain b) (h : JsonString s v) : JsonString (b :: s) (b :: v)
  | escape {e c s v : List UInt8} (he : Escape e c) (h : JsonString s v) : JsonString (e ++ s) (c ++ v)

/-- White space of JSON. -/
def IsSpace (b : UInt8) : Prop := b = '\n'.toUInt8 ∨ b = '\r'.toUInt8 ∨ b = '\t'.toUInt8 ∨ b = ' '.toUInt8

/-- A JSON string for `value` at the start of a text, and what follows it. -/
def JsonToken (text value tail : List UInt8) : Prop :=
  ∃ space body, (∀ b ∈ space, IsSpace b) ∧ text = space ++ quote :: (body ++ quote :: tail) ∧ JsonString body value

/-- **`jsondec_string` accepts the JSON strings**, returns what they stand for, and reads no byte behind the input. -/
structure StringRight (d : Jsondec) : Prop where
  accepts : ∀ value tail, (∃ d', string d = .ok (value, d') ∧ d'.rest = tail) ↔ JsonToken d.rest value tail
  inside : string d ≠ .error .overrun

/-! ### Actions that end -/

section Ends

variable {α β : Type} {x : JsonM α} {f : α → JsonM β} {d : Jsondec}

theorem bind_error {e : JsonFailure} (h : x d = .error e) : (x >>= f) d = .error e := by
  change (do let p ← x d; f p.1 p.2) = .error e
  rw [h]
  rfl

/-- The action ends with an error message. -/
def Rejects (x : JsonM α) (d : Jsondec) : Prop := ∃ line column fmt args, x d = .error (.error line column fmt args)

theorem Rejects.bind (h : Rejects x d) : Rejects (x >>= f) d := by
  obtain ⟨line, column, fmt, args, h⟩ := h
  exact ⟨line, column, fmt, args, bind_error h⟩

theorem Rejects.of_bind {a : α} {s : Jsondec} (hx : x d = .ok (a, s)) (h : Rejects (f a) s) :
    Rejects (x >>= f) d := by
  obtain ⟨line, column, fmt, args, h⟩ := h
  exact ⟨line, column, fmt, args, (bind_ok hx).trans h⟩

theorem rejects_err (fmt : String) (args : List (List UInt8)) (d : Jsondec) : Rejects (err (α := α) fmt args) d :=
  ⟨_, _, _, _, rfl⟩

theorem Rejects.not_ok {r : α × Jsondec} (h : Rejects x d) (hok : x d = .ok r) : False := by
  obtain ⟨line, column, fmt, args, h⟩ := h
  cases h.symm.trans hok

end Ends

/-! ### Escapes -/

section Escapes

variable {d : Jsondec} {rest e v t digits : List UInt8} {n : Nat}

/-- After some bytes were read. -/
def skip (d : Jsondec) (n : Nat) (rest : List UInt8) : Jsondec := { d with rest, column := d.column + n }

@[simp] theorem skip_rest (d : Jsondec) (n : Nat) (rest : List UInt8) : (d.skip n rest).rest = rest := rfl

@[simp] theorem skip_skip (d : Jsondec) (m n : Nat) (rest rest' : List UInt8) :
    (d.skip m rest).skip n rest' = d.skip (m + n) rest' := by
  simp [skip, Int.add_assoc]

theorem next_skip {b : UInt8} {bs : List UInt8} (h : d.rest = b :: bs) : next d = .ok (b, d.skip 1 bs) :=
  next_cons h

theorem codepointLoop_some {b : UInt8} {bs : List UInt8} {cp w : Nat} (h : d.rest = b :: bs) (hb : hexVal b = some w) :
    codepointLoop (n + 1) cp d = codepointLoop n (cp * 16 + w) (d.skip 1 bs) := by
  rw [codepointLoop, bind_ok (next_skip h), hb]

theorem codepointLoop_none {b : UInt8} {bs : List UInt8} {cp : Nat} (h : d.rest = b :: bs) (hb : hexVal b = none) :
    Rejects (codepointLoop (n + 1) cp) d := by
  rw [codepointLoop]
  refine Rejects.of_bind (next_skip h) ?_
  rw [hb]
  exact rejects_err _ _ _

/-- Four hexadecimal digits are read. -/
theorem codepoint_hex4 (h : Hex4 digits n) (hd : d.rest = digits ++ t) : codepoint d = .ok (n, d.skip 4 t) := by
  cases h with
  | @mk a b c e w x y z ha hb hc he =>
    have hd : d.rest = a :: b :: c :: e :: t := hd
    have hlen : ¬d.rest.length < 4 := by
      rw [hd]
      exact Nat.not_lt.mpr (Nat.le_add_left 4 _)
    have hloop : codepointLoop 4 0 d = .ok (w * 4096 + x * 256 + y * 16 + z, d.skip 4 t) := by
      rw [codepointLoop_some hd ha, codepointLoop_some rfl hb, codepointLoop_some rfl hc, codepointLoop_some rfl he,
        codepointLoop, show (((0 * 16 + w) * 16 + x) * 16 + y) * 16 + z = w * 4096 + x * 256 + y * 16 + z by omega]
      simp only [skip_skip]
      rfl
    rw [codepoint, bind_ok rfl, if_neg hlen, hloop]

/-- There are four hexadecimal digits, or the action ends. -/
theorem codepoint_cases (d : Jsondec) : (∃ digits n t, Hex4 digits n ∧ d.rest = digits ++ t) ∨ Rejects codepoint d := by
  by_cases hlen : d.rest.length < 4
  · refine .inr ?_
    have hget : (get : JsonM Jsondec) d = .ok (d, d) := rfl
    refine Rejects.of_bind hget ?_
    rw [if_pos hlen]
    exact rejects_err _ _ _
  obtain ⟨a, b, c, e, t, hd⟩ : ∃ a b c e t, d.rest = a :: b :: c :: e :: t := by
    match d.rest, hlen with
    | a :: b :: c :: e :: t, _ => exact ⟨a, b, c, e, t, rfl⟩
    | [], h | [_], h | [_, _], h | [_, _, _], h => exact absurd (by simp) h
  have hrun : codepoint d = codepointLoop 4 0 d := by rw [codepoint, bind_ok rfl, if_neg hlen]
  rw [Rejects, hrun, ← Rejects]
  cases ha : hexVal a with
  | none => exact .inr (codepointLoop_none hd ha)
  | some w =>
    rw [Rejects, codepointLoop_some hd ha, ← Rejects]
    cases hb : hexVal b with
    | none => exact .inr (codepointLoop_none rfl hb)
    | some x =>
      rw [Rejects, codepointLoop_some rfl hb, ← Rejects]
      cases hc : hexVal c with
      | none => exact .inr (codepointLoop_none rfl hc)
      | some y =>
        rw [Rejects, codepointLoop_some rfl hc, ← Rejects]
        cases he : hexVal e with
        | none => exact .inr (codepointLoop_none rfl he)
        | some z => exact .inl ⟨_, _, t, .mk ha hb hc he, hd⟩

theorem hexVal_lt {b : UInt8} {x : Nat} (h : hexVal b = some x) : x < 16 := by
  unfold hexVal at h
  have hlt := UInt8.toNat_lt b
  split at h
  next hr =>
    have h₁ : b.toNat ≤ 57 := hr.2
    cases h
    omega
  split at h
  next hr =>
    have h₁ : b.toNat ≤ 102 := hr.2
    cases h
    omega
  split at h
  next hr =>
    have h₁ : b.toNat ≤ 70 := hr.2
    cases h
    omega
  next => cases h

theorem Hex4.lt (h : Hex4 digits n) : n < 0x10000 := by
  cases h with
  | mk ha hb hc hd =>
    have := hexVal_lt ha
    have := hexVal_lt hb
    have := hexVal_lt hc
    have := hexVal_lt hd
    omega

theorem Hex4.length (h : Hex4 digits n) : digits.length = 4 := by
  cases h
  rfl

theorem not_surrogate (c : Char) : Unicode.isHigh c.toNat = false ∧ Unicode.isLow c.toNat = false := by
  have hvalid : c.toNat < 0xd800 ∨ 0xdfff < c.toNat ∧ c.toNat < 0x110000 := c.valid
  simp only [Unicode.isHigh, Unicode.isLow, Bool.and_eq_false_iff, decide_eq_false_iff_not]
  omega

theorem utf8EncodeChar_ne_nil (c : Char) : (String.utf8EncodeChar c).isEmpty = false := by
  unfold String.utf8EncodeChar
  dsimp only
  split_ifs <;> rfl

theorem parselit_ok {lit : List UInt8} (h : d.rest = lit ++ t) : parselit lit d = .ok ((), d.skip lit.length t) := by
  have htake : d.rest.take lit.length = lit := by rw [h, List.take_left]
  rw [parselit, bind_ok rfl, if_pos htake]
  change Except.ok ((), { d with rest := d.rest.drop lit.length, column := d.column + lit.length }) = _
  rw [h, List.drop_left]
  rfl

theorem parselit_cases (lit : List UInt8) (d : Jsondec) : (∃ t, d.rest = lit ++ t) ∨ Rejects (parselit lit) d := by
  by_cases htake : d.rest.take lit.length = lit
  · refine .inl ⟨d.rest.drop lit.length, ?_⟩
    conv_lhs => rw [← List.take_append_drop lit.length d.rest, htake]
  · refine .inr ?_
    rw [parselit]
    refine Rejects.of_bind (s := d) rfl ?_
    rw [if_neg htake]
    exact rejects_err _ _ _

/-- The character of `\u`, from its number. -/
theorem unicode_bytes (c : Char) (d : Jsondec) :
    (if (Unicode.toUTF8 c.toNat).isEmpty then err "Invalid codepoint" [] else return Unicode.toUTF8 c.toNat :
      JsonM (List UInt8)) d = .ok (String.utf8EncodeChar c, d) := by
  rw [Unicode.toUTF8_eq, if_neg (by rw [utf8EncodeChar_ne_nil]; decide)]
  rfl

theorem fromPair_eq {h l : Nat} (hh : 0xd800 ≤ h ∧ h ≤ 0xdbff) (hl : 0xdc00 ≤ l ∧ l ≤ 0xdfff) :
    Unicode.fromPair h l = 0x10000 + (h - 0xd800) * 0x400 + (l - 0xdc00) := by
  rw [Unicode.fromPair, show (0x3ff : Nat) = 2 ^ 10 - 1 by rfl, Nat.and_two_pow_sub_one_eq_mod, Nat.and_two_pow_sub_one_eq_mod,
    Nat.shiftLeft_eq]
  omega

/-- A `\u` escape is read. -/
theorem unicode_ok (h : UnicodeEscape e v) (hd : d.rest = e ++ t) : unicode d = .ok (v, d.skip e.length t) := by
  cases h with
  | @single _ c hhex =>
    obtain ⟨hhigh, hlow⟩ := not_surrogate c
    rw [unicode, bind_ok (codepoint_hex4 hhex hd), hhigh, hlow, hhex.length]
    exact (bind_ok rfl).trans (unicode_bytes c _)
  | @pair high low h l c hhigh hlow hh hl hc =>
    have hisHigh : Unicode.isHigh h = true := by simp [Unicode.isHigh, hh]
    have hisLow : Unicode.isLow l = true := by simp [Unicode.isLow, hl]
    have hd₁ : d.rest = high ++ ([backslash, 'u'.toUInt8] ++ (low ++ t)) := by
      rw [hd]
      simp
    have hlit := parselit_ok (d := d.skip 4 ([backslash, 'u'.toUInt8] ++ (low ++ t))) rfl
    have hlow₁ := codepoint_hex4 (d := (d.skip 4 ([backslash, 'u'.toUInt8] ++ (low ++ t))).skip 2 (low ++ t)) hlow rfl
    have hlen : (high ++ backslash :: 'u'.toUInt8 :: low).length = 4 + 2 + 4 := by
      simp [hhigh.length, hlow.length]
    rw [unicode, bind_ok (codepoint_hex4 hhigh hd₁), hisHigh, hlen, ← skip_skip _ _ _ (low ++ t) t,
      ← skip_skip _ _ _ ([backslash, 'u'.toUInt8] ++ (low ++ t)), if_pos rfl, bind_ok hlit]
    refine (bind_ok hlow₁).trans ?_
    rw [hisLow, if_pos rfl, fromPair_eq hh hl, ← hc]
    exact (bind_ok rfl).trans (unicode_bytes c _)

/-- There is a `\u` escape, or the action ends. -/
theorem unicode_cases (d : Jsondec) : (∃ e v t, UnicodeEscape e v ∧ d.rest = e ++ t) ∨ Rejects unicode d := by
  rw [Rejects, unicode, ← Rejects]
  obtain ⟨digits, n, t, hhex, hd⟩ | hbad := codepoint_cases d
  case inr => exact .inr hbad.bind
  have hcp := codepoint_hex4 hhex hd
  rw [Rejects, bind_ok hcp, ← Rejects]
  cases hhigh : Unicode.isHigh n with
  | false =>
    cases hlow : Unicode.isLow n with
    | true =>
      refine .inr ?_
      rw [if_neg (by decide), if_pos rfl]
      exact (rejects_err _ _ _).bind
    | false =>
      have hlt := hhex.lt
      have hvalid : n.isValidChar := by
        simp only [Unicode.isHigh, Unicode.isLow, Bool.and_eq_false_iff, decide_eq_false_iff_not] at hhigh hlow
        unfold Nat.isValidChar
        omega
      have hn : (Char.ofNat n).toNat = n := by
        rw [Char.ofNat, dif_pos hvalid]
        rfl
      exact .inl ⟨digits, _, t, .single (c := Char.ofNat n) (by rwa [hn]), hd⟩
  | true =>
    rw [if_pos rfl]
    obtain ⟨t', ht⟩ | hbad := parselit_cases [backslash, 'u'.toUInt8] (d.skip 4 t)
    case inr => exact .inr hbad.bind
    rw [Rejects, bind_ok (parselit_ok ht), ← Rejects]
    obtain ⟨digits', l, t'', hhex', hd'⟩ | hbad := codepoint_cases ((d.skip 4 t).skip 2 t')
    case inr => exact .inr hbad.bind
    rw [Rejects]
    cases hlow : Unicode.isLow l with
    | false =>
      refine .inr (Rejects.of_bind (codepoint_hex4 hhex' hd') ?_)
      rw [hlow, if_neg (by decide)]
      exact (rejects_err _ _ _).bind
    | true =>
      have hh : 0xd800 ≤ n ∧ n ≤ 0xdbff := by simpa [Unicode.isHigh] using hhigh
      have hl : 0xdc00 ≤ l ∧ l ≤ 0xdfff := by simpa [Unicode.isLow] using hlow
      have hn : (Char.ofNat (0x10000 + (n - 0xd800) * 0x400 + (l - 0xdc00))).toNat =
          0x10000 + (n - 0xd800) * 0x400 + (l - 0xdc00) := by
        rw [Char.ofNat, dif_pos (by unfold Nat.isValidChar; omega)]
        rfl
      refine .inl ⟨_, _, t'', .pair hhex hhex' hh hl hn, ?_⟩
      have ht : t = [backslash, 'u'.toUInt8] ++ t' := ht
      have hd' : t' = digits' ++ t'' := hd'
      rw [hd, ht, hd']
      simp

/-- None of them is the start of `\u`. -/
theorem shortEscapes_ne : ∀ p ∈ shortEscapes, p.1 ≠ 'u'.toUInt8 := by
  have hall : (shortEscapes.all fun p => p.1 != 'u'.toUInt8) = true := by decide
  exact fun p hp => bne_iff_ne.mp (List.all_eq_true.mp hall p hp)

/-- Each of them stands for one character. -/
theorem shortEscapes_unique : ∀ p ∈ shortEscapes, ∀ q ∈ shortEscapes, p.1 = q.1 → p.2 = q.2 := by
  have hall : (shortEscapes.all fun p => shortEscapes.all fun q => p.1 != q.1 || p.2 == q.2) = true := by decide
  intro p hp q hq heq
  have hpq := List.all_eq_true.mp (List.all_eq_true.mp hall p hp) q hq
  rw [Bool.or_eq_true, beq_iff_eq] at hpq
  exact hpq.resolve_left (by simp [heq])

theorem escape_ok {c x : UInt8} (h : (c, x) ∈ shortEscapes) (hd : d.rest = c :: t) :
    escape d = .ok (x, d.skip 1 t) := by
  rw [escape, bind_ok (next_skip hd)]
  simp only [shortEscapes, List.mem_cons, List.not_mem_nil, or_false, Prod.mk.injEq] at h
  obtain ⟨rfl, rfl⟩ | ⟨rfl, rfl⟩ | ⟨rfl, rfl⟩ | ⟨rfl, rfl⟩ | ⟨rfl, rfl⟩ | ⟨rfl, rfl⟩ | ⟨rfl, rfl⟩ | ⟨rfl, rfl⟩ := h <;> rfl

theorem escape_cases {c : UInt8} (hd : d.rest = c :: t) : (∃ x, (c, x) ∈ shortEscapes) ∨ Rejects escape d := by
  by_cases h : ∃ x, (c, x) ∈ shortEscapes
  · exact .inl h
  · simp only [shortEscapes, List.mem_cons, List.not_mem_nil, or_false, Prod.mk.injEq, exists_or, exists_eq_right,
      not_or] at h
    obtain ⟨h₁, h₂, h₃, h₄, h₅, h₆, h₇, h₈⟩ := h
    refine .inr (Rejects.of_bind (next_skip hd) ?_)
    rw [if_neg h₁, if_neg h₂, if_neg h₃, if_neg h₄, if_neg h₅, if_neg h₆, if_neg h₇, if_neg h₈]
    exact rejects_err _ _ _

end Escapes

/-! ### The rounds of the loop -/

section Rounds

variable {d : Jsondec} {e v t buf : List UInt8} {n : Nat} {b c : UInt8}

theorem stringLoop_cons (h : d.rest = b :: t) : stringLoop (n + 1) buf d = (do
    if b = quote then return buf
    else if b = backslash then
      if ← atEnd then err "EOF inside string"
      else if (← deref) = 'u'.toUInt8 then
        advance 1
        stringLoop n (buf ++ (← unicode))
      else stringLoop n (buf ++ [← escape])
    else if (← deref) < 0x20 then err "Invalid char in JSON string"
    else stringLoop n (buf ++ [b]) : JsonM (List UInt8)) (d.skip 1 t) := by
  have hend : atEnd d = .ok (false, d) := by
    rw [atEnd, h]
    rfl
  rw [stringLoop, bind_ok hend, if_neg (by decide), bind_ok (next_skip h)]

theorem deref_cons {d : Jsondec} (h : d.rest = b :: t) : deref d = .ok (b, d) := by
  rw [deref, h]

theorem round_quote (h : d.rest = quote :: t) : stringLoop (n + 1) buf d = .ok (buf, d.skip 1 t) := by
  rw [stringLoop_cons h, if_pos rfl]
  rfl

theorem round_byte (buf : List UInt8) (hq : b ≠ quote) (hs : b ≠ backslash) (h : d.rest = b :: c :: t) (hc : 0x20 ≤ c) :
    stringLoop (n + 1) buf d = stringLoop n (buf ++ [b]) (d.skip 1 (c :: t)) := by
  rw [stringLoop_cons h, if_neg hq, if_neg hs, bind_ok (deref_cons rfl), if_neg (UInt8.not_lt.mpr hc)]

theorem round_control (buf : List UInt8) (hq : b ≠ quote) (hs : b ≠ backslash) (h : d.rest = b :: c :: t) (hc : c < 0x20) :
    Rejects (stringLoop (n + 1) buf) d := by
  rw [Rejects, stringLoop_cons h, if_neg hq, if_neg hs, bind_ok (deref_cons rfl), if_pos hc]
  exact rejects_err _ _ _

/-- The byte behind the last one is read. -/
theorem round_overrun (hq : b ≠ quote) (hs : b ≠ backslash) (h : d.rest = [b]) :
    stringLoop (n + 1) buf d = .error .overrun := by
  rw [stringLoop_cons h, if_neg hq, if_neg hs]
  exact bind_error rfl

theorem round_escape (buf : List UInt8) (he : Escape e v) (h : d.rest = e ++ t) :
    stringLoop (n + 1) buf d = stringLoop n (buf ++ v) (d.skip e.length t) := by
  cases he with
  | @short c x hmem =>
    have h : d.rest = backslash :: c :: t := h
    have hu : c ≠ 'u'.toUInt8 := shortEscapes_ne _ hmem
    rw [stringLoop_cons h, if_neg (by decide), if_pos rfl, bind_ok rfl, if_neg (by simp), bind_ok (deref_cons rfl),
      if_neg hu, bind_ok (escape_ok hmem rfl), skip_skip]
    rfl
  | @unicode e v hunicode =>
    have h : d.rest = backslash :: 'u'.toUInt8 :: (e ++ t) := h
    have hadvance : advance 1 (d.skip 1 ('u'.toUInt8 :: (e ++ t))) =
        .ok ((), (d.skip 1 ('u'.toUInt8 :: (e ++ t))).skip 1 (e ++ t)) := rfl
    rw [stringLoop_cons h, if_neg (by decide), if_pos rfl, bind_ok rfl, if_neg (by simp), bind_ok (deref_cons rfl),
      if_pos rfl, bind_ok hadvance, bind_ok (unicode_ok hunicode rfl), skip_skip, skip_skip]
    simp [Nat.add_comm, Nat.add_left_comm]

theorem round_malformed (h : d.rest = backslash :: t) (hbad : ∀ e v s, Escape e v → backslash :: t ≠ e ++ s) :
    Rejects (stringLoop (n + 1) buf) d := by
  rw [Rejects, stringLoop_cons h, if_neg (by decide), if_pos rfl, ← Rejects]
  cases t with
  | nil => exact Rejects.of_bind (a := true) rfl (by rw [if_pos rfl]; exact rejects_err _ _ _)
  | cons c t =>
    refine Rejects.of_bind (a := false) rfl ?_
    rw [if_neg (by decide)]
    refine Rejects.of_bind (deref_cons rfl) ?_
    by_cases hu : c = 'u'.toUInt8
    · rw [if_pos hu]
      refine Rejects.of_bind (s := (d.skip 1 (c :: t)).skip 1 t) rfl ?_
      obtain ⟨e, v, s, he, hs⟩ | hrejects := unicode_cases ((d.skip 1 (c :: t)).skip 1 t)
      · refine absurd ?_ (hbad _ _ s (.unicode he))
        have hs : t = e ++ s := hs
        rw [hu, hs]
        rfl
      · exact hrejects.bind
    · rw [if_neg hu]
      obtain ⟨x, hx⟩ | hrejects := escape_cases (d := d.skip 1 (c :: t)) rfl
      · exact absurd rfl (hbad _ _ t (.short hx))
      · exact hrejects.bind

end Rounds

/-! ### What the loop does -/

/-- A byte that is read as it stands, or an escape and what it stands for. -/
inductive StringItem where
  | byte (b : UInt8)
  | escape (text value : List UInt8)
  deriving DecidableEq

/-- The bytes and escapes of a text up to the first quote, the first malformed escape or the end, and the rest. -/
inductive Cut : List UInt8 → List StringItem → List UInt8 → Prop where
  | nil : Cut [] [] []
  | quote {t : List UInt8} : Cut (quote :: t) [] (quote :: t)
  | malformed {t : List UInt8} (h : ∀ e v s, Escape e v → backslash :: t ≠ e ++ s) :
      Cut (backslash :: t) [] (backslash :: t)
  | byte {b : UInt8} {t r : List UInt8} {its : List StringItem} (hq : b ≠ Jsondec.quote) (hs : b ≠ backslash)
      (h : Cut t its r) : Cut (b :: t) (.byte b :: its) r
  | escape {e v t r : List UInt8} {its : List StringItem} (he : Escape e v) (h : Cut t its r) :
      Cut (e ++ t) (.escape e v :: its) r

namespace StringItem

/-- What an item stands for. -/
def value : StringItem → List UInt8
  | .byte b => [b]
  | .escape _ v => v

/-- The item is a control character. -/
def IsControl : StringItem → Prop
  | .byte b => b < 0x20
  | .escape _ _ => False

instance (it : StringItem) : Decidable it.IsControl := by
  cases it <;> unfold IsControl <;> infer_instance

end StringItem

/-- No control character is directly behind a byte. `behind` says whether the first item is. -/
def NoneBehind : Bool → List StringItem → Prop
  | _, [] => True
  | behind, .byte b :: its => (behind = true → 0x20 ≤ b) ∧ NoneBehind true its
  | _, .escape _ _ :: its => NoneBehind false its

/-- The last item is a byte. -/
def EndsInByte (its : List StringItem) : Prop := ∃ b, its.getLast? = some (.byte b)

/-- **What is cut from a text slips through**: no control character is behind a byte, and there is one in front of a
quote, or the input ends behind a byte. -/
def Slips (its : List StringItem) (r : List UInt8) : Prop :=
  NoneBehind false its ∧ ((r.head? = some quote ∧ ∃ it ∈ its, it.IsControl) ∨ (r = [] ∧ EndsInByte its))

section Loop

variable {d : Jsondec} {text r buf : List UInt8} {its : List StringItem} {n : Nat} {b c : UInt8}

/-- What the loop of `jsondec_string` does with a text that is cut into `its` and `r`. -/
structure LoopEnds (x : JsonM (List UInt8)) (d : Jsondec) (buf : List UInt8) (its : List StringItem)
    (r : List UInt8) : Prop where
  accepts : NoneBehind false its → ∀ tail, r = quote :: tail →
    ∃ k, x d = .ok (buf ++ its.flatMap StringItem.value, d.skip k tail)
  overruns : NoneBehind false its → r = [] → EndsInByte its → x d = .error .overrun
  ends : r = [] → ¬EndsInByte its → Rejects x d
  malformed : NoneBehind false its → ∀ t, r = backslash :: t → Rejects x d
  control : ¬NoneBehind false its → Rejects x d

theorem Cut.noneBehind (h : Cut (c :: text) its r) (hc : 0x20 ≤ c) : NoneBehind true its ↔ NoneBehind false its := by
  generalize ht : c :: text = t at h
  cases h with
  | nil | quote | malformed | escape => exact Iff.rfl
  | byte =>
    obtain ⟨rfl, -⟩ := List.cons.inj ht
    simp [NoneBehind, hc]

/-- A control character is the first item. -/
theorem Cut.control (h : Cut (c :: text) its r) (hc : c < 0x20) : ¬NoneBehind true its := by
  have hne : ∀ {q : UInt8}, 0x20 ≤ q → c ≠ q := fun hq he => absurd (he ▸ hc) (UInt8.not_lt.mpr hq)
  generalize ht : c :: text = t at h
  cases h with
  | nil => cases ht
  | quote => exact absurd (List.cons.inj ht).1 (hne (by decide))
  | malformed _ => exact absurd (List.cons.inj ht).1 (hne (by decide))
  | byte _ _ _ =>
    rw [← (List.cons.inj ht).1]
    exact fun hb => absurd hc (UInt8.not_lt.mpr (hb.1 rfl))
  | escape he _ =>
    cases he with
    | short => exact absurd (List.cons.inj ht).1 (hne (by decide))
    | unicode => exact absurd (List.cons.inj ht).1 (hne (by decide))

theorem Cut.ne_nil (h : Cut (c :: text) its []) : its ≠ [] := by
  rintro rfl
  generalize ht : c :: text = t at h
  cases h
  cases ht

theorem endsInByte_cons {it : StringItem} (h : its ≠ []) : EndsInByte (it :: its) ↔ EndsInByte its := by
  obtain ⟨x, xs, rfl⟩ := List.exists_cons_of_ne_nil h
  rw [EndsInByte, EndsInByte, List.getLast?_cons_cons]

theorem endsInByte_escape {e v : List UInt8} : EndsInByte (.escape e v :: its) ↔ EndsInByte its := by
  cases its with
  | nil => simp [EndsInByte]
  | cons it its => exact endsInByte_cons (List.cons_ne_nil _ _)

theorem Escape.length_pos {e v : List UInt8} (h : Escape e v) : 0 < e.length := by
  cases h <;> exact Nat.zero_lt_succ _

theorem Cut.of_nil (h : Cut [] its r) : its = [] ∧ r = [] := by
  generalize ht : [] = t at h
  cases h with
  | nil => exact ⟨rfl, rfl⟩
  | quote | malformed | byte => cases ht
  | escape he _ =>
    have hlen := congrArg List.length ht
    have := he.length_pos
    simp only [List.length_nil, List.length_append] at hlen
    omega

/-- One round keeps what the loop does. -/
theorem LoopEnds.step {x y : JsonM (List UInt8)} {t : List UInt8} {it : StringItem} {k : Nat}
    (h : LoopEnds y (d.skip k t) (buf ++ it.value) its r) (hx : x d = y (d.skip k t))
    (hbehind : NoneBehind false (it :: its) ↔ NoneBehind false its)
    (hlast : r = [] → (EndsInByte (it :: its) ↔ EndsInByte its)) : LoopEnds x d buf (it :: its) r where
  accepts hnone tail hr := by
    obtain ⟨j, hj⟩ := h.accepts (hbehind.mp hnone) tail hr
    rw [skip_skip] at hj
    exact ⟨k + j, by rw [hx, hj, List.flatMap_cons, List.append_assoc]⟩
  overruns hnone hr hends := hx.trans (h.overruns (hbehind.mp hnone) hr ((hlast hr).mp hends))
  ends hr hends := by
    rw [Rejects, hx]
    exact h.ends hr fun hlast' => hends ((hlast hr).mpr hlast')
  malformed hnone t hr := by
    rw [Rejects, hx]
    exact h.malformed (hbehind.mp hnone) t hr
  control hnone := by
    rw [Rejects, hx]
    exact h.control fun hnone' => hnone (hbehind.mpr hnone')

/-- **The loop reads the items** up to a control character behind a byte. -/
theorem stringLoop_ends (buf : List UInt8) (h : Cut text its r) (hd : d.rest = text) (hn : text.length ≤ n) :
    LoopEnds (stringLoop n buf) d buf its r := by
  induction h generalizing d buf n with
  | nil =>
    have hempty : ¬EndsInByte [] := by simp [EndsInByte]
    refine ⟨fun _ tail h => (by cases h), fun _ _ h => absurd h hempty, fun _ _ => ?_, fun _ t h => (by cases h),
      fun h => absurd trivial h⟩
    have hend : atEnd d = .ok (true, d) := by
      rw [atEnd, hd]
      rfl
    cases n with
    | zero => exact rejects_err _ _ _
    | succ k =>
      rw [stringLoop]
      refine Rejects.of_bind hend ?_
      rw [if_pos rfl]
      exact rejects_err _ _ _
  | quote =>
    obtain ⟨k, rfl⟩ : ∃ k, n = k + 1 := ⟨n - 1, by simp at hn; omega⟩
    refine ⟨fun _ tail h => ⟨1, ?_⟩, fun _ h => (by cases h), fun h => (by cases h), fun _ t h => ?_,
      fun h => absurd trivial h⟩
    · obtain rfl := (List.cons.inj h).2
      rw [round_quote hd, List.flatMap_nil, List.append_nil]
    · exact absurd (List.cons.inj h).1 (by decide)
  | malformed hbad =>
    obtain ⟨k, rfl⟩ : ∃ k, n = k + 1 := ⟨n - 1, by simp at hn; omega⟩
    refine ⟨fun _ tail h => ?_, fun _ h => (by cases h), fun h => (by cases h), fun _ t h => round_malformed hd hbad,
      fun h => absurd trivial h⟩
    exact absurd (List.cons.inj h).1 (by decide)
  | @byte b t r its hq hs hcut ih =>
    obtain ⟨k, rfl⟩ : ∃ k, n = k + 1 := ⟨n - 1, by simp at hn; omega⟩
    cases t with
    | nil =>
      obtain ⟨rfl, rfl⟩ := hcut.of_nil
      refine ⟨fun _ tail h => (by cases h), fun _ _ _ => round_overrun hq hs hd, fun _ h => absurd ⟨b, rfl⟩ h,
        fun _ t h => (by cases h), fun h => ?_⟩
      exact absurd ⟨fun h => (by cases h), trivial⟩ h
    | cons c t =>
      by_cases hc : c < 0x20
      · have hnot : ¬NoneBehind false (.byte b :: its) := fun h => hcut.control hc h.2
        have hrejects := round_control (n := k) buf hq hs hd hc
        exact ⟨fun h => absurd h hnot, fun h => absurd h hnot, fun _ _ => hrejects, fun h => absurd h hnot,
          fun _ => hrejects⟩
      · have hc := UInt8.not_lt.mp hc
        have hround := round_byte (n := k) buf hq hs hd hc
        have hrest := ih (d := d.skip 1 (c :: t)) (buf ++ [b]) rfl (Nat.le_of_succ_le_succ hn)
        have hbehind : NoneBehind false (.byte b :: its) ↔ NoneBehind false its := by
          rw [NoneBehind, hcut.noneBehind hc]
          simp
        exact hrest.step hround hbehind fun hr => endsInByte_cons (hr ▸ hcut).ne_nil
  | @escape e v t r its he hcut ih =>
    have hlen := he.length_pos
    obtain ⟨k, rfl⟩ : ∃ k, n = k + 1 := ⟨n - 1, by simp at hn; omega⟩
    have hround := round_escape (n := k) buf he hd
    have hrest := ih (n := k) (d := d.skip e.length t) (buf ++ v) rfl (by
      simp only [List.length_append] at hn
      omega)
    exact hrest.step hround Iff.rfl fun _ => endsInByte_escape

end Loop

/-! ### The texts that are read right -/

section Right

variable {d : Jsondec} {text body tail value r : List UInt8} {its : List StringItem}

/-- Every text has bytes and escapes up to the first quote, the first malformed escape or the end. -/
theorem cut_exists (text : List UInt8) : ∃ its r, Cut text its r := by
  induction hn : text.length using Nat.strong_induction_on generalizing text with
  | _ n ih =>
    cases text with
    | nil => exact ⟨[], [], .nil⟩
    | cons b t =>
      by_cases hq : b = quote
      · exact ⟨[], b :: t, hq ▸ .quote⟩
      by_cases hs : b = backslash
      · by_cases he : ∃ e v s, Escape e v ∧ backslash :: t = e ++ s
        · obtain ⟨e, v, s, he, hes⟩ := he
          have hlen := congrArg List.length hes
          have hpos := he.length_pos
          simp only [List.length_cons, List.length_append] at hlen hn
          obtain ⟨its, r, hcut⟩ := ih s.length (by omega) s rfl
          exact ⟨.escape e v :: its, r, by rw [hs, hes]; exact .escape he hcut⟩
        · exact ⟨[], b :: t, hs ▸ .malformed fun e v s h hes => he ⟨e, v, s, h, hes⟩⟩
      · obtain ⟨its, r, hcut⟩ := ih t.length (by simp at hn; omega) t rfl
        exact ⟨.byte b :: its, r, .byte hq hs hcut⟩

/-- The inside of a JSON string is cut into items without control characters. -/
theorem JsonString.cut (h : JsonString body value) (tail : List UInt8) :
    ∃ its, Cut (body ++ quote :: tail) its (quote :: tail) ∧ (∀ it ∈ its, ¬it.IsControl) ∧
      its.flatMap StringItem.value = value := by
  induction h with
  | nil => exact ⟨[], .quote, by simp, rfl⟩
  | plain hb _ ih =>
    obtain ⟨its, hcut, hnone, hvalue⟩ := ih
    refine ⟨.byte _ :: its, .byte hb.1 hb.2.1 hcut, ?_, by rw [List.flatMap_cons, hvalue]; rfl⟩
    exact List.forall_mem_cons.mpr ⟨UInt8.not_lt.mpr hb.2.2, hnone⟩
  | @escape e v _ _ he _ ih =>
    obtain ⟨its, hcut, hnone, hvalue⟩ := ih
    refine ⟨.escape e v :: its, ?_, List.forall_mem_cons.mpr ⟨fun h => h, hnone⟩,
      by rw [List.flatMap_cons, hvalue]; rfl⟩
    rw [List.append_assoc]
    exact .escape he hcut

/-- Items without control characters in front of a quote are a JSON string. -/
theorem Cut.jsonString (h : Cut text its r) (hnone : ∀ it ∈ its, ¬it.IsControl) (hr : r = Jsondec.quote :: tail) :
    ∃ body, text = body ++ Jsondec.quote :: tail ∧ JsonString body (its.flatMap StringItem.value) := by
  induction h with
  | nil => cases hr
  | quote => exact ⟨[], hr, .nil⟩
  | malformed => exact absurd (List.cons.inj hr).1 (by decide)
  | @byte b _ _ _ hq hs _ ih =>
    obtain ⟨hb, hnone⟩ := List.forall_mem_cons.mp hnone
    obtain ⟨body, htext, hstring⟩ := ih hnone hr
    exact ⟨b :: body, by rw [htext]; rfl, .plain ⟨hq, hs, UInt8.not_lt.mp hb⟩ hstring⟩
  | @escape e _ _ _ _ he _ ih =>
    obtain ⟨body, htext, hstring⟩ := ih (List.forall_mem_cons.mp hnone).2 hr
    exact ⟨e ++ body, by rw [htext, List.append_assoc], .escape he hstring⟩

theorem Hex4.unique {digits : List UInt8} {m n : Nat} (h : Hex4 digits m) (h' : Hex4 digits n) : m = n := by
  cases h with
  | mk ha hb hc hd =>
    cases h' with
    | mk ha' hb' hc' hd' =>
      cases ha.symm.trans ha'
      cases hb.symm.trans hb'
      cases hc.symm.trans hc'
      cases hd.symm.trans hd'
      rfl

/-- A `\u` escape ends and means what it says. -/
theorem UnicodeEscape.unique {e e' v v' t t' : List UInt8} (h : UnicodeEscape e v) (h' : UnicodeEscape e' v')
    (heq : e ++ t = e' ++ t') : e = e' ∧ v = v' := by
  have hsurrogate : ∀ {digits digits' : List UInt8} {c : Char} {n : Nat} {s s' : List UInt8}, Hex4 digits c.toNat →
      Hex4 digits' n → 0xd800 ≤ n ∧ n ≤ 0xdbff → digits ++ s = digits' ++ s' → False := by
    intro digits digits' c n s s' hc hn hh heq
    obtain ⟨rfl, -⟩ := List.append_inj heq (hc.length.trans hn.length.symm)
    have hhigh := (not_surrogate c).1
    rw [hc.unique hn] at hhigh
    simp [Unicode.isHigh, hh] at hhigh
  cases h with
  | @single digits c hc =>
    cases h' with
    | @single digits' c' hc' =>
      obtain ⟨rfl, -⟩ := List.append_inj heq (hc.length.trans hc'.length.symm)
      exact ⟨rfl, by rw [Char.toNat_inj.mp (hc.unique hc')]⟩
    | pair hhigh hlow hh hl _ => exact (hsurrogate hc hhigh hh (by simpa using heq)).elim
  | @pair high low m l c hhigh hlow hh hl hc =>
    cases h' with
    | single hc' => exact (hsurrogate hc' hhigh hh (by simpa using heq.symm)).elim
    | @pair high' low' m' l' c' hhigh' hlow' hh' hl' hc' =>
      have heq : high ++ (backslash :: 'u'.toUInt8 :: (low ++ t)) = high' ++ (backslash :: 'u'.toUInt8 :: (low' ++ t')) := by
        simpa using heq
      obtain ⟨rfl, hrest⟩ := List.append_inj heq (hhigh.length.trans hhigh'.length.symm)
      obtain ⟨rfl, -⟩ := List.append_inj (List.cons.inj (List.cons.inj hrest).2).2 (hlow.length.trans hlow'.length.symm)
      rw [hhigh.unique hhigh', hlow.unique hlow', ← hc'] at hc
      exact ⟨rfl, by rw [Char.toNat_inj.mp hc]⟩

theorem Escape.unique {e e' v v' t t' : List UInt8} (h : Escape e v) (h' : Escape e' v') (heq : e ++ t = e' ++ t') :
    e = e' ∧ v = v' := by
  cases h with
  | short hmem =>
    cases h' with
    | short hmem' =>
      have hc := (List.cons.inj (List.cons.inj heq).2).1
      have hx := shortEscapes_unique _ hmem _ hmem' hc
      exact ⟨congrArg (fun c => [backslash, c]) hc, congrArg (fun x => [x]) hx⟩
    | unicode => exact absurd (List.cons.inj (List.cons.inj heq).2).1 (shortEscapes_ne _ hmem)
  | unicode hunicode =>
    cases h' with
    | short hmem' => exact absurd (List.cons.inj (List.cons.inj heq).2).1.symm (shortEscapes_ne _ hmem')
    | unicode hunicode' =>
      obtain ⟨rfl, rfl⟩ := hunicode.unique hunicode' (List.cons.inj (List.cons.inj heq).2).2
      exact ⟨rfl, rfl⟩

theorem Escape.head {e v : List UInt8} (h : Escape e v) : ∃ s, e = backslash :: s := by
  cases h <;> exact ⟨_, rfl⟩

/-- A text is cut in one way. -/
theorem Cut.unique {its' : List StringItem} {r' : List UInt8} (h : Cut text its r) (h' : Cut text its' r') :
    its = its' ∧ r = r' := by
  induction h generalizing its' r' with
  | nil => exact ⟨(h'.of_nil).1.symm, (h'.of_nil).2.symm⟩
  | @quote t =>
    generalize ht : Jsondec.quote :: t = s at h'
    cases h' with
    | nil => cases ht
    | quote => exact ⟨rfl, rfl⟩
    | malformed => exact absurd (List.cons.inj ht).1 (by decide)
    | byte hq => exact absurd (List.cons.inj ht).1.symm hq
    | escape he =>
      obtain ⟨s, rfl⟩ := he.head
      exact absurd (List.cons.inj ht).1 (by decide)
  | @malformed t hbad =>
    generalize ht : backslash :: t = s at h'
    cases h' with
    | nil => cases ht
    | quote => exact absurd (List.cons.inj ht).1 (by decide)
    | malformed => exact ⟨rfl, rfl⟩
    | byte _ hs => exact absurd (List.cons.inj ht).1.symm hs
    | escape he => exact absurd ht (hbad _ _ _ he)
  | @byte b t _ _ hq hs _ ih =>
    generalize ht : b :: t = s at h'
    cases h' with
    | nil => cases ht
    | quote => exact absurd (List.cons.inj ht).1 hq
    | malformed => exact absurd (List.cons.inj ht).1 hs
    | byte _ _ h' =>
      obtain ⟨rfl, rfl⟩ := List.cons.inj ht
      obtain ⟨rfl, rfl⟩ := ih h'
      exact ⟨rfl, rfl⟩
    | escape he =>
      obtain ⟨s, rfl⟩ := he.head
      exact absurd (List.cons.inj ht).1 hs
  | @escape e v t _ _ he _ ih =>
    generalize ht : e ++ t = s at h'
    cases h' with
    | nil =>
      obtain ⟨s, rfl⟩ := he.head
      cases ht
    | quote =>
      obtain ⟨s, rfl⟩ := he.head
      exact absurd (List.cons.inj ht).1 (by decide)
    | malformed hbad => exact absurd ht.symm (hbad _ _ _ he)
    | byte _ hs =>
      obtain ⟨s, rfl⟩ := he.head
      exact absurd (List.cons.inj ht).1.symm hs
    | escape he' h' =>
      obtain ⟨rfl, rfl⟩ := he.unique he' ht
      obtain ⟨rfl, rfl⟩ := ih (List.append_cancel_left ht ▸ h')
      exact ⟨rfl, rfl⟩

/-- A text is cut at its end, at a quote or at a malformed escape. -/
theorem Cut.rest_cases (h : Cut text its r) :
    r = [] ∨ (∃ tail, r = Jsondec.quote :: tail) ∨ ∃ t, r = backslash :: t := by
  induction h with
  | nil => exact .inl rfl
  | quote => exact .inr (.inl ⟨_, rfl⟩)
  | malformed => exact .inr (.inr ⟨_, rfl⟩)
  | byte _ _ _ ih => exact ih
  | escape _ _ ih => exact ih

theorem noneBehind_of_forall (h : ∀ it ∈ its, ¬it.IsControl) (behind : Bool) : NoneBehind behind its := by
  induction its generalizing behind with
  | nil => trivial
  | cons it its ih =>
    obtain ⟨hit, hits⟩ := List.forall_mem_cons.mp h
    cases it with
    | byte b => exact ⟨fun _ => UInt8.not_lt.mp hit, ih hits true⟩
    | escape => exact ih hits false

/-- White space is skipped. -/
theorem skipws_spaces {space : List UInt8} {b : UInt8} (hspace : ∀ c ∈ space, IsSpace c) (hb : ¬IsSpace b)
    (hd : d.rest = space ++ b :: text) : ∃ d', skipws d = .ok ((), d') ∧ d'.rest = b :: text := by
  suffices hloop : ∀ d, ∃ d', skipwsLoop d (space ++ b :: text) = .ok d' ∧ d'.rest = b :: text by
    obtain ⟨d', hd', hrest⟩ := hloop d
    exact ⟨d', by rw [skipws, hd, hd'], hrest⟩
  clear hd
  induction space with
  | nil =>
    intro d
    refine ⟨{ d with rest := b :: text }, ?_, rfl⟩
    rw [List.nil_append, skipwsLoop, if_neg fun h => hb (.inl h), if_neg fun h => hb (.inr h)]
  | cons c space ih =>
    intro d
    obtain ⟨hc, hspace⟩ := List.forall_mem_cons.mp hspace
    rw [List.cons_append, skipwsLoop]
    by_cases hn : c = '\n'.toUInt8
    · rw [if_pos hn]
      exact ih hspace _
    · rw [if_neg hn, if_pos (hc.resolve_left hn)]
      exact ih hspace _

/-- There is only white space in front of the end. -/
theorem skipws_end (h : ∀ c ∈ d.rest, IsSpace c) : Rejects skipws d := by
  suffices hloop : ∀ (space : List UInt8) (d : Jsondec), (∀ c ∈ space, IsSpace c) →
      ∃ line column fmt args, skipwsLoop d space = .error (.error line column fmt args) by
    obtain ⟨line, column, fmt, args, hd⟩ := hloop d.rest d h
    exact ⟨line, column, fmt, args, by rw [skipws, hd]⟩
  intro space
  induction space with
  | nil => exact fun d _ => ⟨_, _, _, _, rfl⟩
  | cons c space ih =>
    intro d hspace
    obtain ⟨hc, hspace⟩ := List.forall_mem_cons.mp hspace
    rw [skipwsLoop]
    by_cases hn : c = '\n'.toUInt8
    · rw [if_pos hn]
      exact ih _ hspace
    · rw [if_neg hn, if_pos (hc.resolve_left hn)]
      exact ih _ hspace

instance (b : UInt8) : Decidable (IsSpace b) := inferInstanceAs (Decidable (_ ∨ _))

theorem spaces_cases (text : List UInt8) : (∀ c ∈ text, IsSpace c) ∨
    ∃ space b t, (∀ c ∈ space, IsSpace c) ∧ ¬IsSpace b ∧ text = space ++ b :: t := by
  induction text with
  | nil => exact .inl (by simp)
  | cons c text ih =>
    by_cases hc : IsSpace c
    · obtain hall | ⟨space, b, t, hspace, hb, rfl⟩ := ih
      · exact .inl (List.forall_mem_cons.mpr ⟨hc, hall⟩)
      · exact .inr ⟨c :: space, b, t, List.forall_mem_cons.mpr ⟨hc, hspace⟩, hb, rfl⟩
    · exact .inr ⟨[], c, text, by simp, hc, rfl⟩

theorem spaces_unique {space space' : List UInt8} {b b' : UInt8} {t t' : List UInt8} (h : ∀ c ∈ space, IsSpace c)
    (h' : ∀ c ∈ space', IsSpace c) (hb : ¬IsSpace b) (hb' : ¬IsSpace b') (heq : space ++ b :: t = space' ++ b' :: t') :
    b = b' ∧ t = t' := by
  induction space generalizing space' with
  | nil =>
    cases space' with
    | nil => exact List.cons.inj heq
    | cons c _ => exact absurd (h' c List.mem_cons_self) ((List.cons.inj heq).1 ▸ hb)
  | cons c space ih =>
    cases space' with
    | nil => exact absurd (h c List.mem_cons_self) ((List.cons.inj heq).1 ▸ hb')
    | cons c' space' =>
      exact ih (List.forall_mem_cons.mp h).2 (List.forall_mem_cons.mp h').2 (List.cons.inj heq).2

/-- Behind white space and a quote the loop starts. -/
theorem string_loop (space : List UInt8) (hspace : ∀ c ∈ space, IsSpace c) (hd : d.rest = space ++ quote :: text) :
    ∃ d', d'.rest = text ∧ string d = stringLoop text.length [] d' := by
  obtain ⟨d₁, hskip, hrest⟩ := skipws_spaces hspace (by decide) hd
  refine ⟨d₁.skip 1 text, rfl, ?_⟩
  rw [string, bind_ok hskip, bind_ok (next_skip hrest), if_neg fun h => h rfl, bind_ok rfl]
  rfl

/-- There is no quote behind the white space. -/
theorem string_rejects {space t : List UInt8} {b : UInt8} (hspace : ∀ c ∈ space, IsSpace c) (hb : ¬IsSpace b)
    (hq : b ≠ quote) (hd : d.rest = space ++ b :: t) : Rejects string d := by
  obtain ⟨d₁, hskip, hrest⟩ := skipws_spaces hspace hb hd
  rw [string]
  refine Rejects.of_bind hskip (Rejects.of_bind (next_skip hrest) ?_)
  rw [if_pos hq]
  exact rejects_err _ _ _

/-- The JSON string behind white space and a quote. -/
theorem jsonToken_iff {space : List UInt8} (hspace : ∀ c ∈ space, IsSpace c) (hd : d.rest = space ++ quote :: text)
    (hcut : Cut text its r) : JsonToken d.rest value tail ↔
      r = quote :: tail ∧ (∀ it ∈ its, ¬it.IsControl) ∧ value = its.flatMap StringItem.value := by
  constructor
  · rintro ⟨space', body, hspace', heq, hbody⟩
    obtain ⟨-, rfl⟩ := spaces_unique hspace hspace' (by decide) (by decide) (hd.symm.trans heq)
    obtain ⟨its', hcut', hnone, hvalue⟩ := hbody.cut tail
    obtain ⟨rfl, rfl⟩ := hcut.unique hcut'
    exact ⟨rfl, hnone, hvalue.symm⟩
  · rintro ⟨hr, hnone, rfl⟩
    obtain ⟨body, rfl, hbody⟩ := hcut.jsonString hnone hr
    exact ⟨space, body, hspace, hd, hbody⟩

/-- A text that slips is accepted though it is no JSON string, or the byte behind its end is read. -/
theorem Slips.not_right (h : Slips its r) (space : List UInt8) (hspace : ∀ c ∈ space, IsSpace c)
    (hd : d.rest = space ++ quote :: text) (hcut : Cut text its r) : ¬StringRight d := by
  intro hright
  obtain ⟨d₁, hrest, hloop⟩ := string_loop space hspace hd
  have hends := stringLoop_ends [] hcut hrest (Nat.le_refl _)
  obtain ⟨hnone, ⟨hquote, it, hit, hcontrol⟩ | ⟨hr, hbyte⟩⟩ := h
  · obtain ⟨tail, rfl⟩ : ∃ tail, r = quote :: tail := by
      obtain rfl | ⟨tail, rfl⟩ | ⟨t, rfl⟩ := hcut.rest_cases
      · cases hquote
      · exact ⟨tail, rfl⟩
      · exact absurd (Option.some.inj hquote) (by decide)
    obtain ⟨k, hk⟩ := hends.accepts hnone tail rfl
    have htoken := (hright.accepts _ tail).mp ⟨_, hloop.trans hk, rfl⟩
    exact ((jsonToken_iff hspace hd hcut).mp htoken).2.1 it hit hcontrol
  · exact hright.inside (hloop.trans (hends.overruns hnone hr hbyte))

/-- A text that does not slip is read right. -/
theorem right_of_not_slips {space : List UInt8} (h : ¬Slips its r) (hspace : ∀ c ∈ space, IsSpace c)
    (hd : d.rest = space ++ quote :: text) (hcut : Cut text its r) : StringRight d := by
  obtain ⟨d₁, hrest, hloop⟩ := string_loop space hspace hd
  have hends := stringLoop_ends [] hcut hrest (Nat.le_refl _)
  by_cases hright : NoneBehind false its ∧ ∃ tail, r = quote :: tail
  · obtain ⟨hnone, t, rfl⟩ := hright
    obtain ⟨k, hk⟩ := hends.accepts hnone t rfl
    have hplain : ∀ it ∈ its, ¬it.IsControl := fun it hit hc => h ⟨hnone, .inl ⟨rfl, it, hit, hc⟩⟩
    refine ⟨fun value tail => ?_, fun hover => ?_⟩
    · rw [jsonToken_iff hspace hd hcut, hloop, hk]
      constructor
      · rintro ⟨d', hd', rfl⟩
        cases hd'
        exact ⟨rfl, hplain, rfl⟩
      · rintro ⟨ht, -, rfl⟩
        exact ⟨_, rfl, (List.cons.inj ht).2⟩
    · rw [hloop, hk] at hover
      cases hover
  · have hrejects : Rejects string d := by
      rw [Rejects, hloop, ← Rejects]
      by_cases hnone : NoneBehind false its
      · obtain hr | htail | ⟨t, ht⟩ := hcut.rest_cases
        · exact hends.ends hr fun hbyte => h ⟨hnone, .inr ⟨hr, hbyte⟩⟩
        · exact absurd ⟨hnone, htail⟩ hright
        · exact hends.malformed hnone t ht
      · exact hends.control hnone
    refine ⟨fun value tail => ⟨fun ⟨d', hd', _⟩ => (hrejects.not_ok hd').elim, fun htoken => ?_⟩, fun hover => ?_⟩
    · obtain ⟨hr, hplain, -⟩ := (jsonToken_iff hspace hd hcut).mp htoken
      exact absurd ⟨noneBehind_of_forall hplain false, tail, hr⟩ hright
    · obtain ⟨line, column, fmt, args, hd'⟩ := hrejects
      cases hover.symm.trans hd'

/-- **`jsondec_string` accepts exactly the JSON strings, and reads no byte behind the input**, unless the text behind the
opening quote slips. -/
theorem string_right_iff (d : Jsondec) : StringRight d ↔
    ∀ space text its r, (∀ c ∈ space, IsSpace c) → d.rest = space ++ quote :: text → Cut text its r → ¬Slips its r := by
  constructor
  · exact fun hright space text its r hspace hd hcut hslips => hslips.not_right space hspace hd hcut hright
  intro h
  by_cases hquote : ∃ space text, (∀ c ∈ space, IsSpace c) ∧ d.rest = space ++ quote :: text
  · obtain ⟨space, text, hspace, hd⟩ := hquote
    obtain ⟨its, r, hcut⟩ := cut_exists text
    exact right_of_not_slips (h space text its r hspace hd hcut) hspace hd hcut
  · have hrejects : Rejects string d := by
      obtain hall | ⟨space, b, t, hspace, hb, hd⟩ := spaces_cases d.rest
      · exact (skipws_end hall).bind
      · exact string_rejects hspace hb (fun hq => hquote ⟨space, t, hspace, hq ▸ hd⟩) hd
    refine ⟨fun value tail => ⟨fun ⟨d', hd', _⟩ => (hrejects.not_ok hd').elim, fun htoken => ?_⟩, fun hover => ?_⟩
    · obtain ⟨space, body, hspace, hd, -⟩ := htoken
      exact absurd ⟨space, _, hspace, hd⟩ hquote
    · obtain ⟨line, column, fmt, args, hd'⟩ := hrejects
      cases hover.symm.trans hd'

/-- A control character directly behind the opening quote is accepted. -/
theorem not_string_right : ¬∀ d : Jsondec, StringRight d := by
  intro hright
  have hcut : Cut [1, quote] [.byte 1] [quote] := .byte (by decide) (by decide) .quote
  have hslips : Slips [.byte 1] [quote] := ⟨⟨nofun, trivial⟩, .inl ⟨rfl, .byte 1, by simp, show (1 : UInt8) < 0x20 by decide⟩⟩
  exact hslips.not_right [] (by simp) rfl hcut (hright { rest := [quote, 1, quote] })

end Right

end Jsondec

end Hpb
