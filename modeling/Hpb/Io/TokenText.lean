import Mathlib.Data.Nat.Digits.Defs
import Hpb.Io.TokenizerChunks

/-!
# The texts of numbers and strings

What a program of the tokenizer takes (`Takes`), as a list of characters, and with it the texts of two types of
tokens:

* `IntegerText`: the text of an integer, with the integer,
* `StringText`: the text of a string, with the escapes that `ConsumeString` lets through,
* `text_of_read`: the tokens of an input have such texts.
-/

namespace Hpb

open Tokenizer

/-- The characters `bs` are taken, and appended to the text if it is recorded. -/
structure Cursor.Took (f : Cursor) (bs : List UInt8) (f' : Cursor) : Prop where
  rest : f.rest = bs ++ f'.rest
  recording : f'.recording = f.recording
  text : f.recording = true → f'.text = f.text ++ bs

namespace Cursor.Took

variable {f f' f'' : Cursor} {bs bs' : List UInt8}

theorem refl (f : Cursor) : f.Took [] f := ⟨rfl, rfl, fun _ => (List.append_nil _).symm⟩

theorem trans (h : f.Took bs f') (h' : f'.Took bs' f'') : f.Took (bs ++ bs') f'' where
  rest := by rw [h.rest, h'.rest, List.append_assoc]
  recording := h'.recording.trans h.recording
  text hrec := by rw [h'.text (h.recording.trans hrec), h.text hrec, List.append_assoc]

theorem next (f : Cursor) : f.Took (f.rest.take 1) f.nextChar := by
  refine ⟨?_, rfl, fun hrec => if_pos hrec⟩
  change f.rest = f.rest.take 1 ++ f.rest.tail
  rw [← List.drop_one, List.take_append_drop]

/-- A character that is not the end of the input. -/
theorem nextChar (h : f.currentChar ≠ 0) : f.Took [f.currentChar] f.nextChar := by
  obtain ⟨c, cs, hrest⟩ := List.exists_cons_of_ne_nil (rest_ne_nil h)
  have htook := next f
  have hone : f.rest.take 1 = [f.currentChar] := by
    rw [Cursor.currentChar, hrest]
    rfl
  rwa [hone] at htook

end Cursor.Took

/-- What a program takes and returns, unless it fails. -/
abbrev Takes {α : Type} (x : TokM α) (f : Cursor) (Q : List UInt8 → α → Prop) : Prop :=
  Client.Wp Cursor.serve (fun _ => True) x f fun a f' => ∃ bs, f.Took bs f' ∧ Q bs a

namespace Takes

variable {α β : Type} {x : TokM α} {f : Cursor} {P Q : List UInt8 → α → Prop} {R : List UInt8 → β → Prop}
  {p : UInt8 → Bool}

theorem pure {a : α} (h : Q [] a) : Takes (pure a) f Q := Client.Wp.pure ⟨[], .refl f, h⟩

theorem imp (hx : Takes x f P) (h : ∀ bs a, P bs a → Q bs a) : Takes x f Q :=
  Client.Wp.imp hx fun a _ ⟨bs, htook, hp⟩ => ⟨bs, htook, h bs a hp⟩

theorem bind {g : α → TokM β} (hx : Takes x f Q)
    (hg : ∀ bs a f', Q bs a → Takes (g a) f' fun bs' b => R (bs ++ bs') b) : Takes (x >>= g) f R :=
  Client.Wp.bind hx fun a f' ⟨bs, htook, hq⟩ =>
    Client.Wp.imp (hg bs a f' hq) fun _ _ ⟨bs', htook', hr⟩ => ⟨bs ++ bs', htook.trans htook', hr⟩

/-- A program that goes one of two ways. -/
theorem cond {x : TokM Bool} {y z : TokM β} {Q : List UInt8 → Bool → Prop} (hx : Takes x f Q)
    (hy : ∀ bs f', Q bs true → Takes y f' fun bs' b => R (bs ++ bs') b)
    (hz : ∀ bs f', Q bs false → Takes z f' fun bs' b => R (bs ++ bs') b) :
    Takes (x >>= fun r => if r = true then y else z) f R :=
  bind hx fun bs r f' hq => match r, hq with
    | true, hq => hy bs f' hq
    | false, hq => hz bs f' hq

theorem fail (e : TokFailure) : Takes (Client.fail e) f Q := trivial

theorem reportError (msg : String) : Takes (Tokenizer.reportError msg) f Q :=
  Client.Wp.request_bind rfl (Client.Wp.request_bind rfl (Client.Wp.fail trivial))

theorem currentChar {g : UInt8 → TokM β} (hg : Takes (g f.currentChar) f R) :
    Takes (Tokenizer.currentChar >>= g) f R :=
  Client.Wp.request_bind rfl hg

/-- After a character that is not the end of the input. -/
theorem nextChar {g : TokM β} (hc : f.currentChar ≠ 0)
    (hg : ∀ f', Takes g f' fun bs b => R (f.currentChar :: bs) b) :
    Takes (Tokenizer.nextChar >>= fun _ => g) f R :=
  Client.Wp.request_bind rfl (Client.Wp.imp (hg f.nextChar) fun _ _ ⟨bs, htook, hr⟩ =>
    ⟨f.currentChar :: bs, (Cursor.Took.nextChar hc).trans htook, hr⟩)

theorem lookingAt (p : UInt8 → Bool) : Takes (Tokenizer.lookingAt p) f fun bs _ => bs = [] :=
  currentChar (pure rfl)

/-- A character of a class is taken, or nothing is. -/
theorem tryConsumeOne (hp : p 0 = false) :
    Takes (Tokenizer.tryConsumeOne p) f fun bs r =>
      r = true ∧ (∃ c, bs = [c] ∧ p c = true) ∨ r = false ∧ bs = [] := by
  refine currentChar ?_
  cases hc : p f.currentChar with
  | true =>
    have hne : f.currentChar ≠ 0 := fun hzero => by simp [hzero, hp] at hc
    exact nextChar hne fun f' => pure (.inl ⟨rfl, f.currentChar, rfl, hc⟩)
  | false => exact pure (.inr ⟨rfl, rfl⟩)

/-- After a character of a class, or without it. -/
theorem consumeOne {y z : TokM β} (hp : p 0 = false)
    (hy : p f.currentChar = true → ∀ f', Takes y f' fun bs b => R (f.currentChar :: bs) b)
    (hz : p f.currentChar = false → Takes z f R) :
    Takes (Tokenizer.tryConsumeOne p >>= fun r => if r = true then y else z) f R := by
  cases hc : p f.currentChar with
  | true =>
    have hne : f.currentChar ≠ 0 := fun hzero => by simp [hzero, hp] at hc
    refine tryConsumeOne_true hc (Client.Wp.imp (hy hc f.nextChar) ?_)
    rintro b f' ⟨bs, htook, hr⟩
    exact ⟨f.currentChar :: bs, (Cursor.Took.nextChar hne).trans htook, hr⟩
  | false => exact tryConsumeOne_false hc (hz hc)

/-- After a given character, or without it. -/
theorem consume {c : UInt8} {y z : TokM β} (hc : c ≠ 0) (hy : ∀ f', Takes y f' fun bs b => R (c :: bs) b)
    (hz : f.currentChar ≠ c → Takes z f R) :
    Takes (Tokenizer.tryConsume c >>= fun r => if r = true then y else z) f R :=
  consumeOne (beq_eq_false_iff_ne.mpr hc.symm) (fun heq => beq_iff_eq.mp heq ▸ hy) fun hne =>
    hz (beq_eq_false_iff_ne.mp hne)

theorem consumeZeroOrMore (hp : p 0 = false) (fuel : Nat) :
    Takes (Tokenizer.consumeZeroOrMore p fuel) f fun bs _ => ∀ c ∈ bs, p c = true := by
  induction fuel generalizing f with
  | zero => exact fail _
  | succ fuel ih =>
    refine consumeOne hp (fun hc _ => ih.imp fun bs _ hbs => ?_) fun _ => pure nofun
    exact List.forall_mem_cons.mpr ⟨hc, hbs⟩

theorem consumeOneOrMore (hp : p 0 = false) (msg : String) (fuel : Nat) :
    Takes (Tokenizer.consumeOneOrMore p msg fuel) f fun bs _ => bs ≠ [] ∧ ∀ c ∈ bs, p c = true :=
  consumeOne hp (fun hc _ => (consumeZeroOrMore hp fuel).imp fun _ _ hbs =>
    ⟨List.cons_ne_nil _ _, List.forall_mem_cons.mpr ⟨hc, hbs⟩⟩) fun _ => reportError msg

/-- Nothing is taken of a class to which the character at hand does not belong. -/
theorem consumeZeroOrMore_none (hc : p f.currentChar = false) (fuel : Nat) :
    Takes (Tokenizer.consumeZeroOrMore p fuel) f fun bs _ => bs = [] := by
  cases fuel with
  | zero => exact fail _
  | succ fuel => exact tryConsumeOne_false hc (pure rfl)

/-- One of two characters. -/
theorem consumeEither {a b : UInt8} (ha : a ≠ 0) (hb : b ≠ 0) :
    Takes (orElse (tryConsume a) (tryConsume b)) f fun bs r =>
      r = true ∧ (∃ c, bs = [c] ∧ (c = a ∨ c = b)) ∨ r = false ∧ bs = [] := by
  refine consume ha (fun _ => pure (.inl ⟨rfl, a, rfl, .inl rfl⟩)) fun _ => ?_
  refine (tryConsumeOne (p := (· == b)) (beq_eq_false_iff_ne.mpr hb.symm)).imp fun bs r h => h.imp_left ?_
  rintro ⟨rfl, c, rfl, hc⟩
  exact ⟨rfl, c, rfl, .inr (beq_iff_eq.mp hc)⟩

theorem all_true (x : TokM Bool) :
    all [Pure.pure true, x] = x >>= fun r => if r = true then Pure.pure true else Pure.pure false := rfl

/-- A test that is made only if `b` holds. -/
theorem and {x : TokM Bool} (b : Bool) (hx : Takes x f fun bs r => r = false → bs = []) :
    Takes (all [Pure.pure b, x]) f fun bs r => (r = true → b = true) ∧ (r = false → bs = []) := by
  cases b with
  | true =>
    rw [all_true]
    refine cond hx (fun bs f' _ => ?_) fun bs f' hbs => ?_
    · exact pure ⟨fun _ => rfl, fun hr => by cases hr⟩
    · exact pure ⟨fun hr => absurd hr Bool.false_ne_true, fun hr => by rw [hbs rfl]; rfl⟩
  | false => exact pure ⟨fun hr => absurd hr Bool.false_ne_true, fun _ => rfl⟩

/-- A look at the character at hand, if `b` holds. -/
theorem all_lookingAt (b : Bool) {g : Bool → TokM β} (hg : Takes (g (b && p f.currentChar)) f R) :
    Takes (all [Pure.pure b, Tokenizer.lookingAt p] >>= g) f R := by
  refine Client.Wp.bind (Q := fun r f' => r = (b && p f.currentChar) ∧ f' = f) ?_ ?_
  · cases b with
    | true =>
      refine Client.Wp.request_bind rfl ?_
      cases p f.currentChar <;> exact ⟨rfl, rfl⟩
    | false => exact ⟨rfl, rfl⟩
  · rintro _ _ ⟨rfl, rfl⟩
    exact hg

/-- A character, and then others. -/
theorem all_cons {y : TokM Bool} {xs : List (TokM Bool)} {q : UInt8 → Prop} {S : List UInt8 → Prop}
    (hy : ∀ f, Takes y f fun bs r => r = true → ∃ c, bs = [c] ∧ q c)
    (hxs : ∀ f, Takes (all xs) f fun bs r => r = true → S bs) (f : Cursor) :
    Takes (all (y :: xs)) f fun bs r => r = true → ∃ c ds, bs = c :: ds ∧ q c ∧ S ds := by
  refine cond (hy f) (fun bs f' hbs => (hxs f').imp fun ds r hds hr => ?_) fun bs f' _ => pure fun hr => by cases hr
  obtain ⟨c, rfl, hc⟩ := hbs rfl
  exact ⟨c, ds, rfl, hc, hds hr⟩

/-- Characters of one class. -/
theorem all_replicate {y : TokM Bool} (hy : ∀ f, Takes y f fun bs r => r = true → ∃ c, bs = [c] ∧ p c = true) (n : Nat)
    (f : Cursor) :
    Takes (all (List.replicate n y)) f fun bs r => r = true → bs.length = n ∧ ∀ c ∈ bs, p c = true := by
  induction n generalizing f with
  | zero => exact pure fun _ => ⟨rfl, nofun⟩
  | succ n ih =>
    refine (all_cons hy ih f).imp fun bs r h hr => ?_
    obtain ⟨c, ds, rfl, hc, hlen, hds⟩ := h hr
    exact ⟨congrArg Nat.succ hlen, List.forall_mem_cons.mpr ⟨hc, hds⟩⟩

end Takes

/-! ### Integers -/

/-- `DigitValue`: 36 is no digit in any base. -/
def digitValue (c : UInt8) : Nat :=
  if isDigit c then c.toNat - 48
  else if 'A'.toUInt8 ≤ c ∧ c ≤ 'Z'.toUInt8 then c.toNat - 65 + 10
  else if 'a'.toUInt8 ≤ c ∧ c ≤ 'z'.toUInt8 then c.toNat - 97 + 10
  else 36

/-- The number that digits denote in a base, the first one is the highest. -/
def numeral (base : Nat) (ds : List UInt8) : Nat := Nat.ofDigits base (ds.reverse.map digitValue)

/-- The text of an integer, and the integer. -/
inductive IntegerText : List UInt8 → Nat → Prop where
  | hex {x : UInt8} {ds : List UInt8} (hx : x = 'x'.toUInt8 ∨ x = 'X'.toUInt8) (hne : ds ≠ [])
    (hds : ∀ d ∈ ds, isHexDigit d = true) : IntegerText ('0'.toUInt8 :: x :: ds) (numeral 16 ds)
  | octal {ds : List UInt8} (hds : ∀ d ∈ ds, isOctalDigit d = true) :
    IntegerText ('0'.toUInt8 :: ds) (numeral 8 ds)
  | decimal {d : UInt8} {ds : List UInt8} (hd : isDigit d = true) (hzero : d ≠ '0'.toUInt8)
    (hds : ∀ d ∈ ds, isDigit d = true) : IntegerText (d :: ds) (numeral 10 (d :: ds))

namespace Takes

variable {f : Cursor}

/-- What comes after the digits of a number makes it a float. -/
theorem consumeExponent (fuel : Nat) : Takes (Tokenizer.consumeExponent fuel) f fun bs r => r = false → bs = [] := by
  refine cond (consumeEither (by decide) (by decide)) (fun bs f' _ => ?_) fun bs f' hq => ?_
  · refine bind (consumeEither (by decide) (by decide)) fun _ _ _ _ => ?_
    exact bind (consumeOneOrMore (by decide) _ _) fun _ _ _ _ => pure nofun
  · obtain ⟨hr, -⟩ | ⟨-, rfl⟩ := hq
    · cases hr
    · exact pure fun _ => rfl

theorem consumeFraction {P : List UInt8 → Prop} (fuel : Nat)
    (hdigits : Takes (Tokenizer.consumeZeroOrMore isDigit fuel) f fun bs _ => P bs) :
    Takes (Tokenizer.consumeFraction fuel false) f fun bs r => r = false → P bs := by
  refine bind hdigits fun bs _ f' hbs => ?_
  refine consume (by decide) (fun f₂ => ?_) fun f₂ => pure fun _ => by rwa [List.append_nil]
  exact bind (consumeZeroOrMore (by decide) fuel) fun _ _ _ _ => pure nofun

/-- The digits of a number that is not a float. -/
theorem consumeDecimal {P : List UInt8 → Prop} (opts : TokenizerOptions) (fuel : Nat) {dot : Bool}
    (hfraction : Takes (Tokenizer.consumeFraction fuel dot) f fun bs r => r = false → P bs) :
    Takes (do
      let fraction ← Tokenizer.consumeFraction fuel dot
      let exponent ← Tokenizer.consumeExponent fuel
      let suffix ← all [Pure.pure opts.allowFAfterFloat, orElse (tryConsume 'f'.toUInt8) (tryConsume 'F'.toUInt8)]
      return fraction || exponent || suffix) f fun bs r => r = false → P bs := by
  refine bind hfraction fun bs r f' hbs => ?_
  refine bind (consumeExponent fuel) fun bs₂ r₂ f₂ hbs₂ => ?_
  have hsuffix : Takes (orElse (tryConsume 'f'.toUInt8) (tryConsume 'F'.toUInt8)) f₂ fun bs r => r = false → bs = [] :=
    (consumeEither (by decide) (by decide)).imp fun bs r h hr => by
      obtain ⟨hr', -⟩ | ⟨-, hbs⟩ := h
      · rw [hr] at hr'
        cases hr'
      · exact hbs
  refine bind (and _ hsuffix) fun bs₃ r₃ f₃ hbs₃ => pure fun hr => ?_
  simp only [Bool.or_eq_false_iff] at hr
  rw [hbs₂ hr.1.2, hbs₃.2 hr.2]
  simpa using hbs hr.1.1

theorem consumeDigits_zero (opts : TokenizerOptions) (fuel : Nat) :
    Takes (Tokenizer.consumeDigits opts fuel true false) f fun bs r =>
      r = false → ∃ v, IntegerText ('0'.toUInt8 :: bs) v := by
  have hx : Takes (all [Pure.pure true, orElse (tryConsume 'x'.toUInt8) (tryConsume 'X'.toUInt8)]) f fun bs r =>
      r = true ∧ (∃ x, bs = [x] ∧ (x = 'x'.toUInt8 ∨ x = 'X'.toUInt8)) ∨ r = false ∧ bs = [] := by
    rw [all_true]
    refine cond (consumeEither (by decide) (by decide)) (fun bs f' hq => ?_) fun bs f' hq => ?_
    · obtain ⟨-, x, rfl, hx⟩ | ⟨hr, -⟩ := hq
      · exact pure (.inl ⟨rfl, x, rfl, hx⟩)
      · cases hr
    · obtain ⟨hr, -⟩ | ⟨-, rfl⟩ := hq
      · cases hr
      · exact pure (.inr ⟨rfl, rfl⟩)
  refine cond hx (fun bs f' hq => ?_) fun bs f' hq => ?_
  · obtain ⟨-, x, rfl, hx⟩ | ⟨hr, -⟩ := hq
    · refine bind (consumeOneOrMore (by decide) _ _) fun ds _ _ hds => pure fun _ => ?_
      rw [List.append_nil]
      exact ⟨_, .hex hx hds.1 hds.2⟩
    · cases hr
  · obtain ⟨hr, -⟩ | ⟨-, rfl⟩ := hq
    · cases hr
    refine all_lookingAt true ?_
    cases hc : isDigit f'.currentChar with
    | true =>
      refine bind (consumeZeroOrMore (p := isOctalDigit) (by decide) fuel) fun ds _ _ hds => ?_
      refine bind (lookingAt _) fun bs r f'' hbs => ?_
      cases r with
      | true => exact reportError _
      | false =>
        refine pure fun _ => ?_
        simp only [hbs, List.nil_append, List.append_nil]
        exact ⟨_, .octal hds⟩
    | false =>
      refine (consumeDecimal opts fuel (consumeFraction fuel (consumeZeroOrMore_none hc fuel))).imp fun bs r hbs hr => ?_
      rw [hbs hr]
      exact ⟨_, .octal nofun⟩

/-- The digits of a number that does not start with a zero. -/
theorem consumeDigits_decimal {P : List UInt8 → Prop} (opts : TokenizerOptions) (fuel : Nat) {dot : Bool}
    (hfraction : ∀ f, Takes (Tokenizer.consumeFraction fuel dot) f fun bs r => r = false → P bs) :
    Takes (Tokenizer.consumeDigits opts fuel false dot) f fun bs r => r = false → P bs := by
  refine cond (Q := fun bs r => r = false ∧ bs = []) (pure ⟨rfl, rfl⟩) (fun bs f' hq => (nomatch hq.1)) fun bs f' hq => ?_
  obtain ⟨-, rfl⟩ := hq
  exact all_lookingAt false (consumeDecimal opts fuel (hfraction f'))

/-- A number is an integer if its digits are not those of a float. -/
theorem consumeNumber {P : List UInt8 → Prop} (opts : TokenizerOptions) (fuel : Nat) {zero dot : Bool}
    (hdigits : Takes (Tokenizer.consumeDigits opts fuel zero dot) f fun bs r => r = false → P bs) :
    Takes (Tokenizer.consumeNumber opts fuel zero dot) f fun bs type =>
      type ≠ .string ∧ (type = .integer → P bs) := by
  refine bind hdigits fun bs r f' hbs => bind (lookingAt _) fun bs' r' f'' hbs' => ?_
  cases r' with
  | true => exact reportError _
  | false =>
    refine currentChar ?_
    split
    next => split <;> exact reportError _
    next =>
      obtain rfl := hbs'
      cases r with
      | true => exact pure ⟨nofun, nofun⟩
      | false =>
        refine pure ⟨nofun, fun _ => ?_⟩
        simpa using hbs rfl

end Takes

/-! ### Strings -/

/-- What `ConsumeString` takes after a backslash. -/
inductive EscapeText : List UInt8 → Prop where
  | simple {e : UInt8} (he : isEscape e = true) : EscapeText [e]
  | octal {d : UInt8} (hd : isOctalDigit d = true) : EscapeText [d]
  | hex {d : UInt8} (hd : isHexDigit d = true) : EscapeText ['x'.toUInt8, d]
  | unicode {ds : List UInt8} (hlen : ds.length = 4) (hds : ∀ d ∈ ds, isHexDigit d = true) :
      EscapeText ('u'.toUInt8 :: ds)
  | codePoint {d : UInt8} {ds : List UInt8} (hd : d = '0'.toUInt8 ∨ d = '1'.toUInt8) (hlen : ds.length = 5)
      (hds : ∀ d ∈ ds, isHexDigit d = true) : EscapeText ('U'.toUInt8 :: '0'.toUInt8 :: '0'.toUInt8 :: d :: ds)

/-- The text of a string between its delimiters. -/
inductive StringBody (delimiter : UInt8) : List UInt8 → Prop where
  | nil : StringBody delimiter []
  | char {c : UInt8} {bs : List UInt8} (hzero : c ≠ 0) (hline : c ≠ 10) (hescape : c ≠ 92) (hend : c ≠ delimiter)
      (h : StringBody delimiter bs) : StringBody delimiter (c :: bs)
  | escape {e bs : List UInt8} (he : EscapeText e) (h : StringBody delimiter bs) :
      StringBody delimiter (92 :: (e ++ bs))

/-- The text of a string. -/
inductive StringText : List UInt8 → Prop where
  | mk {delimiter : UInt8} {bs : List UInt8} (hd : delimiter = 34 ∨ delimiter = 39) (h : StringBody delimiter bs) :
      StringText (delimiter :: (bs ++ [delimiter]))

namespace Takes

variable {f : Cursor}

theorem hexDigit (f : Cursor) :
    Takes (Tokenizer.tryConsumeOne isHexDigit) f fun bs r => r = true → ∃ c, bs = [c] ∧ isHexDigit c = true :=
  (tryConsumeOne (by decide)).imp fun _ _ h hr => by
    obtain ⟨-, hc⟩ | ⟨hr', -⟩ := h
    · exact hc
    · rw [hr] at hr'
      cases hr'

theorem char {c : UInt8} (hc : c ≠ 0) (f : Cursor) :
    Takes (Tokenizer.tryConsume c) f fun bs r => r = true → ∃ c', bs = [c'] ∧ c' = c :=
  (tryConsumeOne (p := (· == c)) (beq_eq_false_iff_ne.mpr hc.symm)).imp fun _ _ h hr => by
    obtain ⟨-, c', hbs, hc'⟩ | ⟨hr', -⟩ := h
    · exact ⟨c', hbs, beq_iff_eq.mp hc'⟩
    · rw [hr] at hr'
      cases hr'

theorem eitherChar {a b : UInt8} (ha : a ≠ 0) (hb : b ≠ 0) (f : Cursor) :
    Takes (orElse (tryConsume a) (tryConsume b)) f fun bs r => r = true → ∃ c, bs = [c] ∧ (c = a ∨ c = b) :=
  (consumeEither ha hb).imp fun _ _ h hr => by
    obtain ⟨-, hc⟩ | ⟨hr', -⟩ := h
    · exact hc
    · rw [hr] at hr'
      cases hr'

/-- A test that is passed, or an error. -/
theorem passed {x : TokM Bool} {P : List UInt8 → Prop} (msg : String) (hx : Takes x f fun bs r => r = true → P bs) :
    Takes (x >>= fun r => if r = true then Pure.pure () else Tokenizer.reportError msg) f fun bs _ => P bs :=
  cond hx (fun bs _ hbs => pure (by rw [List.append_nil]; exact hbs rfl)) fun _ _ _ => reportError msg

theorem consumeEscape : Takes Tokenizer.consumeEscape f fun bs _ => EscapeText bs := by
  have hfirst : Takes (orElse (Tokenizer.tryConsumeOne isEscape) (Tokenizer.tryConsumeOne isOctalDigit)) f
      fun bs r => r = true ∧ EscapeText bs ∨ r = false ∧ bs = [] := by
    refine consumeOne (by decide) (fun hc _ => pure (.inl ⟨rfl, .simple hc⟩)) fun _ => ?_
    refine (tryConsumeOne (by decide)).imp fun bs r h => h.imp_left ?_
    rintro ⟨rfl, c, rfl, hc⟩
    exact ⟨rfl, .octal hc⟩
  refine cond hfirst (fun bs f' hq => ?_) fun bs f' hq => ?_
  · obtain ⟨-, hbs⟩ | ⟨hr, -⟩ := hq
    · exact pure (by rwa [List.append_nil])
    · cases hr
  obtain ⟨hr, -⟩ | ⟨-, rfl⟩ := hq
  · cases hr
  refine consume (by decide) (fun f₁ => ?_) fun _ => consume (by decide) (fun f₂ => ?_) fun _ =>
    consume (by decide) (fun f₃ => ?_) fun _ => reportError _
  · refine (passed _ (hexDigit f₁)).imp ?_
    rintro _ - ⟨d, rfl, hd⟩
    exact .hex hd
  · refine (passed _ (all_replicate hexDigit 4 f₂)).imp fun ds _ hds => ?_
    exact .unicode hds.1 hds.2
  · have hzero := char (c := '0'.toUInt8) (by decide)
    have hfirst := eitherChar (a := '0'.toUInt8) (b := '1'.toUInt8) (by decide) (by decide)
    have hdigits := all_cons hzero (all_cons hzero (all_cons hfirst (all_replicate hexDigit 5))) f₃
    refine (passed _ hdigits).imp ?_
    rintro _ - ⟨_, _, rfl, rfl, _, _, rfl, rfl, d, ds, rfl, hd, hlen, hds⟩
    exact .codePoint hd hlen hds

theorem consumeString (delimiter : UInt8) (fuel : Nat) :
    Takes (Tokenizer.consumeString delimiter fuel) f fun bs _ =>
      ∃ body, bs = body ++ [delimiter] ∧ StringBody delimiter body := by
  induction fuel generalizing f with
  | zero => exact fail _
  | succ fuel ih =>
    refine currentChar ?_
    split
    next => exact reportError _
    next hzero =>
      split
      next => exact reportError _
      next hline =>
        split
        next hescape =>
          refine nextChar hzero fun f' => bind consumeEscape fun e _ f'' he => ih.imp ?_
          rintro _ - ⟨body, rfl, hbody⟩
          rw [hescape]
          exact ⟨92 :: (e ++ body), by simp, .escape he hbody⟩
        next hescape =>
          split
          next hend =>
            refine Client.Wp.request rfl ⟨[f.currentChar], .nextChar hzero, [], ?_, .nil⟩
            rw [hend]
            rfl
          next hend =>
            refine nextChar hzero fun f' => ih.imp ?_
            rintro _ - ⟨body, rfl, hbody⟩
            exact ⟨f.currentChar :: body, rfl, .char hzero hline hescape hend hbody⟩

end Takes

/-! ### Tokens -/

/-- What the text of a token of a type is. -/
def TypedText (type : TokenType) (text : List UInt8) : Prop :=
  (type = .integer → ∃ v, IntegerText text v) ∧ (type = .string → StringText text)

namespace Takes

variable {f : Cursor}

/-- A type of token that is neither an integer nor a string. -/
theorem typed {type : TokenType} {bs : List UInt8} (hi : type ≠ .integer) (hs : type ≠ .string) : TypedText type bs :=
  ⟨fun h => absurd h hi, fun h => absurd h hs⟩

theorem consumeToken (opts : TokenizerOptions) (fuel : Nat) (previous : Token) (startLine startColumn : Int) :
    Takes (Tokenizer.consumeToken opts fuel previous startLine startColumn) f fun bs type => TypedText type bs := by
  have hstring : ∀ (delimiter : UInt8), delimiter = 34 ∨ delimiter = 39 → ∀ f', Takes (do
      Tokenizer.consumeString delimiter fuel
      return TokenType.string) f' fun bs type => TypedText type (delimiter :: bs) := by
    refine fun delimiter hd f' => bind (consumeString delimiter fuel) fun bs _ _ hbs => pure ⟨nofun, fun _ => ?_⟩
    obtain ⟨body, rfl, hbody⟩ := hbs
    rw [List.append_nil]
    exact .mk hd hbody
  refine consumeOne (by decide) (fun _ _ => ?_) fun _ => ?_
  · exact bind (consumeZeroOrMore (by decide) fuel) fun _ _ _ _ => pure (typed nofun nofun)
  refine consume (by decide) (fun _ => ?_) fun hzero => ?_
  · exact (consumeNumber opts fuel (consumeDigits_zero opts fuel)).imp fun _ _ h => ⟨h.2, fun hs => absurd hs h.1⟩
  refine consume (by decide) (fun _ => ?_) fun _ => ?_
  · refine consumeOne (by decide) (fun _ f₂ => ?_) fun _ => pure (typed nofun nofun)
    split
    next => exact bind (Q := fun _ _ => True) (Client.Wp.request rfl ⟨[], ⟨rfl, rfl, fun _ => (List.append_nil _).symm⟩,
        trivial⟩) fun _ _ _ _ => reportError _
    next =>
      -- a number that starts with a dot is a float
      have hfraction : ∀ f, Takes (Tokenizer.consumeFraction fuel true) f fun _ r => r = false → False := fun f =>
        bind (consumeZeroOrMore (by decide) fuel) fun _ _ _ _ => pure nofun
      refine (consumeNumber opts fuel (consumeDigits_decimal opts fuel hfraction)).imp fun _ _ h => ?_
      exact ⟨fun hi => (h.2 hi).elim, fun hs => absurd hs h.1⟩
  refine consumeOne (by decide) (fun hd _ => ?_) fun _ => ?_
  · have hfraction : ∀ f, Takes (Tokenizer.consumeFraction fuel false) f fun bs r => r = false →
        ∀ c ∈ bs, isDigit c = true := fun f => consumeFraction fuel (consumeZeroOrMore (by decide) fuel)
    refine (consumeNumber opts fuel (consumeDigits_decimal opts fuel hfraction)).imp fun _ _ h => ?_
    exact ⟨fun hi => ⟨_, .decimal hd hzero (h.2 hi)⟩, fun hs => absurd hs h.1⟩
  refine consume (by decide) (hstring 34 (.inl rfl)) fun _ => consume (by decide) (hstring 39 (.inr rfl)) fun _ => ?_
  refine currentChar ?_
  split
  next => exact reportError _
  next =>
    exact bind (Q := fun _ _ => True) (Client.Wp.request rfl ⟨_, .next f, trivial⟩) fun _ _ _ _ =>
      pure (typed nofun nofun)

end Takes

/-- What is recorded from `StartToken` on is what is taken. -/
theorem Cursor.Took.text_startToken {f f' : Cursor} {bs : List UInt8} (h : f.startToken.Took bs f') : f'.text = bs :=
  (h.text rfl).trans (List.nil_append bs)

/-- A program with a property of what it returns. -/
abbrev Gives {α : Type} (x : TokM α) (f : Cursor) (Q : α → Cursor → Prop) : Prop :=
  Client.Wp Cursor.serve (fun _ => True) x f Q

theorem gives_true {α : Type} (x : TokM α) (f : Cursor) : Gives x f fun _ _ => True := by
  unfold Gives Client.Wp
  split <;> trivial

theorem returns_tryConsumeOne (p : UInt8 → Bool) : (tryConsumeOne p).Returns fun _ => True := by
  intro c
  change Client.Returns _ (if p c = true then _ else _)
  split
  · exact fun _ => trivial
  · trivial

theorem returns_consumeZeroOrMore (p : UInt8 → Bool) (fuel : Nat) : (consumeZeroOrMore p fuel).Returns fun _ => True := by
  induction fuel with
  | zero => trivial
  | succ fuel ih =>
    refine (returns_tryConsumeOne p).bind fun r _ => ?_
    cases r with
    | true => exact ih
    | false => trivial

/-- What is reported of a space is neither an integer nor a string. -/
theorem returns_tryConsumeWhitespace (opts : TokenizerOptions) (fuel : Nat) :
    (tryConsumeWhitespace opts fuel).Returns fun r => ∀ type ∈ r, type ≠ .integer ∧ type ≠ .string := by
  have hspace : ∀ type ∈ some TokenType.whitespace, type ≠ .integer ∧ type ≠ .string := by
    rintro _ ⟨⟩
    exact ⟨nofun, nofun⟩
  unfold tryConsumeWhitespace
  split
  · refine (returns_tryConsumeOne _).bind fun r _ => ?_
    cases r with
    | true => exact (returns_consumeZeroOrMore _ fuel).bind fun _ _ => hspace
    | false =>
      refine (returns_tryConsumeOne _).bind fun r _ => ?_
      cases r with
      | true =>
        rintro _ ⟨⟩
        exact ⟨nofun, nofun⟩
      | false => exact nofun
  · refine (returns_tryConsumeOne _).bind fun r _ => ?_
    cases r with
    | true =>
      refine (returns_consumeZeroOrMore _ fuel).bind fun _ _ => ?_
      cases opts.reportWhitespace with
      | true => exact hspace
      | false => exact nofun
    | false => exact nofun

/-- A slash that starts no comment is a symbol. -/
theorem returns_tryConsumeCommentStart (opts : TokenizerOptions) :
    (tryConsumeCommentStart opts).Returns fun r => ∀ token, r = .slashNot token → token.type = .symbol := by
  unfold tryConsumeCommentStart
  split
  · refine (returns_tryConsumeOne _).bind fun r _ => ?_
    cases r <;> exact nofun
  · refine (returns_tryConsumeOne _).bind fun r _ => ?_
    cases r with
    | false => exact nofun
    | true =>
      refine (returns_tryConsumeOne _).bind fun r _ => ?_
      cases r with
      | true => exact nofun
      | false =>
        refine (returns_tryConsumeOne _).bind fun r _ => ?_
        cases r with
        | true => exact nofun
        | false =>
          rintro l c _ ⟨⟩
          rfl

theorem gives_endOfInput (f : Cursor) :
    Gives endOfInput f fun r f' => r.1 = true → TypedText r.2.type (r.2.text f'.text) :=
  Client.Wp.request_bind rfl (Client.Wp.request_bind rfl nofun)

theorem nextFrom_text (opts : TokenizerOptions) (previous : Token) (inner fuel : Nat) (f : Cursor) :
    Gives (nextFrom opts inner previous fuel) f fun r f' => r.1 = true → TypedText r.2.type (r.2.text f'.text) := by
  induction fuel generalizing f with
  | zero => trivial
  | succ fuel ih =>
    refine Client.Wp.request_bind rfl ?_
    split
    next => exact gives_endOfInput f
    next =>
      refine Client.Wp.request_bind (t := f.startToken) rfl ?_
      refine Client.Wp.request_bind rfl (Client.Wp.request_bind rfl ?_)
      refine Client.Wp.bind ((returns_tryConsumeWhitespace opts inner).wp _ _) fun report f₁ hreport => ?_
      refine Client.Wp.request_bind (t := { f₁ with recording := false }) rfl (Client.Wp.request_bind rfl ?_)
      match report, hreport with
      | some type, hreport =>
        obtain ⟨hi, hs⟩ := hreport type rfl
        exact fun _ => Takes.typed hi hs
      | none, _ =>
        refine Client.Wp.bind ((returns_tryConsumeCommentStart opts).wp _ _) fun comment f₂ hcomment => ?_
        match comment, hcomment with
        | .line, _ => exact Client.Wp.bind (gives_true _ _) fun _ f₃ _ => ih f₃
        | .block, _ => exact Client.Wp.bind (gives_true _ _) fun _ f₃ _ => ih f₃
        | .slashNot token, hcomment =>
          intro _
          rw [hcomment token rfl]
          exact Takes.typed nofun nofun
        | .none, _ =>
          refine Client.Wp.request_bind rfl ?_
          split
          next => exact gives_endOfInput f₂
          next =>
            refine Client.Wp.bind (gives_true _ _) fun control f₃ _ => ?_
            split
            next => exact Client.Wp.request_bind rfl (Client.Wp.request_bind rfl (Client.Wp.fail trivial))
            next =>
              refine Client.Wp.request_bind (t := f₃.startToken) rfl ?_
              refine Client.Wp.request_bind rfl (Client.Wp.request_bind rfl ?_)
              refine Client.Wp.bind (Takes.consumeToken opts inner previous _ _) ?_
              rintro type f₄ ⟨bs, htook, htyped⟩
              refine Client.Wp.request_bind (t := { f₄ with recording := false }) rfl (Client.Wp.request_bind rfl ?_)
              intro _
              change TypedText type f₄.text
              rwa [htook.text_startToken]

theorem tokensFrom_text (opts : TokenizerOptions) (inner fuel : Nat) (previous : Token) (f : Cursor) :
    ∀ x ∈ (tokensFrom Cursor.serve opts inner fuel previous f).1, TypedText x.1.type (x.1.text x.2.text) := by
  induction fuel generalizing previous f with
  | zero => exact List.forall_mem_nil _
  | succ fuel ih =>
    have hnext := nextFrom_text opts previous inner inner f
    unfold tokensFrom
    rcases hrun : (next opts inner previous).run Cursor.serve f with ⟨_ | ⟨_ | _, token⟩, f'⟩
    · exact List.forall_mem_nil _
    · exact List.forall_mem_nil _
    · exact List.forall_mem_cons.mpr ⟨hnext.of_run hrun rfl, ih token f'⟩

/-- **The integers and strings of an input** have the texts that their types say. -/
theorem text_of_read (opts : TokenizerOptions) (input : List UInt8) :
    ∀ x ∈ (read opts input).1, TypedText x.1.type x.2 := by
  intro x hx
  obtain ⟨y, hy, rfl⟩ := List.mem_map.mp hx
  exact tokensFrom_text _ _ _ _ _ y hy

/-- So have those of an input that comes in chunks, if the texts start early enough. -/
theorem text_of_tokenize (opts : TokenizerOptions) {chunks : List (List UInt8)} (hne : ∀ c ∈ chunks, c ≠ [])
    (hsize : chunks.flatten.length < 2 ^ 64)
    (h : (∀ c ∈ chunks, c.length ≤ 2 ^ 31) ∨ TextsFit opts chunks.flatten) :
    ∀ x ∈ (tokenize opts chunks).1, TypedText x.1.type x.2 := by
  rw [tokenize_eq_read opts hne hsize h]
  exact text_of_read opts chunks.flatten

end Hpb
