import Hpb.Io.Tokenizer

/-!
# The tokenizer over its characters

`Cursor` is the input of a tokenizer without buffers: the characters that are left. The programs of the
tokenizer are run over it:

* a program that is neither `StartToken` nor `EndToken` takes characters from the front and appends them to
  the text that is recorded (`Cursor.Moved`, `Scan`), and it ends;
* `next_spec`: a call of `hpb_Tokenizer_Next` takes at least one character if it returns a token, and the text
  of the token is the characters from its start on.
-/

namespace Hpb

/-- The input of a tokenizer, from the character at hand on. -/
structure Cursor where
  rest : List UInt8
  /-- The number of bytes before it. -/
  pos : Nat
  line : Int
  column : Int
  recording : Bool
  /-- Where the text starts that was recorded last. -/
  start : Nat
  text : List UInt8

namespace Cursor

/-- A tokenizer at the start of its input. -/
def new (input : List UInt8) : Cursor := ⟨input, 0, 0, 0, false, 0, []⟩

def currentChar (f : Cursor) : UInt8 := f.rest.headD 0

/-- Go on to the next character. -/
def nextChar (f : Cursor) : Cursor :=
  let (line, column) := advance f.currentChar f.line f.column
  { f with
    rest := f.rest.tail, pos := f.pos + (f.rest.take 1).length, line, column,
    text := if f.recording then f.text ++ f.rest.take 1 else f.text }

/-- What the tokenizer does to its input. -/
def serve : Serve TokCall TokCall.Reply TokFailure Cursor
  | .currentChar, f => (.ok f.currentChar, f)
  | .readError, f => (.ok f.rest.isEmpty, f)
  | .line, f => (.ok f.line, f)
  | .column, f => (.ok f.column, f)
  | .nextChar, f => (.ok (), f.nextChar)
  | .backColumn n, f => (.ok (), { f with column := f.column - n })
  | .startToken, f => (.ok (), { f with text := [], recording := true, start := f.pos })
  | .endToken, f => (.ok (), { f with recording := false })

/-- Characters are taken from the front, and appended to the text if it is recorded. -/
structure Moved (f f' : Cursor) : Prop where
  rest : f'.rest <:+ f.rest
  pos : f'.pos + f'.rest.length = f.pos + f.rest.length
  recording : f'.recording = f.recording
  start : f'.start = f.start
  text : f.recording = true → f'.text.length + f'.rest.length = f.text.length + f.rest.length

namespace Moved

variable {f f' f'' : Cursor}

theorem refl (f : Cursor) : f.Moved f := ⟨List.suffix_refl _, rfl, rfl, rfl, fun _ => rfl⟩

theorem trans (h : f.Moved f') (h' : f'.Moved f'') : f.Moved f'' where
  rest := h'.rest.trans h.rest
  pos := h'.pos.trans h.pos
  recording := h'.recording.trans h.recording
  start := h'.start.trans h.start
  text hrec := (h'.text (h.recording.trans hrec)).trans (h.text hrec)

theorem length_le (h : f.Moved f') : f'.rest.length ≤ f.rest.length := h.rest.length_le

theorem nextChar (f : Cursor) : f.Moved f.nextChar := by
  obtain ⟨rest, pos, line, column, recording, start, text⟩ := f
  refine ⟨List.tail_suffix rest, ?_, rfl, rfl, ?_⟩
  · cases rest with
    | nil => rfl
    | cons c cs => exact Nat.succ_add_eq_add_succ pos cs.length
  · intro hrec
    cases rest with
    | nil => simp [Cursor.nextChar]
    | cons c cs =>
      have : (text ++ [c]).length + cs.length = text.length + (cs.length + 1) := by
        rw [List.length_append, List.length_singleton]
        omega
      simp only [Cursor.nextChar, show recording = true from hrec, if_true]
      exact this

end Moved

/-- The character at hand is a character of the input unless it is zero. -/
theorem rest_ne_nil {f : Cursor} (h : f.currentChar ≠ 0) : f.rest ≠ [] := by
  intro hnil
  rw [currentChar, hnil] at h
  exact h rfl

theorem nextChar_length_lt {f : Cursor} (h : f.currentChar ≠ 0) : f.nextChar.rest.length < f.rest.length := by
  have hpos := List.length_pos_iff.mpr (rest_ne_nil h)
  change f.rest.tail.length < _
  rw [List.length_tail]
  omega

end Cursor

open Tokenizer

/-- A program that does not use up its fuel. -/
abbrev Terminates {α : Type} (x : TokM α) (f : Cursor) (Q : α → Cursor → Prop) : Prop :=
  Client.Wp Cursor.serve (· ≠ .outOfFuel) x f Q

/-- A program that takes characters and does not use up its fuel. -/
abbrev Scan {α : Type} (x : TokM α) (f : Cursor) (Q : α → Cursor → Prop) : Prop :=
  Terminates x f fun a f' => f.Moved f' ∧ Q a f'

namespace Scan

section Rules

variable {α β : Type} {x : TokM α} {f : Cursor} {Q P : α → Cursor → Prop} {R : β → Cursor → Prop}

theorem pure {a : α} (h : Q a f) : Scan (pure a) f Q :=
  Client.Wp.pure ⟨.refl f, h⟩

theorem bind {g : α → TokM β} (hx : Scan x f Q) (hg : ∀ a f', f.Moved f' → Q a f' → Scan (g a) f' R) :
    Scan (x >>= g) f R :=
  Client.Wp.bind hx fun a f' ⟨hmoved, hq⟩ =>
    (hg a f' hmoved hq).imp fun _ _ ⟨hmoved', hr⟩ => ⟨hmoved.trans hmoved', hr⟩

theorem imp (hx : Scan x f P) (h : ∀ a f', P a f' → Q a f') : Scan x f Q :=
  Client.Wp.imp hx fun a f' ⟨hmoved, hp⟩ => ⟨hmoved, h a f' hp⟩

/-- A program that goes one of two ways. -/
theorem cond {x : TokM Bool} {y z : TokM β} {Q : Bool → Cursor → Prop} (hx : Scan x f Q)
    (hy : ∀ f', f.Moved f' → Q true f' → Scan y f' R) (hz : ∀ f', f.Moved f' → Q false f' → Scan z f' R) :
    Scan (x >>= fun r => if r = true then y else z) f R :=
  bind hx fun r f' hmoved hq => match r, hq with
    | true, hq => hy f' hmoved hq
    | false, hq => hz f' hmoved hq

theorem currentChar {g : UInt8 → TokM β} (hg : Scan (g f.currentChar) f R) :
    Scan (Tokenizer.currentChar >>= g) f R :=
  Client.Wp.request_bind rfl hg

theorem line {g : Int → TokM β} (hg : Scan (g f.line) f R) : Scan (Tokenizer.line >>= g) f R :=
  Client.Wp.request_bind rfl hg

theorem column {g : Int → TokM β} (hg : Scan (g f.column) f R) : Scan (Tokenizer.column >>= g) f R :=
  Client.Wp.request_bind rfl hg

theorem nextChar {Q : Unit → Cursor → Prop} (h : Q () f.nextChar) : Scan Tokenizer.nextChar f Q :=
  Client.Wp.request rfl ⟨.nextChar f, h⟩

theorem backColumn (n : Int) : Scan (Tokenizer.backColumn n) f fun _ _ => True :=
  Client.Wp.request rfl ⟨⟨List.suffix_refl _, rfl, rfl, rfl, fun _ => rfl⟩, trivial⟩

theorem reportError (msg : String) : Scan (Tokenizer.reportError msg) f Q := line (column (Client.Wp.fail nofun))

theorem lookingAt (p : UInt8 → Bool) :
    Scan (Tokenizer.lookingAt p) f fun r f' => r = p f.currentChar ∧ f' = f := currentChar (pure ⟨rfl, rfl⟩)

end Rules

section Consumers

variable {f : Cursor} {p : UInt8 → Bool}

/-- A character is consumed, or nothing is. -/
theorem tryConsumeOne (hp : p 0 = false) :
    Scan (Tokenizer.tryConsumeOne p) f fun r f' =>
      r = true ∧ f'.rest.length < f.rest.length ∨ r = false ∧ f' = f ∧ p f.currentChar = false := by
  refine currentChar ?_
  cases hc : p f.currentChar with
  | true =>
    have hne : f.currentChar ≠ 0 := fun hzero => by simp [hzero, hp] at hc
    exact bind (nextChar (Q := fun _ f' => f' = f.nextChar) rfl) fun _ f' _ hf' =>
      pure (.inl ⟨rfl, hf' ▸ Cursor.nextChar_length_lt hne⟩)
  | false => exact pure (.inr ⟨rfl, rfl, rfl⟩)

theorem tryConsume {c : UInt8} (hc : c ≠ 0) :
    Scan (Tokenizer.tryConsume c) f fun r f' =>
      r = true ∧ f'.rest.length < f.rest.length ∨ r = false ∧ f' = f ∧ f.currentChar ≠ c :=
  (tryConsumeOne (p := (· == c)) (beq_eq_false_iff_ne.mpr hc.symm)).imp fun _ _ h => h.imp_right fun ⟨hr, hf, hne⟩ =>
    ⟨hr, hf, beq_eq_false_iff_ne.mp hne⟩

/-- A program that ends from every cursor with less than `n` characters. -/
def Within {α : Type} (n : Nat) (x : TokM α) : Prop := ∀ f : Cursor, f.rest.length < n → Scan x f fun _ _ => True

section Within

variable {n : Nat} {α β : Type}

theorem Within.bind {x : TokM α} {g : α → TokM β} (hx : Within n x) (hg : ∀ a, Within n (g a)) :
    Within n (x >>= g) := fun f hf =>
  Scan.bind (hx f hf) fun a f' hmoved _ => hg a f' (Nat.lt_of_le_of_lt hmoved.length_le hf)

theorem Within.ite {b : Prop} [Decidable b] {y z : TokM α} (hy : Within n y) (hz : Within n z) :
    Within n (if b then y else z) := by
  split
  · exact hy
  · exact hz

theorem Within.cond {x : TokM Bool} {y z : TokM α} (hx : Within n x) (hy : Within n y) (hz : Within n z) :
    Within n (x >>= fun r => if r = true then y else z) := hx.bind fun _ => .ite hy hz

theorem Within.pure (a : α) : Within n (Pure.pure a) := fun _ _ => Scan.pure trivial

theorem Within.tryConsumeOne (hp : p 0 = false) : Within n (Tokenizer.tryConsumeOne p) := fun _ _ =>
  (Scan.tryConsumeOne hp).imp fun _ _ _ => trivial

theorem Within.tryConsume {c : UInt8} (hc : c ≠ 0) : Within n (Tokenizer.tryConsume c) := fun _ _ =>
  (Scan.tryConsume hc).imp fun _ _ _ => trivial

theorem Within.lookingAt (p : UInt8 → Bool) : Within n (Tokenizer.lookingAt p) := fun _ _ =>
  (Scan.lookingAt p).imp fun _ _ _ => trivial

theorem Within.currentChar : Within n Tokenizer.currentChar := fun _ _ => Client.Wp.request rfl ⟨.refl _, trivial⟩

theorem Within.reportError (msg : String) : Within n (Tokenizer.reportError (α := α) msg) := fun _ _ =>
  Scan.reportError msg

theorem Within.orElse {x y : TokM Bool} (hx : Within n x) (hy : Within n y) : Within n (Tokenizer.orElse x y) :=
  hx.cond (.pure true) hy

theorem Within.all {xs : List (TokM Bool)} (h : ∀ x ∈ xs, Within n x) : Within n (Tokenizer.all xs) := by
  induction xs with
  | nil => exact .pure true
  | cons x xs ih =>
    exact (h x List.mem_cons_self).cond (ih fun y hy => h y (List.mem_cons_of_mem x hy)) (.pure false)

end Within

theorem consumeZeroOrMore (hp : p 0 = false) {fuel : Nat} (h : f.rest.length < fuel) :
    Scan (Tokenizer.consumeZeroOrMore p fuel) f fun _ f' => p f'.currentChar = false := by
  induction fuel generalizing f with
  | zero => exact absurd h (Nat.not_lt_zero _)
  | succ fuel ih =>
    refine cond (tryConsumeOne hp) (fun f' _ hq => ?_) (fun f' _ hq => ?_)
    · obtain ⟨-, hlt⟩ | ⟨hr, -⟩ := hq
      · exact ih (by omega)
      · cases hr
    · obtain ⟨hr, -⟩ | ⟨-, rfl, hc⟩ := hq
      · cases hr
      · exact pure hc

theorem Within.consumeZeroOrMore (hp : p 0 = false) {n : Nat} : Within n (Tokenizer.consumeZeroOrMore p n) :=
  fun _ hf => (Scan.consumeZeroOrMore hp hf).imp fun _ _ _ => trivial

theorem Within.consumeOneOrMore (hp : p 0 = false) (msg : String) {n : Nat} :
    Within n (Tokenizer.consumeOneOrMore p msg n) :=
  .cond (.tryConsumeOne hp) (.consumeZeroOrMore hp) (.reportError msg)

theorem Within.consumeEscape {n : Nat} : Within n Tokenizer.consumeEscape := by
  refine .cond (.orElse (.tryConsumeOne (by decide)) (.tryConsumeOne (by decide))) (.pure ()) ?_
  refine .cond (.tryConsume (by decide)) (.cond (.tryConsumeOne (by decide)) (.pure ()) (.reportError _)) ?_
  have hhex : Within n (Tokenizer.tryConsumeOne isHexDigit) := .tryConsumeOne (by decide)
  have hzero : Within n (Tokenizer.tryConsume '0'.toUInt8) := .tryConsume (by decide)
  have hone : Within n (Tokenizer.tryConsume '1'.toUInt8) := .tryConsume (by decide)
  refine .cond (.tryConsume (by decide)) (.cond (.all ?_) (.pure ()) (.reportError _)) ?_
  · simpa using hhex
  · refine .cond (.tryConsume (by decide)) (.cond (.all ?_) (.pure ()) (.reportError _)) (.reportError _)
    simpa using ⟨hzero, Within.orElse hzero hone, hhex⟩

/-- After a character that is not the end of the input. -/
theorem nextChar_bind {β : Type} {x : TokM β} {R : β → Cursor → Prop} (hc : f.currentChar ≠ 0)
    (hx : ∀ f', f.Moved f' → f'.rest.length < f.rest.length → Scan x f' R) :
    Scan (Tokenizer.nextChar >>= fun _ => x) f R :=
  bind (nextChar (Q := fun _ f' => f' = f.nextChar) rfl) fun _ f' hmoved hf' =>
    hx f' hmoved (hf' ▸ Cursor.nextChar_length_lt hc)

theorem consumeString (delimiter : UInt8) {fuel : Nat} (h : f.rest.length < fuel) :
    Scan (Tokenizer.consumeString delimiter fuel) f fun _ _ => True := by
  induction fuel generalizing f with
  | zero => exact absurd h (Nat.not_lt_zero _)
  | succ fuel ih =>
    refine currentChar ?_
    split
    next => exact reportError _
    next hzero =>
      split
      next => exact reportError _
      next =>
        split
        next =>
          refine nextChar_bind hzero fun f' _ hlt => bind (Within.consumeEscape f' hlt) fun _ f'' hmoved _ => ih ?_
          have := hmoved.length_le
          omega
        next =>
          split
          next => exact nextChar trivial
          next => exact nextChar_bind hzero fun f' _ hlt => ih (by omega)

theorem Within.consumeFraction {n : Nat} (startedWithDot : Bool) :
    Within n (Tokenizer.consumeFraction n startedWithDot) := by
  have hdigits : Within n (Tokenizer.consumeZeroOrMore isDigit n) := .consumeZeroOrMore (by decide)
  refine .bind hdigits fun _ => .ite (.pure true) ?_
  exact .cond (.tryConsume (by decide)) (.bind hdigits fun _ => .pure true) (.pure false)

theorem Within.consumeExponent {n : Nat} : Within n (Tokenizer.consumeExponent n) := by
  refine .cond (.orElse (.tryConsume (by decide)) (.tryConsume (by decide))) ?_ (.pure false)
  refine .bind (.orElse (.tryConsume (by decide)) (.tryConsume (by decide))) fun _ => ?_
  exact .bind (.consumeOneOrMore (by decide) _) fun _ => .pure true

theorem Within.and (b : Bool) {n : Nat} {x : TokM Bool} (hx : Within n x) :
    Within n (Tokenizer.all [Pure.pure b, x]) := (Within.pure b).cond (hx.cond (.pure true) (.pure false)) (.pure false)

theorem Within.consumeDigits (opts : TokenizerOptions) {n : Nat} (startedWithZero startedWithDot : Bool) :
    Within n (Tokenizer.consumeDigits opts n startedWithZero startedWithDot) := by
  refine .cond (.and _ (.orElse (.tryConsume (by decide)) (.tryConsume (by decide)))) ?_ ?_
  · exact .bind (.consumeOneOrMore (by decide) _) fun _ => .pure false
  · refine .cond (.and _ (.lookingAt _)) ?_ ?_
    · exact .bind (.consumeZeroOrMore (by decide)) fun _ => .cond (.lookingAt _) (.reportError _) (.pure false)
    · refine .bind (.consumeFraction _) fun _ => .bind .consumeExponent fun _ => ?_
      exact .bind (.and _ (.orElse (.tryConsume (by decide)) (.tryConsume (by decide)))) fun _ => .pure _

theorem Within.consumeNumber (opts : TokenizerOptions) {n : Nat} (startedWithZero startedWithDot : Bool) :
    Within n (Tokenizer.consumeNumber opts n startedWithZero startedWithDot) := by
  refine .bind (.consumeDigits opts _ _) fun _ => .cond (.lookingAt _) (.reportError _) ?_
  exact .bind .currentChar fun _ => .ite (.ite (.reportError _) (.reportError _)) (.pure _)

theorem Within.consumeLineComment {n : Nat} : Within n (Tokenizer.consumeLineComment n) :=
  .bind (.consumeZeroOrMore (by decide)) fun _ => .bind (.tryConsume (by decide)) fun _ => .pure ()

/-- A sequence of characters that starts with a given one. -/
theorem all_cons {c : UInt8} (hc : c ≠ 0) {xs : List (TokM Bool)} (h : ∀ x ∈ xs, ∀ n, Within n x) :
    Scan (Tokenizer.all (Tokenizer.tryConsume c :: xs)) f fun r f' =>
      f'.rest.length < f.rest.length ∨ r = false ∧ f' = f ∧ f.currentChar ≠ c := by
  refine cond (tryConsume hc) (fun f' _ hq => ?_) fun f' _ hq => ?_
  · obtain ⟨-, hlt⟩ | ⟨hr, -⟩ := hq
    · refine Client.Wp.imp (Within.all (fun x hx => h x hx _) f' hlt) fun _ f'' ⟨hmoved, _⟩ => ⟨hmoved, .inl ?_⟩
      have := hmoved.length_le
      omega
    · cases hr
  · obtain ⟨hr, -⟩ | ⟨-, hsame⟩ := hq
    · cases hr
    · exact pure (.inr ⟨rfl, hsame⟩)

/-- Each round of the loop takes a character: it stops before one that it takes, or at the end. -/
theorem consumeBlockCommentFrom (startLine startColumn : Int) {inner fuel : Nat} (hi : f.rest.length < inner)
    (h : f.rest.length < fuel) :
    Scan (Tokenizer.consumeBlockCommentFrom inner startLine startColumn fuel) f fun _ _ => True := by
  induction fuel generalizing f with
  | zero => exact absurd h (Nat.not_lt_zero _)
  | succ fuel ih =>
    have hone : ∀ x ∈ [Tokenizer.tryConsume '/'.toUInt8], ∀ n, Within n x := by
      simp only [List.mem_singleton, forall_eq]
      exact fun n => .tryConsume (by decide)
    have hlook : ∀ x ∈ [Tokenizer.lookingAt (· == '*'.toUInt8)], ∀ n, Within n x := by
      simp only [List.mem_singleton, forall_eq]
      exact fun n => .lookingAt _
    have hagain : ∀ f' : Cursor, f'.rest.length < f.rest.length →
        Scan (Tokenizer.consumeBlockCommentFrom inner startLine startColumn fuel) f' fun _ _ => True :=
      fun f' hlt => ih (by omega) (by omega)
    refine bind (consumeZeroOrMore (by decide) hi) fun _ f₁ hm₁ hstop => ?_
    have hle := hm₁.length_le
    refine cond (tryConsume (by decide)) (fun f₂ _ hq => ?_) fun f₂ _ hq => ?_
    · obtain ⟨-, hlt⟩ | ⟨hr, -⟩ := hq
      · refine bind (consumeZeroOrMore (by decide) (by omega)) fun _ f₃ hm₃ _ => ?_
        have := hm₃.length_le
        refine cond (all_cons (by decide) hone) (fun f₄ _ _ => pure trivial) fun f₄ hm₄ _ => hagain f₄ ?_
        have := hm₄.length_le
        omega
      · cases hr
    · obtain ⟨hr, -⟩ | ⟨-, rfl, hnl⟩ := hq
      · cases hr
      refine cond (all_cons (by decide) hone) (fun f₃ _ _ => pure trivial) fun f₃ hm₃ hstar => ?_
      refine cond (all_cons (by decide) hlook) (fun f₄ _ _ => reportError _) fun f₄ hm₄ hslash => ?_
      refine currentChar ?_
      split
      next => exact reportError _
      next hzero =>
        refine hagain f₄ ?_
        have := hm₃.length_le
        have := hm₄.length_le
        obtain hlt | ⟨-, rfl, hstar⟩ := hstar
        · omega
        obtain hlt | ⟨-, rfl, hslash⟩ := hslash
        · omega
        simp [hzero, hstar, hslash, hnl] at hstop

theorem Within.consumeBlockComment {n : Nat} : Within n (Tokenizer.consumeBlockComment n) := fun _ hf =>
  line (column (consumeBlockCommentFrom _ _ hf hf))

/-- A program after a character that is consumed. -/
theorem after {α : Type} {x : TokM Bool} {y z : TokM α} {n : Nat} {P : Prop} {R : α → Cursor → Prop}
    (hf : f.rest.length < n)
    (hx : Scan x f fun r f' => r = true ∧ f'.rest.length < f.rest.length ∨ r = false ∧ f' = f ∧ P)
    (hy : Within n y) (hR : ∀ a f', f'.rest.length < f.rest.length → R a f') (hz : Scan z f R) :
    Scan (x >>= fun r => if r = true then y else z) f R := by
  refine cond hx (fun f' _ hq => ?_) fun f' _ hq => ?_
  · obtain ⟨-, hlt⟩ | ⟨hr, -⟩ := hq
    · refine Client.Wp.imp (hy f' (by omega)) fun a f'' ⟨hmoved, _⟩ => ⟨hmoved, hR a f'' ?_⟩
      have := hmoved.length_le
      omega
    · cases hr
  · obtain ⟨hr, -⟩ | ⟨-, rfl, -⟩ := hq
    · cases hr
    · exact hz

/-- What is reported of a space is not empty. -/
theorem tryConsumeWhitespace (opts : TokenizerOptions) {n : Nat} (hf : f.rest.length < n) :
    Scan (Tokenizer.tryConsumeWhitespace opts n) f fun r f' => r ≠ none → f'.rest.length < f.rest.length := by
  have hshort : ∀ (a : Option TokenType) (f' : Cursor), f'.rest.length < f.rest.length →
      a ≠ none → f'.rest.length < f.rest.length := fun _ _ hlt _ => hlt
  have hnone : Scan (Pure.pure (none : Option TokenType) : TokM _) f fun r f' => r ≠ none → f'.rest.length < f.rest.length :=
    pure fun hne => absurd rfl hne
  unfold Tokenizer.tryConsumeWhitespace
  split
  · refine after hf (tryConsumeOne (p := isWhitespaceNoNewline) (by decide)) ?_ hshort ?_
    · exact .bind (.consumeZeroOrMore (by decide)) fun _ => .pure _
    · exact after hf (tryConsume (by decide)) (.pure _) hshort hnone
  · refine after hf (tryConsumeOne (p := isWhitespace) (by decide)) ?_ hshort hnone
    exact .bind (.consumeZeroOrMore (by decide)) fun _ => .pure _

theorem tryConsumeCommentStart (opts : TokenizerOptions) :
    Scan (Tokenizer.tryConsumeCommentStart opts) f fun r f' => match r with
      | .none => True
      | .slashNot token => f'.rest.length < f.rest.length ∧ token.assigned ≠ none
      | _ => f'.rest.length < f.rest.length := by
  unfold Tokenizer.tryConsumeCommentStart
  split
  · refine cond (tryConsume (by decide)) (fun f' _ hq => pure ?_) fun f' _ _ => pure trivial
    obtain ⟨-, hlt⟩ | ⟨hr, -⟩ := hq
    · exact hlt
    · cases hr
  · refine cond (tryConsume (by decide)) (fun f' _ hq => ?_) fun f' _ _ => pure trivial
    obtain ⟨-, hlt⟩ | ⟨hr, -⟩ := hq
    · refine cond (tryConsume (by decide)) (fun f'' hmoved _ => pure ?_) fun f'' hmoved _ => ?_
      · exact Nat.lt_of_le_of_lt hmoved.length_le hlt
      · have hlt' := Nat.lt_of_le_of_lt hmoved.length_le hlt
        refine cond (tryConsume (by decide)) (fun f₃ hmoved₃ _ => pure ?_) fun f₃ hmoved₃ _ => ?_
        · exact Nat.lt_of_le_of_lt hmoved₃.length_le hlt'
        · exact line (column (pure ⟨Nat.lt_of_le_of_lt hmoved₃.length_le hlt', nofun⟩))
    · cases hr

theorem consumeToken (opts : TokenizerOptions) {n : Nat} (hf : f.rest.length < n) (hc : f.currentChar ≠ 0)
    (previous : Token) (startLine startColumn : Int) :
    Scan (Tokenizer.consumeToken opts n previous startLine startColumn) f fun _ f' =>
      f'.rest.length < f.rest.length := by
  have hshort : ∀ (_ : TokenType) (f' : Cursor), f'.rest.length < f.rest.length →
      f'.rest.length < f.rest.length := fun _ _ hlt => hlt
  refine after hf (tryConsumeOne (p := isLetter) (by decide)) ?_ hshort ?_
  · exact .bind (.consumeZeroOrMore (by decide)) fun _ => .pure _
  refine after hf (tryConsume (by decide)) (.consumeNumber opts _ _) hshort ?_
  refine after hf (tryConsume (by decide)) ?_ hshort ?_
  · refine .cond (.tryConsumeOne (by decide)) (.ite ?_ (.consumeNumber opts _ _)) (.pure _)
    exact .bind (fun _ _ => backColumn 2) fun _ => .reportError _
  refine after hf (tryConsumeOne (p := isDigit) (by decide)) (.consumeNumber opts _ _) hshort ?_
  refine after hf (tryConsume (by decide)) (.bind (fun _ h => consumeString 34 h) fun _ => .pure _) hshort ?_
  refine after hf (tryConsume (by decide)) (.bind (fun _ h => consumeString 39 h) fun _ => .pure _) hshort ?_
  refine currentChar ?_
  split
  next => exact reportError _
  next => exact nextChar_bind hc fun f' _ hlt => pure hlt

end Consumers


end Scan

/-- What a call of `hpb_Tokenizer_Next` does: a token has characters, and its text is recorded from its start on
unless it is assigned. -/
structure NextToken (f : Cursor) (token : Token) (f' : Cursor) : Prop where
  length_lt : f'.rest.length < f.rest.length
  recorded : token.assigned = none → f'.recording = false ∧ f'.text ≠ []

/-- The cursor after `StartToken`. -/
def Cursor.startToken (f : Cursor) : Cursor := { f with text := [], recording := true, start := f.pos }

/-- The text that was recorded is not empty if a character was taken. -/
theorem Cursor.Moved.text_ne_nil {f f' : Cursor} (h : f.startToken.Moved f') (hlt : f'.rest.length < f.rest.length) :
    f'.text ≠ [] := by
  intro hnil
  have := h.text rfl
  rw [hnil] at this
  change 0 + _ = 0 + f.rest.length at this
  omega

theorem terminates_endOfInput {f : Cursor} {Q : Bool × Token → Cursor → Prop} (h : ∀ token, Q (false, token) f) :
    Terminates endOfInput f Q :=
  Client.Wp.request_bind rfl (Client.Wp.request_bind rfl (h _))

theorem nextFrom_spec (opts : TokenizerOptions) (previous : Token) {inner fuel : Nat} {f : Cursor}
    (hi : f.rest.length < inner) (hf : f.rest.length < fuel) :
    Terminates (nextFrom opts inner previous fuel) f fun r f' => r.1 = true → NextToken f r.2 f' := by
  induction fuel generalizing f with
  | zero => exact absurd hf (Nat.not_lt_zero _)
  | succ fuel ih =>
    refine Client.Wp.request_bind rfl ?_
    split
    next => exact terminates_endOfInput fun _ => nofun
    next =>
      refine Client.Wp.request_bind (t := f.startToken) rfl ?_
      refine Client.Wp.request_bind rfl (Client.Wp.request_bind rfl ?_)
      refine Client.Wp.bind (Scan.tryConsumeWhitespace opts hi) fun report f₁ ⟨hm₁, hreport⟩ => ?_
      refine Client.Wp.request_bind (t := { f₁ with recording := false }) rfl (Client.Wp.request_bind rfl ?_)
      have hle : f₁.rest.length ≤ f.rest.length := hm₁.length_le
      match report, hreport with
      | some type, hreport =>
        have hlt : f₁.rest.length < f.rest.length := hreport nofun
        exact fun _ => ⟨hlt, fun _ => ⟨rfl, hm₁.text_ne_nil hlt⟩⟩
      | none, _ =>
        refine Client.Wp.bind (Scan.tryConsumeCommentStart opts) fun comment f₂ ⟨hm₂, hcomment⟩ => ?_
        have hle₂ : f₂.rest.length ≤ f.rest.length := Nat.le_trans hm₂.length_le hle
        -- after a comment the loop goes on with less characters
        have hagain : ∀ f₃ : Cursor, f₃.rest.length < f.rest.length →
            Terminates (nextFrom opts inner previous fuel) f₃ fun r f' => r.1 = true → NextToken f r.2 f' := fun f₃ hlt =>
          (ih (by omega) (by omega)).imp fun r f' hnext htrue =>
            ⟨Nat.lt_trans (hnext htrue).length_lt hlt, (hnext htrue).recorded⟩
        match comment, hcomment with
        | .line, hcomment =>
          refine Client.Wp.bind (Scan.Within.consumeLineComment f₂ (by omega)) fun _ f₃ ⟨hm₃, _⟩ => hagain f₃ ?_
          have := hm₃.length_le
          change f₂.rest.length < f₁.rest.length at hcomment
          omega
        | .block, hcomment =>
          refine Client.Wp.bind (Scan.Within.consumeBlockComment f₂ (by omega)) fun _ f₃ ⟨hm₃, _⟩ => hagain f₃ ?_
          have := hm₃.length_le
          change f₂.rest.length < f₁.rest.length at hcomment
          omega
        | .slashNot token, hcomment =>
          obtain ⟨hlt, hassigned⟩ := hcomment
          exact fun _ => ⟨Nat.lt_of_lt_of_le hlt hle, fun hnone => absurd hnone hassigned⟩
        | .none, _ =>
          refine Client.Wp.request_bind rfl ?_
          split
          next => exact terminates_endOfInput fun _ => nofun
          next =>
            refine Client.Wp.bind (Scan.lookingAt _) fun control f₃ ⟨_, hcontrol, hf₃⟩ => ?_
            subst hf₃
            split
            next =>
              exact Client.Wp.imp (Scan.reportError (Q := fun _ _ => False) _) fun _ _ hfalse => hfalse.2.elim
            next hc =>
              have hzero : f₃.currentChar ≠ 0 := fun hzero => by simp [hcontrol, hzero] at hc
              refine Client.Wp.request_bind (t := f₃.startToken) rfl ?_
              refine Client.Wp.request_bind rfl (Client.Wp.request_bind rfl ?_)
              have hi₃ : f₃.startToken.rest.length < inner := Nat.lt_of_le_of_lt hle₂ hi
              refine Client.Wp.bind (Scan.consumeToken opts hi₃ hzero previous _ _) fun type f₄ ⟨hm₄, hlt⟩ => ?_
              refine Client.Wp.request_bind (t := { f₄ with recording := false }) rfl (Client.Wp.request_bind rfl ?_)
              exact fun _ => ⟨Nat.lt_of_lt_of_le hlt hle₂, fun _ => ⟨rfl, hm₄.text_ne_nil hlt⟩⟩

/-- **A call of `hpb_Tokenizer_Next` takes characters and ends.** -/
theorem next_spec (opts : TokenizerOptions) (previous : Token) {fuel : Nat} {f : Cursor} (hf : f.rest.length < fuel) :
    Terminates (next opts fuel previous) f fun r f' => r.1 = true → NextToken f r.2 f' :=
  nextFrom_spec opts previous hf hf

/-- The tokens of an input, each with the cursor after it, and how the last call ends. -/
def Cursor.tokens (opts : TokenizerOptions) (input : List UInt8) : List (Token × Cursor) × Except TokFailure Token :=
  tokensFrom Cursor.serve opts.normalize (input.length + 1) (input.length + 1) Token.start (Cursor.new input)

theorem tokensFrom_spec (opts : TokenizerOptions) {inner fuel : Nat} {f : Cursor} (previous : Token)
    (hi : f.rest.length < inner) (hf : f.rest.length < fuel) :
    (tokensFrom Cursor.serve opts inner fuel previous f).2 ≠ .error .outOfFuel ∧
      ∀ x ∈ (tokensFrom Cursor.serve opts inner fuel previous f).1, x.1.assigned = none →
        x.2.recording = false ∧ x.2.text ≠ [] := by
  induction fuel generalizing previous f with
  | zero => exact absurd hf (Nat.not_lt_zero _)
  | succ fuel ih =>
    have hnext := next_spec opts previous hi
    unfold tokensFrom
    match hrun : (next opts inner previous).run Cursor.serve f with
    | (.ok (true, token), f') =>
      have hspec := hnext.of_run hrun rfl
      have hlt := hspec.length_lt
      obtain ⟨hlast, htokens⟩ := ih token (f := f') (by omega) (by omega)
      exact ⟨hlast, List.forall_mem_cons.mpr ⟨hspec.recorded, htokens⟩⟩
    | (.ok (false, token), f') => exact ⟨nofun, List.forall_mem_nil _⟩
    | (.error e, f') => exact ⟨fun heq => hnext.error_of_run hrun (Except.error.inj heq), List.forall_mem_nil _⟩

end Hpb
