import Hpb.Io.TokenText

/-!
# The text of a string is one token

`text_of_tokenize` says what the tokens of an input are; here is the way back for strings. `Consumes x bs rest a`: before
the characters `bs` and then `rest`, the program `x` takes `bs` and returns `a`.

* `Consumes.bind`, `Consumes.skip`, `Consumes.take`: the rules of `Consumes`,
* `EscapeText.consumes`, `StringBody.consumes`: `ConsumeString` takes all that it lets through,
* `StringText.tokenize`: an input that is the text of a string has one token.
-/

namespace Hpb

open Tokenizer

/-- Before `bs` and then `rest`, the program takes `bs` and returns `a`. -/
def Consumes {α : Type} (x : TokM α) (bs rest : List UInt8) (a : α) : Prop :=
  ∀ f : Cursor, f.rest = bs ++ rest →
    Client.Wp Cursor.serve (fun _ => False) x f fun r f' => r = a ∧ f.Took bs f' ∧ f.Moved f'

namespace Consumes

variable {α β : Type} {x : TokM α} {bs bs' rest : List UInt8} {a : α} {b : β} {p : UInt8 → Bool} {c : UInt8}

theorem pure (a : α) : Consumes (pure a) [] rest a := fun f _ => Client.Wp.pure ⟨rfl, .refl f, .refl f⟩

theorem bind {g : α → TokM β} (hx : Consumes x bs (bs' ++ rest) a) (hg : Consumes (g a) bs' rest b) :
    Consumes (x >>= g) (bs ++ bs') rest b := by
  intro f hf
  rw [List.append_assoc] at hf
  refine Client.Wp.bind (hx f hf) ?_
  rintro _ f' ⟨rfl, htook, hmoved⟩
  have hrest := htook.rest
  rw [hf] at hrest
  refine (hg f' (List.append_cancel_left hrest).symm).imp ?_
  rintro _ f'' ⟨rfl, htook', hmoved'⟩
  exact ⟨rfl, htook.trans htook', hmoved.trans hmoved'⟩

/-- A program that takes one character. -/
theorem bind_cons {g : α → TokM β} (hx : Consumes x [c] (bs ++ rest) a) (hg : Consumes (g a) bs rest b) :
    Consumes (x >>= g) (c :: bs) rest b :=
  bind hx hg

/-- A program that takes nothing after what the first one takes. -/
theorem bind_last {g : α → TokM β} (hx : Consumes x bs rest a) (hg : Consumes (g a) [] rest b) :
    Consumes (x >>= g) bs rest b := by
  have hbind := bind (g := g) hx hg
  rwa [List.append_nil] at hbind

/-- A program that takes nothing. -/
theorem skip {g : α → TokM β} (hx : Consumes x [] (bs ++ rest) a) (hg : Consumes (g a) bs rest b) :
    Consumes (x >>= g) bs rest b :=
  bind hx hg

theorem currentChar {g : UInt8 → TokM β} (hg : Consumes (g c) (c :: bs) rest b) :
    Consumes (Tokenizer.currentChar >>= g) (c :: bs) rest b := by
  refine skip (fun f hf => Client.Wp.request rfl ⟨?_, .refl f, .refl f⟩) hg
  rw [Cursor.currentChar, hf]
  rfl

theorem nextChar (hc : c ≠ 0) : Consumes Tokenizer.nextChar [c] rest () := by
  intro f hf
  have hcur : f.currentChar = c := by rw [Cursor.currentChar, hf]; rfl
  have htook := Cursor.Took.nextChar (f := f) (hcur ▸ hc)
  rw [hcur] at htook
  exact Client.Wp.request rfl ⟨rfl, htook, .nextChar f⟩

/-- A character of the class. -/
theorem take (hc : p c = true) (hzero : c ≠ 0) : Consumes (tryConsumeOne p) [c] rest true := by
  refine currentChar ?_
  rw [if_pos hc]
  exact bind_last (nextChar hzero) (pure true)

/-- A character that is not of the class. -/
theorem pass (hc : p c = false) : Consumes (tryConsumeOne p) [] (c :: rest) false := by
  intro f hf
  have hcur : f.currentChar = c := by rw [Cursor.currentChar, hf]; rfl
  refine Client.Wp.request_bind rfl ?_
  rw [hcur, hc]
  exact Client.Wp.pure ⟨rfl, .refl f, .refl f⟩

theorem lookingAt : Consumes (Tokenizer.lookingAt p) [] (c :: rest) (p c) := by
  intro f hf
  have hcur : f.currentChar = c := by rw [Cursor.currentChar, hf]; rfl
  exact Client.Wp.request_bind rfl (Client.Wp.pure ⟨by rw [hcur], .refl f, .refl f⟩)

theorem orElse_left {x y : TokM Bool} (hx : Consumes x bs rest true) : Consumes (orElse x y) bs rest true :=
  bind_last (g := fun r => if r = true then Pure.pure true else y) hx (pure true)

theorem orElse_right {x y : TokM Bool} {r : Bool} (hx : Consumes x [] (bs ++ rest) false) (hy : Consumes y bs rest r) :
    Consumes (orElse x y) bs rest r :=
  skip (g := fun r => if r = true then Pure.pure true else y) hx hy

theorem all_cons {y : TokM Bool} {xs : List (TokM Bool)} (hy : Consumes y [c] (bs ++ rest) true)
    (hxs : Consumes (all xs) bs rest true) : Consumes (all (y :: xs)) (c :: bs) rest true :=
  bind_cons (g := fun r => if r = true then all xs else Pure.pure false) hy hxs

/-- Characters of one class. -/
theorem all_replicate (hp : p 0 = false) (hbs : ∀ c ∈ bs, p c = true) :
    Consumes (all (List.replicate bs.length (tryConsumeOne p))) bs rest true := by
  induction bs with
  | nil => exact pure true
  | cons c bs ih =>
    obtain ⟨hc, hbs⟩ := List.forall_mem_cons.mp hbs
    exact all_cons (take hc (by rintro rfl; rw [hp] at hc; cases hc)) (ih hbs)

/-- A test that is passed. -/
theorem passed {x : TokM Bool} {y : TokM Unit} (hx : Consumes x bs rest true) :
    Consumes (x >>= fun r => if r = true then Pure.pure () else y) bs rest () :=
  bind_last (g := fun r => if r = true then Pure.pure () else y) hx (pure ())

end Consumes

section Strings

variable {e bs rest : List UInt8} {delimiter : UInt8}

/-- The letters of the longer escapes start no shorter one. -/
theorem letter_ne {c : UInt8} (hc : c = 'x'.toUInt8 ∨ c = 'u'.toUInt8 ∨ c = 'U'.toUInt8) :
    isEscape c = false ∧ isOctalDigit c = false := by
  obtain rfl | rfl | rfl := hc <;> decide

theorem Consumes.letter {c : UInt8} (hc : c = 'x'.toUInt8 ∨ c = 'u'.toUInt8 ∨ c = 'U'.toUInt8) :
    Consumes (orElse (tryConsumeOne isEscape) (tryConsumeOne isOctalDigit)) [] (c :: rest) false := by
  obtain ⟨hescape, hoctal⟩ := letter_ne hc
  exact .orElse_right (.pass hescape) (.pass hoctal)

theorem Consumes.char {c : UInt8} (hc : c ≠ 0) : Consumes (tryConsume c) [c] rest true := take (beq_self_eq_true c) hc

theorem Consumes.notChar {c c' : UInt8} (hc : c' ≠ c) : Consumes (tryConsume c) [] (c' :: rest) false :=
  pass (beq_eq_false_iff_ne.mpr hc)

/-- **`ConsumeString` takes an escape** after its backslash. -/
theorem EscapeText.consumes (h : EscapeText e) : Consumes consumeEscape e rest () := by
  unfold consumeEscape
  cases h with
  | @simple c he =>
    refine .passed (.orElse_left (.take he ?_))
    rintro rfl
    cases he
  | @octal d hd =>
    have hzero : d ≠ 0 := by
      rintro rfl
      cases hd
    refine .passed ?_
    cases he : isEscape d with
    | true => exact .orElse_left (.take he hzero)
    | false => exact .orElse_right (.pass he) (.take hd hzero)
  | @hex d hd =>
    refine .skip (.letter (.inl rfl)) (.bind_cons (.char (by decide)) (.passed (.take hd ?_)))
    rintro rfl
    cases hd
  | @unicode ds hlen hds =>
    refine .skip (.letter (.inr (.inl rfl))) (.skip (.notChar (by decide)) ?_)
    refine .bind_cons (.char (by decide)) (.passed ?_)
    have hdigits : Consumes (all (List.replicate ds.length (tryConsumeOne isHexDigit))) ds rest true :=
      .all_replicate (by decide) hds
    rwa [hlen] at hdigits
  | @codePoint d ds hd hlen hds =>
    refine .skip (.letter (.inr (.inr rfl))) (.skip (.notChar (by decide)) (.skip (.notChar (by decide)) ?_))
    refine .bind_cons (.char (by decide)) (.passed ?_)
    have hdigits : Consumes (all (List.replicate ds.length (tryConsumeOne isHexDigit))) ds rest true :=
      .all_replicate (by decide) hds
    rw [hlen] at hdigits
    have hfirst : ∀ {rest}, Consumes (orElse (tryConsume '0'.toUInt8) (tryConsume '1'.toUInt8)) [d] rest true := by
      obtain rfl | rfl := hd
      · exact .orElse_left (.char (by decide))
      · exact .orElse_right (.notChar (by decide)) (.char (by decide))
    exact .all_cons (.char (by decide)) (.all_cons (.char (by decide)) (.all_cons hfirst hdigits))

/-- **`ConsumeString` takes the text of a string** after its first delimiter. -/
theorem StringBody.consumes (hd : delimiter = 34 ∨ delimiter = 39) (h : StringBody delimiter bs) {fuel : Nat}
    (hfuel : bs.length < fuel) : Consumes (consumeString delimiter fuel) (bs ++ [delimiter]) rest () := by
  have hne : delimiter ≠ 0 ∧ delimiter ≠ 10 ∧ delimiter ≠ 92 := by obtain rfl | rfl := hd <;> decide
  induction h generalizing fuel with
  | nil =>
    obtain ⟨n, rfl⟩ := Nat.exists_eq_succ_of_ne_zero (Nat.ne_of_gt hfuel)
    refine .currentChar ?_
    rw [if_neg hne.1, if_neg hne.2.1, if_neg hne.2.2, if_pos rfl]
    exact .nextChar hne.1
  | @char c bs hzero hline hescape hend h ih =>
    obtain ⟨n, rfl⟩ := Nat.exists_eq_succ_of_ne_zero (Nat.ne_zero_of_lt hfuel)
    refine .currentChar ?_
    rw [if_neg hzero, if_neg hline, if_neg hescape, if_neg hend]
    exact .bind_cons (.nextChar hzero) (ih (Nat.lt_of_succ_lt_succ hfuel))
  | @escape e bs he h ih =>
    obtain ⟨n, rfl⟩ := Nat.exists_eq_succ_of_ne_zero (Nat.ne_zero_of_lt hfuel)
    rw [List.length_cons, List.length_append] at hfuel
    refine .currentChar ?_
    rw [if_neg (by decide), if_neg (by decide), if_pos rfl]
    have hn : bs.length < n := by omega
    have htail := Consumes.bind (g := fun _ => consumeString delimiter n) he.consumes (ih hn)
    rw [← List.append_assoc] at htail
    exact .bind_cons (.nextChar (by decide)) htail

/-- What the tokenizer tests a delimiter for before it takes a string. -/
theorem delimiter_class (hd : delimiter = 34 ∨ delimiter = 39) :
    (isWhitespace delimiter = false ∧ isWhitespaceNoNewline delimiter = false ∧ delimiter ≠ 10) ∧
      (delimiter ≠ '#'.toUInt8 ∧ delimiter ≠ '/'.toUInt8) ∧
      (isUnprintable delimiter || delimiter == 0) = false ∧
      isLetter delimiter = false ∧ delimiter ≠ '0'.toUInt8 ∧ delimiter ≠ '.'.toUInt8 ∧ isDigit delimiter = false := by
  obtain rfl | rfl := hd <;> decide

theorem Consumes.consumeToken (opts : TokenizerOptions) (previous : Token) (startLine startColumn : Int) {fuel : Nat}
    (hd : delimiter = 34 ∨ delimiter = 39) (h : StringBody delimiter bs) (hfuel : bs.length < fuel) :
    Consumes (Tokenizer.consumeToken opts fuel previous startLine startColumn) (delimiter :: (bs ++ [delimiter])) rest
      .string := by
  obtain ⟨-, -, -, hletter, hzero, hdot, hdigit⟩ := delimiter_class hd
  have hbody : Consumes (consumeString delimiter fuel >>= fun _ => Pure.pure TokenType.string) (bs ++ [delimiter]) rest
      .string :=
    .bind_last (h.consumes hd hfuel) (.pure _)
  refine .skip (.pass hletter) (.skip (.notChar hzero) (.skip (.notChar hdot) (.skip (.pass hdigit) ?_)))
  obtain rfl | rfl := hd
  · exact .bind_cons (.char (by decide)) hbody
  · exact .skip (.notChar (by decide)) (.bind_cons (.char (by decide)) hbody)

theorem Consumes.tryConsumeWhitespace (opts : TokenizerOptions) (fuel : Nat) (hd : delimiter = 34 ∨ delimiter = 39) :
    Consumes (Tokenizer.tryConsumeWhitespace opts fuel) [] (delimiter :: rest) none := by
  obtain ⟨⟨hspace, hblank, hline⟩, -⟩ := delimiter_class hd
  unfold Tokenizer.tryConsumeWhitespace
  split
  · exact .skip (.pass hblank) (.skip (.notChar hline) (.pure none))
  · exact .skip (.pass hspace) (.pure none)

theorem Consumes.tryConsumeCommentStart (opts : TokenizerOptions) (hd : delimiter = 34 ∨ delimiter = 39) :
    Consumes (Tokenizer.tryConsumeCommentStart opts) [] (delimiter :: rest) .none := by
  obtain ⟨-, ⟨hshell, hslash⟩, -⟩ := delimiter_class hd
  unfold Tokenizer.tryConsumeCommentStart
  split
  · exact .skip (.notChar hshell) (.pure _)
  · exact .skip (.notChar hslash) (.pure _)

/-- What is not taken is still there. -/
theorem Cursor.Took.rest_nil {f f' : Cursor} (h : f.Took [] f') : f'.rest = f.rest := h.rest.symm

end Strings

variable {text : List UInt8}

/-- **A call takes the text of a string as one token.** -/
theorem StringText.token (h : StringText text) (opts : TokenizerOptions) (previous : Token) {f : Cursor}
    (hf : f.rest = text) {fuel : Nat} (hfuel : text.length < fuel) :
    Client.Wp Cursor.serve (fun _ => False) (next opts fuel previous) f fun r f' =>
      r.1 = true ∧ r.2.type = .string ∧ r.2.assigned = none ∧ f'.rest = [] ∧ f'.text = text ∧ f'.start = f.pos := by
  cases h with
  | @mk delimiter bs hd h =>
    have hlen : (delimiter :: (bs ++ [delimiter])).length = bs.length + 2 := by simp
    obtain ⟨n, rfl⟩ : ∃ n, fuel = n + 1 := ⟨fuel - 1, by omega⟩
    have hread : f.rest.isEmpty = false := by rw [hf]; rfl
    refine Client.Wp.request_bind (r := false) (t := f) (by rw [Cursor.serve, hread]) ?_
    refine Client.Wp.request_bind (t := f.startToken) rfl (Client.Wp.request_bind rfl (Client.Wp.request_bind rfl ?_))
    refine Client.Wp.bind (Consumes.tryConsumeWhitespace opts (n + 1) hd f.startToken hf) ?_
    rintro _ f₁ ⟨rfl, htook₁, hmoved₁⟩
    refine Client.Wp.request_bind (t := { f₁ with recording := false }) rfl (Client.Wp.request_bind rfl ?_)
    have hf₁ : f₁.rest = delimiter :: (bs ++ [delimiter]) := htook₁.rest_nil.trans hf
    refine Client.Wp.bind (Consumes.tryConsumeCommentStart opts hd { f₁ with recording := false } hf₁) ?_
    rintro _ f₂ ⟨rfl, htook₂, hmoved₂⟩
    have hf₂ : f₂.rest = delimiter :: (bs ++ [delimiter]) := htook₂.rest_nil.trans hf₁
    refine Client.Wp.request_bind (r := false) (t := f₂) (by rw [Cursor.serve, hf₂]; rfl) ?_
    refine Client.Wp.bind (Consumes.lookingAt f₂ hf₂) ?_
    rintro _ f₃ ⟨rfl, htook₃, hmoved₃⟩
    obtain ⟨-, -, hcontrol, -⟩ := delimiter_class hd
    rw [if_neg (by rw [hcontrol]; decide)]
    have hf₃ : f₃.rest = delimiter :: (bs ++ [delimiter]) := htook₃.rest_nil.trans hf₂
    refine Client.Wp.request_bind (t := f₃.startToken) rfl (Client.Wp.request_bind rfl (Client.Wp.request_bind rfl ?_))
    have hn : bs.length < n + 1 := by omega
    have htoken := Consumes.consumeToken opts previous f₃.startToken.line f₃.startToken.column hd h hn f₃.startToken
      (hf₃.trans (List.append_nil _).symm)
    refine Client.Wp.bind htoken ?_
    rintro _ f₄ ⟨rfl, htook₄, hmoved₄⟩
    refine Client.Wp.request_bind (t := { f₄ with recording := false }) rfl (Client.Wp.request_bind rfl ?_)
    have hrest := htook₄.rest
    rw [show f₃.startToken.rest = f₃.rest from rfl, hf₃] at hrest
    have hpos : f₃.pos = f.pos := by
      have h₁ : f₁.pos + f₁.rest.length = f.pos + f.rest.length := hmoved₁.pos
      have h₂ : f₂.pos + f₂.rest.length = f₁.pos + f₁.rest.length := hmoved₂.pos
      have h₃ : f₃.pos + f₃.rest.length = f₂.pos + f₂.rest.length := hmoved₃.pos
      rw [hf, hf₁] at h₁
      rw [hf₁, hf₂] at h₂
      rw [hf₂, hf₃] at h₃
      omega
    refine ⟨rfl, rfl, rfl, ?_, htook₄.text_startToken, hmoved₄.start.trans hpos⟩
    exact List.append_right_eq_self.mp hrest.symm

/-- Before the end of the input there is no token. -/
theorem Tokenizer.next_end (opts : TokenizerOptions) (previous : Token) {f : Cursor} (hf : f.rest = []) (n : Nat) :
    Client.Wp Cursor.serve (fun _ => False) (next opts (n + 1) previous) f fun r _ =>
      r.1 = false ∧ r.2.type = .end_ := by
  refine Client.Wp.request_bind (r := true) (t := f) (by rw [Cursor.serve, hf]; rfl) ?_
  exact Client.Wp.request_bind rfl (Client.Wp.request_bind rfl ⟨rfl, rfl⟩)

/-- **An input that is the text of a string has one token**, the string, however it is cut. -/
theorem StringText.tokenize (h : StringText text) (opts : TokenizerOptions) {chunks : List (List UInt8)}
    (hne : ∀ c ∈ chunks, c ≠ []) (hflat : chunks.flatten = text) (hsize : text.length < 2 ^ 64) :
    ∃ token last, tokenize opts chunks = ([(token, text)], .ok last) ∧ token.type = .string ∧ last.type = .end_ := by
  subst hflat
  have hnext := h.token opts.normalize Token.start (f := Cursor.new chunks.flatten) rfl (Nat.lt_succ_self _)
  match hrun : (next opts.normalize (chunks.flatten.length + 1) Token.start).run Cursor.serve
    (Cursor.new chunks.flatten) with
  | (.error e, f') => exact (hnext.error_of_run hrun).elim
  | (.ok (more, token), f') =>
    obtain ⟨rfl, htype, hassigned, hrest, htext, hstart⟩ := hnext.of_run hrun
    have hend := next_end opts.normalize token hrest chunks.flatten.length
    match hrun' : (next opts.normalize (chunks.flatten.length + 1) token).run Cursor.serve f' with
    | (.error e, f'') => exact (hend.error_of_run hrun').elim
    | (.ok (more, last), f'') =>
      obtain ⟨rfl, hlast⟩ := hend.of_run hrun'
      obtain ⟨m, hm⟩ : ∃ m, chunks.flatten.length = m + 1 := by
        refine Nat.exists_eq_succ_of_ne_zero (mt List.length_eq_zero_iff.mp ?_)
        rintro hnil
        rw [hnil] at h
        cases h
      have htokens : Cursor.tokens opts chunks.flatten = ([(token, f')], .ok last) := by
        rw [Cursor.tokens, tokensFrom, hrun]
        dsimp only
        rw [hm] at hrun' ⊢
        rw [tokensFrom, hrun']
      have hfits : TextsFit opts chunks.flatten := by
        rw [TextsFit, htokens]
        refine List.forall_mem_singleton.mpr fun _ => ?_
        rw [hstart, FitsInt]
        exact Nat.two_pow_pos 31
      refine ⟨token, last, ?_, htype, hlast⟩
      rw [tokenize_eq_read opts hne hsize (.inr hfits), Tokenizer.read, htokens]
      have htoken : token.text f'.text = chunks.flatten := by
        rw [Token.text, show token.assigned = none from hassigned, htext]
        rfl
      exact congrArg (fun t => ([(token, t)], Except.ok last)) htoken

end Hpb
