import Hpb.Lib.Client
import Hpb.Wire.EpsCopyInputStream

/-!
# The tokenizer (`hpb/io/tokenizer.c`)

`hpb_Tokenizer_Next` and the functions below it, as a program (`TokM`) over the part of `hpb_Tokenizer` that
deals with its input: the character at hand, its line and column, and the text that is being recorded. A
failed program is `ReportError`. Comments are not recorded, as every caller passes `NULL` for their content.

`TokenBuffer` is that part of the structure: the buffer that the input stream returned last and the position
in it. `record_start` is an `int` and `buffer_pos` a `size_t`, so the first is converted where the two meet.
The input stream is the list of the chunks that it will return. Line and column numbers do not overflow.
-/

namespace Hpb

/-- `hpb_TokenType`. -/
inductive TokenType where
  | start | end_ | identifier | integer | float | string | symbol | whitespace | newline
  deriving DecidableEq, Repr

/-- `hpb_Tokenizer_Option`, as `hpb_Tokenizer_New` is given them. -/
structure TokenizerOptions where
  allowFAfterFloat : Bool
  reportWhitespace : Bool
  reportNewlines : Bool
  commentStyleShell : Bool
  deriving DecidableEq, Repr

/-- The options of a tokenizer: `ReportNewlines` implies `ReportWhitespace`. -/
def TokenizerOptions.normalize (opts : TokenizerOptions) : TokenizerOptions :=
  { opts with reportWhitespace := opts.reportWhitespace || opts.reportNewlines }

/-- How a program ends that does not return. -/
inductive TokFailure where
  /-- `ReportError`, with the line and the column that are printed before the message. -/
  | error (line column : Int) (msg : String)
  | outOfFuel
  deriving DecidableEq

/-- What a program asks of its input. -/
inductive TokCall where
  | currentChar
  | readError
  | line
  | column
  | nextChar
  /-- `t->column -= n`. -/
  | backColumn (n : Int)
  /-- `StartToken`: clear the text and record to it. -/
  | startToken
  /-- `EndToken`. -/
  | endToken

/-- The type of the answer. -/
def TokCall.Reply : TokCall → Type
  | currentChar => UInt8
  | readError => Bool
  | line => Int
  | column => Int
  | _ => Unit

/-- A part of the tokenizer. -/
abbrev TokM := Client TokCall TokCall.Reply TokFailure

namespace Tokenizer

def isUnprintable (c : UInt8) : Bool := 0 < c && c < ' '.toUInt8

def isLetter (c : UInt8) : Bool :=
  ('a'.toUInt8 ≤ c && c ≤ 'z'.toUInt8) || ('A'.toUInt8 ≤ c && c ≤ 'Z'.toUInt8) || c == '_'.toUInt8

def isDigit (c : UInt8) : Bool := '0'.toUInt8 ≤ c && c ≤ '9'.toUInt8

def isOctalDigit (c : UInt8) : Bool := '0'.toUInt8 ≤ c && c ≤ '7'.toUInt8

def isHexDigit (c : UInt8) : Bool :=
  ('0'.toUInt8 ≤ c && c ≤ '9'.toUInt8) || ('a'.toUInt8 ≤ c && c ≤ 'f'.toUInt8) ||
    ('A'.toUInt8 ≤ c && c ≤ 'F'.toUInt8)

def isAlphanumeric (c : UInt8) : Bool := isLetter c || isDigit c

/-- The space, the tab, the carriage return, the vertical tab and the form feed. -/
def isWhitespaceNoNewline (c : UInt8) : Bool := c == 32 || c == 9 || c == 13 || c == 11 || c == 12

def isWhitespace (c : UInt8) : Bool := c == 10 || isWhitespaceNoNewline c

/-- The letters, the backslash, the question mark and the quotes that may follow a backslash. -/
def isEscape (c : UInt8) : Bool :=
  c == 'a'.toUInt8 || c == 'b'.toUInt8 || c == 'f'.toUInt8 || c == 'n'.toUInt8 || c == 'r'.toUInt8 ||
    c == 't'.toUInt8 || c == 'v'.toUInt8 || c == 92 || c == '?'.toUInt8 || c == 39 || c == 34

def currentChar : TokM UInt8 := .request TokCall.currentChar
def readError : TokM Bool := .request TokCall.readError
def line : TokM Int := .request TokCall.line
def column : TokM Int := .request TokCall.column
def nextChar : TokM Unit := .request TokCall.nextChar
def startToken : TokM Unit := .request TokCall.startToken
def endToken : TokM Unit := .request TokCall.endToken
def backColumn (n : Int) : TokM Unit := .request (TokCall.backColumn n)

/-- `ReportError`. -/
def reportError {α : Type} (msg : String) : TokM α := do
  let l ← line
  let c ← column
  .fail (.error l c msg)

/-- `LookingAt`. -/
def lookingAt (f : UInt8 → Bool) : TokM Bool := do
  let c ← currentChar
  return f c

/-- `TryConsumeOne`. -/
def tryConsumeOne (f : UInt8 → Bool) : TokM Bool := do
  let c ← currentChar
  if f c then
    nextChar
    return true
  else return false

/-- `TryConsume`. -/
def tryConsume (c : UInt8) : TokM Bool := tryConsumeOne (· == c)

/-- `a || b`. -/
def orElse (a b : TokM Bool) : TokM Bool := do
  if ← a then return true else b

/-- `a && b && ..`. -/
def all : List (TokM Bool) → TokM Bool
  | [] => return true
  | x :: xs => do
    if ← x then all xs else return false

/-- `ConsumeZeroOrMore`. Each round takes a byte of the input, so the fuel of one more than its bytes is
not used up. -/
def consumeZeroOrMore (f : UInt8 → Bool) : Nat → TokM Unit
  | 0 => .fail .outOfFuel
  | fuel + 1 => do
    if ← tryConsumeOne f then consumeZeroOrMore f fuel else return ()

/-- `ConsumeOneOrMore`. -/
def consumeOneOrMore (f : UInt8 → Bool) (msg : String) (fuel : Nat) : TokM Unit := do
  if ← tryConsumeOne f then consumeZeroOrMore f fuel else reportError msg

/-- The part of `ConsumeString` after a backslash. -/
def consumeEscape : TokM Unit := do
  if ← orElse (tryConsumeOne isEscape) (tryConsumeOne isOctalDigit) then return ()
  else if ← tryConsume 'x'.toUInt8 then
    if ← tryConsumeOne isHexDigit then return ()
    else reportError "Expected hex digits for escape sequence."
  else if ← tryConsume 'u'.toUInt8 then
    if ← all [tryConsumeOne isHexDigit, tryConsumeOne isHexDigit, tryConsumeOne isHexDigit,
        tryConsumeOne isHexDigit] then return ()
    else reportError "Expected four hex digits for \\u escape sequence."
  else if ← tryConsume 'U'.toUInt8 then
    if ← all [tryConsume '0'.toUInt8, tryConsume '0'.toUInt8,
        orElse (tryConsume '0'.toUInt8) (tryConsume '1'.toUInt8), tryConsumeOne isHexDigit,
        tryConsumeOne isHexDigit, tryConsumeOne isHexDigit, tryConsumeOne isHexDigit,
        tryConsumeOne isHexDigit] then return ()
    else reportError "Expected eight hex digits up to 10ffff for \\U escape sequence"
  else reportError "Invalid escape sequence in string literal."

/-- `ConsumeString`. -/
def consumeString (delimiter : UInt8) : Nat → TokM Unit
  | 0 => .fail .outOfFuel
  | fuel + 1 => do
    let c ← currentChar
    if c = 0 then reportError "Unexpected end of string."
    else if c = 10 then reportError "String literals cannot cross line boundaries."
    else if c = 92 then
      nextChar
      consumeEscape
      consumeString delimiter fuel
    else if c = delimiter then nextChar
    else
      nextChar
      consumeString delimiter fuel

/-- The digits of a decimal number and of its fraction, and whether it has one. -/
def consumeFraction (fuel : Nat) (startedWithDot : Bool) : TokM Bool := do
  consumeZeroOrMore isDigit fuel
  if startedWithDot then return true
  else if ← tryConsume '.'.toUInt8 then
    consumeZeroOrMore isDigit fuel
    return true
  else return false

/-- The exponent of a decimal number, and whether it has one. -/
def consumeExponent (fuel : Nat) : TokM Bool := do
  if ← orElse (tryConsume 'e'.toUInt8) (tryConsume 'E'.toUInt8) then
    let _ ← orElse (tryConsume '-'.toUInt8) (tryConsume '+'.toUInt8)
    consumeOneOrMore isDigit "\"e\" must be followed by exponent." fuel
    return true
  else return false

/-- The digits of a number, and whether it is a float. -/
def consumeDigits (opts : TokenizerOptions) (fuel : Nat) (startedWithZero startedWithDot : Bool) : TokM Bool := do
  if ← all [pure startedWithZero, orElse (tryConsume 'x'.toUInt8) (tryConsume 'X'.toUInt8)] then
    consumeOneOrMore isHexDigit "\"0x\" must be followed by hex digits." fuel
    return false
  else if ← all [pure startedWithZero, lookingAt isDigit] then
    consumeZeroOrMore isOctalDigit fuel
    if ← lookingAt isDigit then reportError "Numbers starting with leading zero must be in octal."
    else return false
  else
    let fraction ← consumeFraction fuel startedWithDot
    let exponent ← consumeExponent fuel
    let suffix ← all [pure opts.allowFAfterFloat, orElse (tryConsume 'f'.toUInt8) (tryConsume 'F'.toUInt8)]
    return fraction || exponent || suffix

/-- `ConsumeNumber`. -/
def consumeNumber (opts : TokenizerOptions) (fuel : Nat) (startedWithZero startedWithDot : Bool) :
    TokM TokenType := do
  let isFloat ← consumeDigits opts fuel startedWithZero startedWithDot
  if ← lookingAt isLetter then reportError "Need space between number and identifier."
  else
    let c ← currentChar
    if c = '.'.toUInt8 then
      if isFloat then reportError "Already saw decimal point or exponent; can't have another one."
      else reportError "Hex and octal numbers must be integers."
    else return if isFloat then .float else .integer

/-- `ConsumeLineComment`. -/
def consumeLineComment (fuel : Nat) : TokM Unit := do
  consumeZeroOrMore (fun c => c != 0 && c != 10) fuel
  let _ ← tryConsume 10
  return ()

/-- The loop of `ConsumeBlockComment`, for a comment that starts at a place. -/
def consumeBlockCommentFrom (inner : Nat) (startLine startColumn : Int) : Nat → TokM Unit
  | 0 => .fail .outOfFuel
  | fuel + 1 => do
    consumeZeroOrMore (fun c => c != 0 && c != '*'.toUInt8 && c != '/'.toUInt8 && c != 10) inner
    if ← tryConsume 10 then
      consumeZeroOrMore isWhitespaceNoNewline inner
      if ← all [tryConsume '*'.toUInt8, tryConsume '/'.toUInt8] then return ()
      else consumeBlockCommentFrom inner startLine startColumn fuel
    else if ← all [tryConsume '*'.toUInt8, tryConsume '/'.toUInt8] then return ()
    else if ← all [tryConsume '/'.toUInt8, lookingAt (· == '*'.toUInt8)] then
      reportError "\"/*\" inside block comment.  Block comments cannot be nested."
    else
      let c ← currentChar
      if c = 0 then
        reportError ("End-of-file inside block comment.\n" ++ toString startLine ++ ":" ++
          toString startColumn ++ ": Comment started here.")
      else consumeBlockCommentFrom inner startLine startColumn fuel

/-- `ConsumeBlockComment`. -/
def consumeBlockComment (fuel : Nat) : TokM Unit := do
  let l ← line
  let c ← column
  consumeBlockCommentFrom fuel l (c - 2) fuel

/-- A token. Its text is the one that was recorded, unless it is assigned. -/
structure Token where
  type : TokenType
  line : Int
  column : Int
  endColumn : Int
  assigned : Option (List UInt8)
  deriving DecidableEq

/-- The token of a new tokenizer. -/
def Token.start : Token := ⟨.start, 0, 0, 0, some []⟩

/-- `hpb_CommentType`; the slash is a token of its own. -/
inductive CommentType where
  | line
  | block
  | slashNot (token : Token)
  | none

/-- `TryConsumeCommentStart`. -/
def tryConsumeCommentStart (opts : TokenizerOptions) : TokM CommentType := do
  if opts.commentStyleShell then
    if ← tryConsume '#'.toUInt8 then return .line else return .none
  else if ← tryConsume '/'.toUInt8 then
    if ← tryConsume '/'.toUInt8 then return .line
    else if ← tryConsume '*'.toUInt8 then return .block
    else
      let l ← line
      let c ← column
      return .slashNot ⟨.symbol, l, c - 1, c, some ['/'.toUInt8]⟩
  else return .none

/-- `TryConsumeWhitespace` and then `TryConsumeNewline`: the type of the token, if it is reported. -/
def tryConsumeWhitespace (opts : TokenizerOptions) (fuel : Nat) : TokM (Option TokenType) := do
  if opts.reportNewlines then
    if ← tryConsumeOne isWhitespaceNoNewline then
      consumeZeroOrMore isWhitespaceNoNewline fuel
      return some .whitespace
    else if ← tryConsume 10 then return some .newline
    else return none
  else if ← tryConsumeOne isWhitespace then
    consumeZeroOrMore isWhitespace fuel
    return if opts.reportWhitespace then some .whitespace else none
  else return none

/-- The type of a token that is neither whitespace nor a comment, which is consumed. -/
def consumeToken (opts : TokenizerOptions) (fuel : Nat) (previous : Token) (startLine startColumn : Int) :
    TokM TokenType := do
  if ← tryConsumeOne isLetter then
    consumeZeroOrMore isAlphanumeric fuel
    return .identifier
  else if ← tryConsume '0'.toUInt8 then consumeNumber opts fuel true false
  else if ← tryConsume '.'.toUInt8 then
    if ← tryConsumeOne isDigit then
      if previous.type = .identifier ∧ startLine = previous.line ∧ startColumn = previous.endColumn then
        backColumn 2
        reportError "Need space between identifier and decimal point."
      else consumeNumber opts fuel false true
    else return .symbol
  else if ← tryConsumeOne isDigit then consumeNumber opts fuel false false
  else if ← tryConsume 34 then
    consumeString 34 fuel
    return .string
  else if ← tryConsume 39 then
    consumeString 39 fuel
    return .string
  else
    let c ← currentChar
    if c &&& 128 ≠ 0 then reportError ("Interpreting non ascii codepoint " ++ toString c.toNat ++ ".")
    else
      nextChar
      return .symbol

/-- The last part of `hpb_Tokenizer_Next`: the token at the end. -/
def endOfInput : TokM (Bool × Token) := do
  let l ← line
  let c ← column
  return (false, ⟨.end_, l, c, c, some []⟩)

/-- The loop of `hpb_Tokenizer_Next`. -/
def nextFrom (opts : TokenizerOptions) (inner : Nat) (previous : Token) : Nat → TokM (Bool × Token)
  | 0 => .fail .outOfFuel
  | fuel + 1 => do
    if ← readError then endOfInput
    else
      startToken
      let l ← line
      let c ← column
      let report ← tryConsumeWhitespace opts inner
      endToken
      let e ← column
      match report with
      | some type => return (true, ⟨type, l, c, e, none⟩)
      | none =>
        match ← tryConsumeCommentStart opts with
        | .line =>
          consumeLineComment inner
          nextFrom opts inner previous fuel
        | .block =>
          consumeBlockComment inner
          nextFrom opts inner previous fuel
        | .slashNot token => return (true, token)
        | .none =>
          if ← readError then endOfInput
          else if ← lookingAt fun c => isUnprintable c || c == 0 then
            reportError "Invalid control characters encountered in text."
          else
            startToken
            let l ← line
            let c ← column
            let type ← consumeToken opts inner previous l c
            endToken
            let e ← column
            return (true, ⟨type, l, c, e, none⟩)

/-- `hpb_Tokenizer_Next` after a token, for an input of less than `fuel` bytes: whether there is a token, and
the token. -/
def next (opts : TokenizerOptions) (fuel : Nat) (previous : Token) : TokM (Bool × Token) :=
  nextFrom opts fuel previous fuel

end Tokenizer

/-- The part of `hpb_Tokenizer` that deals with its input, with `token_text`. -/
structure TokenBuffer where
  /-- What `hpb_ZeroCopyInputStream_Next` will return. -/
  input : List (List UInt8)
  buffer : List UInt8
  bufferPos : Nat
  currentChar : UInt8
  readError : Bool
  line : Int
  column : Int
  /-- `record_target` is `&t->token_text`, and not `NULL`. -/
  recording : Bool
  recordStart : Int
  text : List UInt8

/-- The line and the column after a character. -/
def advance (c : UInt8) (line column : Int) : Int × Int :=
  if c = 10 then (line + 1, 0)
  else if c = 9 then (line, column + (8 - column % 8))
  else (line, column + 1)

namespace TokenBuffer

/-- The part of `Refresh` that appends the rest of the buffer to the text. -/
def spill (b : TokenBuffer) : TokenBuffer :=
  if b.recording ∧ uintptr b.recordStart < b.buffer.length then
    { b with text := b.text ++ b.buffer.drop b.recordStart.toNat, recordStart := 0 }
  else b

/-- The part of `Refresh` that reads a new buffer. -/
def load (b : TokenBuffer) : TokenBuffer :=
  match b.input with
  | (c :: cs) :: rest => { b with input := rest, buffer := c :: cs, bufferPos := 0, currentChar := c }
  | [] :: rest => { b with input := rest, buffer := [], bufferPos := 0, readError := true, currentChar := 0 }
  | [] => { b with buffer := [], bufferPos := 0, readError := true, currentChar := 0 }

/-- `Refresh`. -/
def refresh (b : TokenBuffer) : TokenBuffer :=
  if b.readError then { b with currentChar := 0 } else b.spill.load

/-- `NextChar`. -/
def nextChar (b : TokenBuffer) : TokenBuffer :=
  let (line, column) := advance b.currentChar b.line b.column
  let b := { b with line, column, bufferPos := b.bufferPos + 1 }
  match b.buffer[b.bufferPos]? with
  | some c => { b with currentChar := c }
  | none => b.refresh

/-- `RecordTo`. -/
def recordTo (b : TokenBuffer) : TokenBuffer :=
  { b with recording := true, recordStart := toInt32 b.bufferPos }

/-- `StopRecording`. -/
def stopRecording (b : TokenBuffer) : TokenBuffer :=
  let b := if uintptr b.recordStart < b.bufferPos then
      { b with text := b.text ++ (b.buffer.take b.bufferPos).drop b.recordStart.toNat }
    else b
  { b with recording := false, recordStart := -1 }

/-- What the tokenizer does to its buffer. -/
def serve : Serve TokCall TokCall.Reply TokFailure TokenBuffer
  | .currentChar, b => (.ok b.currentChar, b)
  | .readError, b => (.ok b.readError, b)
  | .line, b => (.ok b.line, b)
  | .column, b => (.ok b.column, b)
  | .nextChar, b => (.ok (), b.nextChar)
  | .backColumn n, b => (.ok (), { b with column := b.column - n })
  | .startToken, b => (.ok (), { b with text := [] }.recordTo)
  | .endToken, b => (.ok (), b.stopRecording)

/-- `hpb_Tokenizer_New`, for a stream that returns these chunks. -/
def new (chunks : List (List UInt8)) : TokenBuffer :=
  let b : TokenBuffer :=
    { input := chunks, buffer := [], bufferPos := 0, currentChar := 0, readError := false, line := 0, column := 0,
      recording := false, recordStart := -1, text := [] }
  b.refresh

end TokenBuffer

namespace Tokenizer

/-- The tokens of calls of `hpb_Tokenizer_Next` while it returns true, each with the state after it, and how
the last call ends: with the token at the end of the input, or with an error. -/
def tokensFrom {σ : Type} (serve : Serve TokCall TokCall.Reply TokFailure σ) (opts : TokenizerOptions) (inner : Nat) :
    Nat → Token → σ → List (Token × σ) × Except TokFailure Token
  | 0, _, _ => ([], .error .outOfFuel)
  | fuel + 1, previous, s =>
    match (next opts inner previous).run serve s with
    | (.ok (true, token), s) =>
      let (tokens, last) := tokensFrom serve opts inner fuel token s
      ((token, s) :: tokens, last)
    | (.ok (false, token), _) => ([], .ok token)
    | (.error e, _) => ([], .error e)

/-- The text of a token. -/
def Token.text (token : Token) (recorded : List UInt8) : List UInt8 := token.assigned.getD recorded

/-- The tokens of an input that comes in chunks, with their texts, and how the last call ends. Each token has
a byte, so the fuel of one more than the bytes is not used up. -/
def tokenize (opts : TokenizerOptions) (chunks : List (List UInt8)) :
    List (Token × List UInt8) × Except TokFailure Token :=
  let (tokens, last) := tokensFrom TokenBuffer.serve opts.normalize (chunks.flatten.length + 1)
    (chunks.flatten.length + 1) Token.start (TokenBuffer.new chunks)
  (tokens.map fun (token, b) => (token, token.text b.text), last)

end Tokenizer

end Hpb
