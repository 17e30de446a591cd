import Hpb.Lib.Decimal
import Mathlib.Data.Rat.Defs

/-!
# The scanner of the JSON decoder (`hpb/json/decode.c`)

`Jsondec` is the state of the decoder that the scanner reads and writes: the input from `d->ptr` to
`d->end`, the position for error messages, the nesting depth left and whether a container has had a
member. A function of the source is an action on it (`JsonM`), and a `longjmp` out of the decoder is a
failure. A load of the byte at `d->end` is a failure of its own (`JsonFailure.overrun`): it is outside of
the input and has no value. Memory for strings is always there.

`strtod` is a parameter (`Doubles`): the scanner checks the syntax of a number before it calls it.
-/

namespace Hpb

/-- The bytes of a text in ASCII. -/
def ascii (s : String) : List UInt8 := s.toList.map Char.toUInt8

/-- How `hpb_JsonDecode` can fail. -/
inductive JsonFailure where
  /-- `jsondec_err` and `jsondec_errf`: "Error parsing JSON @line:column: " and the format with its arguments. -/
  | error (line : Nat) (column : Int) (fmt : String) (args : List (List UInt8))
  /-- The byte at `d->end` was read. -/
  | overrun
  deriving DecidableEq

/-- `jsondec`. -/
structure Jsondec where
  /-- The bytes from `d->ptr` to `d->end`. -/
  rest : List UInt8
  /-- `d->ptr - d->line_begin`. -/
  column : Int := 0
  line : Nat := 1
  depth : Int := 64
  isFirst : Bool := false
  deriving DecidableEq

abbrev JsonM : Type → Type := StateT Jsondec (Except JsonFailure)

/-- `JD_OBJECT` and so on: what a value starts with. -/
inductive JsonPeek where
  | object
  | array
  | string
  | number
  | true
  | false
  | null
  deriving DecidableEq

/-- The doubles of the C library, as far as the decoder uses them. -/
structure Doubles (D : Type) where
  /-- `strtod` on the text of a number. -/
  strtod : List UInt8 → D
  /-- `val > DBL_MAX || val < -DBL_MAX`. -/
  outOfRange : D → Bool
  /-- The exact value of a finite double. -/
  value : D → Rat

namespace Jsondec

/-- `jsondec_err`, `jsondec_errf`. -/
def err {α : Type} (fmt : String) (args : List (List UInt8) := []) : JsonM α :=
  fun d => .error (.error d.line d.column fmt args)

/-- `d->ptr += n`, with `n` bytes left. -/
def advance (n : Nat) : JsonM Unit :=
  modify fun d => { d with rest := d.rest.drop n, column := d.column + n }

/-- `*d->ptr`. -/
def deref : JsonM UInt8 := fun d =>
  match d.rest with
  | [] => .error .overrun
  | b :: _ => .ok (b, d)

/-- `*d->ptr++`. -/
def next : JsonM UInt8 := do
  let b ← deref
  advance 1
  return b

/-- `d->ptr == d->end`. -/
def atEnd : JsonM Bool := fun d => .ok (d.rest.isEmpty, d)

/-- The loop of `jsondec_skipws`, where the input left is the argument. -/
def skipwsLoop (d : Jsondec) : List UInt8 → Except JsonFailure Jsondec
  | [] => .error (.error d.line d.column "Unexpected EOF" [])
  | b :: bs =>
    if b = '\n'.toUInt8 then skipwsLoop { d with line := d.line + 1, column := 1 } bs
    else if b = '\r'.toUInt8 ∨ b = '\t'.toUInt8 ∨ b = ' '.toUInt8 then
      skipwsLoop { d with column := d.column + 1 } bs
    else .ok { d with rest := b :: bs }

/-- `jsondec_skipws`. -/
def skipws : JsonM Unit := fun d =>
  match skipwsLoop d d.rest with
  | .ok d' => .ok ((), d')
  | .error e => .error e

/-- `jsondec_tryparsech`. -/
def tryparsech (ch : UInt8) : JsonM Bool := do
  let d ← get
  if d.rest.head? = some ch then
    advance 1
    return true
  else return false

/-- `jsondec_parselit`. -/
def parselit (lit : List UInt8) : JsonM Unit := do
  let d ← get
  if d.rest.take lit.length = lit then advance lit.length
  else err "Expected: '%s'" [lit]

/-- `jsondec_wsch`. -/
def wsch (ch : UInt8) : JsonM Unit := do
  skipws
  if ← tryparsech ch then return ()
  else err "Expected: '%c'" [[ch]]

/-- `jsondec_true`. -/
def true_ : JsonM Unit := parselit (ascii "true")

/-- `jsondec_false`. -/
def false_ : JsonM Unit := parselit (ascii "false")

/-- `jsondec_null`. -/
def null : JsonM Unit := parselit (ascii "null")

/-- `jsondec_entrysep`. -/
def entrysep : JsonM Unit := do
  skipws
  parselit (ascii ":")

/-- The byte that opens and closes a string. -/
def quote : UInt8 := 34

/-- The byte that starts an escape. -/
def backslash : UInt8 := 92

/-- The value that a byte starts. -/
def peekOf (b : UInt8) : Option JsonPeek :=
  if b = '\x7b'.toUInt8 then some .object
  else if b = '['.toUInt8 then some .array
  else if b = quote then some .string
  else if b = '-'.toUInt8 ∨ Decimal.isDigit b = true then some .number
  else if b = 't'.toUInt8 then some .true
  else if b = 'f'.toUInt8 then some .false
  else if b = 'n'.toUInt8 then some .null
  else none

/-- `jsondec_rawpeek`. -/
def rawpeek : JsonM JsonPeek := do
  let b ← deref
  match peekOf b with
  | some p => return p
  | none => err "Unexpected character: '%c'" [[b]]

/-- `jsondec_peek`. -/
def peek : JsonM JsonPeek := do
  skipws
  rawpeek

/-- `jsondec_push`. -/
def push : JsonM Unit := do
  modify fun d => { d with depth := d.depth - 1 }
  let d ← get
  if d.depth < 0 then err "Recursion limit exceeded"
  else set { d with isFirst := true }

/-- `jsondec_seqnext`. -/
def seqnext (endCh : UInt8) : JsonM Bool := do
  let d ← get
  set { d with isFirst := false }
  skipws
  let b ← deref
  if b = endCh then return false
  else
    if !d.isFirst then parselit (ascii ",")
    return true

/-- `jsondec_arrstart`. -/
def arrstart : JsonM Unit := do
  push
  wsch '['.toUInt8

/-- `jsondec_arrend`. -/
def arrend : JsonM Unit := do
  modify fun d => { d with depth := d.depth + 1 }
  wsch ']'.toUInt8

/-- `jsondec_arrnext`. -/
def arrnext : JsonM Bool := seqnext ']'.toUInt8

/-- `jsondec_objstart`. -/
def objstart : JsonM Unit := do
  push
  wsch '\x7b'.toUInt8

/-- `jsondec_objend`. -/
def objend : JsonM Unit := do
  modify fun d => { d with depth := d.depth + 1 }
  wsch '\x7d'.toUInt8

/-- `jsondec_objnext`. -/
def objnext : JsonM Bool := do
  if ← seqnext '\x7d'.toUInt8 then
    if (← peek) ≠ .string then err "Object must start with string"
    else return true
  else return false

/-- `jsondec_tryskipdigits`. -/
def tryskipdigits : JsonM Bool := do
  let d ← get
  let n := (d.rest.takeWhile Decimal.isDigit).length
  advance n
  return n ≠ 0

/-- `jsondec_skipdigits`. -/
def skipdigits : JsonM Unit := do
  if ← tryskipdigits then return ()
  else err "Expected one or more digits"

/-- The integer part of a number. -/
def skipInteger : JsonM Unit := do
  if (← deref) = '-'.toUInt8 then advance 1
  if ← tryparsech '0'.toUInt8 then
    if ← tryskipdigits then err "number cannot have leading zero"
  else skipdigits

/-- The exponent of a number. -/
def skipExponent : JsonM Unit := do
  let b ← deref
  if b = 'e'.toUInt8 ∨ b = 'E'.toUInt8 then
    advance 1
    if ← atEnd then err "Unexpected EOF in number"
    else
      let s ← deref
      if s = '+'.toUInt8 ∨ s = '-'.toUInt8 then advance 1
      skipdigits

/-- The syntax of a number: `jsondec_number` up to the label `parse`. -/
def skipNumber : JsonM Unit := do
  skipInteger
  if ← atEnd then return ()
  else
    if ← tryparsech '.'.toUInt8 then skipdigits
    if ← atEnd then return ()
    else skipExponent

/-- `jsondec_number`. -/
def number {D : Type} (dbl : Doubles D) : JsonM D := do
  let start ← get
  skipNumber
  let d ← get
  let val := dbl.strtod (start.rest.take (start.rest.length - d.rest.length))
  if dbl.outOfRange val then err "Number out of range"
  else return val

/-- `jsondec_escape`. -/
def escape : JsonM UInt8 := do
  let b ← next
  if b = quote then return quote
  else if b = backslash then return backslash
  else if b = '/'.toUInt8 then return '/'.toUInt8
  else if b = 'b'.toUInt8 then return 8
  else if b = 'f'.toUInt8 then return 12
  else if b = 'n'.toUInt8 then return 10
  else if b = 'r'.toUInt8 then return 13
  else if b = 't'.toUInt8 then return 9
  else err "Invalid escape char"

/-- The value of a hexadecimal digit. -/
def hexVal (b : UInt8) : Option Nat :=
  if '0'.toUInt8 ≤ b ∧ b ≤ '9'.toUInt8 then some (b.toNat - 48)
  else if 'a'.toUInt8 ≤ b ∧ b ≤ 'f'.toUInt8 then some (b.toNat - 97 + 10)
  else if 'A'.toUInt8 ≤ b ∧ b ≤ 'F'.toUInt8 then some (b.toNat - 65 + 10)
  else none

/-- The loop of `jsondec_codepoint`, with `n` digits to go. -/
def codepointLoop : Nat → Nat → JsonM Nat
  | 0, cp => return cp
  | n + 1, cp => do
    match hexVal (← next) with
    | some v => codepointLoop n (cp * 16 + v)
    | none => err "Invalid hex digit"

/-- `jsondec_codepoint`. -/
def codepoint : JsonM Nat := do
  if (← get).rest.length < 4 then err "EOF inside string"
  else codepointLoop 4 0

end Jsondec

namespace Unicode

/-- `hpb_Unicode_IsHigh`. -/
def isHigh (cp : Nat) : Bool := 0xd800 ≤ cp && cp ≤ 0xdbff

/-- `hpb_Unicode_IsLow`. -/
def isLow (cp : Nat) : Bool := 0xdc00 ≤ cp && cp ≤ 0xdfff

/-- `hpb_Unicode_FromPair`. -/
def fromPair (high low : Nat) : Nat := (high &&& 0x3ff) <<< 10 + (low &&& 0x3ff) + 0x10000

/-- `_hpb_Unicode_ToUTF8`: the bytes written, none on an error. -/
def toUTF8 (cp : Nat) : List UInt8 :=
  if cp ≤ 0x7f then [UInt8.ofNat cp]
  else if cp ≤ 0x07ff then [UInt8.ofNat (cp >>> 6 ||| 0xc0), UInt8.ofNat (cp &&& 0x3f ||| 0x80)]
  else if cp ≤ 0xffff then
    [UInt8.ofNat (cp >>> 12 ||| 0xe0), UInt8.ofNat (cp >>> 6 &&& 0x3f ||| 0x80),
      UInt8.ofNat (cp &&& 0x3f ||| 0x80)]
  else if cp ≤ 0x10ffff then
    [UInt8.ofNat (cp >>> 18 ||| 0xf0), UInt8.ofNat (cp >>> 12 &&& 0x3f ||| 0x80),
      UInt8.ofNat (cp >>> 6 &&& 0x3f ||| 0x80), UInt8.ofNat (cp &&& 0x3f ||| 0x80)]
  else []

end Unicode

namespace Jsondec

/-- `jsondec_unicode`. -/
def unicode : JsonM (List UInt8) := do
  let cp ← codepoint
  let cp ←
    if Unicode.isHigh cp then do
      parselit [backslash, 'u'.toUInt8]
      let low ← codepoint
      if Unicode.isLow low then pure (Unicode.fromPair cp low) else err "Invalid low surrogate"
    else if Unicode.isLow cp then err "Unpaired low surrogate"
    else pure cp
  let bytes := Unicode.toUTF8 cp
  if bytes.isEmpty then err "Invalid codepoint" else return bytes

/-- The loop of `jsondec_string`: `buf` is the string so far. Each round takes at least one byte, so as
many rounds as there are bytes are enough. -/
def stringLoop : Nat → List UInt8 → JsonM (List UInt8)
  | 0, _ => err "EOF inside string"
  | n + 1, buf => do
    if ← atEnd then err "EOF inside string"
    else
      let ch ← next
      if ch = quote then return buf
      else if ch = backslash then
        if ← atEnd then err "EOF inside string"
        else if (← deref) = 'u'.toUInt8 then
          advance 1
          stringLoop n (buf ++ (← unicode))
        else stringLoop n (buf ++ [← escape])
      else if (← deref) < 0x20 then err "Invalid char in JSON string"
      else stringLoop n (buf ++ [ch])

/-- `jsondec_string`. -/
def string : JsonM (List UInt8) := do
  skipws
  if (← next) ≠ quote then err "Expected string"
  else stringLoop (← get).rest.length []

/-- The rest of an action after its first step. -/
theorem bind_ok {α β : Type} {x : JsonM α} {f : α → JsonM β} {a : α} {d d' : Jsondec} (h : x d = .ok (a, d')) :
    (x >>= f) d = f a d' := by
  change (do let p ← x d; f p.1 p.2) = f a d'
  rw [h]
  rfl

/-- The first step of an action that succeeds. -/
theorem bind_eq_ok {α β : Type} {x : JsonM α} {f : α → JsonM β} {b : β} {d d' : Jsondec}
    (h : (x >>= f) d = .ok (b, d')) : ∃ a d₁, x d = .ok (a, d₁) ∧ f a d₁ = .ok (b, d') := by
  change (do let p ← x d; f p.1 p.2) = .ok (b, d') at h
  cases hx : x d with
  | error e => rw [hx] at h; cases h
  | ok p => rw [hx] at h; exact ⟨p.1, p.2, rfl, h⟩

theorem next_cons {d : Jsondec} {b : UInt8} {bs : List UInt8} (h : d.rest = b :: bs) :
    next d = .ok (b, { d with rest := bs, column := d.column + 1 }) := by
  have hderef : deref d = .ok (b, d) := by rw [deref, h]
  rw [next, bind_ok hderef]
  change Except.ok (b, { d with rest := d.rest.drop 1, column := d.column + 1 }) = _
  rw [h, List.drop_one, List.tail_cons]

theorem skipws_of_head {d : Jsondec} {b : UInt8} {bs : List UInt8} (h : d.rest = b :: bs)
    (hn : b ≠ '\n'.toUInt8) (hs : ¬(b = '\r'.toUInt8 ∨ b = '\t'.toUInt8 ∨ b = ' '.toUInt8)) :
    skipws d = .ok ((), d) := by
  have hloop : skipwsLoop d (b :: bs) = .ok { d with rest := b :: bs } := by
    rw [skipwsLoop, if_neg hn, if_neg hs]
  rw [skipws, h, hloop, ← h]

/-- A byte that stands for itself in a string. -/
def Plain (b : UInt8) : Prop := b ≠ quote ∧ b ≠ backslash ∧ 0x20 ≤ b

instance (b : UInt8) : Decidable (Plain b) := inferInstanceAs (Decidable (_ ∧ _))

theorem stringLoop_plain {body tail : List UInt8} (hbody : ∀ b ∈ body, Plain b) (buf : List UInt8)
    {d : Jsondec} (hrest : d.rest = body ++ quote :: tail) {n : Nat} (hn : body.length < n) :
    stringLoop n buf d =
      .ok (buf ++ body, { d with rest := tail, column := d.column + body.length + 1 }) := by
  induction body generalizing buf d n with
  | nil =>
    obtain ⟨k, rfl⟩ : ∃ k, n = k + 1 := ⟨n - 1, by simp at hn; omega⟩
    have hend : atEnd d = .ok (false, d) := by rw [atEnd, hrest]; rfl
    rw [stringLoop, bind_ok hend]
    simp only [Bool.false_eq_true, ↓reduceIte]
    rw [bind_ok (next_cons hrest), if_pos rfl, List.append_nil, List.length_nil, Nat.cast_zero, Int.add_zero]
    rfl
  | cons b body ih =>
    obtain ⟨k, rfl⟩ : ∃ k, n = k + 1 := ⟨n - 1, by simp at hn; omega⟩
    obtain ⟨hq, hs, -⟩ := hbody b List.mem_cons_self
    rw [List.cons_append] at hrest
    have hend : atEnd d = .ok (false, d) := by rw [atEnd, hrest]; rfl
    obtain ⟨c, cs, hc, hlow⟩ : ∃ c cs, body ++ quote :: tail = c :: cs ∧ ¬c < 0x20 := by
      cases body with
      | nil => exact ⟨quote, tail, rfl, by decide⟩
      | cons c cs =>
        exact ⟨c, cs ++ quote :: tail, rfl, UInt8.not_lt.mpr (hbody c (by simp)).2.2⟩
    rw [stringLoop, bind_ok hend]
    simp only [Bool.false_eq_true, ↓reduceIte]
    rw [bind_ok (next_cons hrest), if_neg hq, if_neg hs]
    have hderef : deref { d with rest := body ++ quote :: tail, column := d.column + 1 } =
        .ok (c, { d with rest := body ++ quote :: tail, column := d.column + 1 }) := by
      rw [deref]
      dsimp only
      rw [hc]
    rw [bind_ok hderef, if_neg hlow, ih (fun x hx => hbody x (List.mem_cons_of_mem _ hx)) (buf ++ [b]) rfl
      (by simpa using hn)]
    congr 2
    · simp
    · simp [Int.add_comm, Int.add_left_comm]

/-- A string without escapes is read as it stands. -/
theorem string_plain {body : List UInt8} (tail : List UInt8) (hbody : ∀ b ∈ body, Plain b) {d : Jsondec}
    (hrest : d.rest = quote :: (body ++ quote :: tail)) :
    string d = .ok (body, { d with rest := tail, column := d.column + (body.length + 2) }) := by
  rw [string, bind_ok (skipws_of_head hrest (by decide) (by decide)), bind_ok (next_cons hrest),
    if_neg (fun h => h rfl), bind_ok rfl, stringLoop_plain hbody [] rfl (by simp)]
  congr 3
  simp only
  omega

end Jsondec

end Hpb
