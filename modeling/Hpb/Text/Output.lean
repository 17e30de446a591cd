import Hpb.Lib.Writer

/-!
# The output of the text encoder (`hpb/text/encode.c`)

A `Txtenc` is a `FixedWriter` with the options and the depth of the indentation. The functions below write to it: what each
one writes does not depend on the buffer (`Txtenc.Writes`), so the text of a message is one and the same for all
buffers.

Formatted numbers are lists of bytes here, and `txtenc_printf` is given the whole of what a format prints. The depth of
the indentation does not overflow.
-/

namespace Hpb

/-- The options of `hpb_TextEncode`. -/
structure TxtencOptions where
  singleLine : Bool
  skipUnknown : Bool
  noSort : Bool
  deriving DecidableEq

/-- `txtenc`. -/
structure Txtenc where
  out : FixedWriter UInt8
  indentDepth : Int
  options : TxtencOptions
  deriving DecidableEq

/-- The bytes of a text of ASCII characters. -/
def Txtenc.chars (s : String) : List UInt8 := s.toList.map Char.toUInt8

namespace Txtenc

/-- The encoder of `hpb_TextEncode` with a buffer. -/
def new (options : TxtencOptions) (buf : List UInt8) : Txtenc := ⟨.new buf, 0, options⟩

/-- `txtenc_putbytes`. -/
def putBytes (e : Txtenc) (data : List UInt8) : Txtenc := { e with out := e.out.put data }

/-- `txtenc_putstr`. -/
def putStr (e : Txtenc) (str : String) : Txtenc := e.putBytes (chars str)

/-- `txtenc_printf`, given what is printed. -/
def printf (e : Txtenc) (text : List UInt8) : Txtenc := { e with out := e.out.print 0 text }

/-- The loop of `txtenc_indent`. -/
def indentFrom : Nat → Txtenc → Txtenc
  | 0, e => e
  | i + 1, e => indentFrom i (e.putStr "  ")

/-- `txtenc_indent`. -/
def indent (e : Txtenc) : Txtenc := if e.options.singleLine then e else indentFrom e.indentDepth.toNat e

/-- `txtenc_endfield`. -/
def endField (e : Txtenc) : Txtenc := if e.options.singleLine then e.putStr " " else e.putStr "\n"

/-- `txtenc_nullz`: the length that is returned, and the buffer. -/
def nullz (e : Txtenc) : Nat × List UInt8 := e.out.finish 0

/-- `e->indent_depth += n`. -/
def deepen (e : Txtenc) (n : Int) : Txtenc := { e with indentDepth := e.indentDepth + n }

/-- `isprint` in the C locale. -/
def isPrint (c : UInt8) : Bool := 0x20 ≤ c && c ≤ 0x7e

/-- What `%03o` prints for a byte. -/
def octal3 (c : UInt8) : List UInt8 :=
  let digit (d : UInt8) : UInt8 := 48 + d
  [digit (c >>> 6), digit ((c >>> 3) &&& 7), digit (c &&& 7)]

/-- A byte of a string, in the loop of `txtenc_string`. -/
def stringByte (bytes : Bool) (e : Txtenc) (c : UInt8) : Txtenc :=
  if c = 10 then e.putStr "\\n"
  else if c = 13 then e.putStr "\\r"
  else if c = 9 then e.putStr "\\t"
  else if c = 34 then e.putStr "\\\""
  else if c = 39 then e.putStr "\\'"
  else if c = 92 then e.putStr "\\\\"
  else if (bytes || c < 0x80) && !isPrint c then e.printf (92 :: octal3 c)
  else e.putBytes [c]

/-- `txtenc_string`. -/
def string (e : Txtenc) (str : List UInt8) (bytes : Bool) : Txtenc :=
  (str.foldl (stringByte bytes) (e.putStr "\"")).putStr "\""

end Txtenc

/-! ### What is written -/

/-- From an encoder to another one, a text is written, and the depth grows by `n`. -/
structure Txtenc.Writes (e : Txtenc) (text : List UInt8) (n : Int) (e' : Txtenc) : Prop where
  follows {before : List UInt8} (h : e.out.Follows before) :
    e'.out.Follows (before ++ text) ∧ e'.out.buf.length = e.out.buf.length
  indentDepth : e'.indentDepth = e.indentDepth + n
  options : e'.options = e.options

namespace Txtenc

namespace Writes

variable {e e' e'' : Txtenc} {text text' : List UInt8} {n n' : Int}

theorem refl (e : Txtenc) : e.Writes [] 0 e where
  follows h := ⟨by rwa [List.append_nil], rfl⟩
  indentDepth := (Int.add_zero _).symm
  options := rfl

theorem trans (h : e.Writes text n e') (h' : e'.Writes text' n' e'') : e.Writes (text ++ text') (n + n') e'' where
  follows hb := by
    obtain ⟨hb', hlen⟩ := h.follows hb
    obtain ⟨hb'', hlen'⟩ := h'.follows hb'
    exact ⟨by rwa [List.append_assoc] at hb'', hlen'.trans hlen⟩
  indentDepth := by rw [h'.indentDepth, h.indentDepth, Int.add_assoc]
  options := h'.options.trans h.options

/-- A text at the depth of the first encoder. -/
theorem then_ (h : e.Writes text 0 e') (h' : e'.Writes text' n e'') : e.Writes (text ++ text') n e'' := by
  have htrans := h.trans h'
  rwa [Int.zero_add] at htrans

end Writes

variable (e : Txtenc) (text : List UInt8)

theorem writes_putBytes : e.Writes text 0 (e.putBytes text) where
  follows h := ⟨h.put text, FixedWriter.length_put e.out text h.pos_le⟩
  indentDepth := (Int.add_zero _).symm
  options := rfl

theorem writes_putStr (str : String) : e.Writes (chars str) 0 (e.putStr str) := writes_putBytes e (chars str)

theorem writes_printf : e.Writes text 0 (e.printf text) where
  follows h := ⟨h.print 0 text, FixedWriter.length_print e.out text h.pos_le⟩
  indentDepth := (Int.add_zero _).symm
  options := rfl

theorem writes_deepen (n : Int) : e.Writes [] n (e.deepen n) where
  follows h := ⟨by rwa [List.append_nil], rfl⟩
  indentDepth := rfl
  options := rfl

/-- The indentation at a depth. -/
def indentText (options : TxtencOptions) (depth : Int) : List UInt8 :=
  if options.singleLine then [] else (List.replicate depth.toNat (chars "  ")).flatten

/-- The end of a line, or a space. -/
def endText (options : TxtencOptions) : List UInt8 := if options.singleLine then chars " " else chars "\n"

theorem writes_indent : e.Writes (indentText e.options e.indentDepth) 0 e.indent := by
  have hfrom : ∀ (i : Nat) (e : Txtenc), e.Writes (List.replicate i (chars "  ")).flatten 0 (indentFrom i e) := by
    intro i
    induction i with
    | zero => exact .refl
    | succ i ih => exact fun e => (writes_putStr e "  ").then_ (ih _)
  unfold indentText indent
  split
  · exact .refl e
  · exact hfrom _ e

theorem writes_endField : e.Writes (endText e.options) 0 e.endField := by
  unfold endText endField
  split
  · exact writes_putStr e " "
  · exact writes_putStr e "\n"

/-- The text of a byte of a string. -/
def byteText (bytes : Bool) (c : UInt8) : List UInt8 :=
  if c = 10 then chars "\\n"
  else if c = 13 then chars "\\r"
  else if c = 9 then chars "\\t"
  else if c = 34 then chars "\\\""
  else if c = 39 then chars "\\'"
  else if c = 92 then chars "\\\\"
  else if (bytes || c < 0x80) && !isPrint c then 92 :: octal3 c
  else [c]

theorem writes_stringByte (bytes : Bool) (c : UInt8) : e.Writes (byteText bytes c) 0 (stringByte bytes e c) := by
  unfold stringByte byteText
  repeat' split
  all_goals first
    | exact writes_putStr e _
    | exact writes_printf e _
    | exact writes_putBytes e _

/-- The text of a string. -/
def stringText (bytes : Bool) (str : List UInt8) : List UInt8 := 34 :: (str.flatMap (byteText bytes) ++ [34])

/-- **`txtenc_string` writes the text of its string**, whatever the buffer is. -/
theorem writes_string (str : List UInt8) (bytes : Bool) : e.Writes (stringText bytes str) 0 (e.string str bytes) := by
  have hbytes : ∀ (str : List UInt8) (e : Txtenc),
      e.Writes (str.flatMap (byteText bytes)) 0 (str.foldl (stringByte bytes) e) := by
    intro str
    induction str with
    | nil => exact .refl
    | cons c str ih => exact fun e => (writes_stringByte e bytes c).then_ (ih _)
  exact (writes_putStr e "\"").then_ ((hbytes str _).then_ (writes_putStr _ "\""))

end Txtenc

end Hpb
