import Hpb.Reflection.DefPool

/-!
# The builder of definitions (`hpb/reflection/def_builder.c`, `field_def.c`)

`Build` is what the builder does while it makes the definitions of one file: it keeps the mini tables it
has built, makes calls to the pool, and may fail. Memory does not run out in the arenas of the builder.

* names: `checkIdentNotFull`, `checkIdentFull`, `makeFullName`;
* `resolveAny`, `resolve`: a name that is relative to a scope;
* `parseDefault`: the default value of a field.

The numbers of `strtod` and `strtof` are not modelled: the two functions are parameters of the builder
(`BuildContext`), which fail if there is an error or something is left.
-/

namespace Hpb

namespace Reflection

/-- What the builder has built: the tables of the file's closed enums and messages, and of its extensions,
which have their places before they are built. -/
structure BuildState where
  enumTables : List MiniTableEnum
  tables : List MiniTable
  extTables : List (Option MiniTableExtension)
  extCount : Nat
  deriving DecidableEq, Repr

/-- The parts of `hpb_DefBuilder` that do not change; `enumBase`, `tableBase` and `extBase` are where the
tables of the file start in memory. -/
structure BuildContext where
  file : Nat
  fileSyntax : Syntax
  package : Option StrKey
  platform : Platform
  enumBase : Nat
  tableBase : Nat
  extBase : Nat
  strtod : StrKey → Option UInt64
  strtof : StrKey → Option UInt32

/-- A step of the builder. -/
abbrev Build : Type → Type := StateT BuildState (Client PoolCall PoolReply Failure)

namespace Build

variable {α : Type}

/-- A failure. -/
def fail (f : Failure) : Build α := fun _ => .fail f

/-- `_hpb_DefBuilder_Errf`. -/
def errf (format : String) (args : List ErrArg) : Build α := fail (.error format args)

/-- A call to the pool. -/
def poolCall (c : PoolCall) : Build (PoolReply c) := fun s => .call c fun r => .done (r, s)

end Build

open Build

/-! ### Names -/

/-- `hpb_isletter`. -/
def isLetter (c : UInt8) : Bool :=
  let lower := c ||| 0x20
  (97 ≤ lower && lower ≤ 122) || c = 95

/-- `'0' <= c && c <= '9'`. -/
def isDigit (c : UInt8) : Bool := 48 ≤ c && c ≤ 57

/-- `_hpb_DefBuilder_CheckIdentSlow` from some place of the name on. It does not return. -/
def checkIdentSlow (name : StrKey) (full : Bool) : Bool → StrKey → Failure
  | start, [] =>
    if start then .error "invalid name: empty part (%.*s)" [.str name]
    else .undefined
  | start, c :: cs =>
    if c = 46 then
      if start || !full then .error "invalid name: unexpected '.' (%.*s)" [.str name]
      else checkIdentSlow name full true cs
    else if start then
      if !isLetter c then
        .error "invalid name: path components must start with a letter (%.*s)" [.str name]
      else checkIdentSlow name full false cs
    else if !(isLetter c || isDigit c) then
      .error "invalid name: non-alphanumeric character (%.*s)" [.str name]
    else checkIdentSlow name full false cs

/-- `_hpb_DefBuilder_CheckIdentNotFull`. -/
def checkIdentNotFull (name : StrKey) : Build Unit :=
  let good := match name with
    | [] => false
    | c :: cs => isLetter c && cs.all fun c => isLetter c || isDigit c
  if good then pure () else fail (checkIdentSlow name false true name)

/-- The loop of `_hpb_DefBuilder_CheckIdentFull`. -/
def identFullGood : Bool → StrKey → Bool
  | _, [] => true
  | start, c :: cs =>
    let isDot := c = 46 && !start
    (isLetter c || (isDigit c && !start) || isDot) && identFullGood isDot cs

/-- `_hpb_DefBuilder_CheckIdentFull`. -/
def checkIdentFull (name : StrKey) : Build Unit :=
  if name ≠ [] ∧ identFullGood true name then pure () else fail (checkIdentSlow name true true name)

/-- `_hpb_DefBuilder_MakeFullName`. -/
def makeFullName (scope : Option StrKey) (name : StrKey) : Build StrKey := do
  checkIdentNotFull name
  match scope with
  | some s => return s ++ 46 :: name
  | none => return name

/-- `_hpb_DefBuilder_FullToShort`. -/
def fullToShort (name : StrKey) : StrKey := (name.reverse.takeWhile (· ≠ 46)).reverse

/-- `_hpb_DefBuilder_Add`, for a definition of this file. -/
def add (name : StrKey) (type : DefType) : Build Unit := poolCall (.insertSym name type)

/-! ### Resolving names -/

/-- `remove_component`: the index of the last dot, but not of a dot at the start. -/
def removeComponent (base : StrKey) : Option StrKey :=
  if base = [] then none
  else some (base.take (((List.range base.length).reverse.find? fun i => 0 < i && base[i]? = some 46).getD 0))

/-- The loop of `_hpb_DefBuilder_ResolveAny`; each round makes the base shorter. -/
def resolveLoop (sym : StrKey) : Nat → StrKey → Build DefPtr
  | 0, _ => fail .undefined
  | n + 1, base => do
    match ← poolCall (.lookupSym (if base = [] then sym else base ++ 46 :: sym)) with
    | some p => return p
    | none =>
      match removeComponent base with
      | some base => resolveLoop sym n base
      | none => errf "couldn't resolve name '%.*s'" [.str sym]

/-- `_hpb_DefBuilder_ResolveAny`. -/
def resolveAny (base : Option StrKey) (sym : StrKey) : Build DefPtr :=
  match sym with
  | [] => errf "couldn't resolve name '%.*s'" [.str sym]
  | 46 :: name => do
    -- symbols starting with '.' are absolute
    match ← poolCall (.lookupSym name) with
    | some p => return p
    | none => errf "couldn't resolve name '%.*s'" [.str sym]
  | _ => resolveLoop sym ((base.getD []).length + 2) (base.getD [])

/-- `_hpb_DefBuilder_Resolve`. -/
def resolve (fromName : StrKey) (base : Option StrKey) (sym : StrKey) (type : DefType) : Build DefPtr := do
  let p ← resolveAny base sym
  if p.type ≠ type then
    errf "type mismatch when resolving %s: couldn't find name %.*s with type=%d"
      [.str fromName, .str sym, .int type.number]
  else return p

/-- The file with a definition: the one that is built, as far as it is, or an earlier one. -/
def fileOf (ctx : BuildContext) (file : FileDef) (p : DefPtr) : Build FileDef :=
  if p.file = ctx.file then pure file else poolCall (.readFile p.file)

/-- The message that a pointer is to. -/
def derefMessage (ctx : BuildContext) (file : FileDef) (p : DefPtr) : Build MessageDef := do
  match (← fileOf ctx file p).findMessage p.name with
  | some m => return m
  | none => fail .undefined

/-- The enum that a pointer is to. -/
def derefEnum (ctx : BuildContext) (file : FileDef) (p : DefPtr) : Build EnumDef := do
  match (← fileOf ctx file p).findEnum p.name with
  | some e => return e
  | none => fail .undefined

/-! ### Default values -/

/-- `hpb_FieldDef_CType`. -/
def fieldCType : FieldType → CType
  | .double => .double
  | .float => .float
  | .int64 | .sint64 | .sfixed64 => .int64
  | .int32 | .sfixed32 | .sint32 => .int32
  | .uint64 | .fixed64 => .uint64
  | .uint32 | .fixed32 => .uint32
  | .enum => .enum
  | .bool => .bool
  | .string => .string
  | .bytes => .bytes
  | .group | .message => .message

/-- The value of a digit of `strtol`. -/
def digitVal (c : UInt8) : Nat :=
  if isDigit c then c.toNat - 48
  else if 97 ≤ c && c ≤ 122 then c.toNat - 87
  else if 65 ≤ c && c ≤ 90 then c.toNat - 55
  else 36

/-- Digits of a base, and what is left. -/
def readDigits (base : Nat) : Nat → StrKey → Nat × StrKey
  | acc, [] => (acc, [])
  | acc, c :: cs => if digitVal c < base then readDigits base (acc * base + digitVal c) cs else (acc, c :: cs)

/-- The number that `strtol(str, &end, 0)` and its siblings find: its sign, its absolute value and what is
left. There is none without a digit. -/
def strtoMagnitude (str : StrKey) : Option (Bool × Nat × StrKey) :=
  let s := str.dropWhile fun c => c = 32 || (9 ≤ c && c ≤ 13)
  let (neg, s) := match s with
    | 45 :: s => (true, s)
    | 43 :: s => (false, s)
    | s => (false, s)
  let (base, s) := match s with
    | 48 :: x :: d :: rest =>
      if (x = 120 || x = 88) && digitVal d < 16 then (16, d :: rest) else (8, 48 :: x :: d :: rest)
    | 48 :: rest => (8, 48 :: rest)
    | s => (10, s)
  match s with
  | [] => none
  | c :: cs => if digitVal c < base then some (neg, readDigits base 0 (c :: cs)) else none

/-- `strtol` or `strtoll`, with the checks of `parse_default`: the whole text is a number in the range. -/
def parseSigned (min max : Int) (str : StrKey) : Option Int :=
  match strtoMagnitude str with
  | none => if str = [] then some 0 else none
  | some (neg, mag, rest) =>
    let val : Int := if neg then -mag else mag
    if val < -2 ^ 63 ∨ 2 ^ 63 - 1 < val ∨ rest ≠ [] ∨ val < min ∨ max < val then none else some val

/-- `strtoul` or `strtoull`, which negate in the unsigned type. -/
def parseUnsigned (max : Nat) (str : StrKey) : Option Nat :=
  match strtoMagnitude str with
  | none => if str = [] then some 0 else none
  | some (neg, mag, rest) =>
    let val := if neg then (2 ^ 64 - mag) % 2 ^ 64 else mag
    if 2 ^ 64 ≤ mag ∨ rest ≠ [] ∨ max < val then none else some val

/-- `TryGetHexDigit`. -/
def hexDigit (c : UInt8) : Option Nat :=
  if isDigit c then some (c.toNat - 48)
  else
    let lower := c ||| 0x20
    if 97 ≤ lower && lower ≤ 102 then some (lower.toNat - 87) else none

/-- The hex digits of an escape, in an `unsigned int`. -/
def readHex : Nat → StrKey → Nat × StrKey
  | acc, [] => (acc, [])
  | acc, c :: cs =>
    match hexDigit c with
    | some d => readHex ((acc * 16 + d) % 2 ^ 32) cs
    | none => (acc, c :: cs)

/-- Up to `n` octal digits, in a `char`. -/
def readOctal : Nat → Nat → StrKey → Nat × StrKey
  | 0, acc, cs => (acc, cs)
  | _ + 1, acc, [] => (acc, [])
  | n + 1, acc, c :: cs =>
    if 48 ≤ c && c ≤ 55 then readOctal n ((acc * 8 + (c.toNat - 48)) % 256) cs else (acc, c :: cs)

/-- `_hpb_DefBuilder_ParseEscape`: the character and what is left. -/
def parseEscape (fullName : StrKey) : StrKey → Except Failure (UInt8 × StrKey)
  | [] => .error (.error "unterminated escape sequence in field %s" [.str fullName])
  | 97 :: s => .ok (7, s)
  | 98 :: s => .ok (8, s)
  | 102 :: s => .ok (12, s)
  | 110 :: s => .ok (10, s)
  | 114 :: s => .ok (13, s)
  | 116 :: s => .ok (9, s)
  | 118 :: s => .ok (11, s)
  | 92 :: s => .ok (92, s)
  | 39 :: s => .ok (39, s)
  | 34 :: s => .ok (34, s)
  | 63 :: s => .ok (63, s)
  | c :: s =>
    if c = 120 || c = 88 then
      match s with
      | [] => .error (.error "\\x must be followed by at least one hex digit (field='%s')" [.str fullName])
      | d :: _ =>
        if (hexDigit d).isNone then
          .error (.error "\\x must be followed by at least one hex digit (field='%s')" [.str fullName])
        else
          let (v, s) := readHex 0 s
          if v > 255 then
            .error (.error "Value of hex escape in field %s exceeds 8 bits" [.str fullName])
          else .ok (UInt8.ofNat v, s)
    else if 48 ≤ c && c ≤ 55 then
      let (v, s) := readOctal 3 0 (c :: s)
      .ok (UInt8.ofNat v, s)
    else .error (.error "Unknown escape sequence: \\%c" [.str [c]])

/-- `unescape`; each round reads something. -/
def unescape (fullName : StrKey) : Nat → StrKey → Except Failure StrKey
  | _, [] => .ok []
  | 0, _ => .error .undefined
  | n + 1, 92 :: s => do
    let (c, s) ← parseEscape fullName s
    let rest ← unescape fullName n s
    return c :: rest
  | n + 1, c :: s => do
    let rest ← unescape fullName n s
    return c :: rest

/-- `hpb_EnumDef_FindValueByNameWithSize`. -/
def EnumDef.findValueByName (e : EnumDef) (name : StrKey) : Option EnumValueDef :=
  e.values.find? fun v => fullToShort v.fullName = name

/-- A number of at most 62 characters; what follows a null character is not read. -/
def parseNumber {α : Type} (parse : StrKey → Option α) (str : StrKey) (invalid : Failure) :
    Build α :=
  if 63 ≤ str.length then errf "Default too long: %.*s" [.str str]
  else
    match parse (str.takeWhile (· ≠ 0)) with
    | some v => pure v
    | none => fail invalid

/-- `parse_default`. -/
def parseDefault (ctx : BuildContext) (file : FileDef) (f : FieldDef) (type : FieldType) (str : StrKey) :
    Build DefaultVal := do
  let invalid : Failure := .error "Invalid default '%.*s' for field %s of type %d"
    [.str str, .str f.fullName, .int type.number]
  match fieldCType type with
  | .int32 => return .sint (← parseNumber (parseSigned (-2 ^ 31) (2 ^ 31 - 1)) str invalid)
  | .int64 => return .sint (← parseNumber (parseSigned (-2 ^ 63) (2 ^ 63 - 1)) str invalid)
  | .uint32 => return .uint (← parseNumber (parseUnsigned (2 ^ 32 - 1)) str invalid)
  | .uint64 => return .uint (← parseNumber (parseUnsigned (2 ^ 64 - 1)) str invalid)
  | .double => return .dbl (← parseNumber ctx.strtod str invalid)
  | .float => return .flt (← parseNumber ctx.strtof str invalid)
  | .enum =>
    match f.sub with
    | .enumdef p =>
      match (← derefEnum ctx file p).findValueByName str with
      | some v => return .sint v.number
      | none => fail invalid
    | _ => fail .undefined
  | .bool =>
    if str = [102, 97, 108, 115, 101] then return .boolean false
    else if str = [116, 114, 117, 101] then return .boolean true
    else fail invalid
  | .string => return .str str
  | .bytes =>
    match unescape f.fullName str.length str with
    | .ok s => return .str s
    | .error e => fail e
  | .message => errf "Message should not have a default (%s)" [.str f.fullName]

/-- `set_default_default`. -/
def setDefaultDefault (ctx : BuildContext) (file : FileDef) (f : FieldDef) (type : FieldType) :
    Build DefaultVal :=
  match fieldCType type with
  | .int32 | .int64 => return .sint 0
  | .uint32 | .uint64 => return .uint 0
  | .double | .float => return .dbl 0
  | .string | .bytes => return .str []
  | .bool => return .boolean false
  | .enum =>
    match f.sub with
    | .enumdef p => do
      match (← derefEnum ctx file p).values with
      | v :: _ => return .sint v.number
      | [] => fail .undefined
    | _ => fail .undefined
  | .message => return .msg

end Reflection

end Hpb
