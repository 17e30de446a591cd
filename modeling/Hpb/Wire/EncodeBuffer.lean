import Hpb.Lib.Backward
import Hpb.Lib.Doubling
import Hpb.Mem.ArenaAlloc
import Hpb.Wire.Varint

/-!
# The buffer of the encoder (`hpb/wire/encode.c`)

The encoder writes a message from its end to its start. Its buffer is an allocation of the arena, from `buf` to
`limit`, and the text is at its end, from `ptr` on. What does not fit makes the buffer grow: it is reallocated, and its
bytes are moved to the end of the new one. Addresses and sizes are numbers of 64 bits that wrap around.

What `hpb_malloc` answers may depend on the state of the arena, so it is never asked twice in one state.

`status`, `options`, `depth` and `sorter` are left out: the writers do not read them, and an error ends the encoding.
-/

namespace Hpb

/-- The difference of two words: of pointers or of sizes. -/
def wordSub (m n : Nat) : Nat := (m + 2 ^ 64 - n) % 2 ^ 64

/-- Why the encoder does not go on. -/
inductive EncodeStop where
  /-- `encode_err` with `kHpb_EncodeStatus_OutOfMemory`. -/
  | outOfMemory
  /-- The loop of `hpb_roundup_pow2` does not end. -/
  | endless
  /-- `hpb_Arena_Realloc` calls through a null pointer. -/
  | nullCall
  deriving DecidableEq

/-- A result, or the reason why there is none. -/
def orStop {α : Type} (stop : EncodeStop) : Option α → Except EncodeStop α
  | none => .error stop
  | some r => .ok r

/-- `hpb_roundup_pow2`. After 64 rounds the word is 0, and then the loop does not end. -/
def roundupPow2 (bytes : Nat) : Option Nat := doubleUntil 64 65 128 bytes

/-- `HPB_PB_VARINT_MAX_LEN`. -/
def varintMaxLen : Nat := 10

/-- `hpb_encstate`. -/
structure EncState where
  arena : Arena
  buf : Nat
  ptr : Nat
  limit : Nat

namespace EncState

/-- The state that `hpb_Encode` starts with. -/
def start (arena : Arena) : EncState := ⟨arena, 0, 0, 0⟩

/-- Some bytes are written to memory. -/
def store (e : EncState) (addr : Nat) (cells : List UInt8) : EncState :=
  { e with arena := { e.arena with mem := storeAt e.arena.mem addr cells } }

/-- The bytes from `ptr` to `limit`. -/
def contents (e : EncState) : List UInt8 := loadAt e.arena.mem e.ptr (wordSub e.limit e.ptr)

variable (heap : Arena → Nat → Option Nat)

/-- `encode_growbuffer`. -/
def growbuffer (e : EncState) (bytes : Nat) : Except EncodeStop EncState := do
  let oldSize := wordSub e.limit e.buf
  let newSize ← orStop .endless (roundupPow2 ((bytes + wordSub e.limit e.ptr) % 2 ^ 64))
  let (newBuf, arena) ← orStop .nullCall (e.arena.realloc e.buf oldSize newSize (heap e.arena))
  if newBuf = 0 then .error .outOfMemory
  else
    let stop := (newBuf + newSize) % 2 ^ 64
    -- hpb_Arena_Realloc put the old bytes at the start
    let mem :=
      if oldSize > 0 then storeAt arena.mem (wordSub stop oldSize) (loadAt arena.mem e.buf oldSize) else arena.mem
    let ptr := wordSub stop (wordSub e.limit e.ptr)
    return ⟨{ arena with mem := mem }, newBuf, wordSub ptr bytes, stop⟩

/-- `encode_reserve`. -/
def reserve (e : EncState) (bytes : Nat) : Except EncodeStop EncState :=
  if wordSub e.ptr e.buf < bytes then e.growbuffer heap bytes else .ok { e with ptr := wordSub e.ptr bytes }

/-- `encode_bytes`. -/
def encodeBytes (e : EncState) (data : List UInt8) : Except EncodeStop EncState :=
  if data.length = 0 then .ok e
  else do
    let e ← e.reserve heap data.length
    return e.store e.ptr data

/-- `encode_fixed64`; in memory the lowest byte comes first. -/
def encodeFixed64 (e : EncState) (val : UInt64) : Except EncodeStop EncState :=
  e.encodeBytes heap (littleEndian val.toNat 8)

/-- `encode_fixed32`. -/
def encodeFixed32 (e : EncState) (val : UInt32) : Except EncodeStop EncState :=
  e.encodeBytes heap (littleEndian val.toNat 4)

/-- `encode_longvarint`. -/
def encodeLongvarint (e : EncState) (val : UInt64) : Except EncodeStop EncState := do
  let e ← e.reserve heap varintMaxLen
  let len := (encodeVarint64 val).length
  let e := e.store e.ptr (encodeVarint64 val)
  let start := wordSub ((e.ptr + varintMaxLen) % 2 ^ 64) len
  let e := e.store start (loadAt e.arena.mem e.ptr len)
  return { e with ptr := start }

/-- `encode_varint`. -/
def encodeVarint (e : EncState) (val : UInt64) : Except EncodeStop EncState :=
  if val < 128 ∧ e.ptr ≠ e.buf then
    let ptr := wordSub e.ptr 1
    .ok { e.store ptr [val.toUInt8] with ptr := ptr }
  else e.encodeLongvarint heap val

end EncState

/-- The number that `encode_tag` writes. -/
def tagOf (fieldNumber : UInt32) (wireType : UInt8) : UInt64 := (fieldNumber <<< 3 ||| wireType.toUInt32).toUInt64

/-- The bytes of an object; none is larger than `PTRDIFF_MAX`. -/
structure ObjectBytes where
  data : List UInt8
  length_lt : data.length < 2 ^ 63

/-- What is called to write a message. -/
inductive EncoderCall where
  /-- `encode_bytes`. -/
  | bytes (data : ObjectBytes)
  /-- `encode_fixed64`; also `encode_double`, with the bits of the number. -/
  | fixed64 (val : UInt64)
  /-- `encode_fixed32`; also `encode_float`. -/
  | fixed32 (val : UInt32)
  /-- `encode_varint`. -/
  | varint (val : UInt64)
  /-- `encode_tag`. -/
  | tag (fieldNumber : UInt32) (wireType : UInt8)
  /-- `encode_bytes` and `encode_varint` for a string. -/
  | string (data : ObjectBytes)
  /-- `pre_len = e->limit - e->ptr`. -/
  | preLen
  /-- `encode_varint` for `(e->limit - e->ptr) - pre_len`. -/
  | size

/-- The encoder, with the `pre_len` of its functions that have not written their size yet, the innermost first. Around
all of them is `encode_message` of the whole message, whose `pre_len` is 0. -/
structure Encoder where
  state : EncState
  preLens : List Nat

namespace Encoder

/-- `hpb_Encode`, before anything is written. -/
def start (arena : Arena) : Encoder := ⟨.start arena, []⟩

/-- How much is written. -/
def written (s : Encoder) : Nat := wordSub s.state.limit s.state.ptr

/-- The same functions, and other bytes. -/
def withState (s : Encoder) (r : Except EncodeStop EncState) : Except EncodeStop Encoder :=
  r.map fun e => { s with state := e }

variable (heap : Arena → Nat → Option Nat)

/-- One call. -/
def call (s : Encoder) : EncoderCall → Except EncodeStop Encoder
  | .bytes data => s.withState (s.state.encodeBytes heap data.data)
  | .fixed64 val => s.withState (s.state.encodeFixed64 heap val)
  | .fixed32 val => s.withState (s.state.encodeFixed32 heap val)
  | .varint val => s.withState (s.state.encodeVarint heap val)
  | .tag fieldNumber wireType => s.withState (s.state.encodeVarint heap (tagOf fieldNumber wireType))
  | .string data =>
    s.withState do
      let e ← s.state.encodeBytes heap data.data
      e.encodeVarint heap (UInt64.ofNat data.data.length)
  | .preLen => .ok { s with preLens := s.written :: s.preLens }
  | .size => do
    let e ← s.state.encodeVarint heap (UInt64.ofNat (wordSub s.written (s.preLens.headD 0)))
    return ⟨e, s.preLens.tail⟩

/-- Some calls. -/
def run (s : Encoder) (calls : List EncoderCall) : Except EncodeStop Encoder := calls.foldlM (call heap) s

end Encoder

end Hpb
