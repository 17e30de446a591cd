import Mathlib.Data.List.GetD
import Mathlib.Tactic.Common
import Mathlib.Tactic.Linarith

/-!
# The input stream of the decoder (`hpb/wire/eps_copy_input_stream.h`)

The stream hands out raw pointers. A pointer is an address (`Int`, the values of `uintptr_t`), so
`ptr - e->end` and the aliasing delta are plain arithmetic, as in the source. Two objects can be
read through such a pointer: the caller's buffer and the 32 byte patch buffer in the stream. A load
outside both has no value (`Frame.load` is `none`), and every operation that loads is an `Option`:
`none` is an invalid access, never a result.

`Frame` is what does not change while a stream is used: where the two objects are and what the
caller's buffer holds. The `int`s of the source wrap (`toInt32`).
-/

namespace Hpb

/-- `kHpb_EpsCopyInputStream_SlopBytes`. -/
def slopBytes : Nat := 16

/-- `INT32_MAX`. -/
def int32Max : Nat := 2 ^ 31 - 1

/-- The address space around one stream: the caller's buffer `[base, base + size)` and the stream's
patch buffer, two distinct objects. -/
structure Frame where
  base : Nat
  buf : List UInt8
  patch : Nat
  base_end : base + buf.length < 2 ^ 64
  patch_end : patch + 2 * slopBytes < 2 ^ 64
  apart : (base + buf.length ≤ patch ∧ base < patch) ∨ patch + 2 * slopBytes ≤ base

/-- The size of the caller's buffer. -/
def Frame.size (fr : Frame) : Nat := fr.buf.length

/-- `e->aliasing` when strings are copied. -/
def noAliasing : Int := 0

/-- `e->aliasing` when the stream reads the caller's buffer itself. -/
def noDelta : Int := 2

/-- `hpb_EpsCopyInputStream`. -/
structure EpsCopyInputStream where
  /-- Can read up to `slopBytes` bytes beyond this. -/
  end_ : Int
  /-- For bounds checks, `= end + min(limit, 0)`. -/
  limitPtr : Int
  aliasing : Int
  /-- Submessage limit relative to `end`. -/
  limit : Int
  /-- To distinguish between EOF and error. -/
  error : Bool
  patch : List UInt8

/-- Address arithmetic in `uintptr_t`. -/
def uintptr (a : Int) : Int := a % 2 ^ 64

/-- Conversion to `int`. -/
def toInt32 (a : Int) : Int := (a + 2 ^ 31) % 2 ^ 32 - 2 ^ 31

theorem toInt32_eq {a : Int} (h : -2 ^ 31 ≤ a) (h' : a < 2 ^ 31) : toInt32 a = a := by
  simp only [toInt32]; omega

namespace EpsCopyInputStream

/-- The byte at address `a`, if `a` is in the caller's buffer or in the patch buffer. -/
def load (fr : Frame) (e : EpsCopyInputStream) (a : Int) : Option UInt8 :=
  if fr.base ≤ a ∧ a < fr.base + fr.size then fr.buf[(a - fr.base).toNat]?
  else if fr.patch ≤ a ∧ a < fr.patch + 2 * slopBytes then e.patch[(a - fr.patch).toNat]?
  else none

/-- `memcpy` of `n` bytes at `a`. -/
def loadN (fr : Frame) (e : EpsCopyInputStream) (a : Int) : Nat → Option (List UInt8)
  | 0 => some []
  | n + 1 => do
    let b ← load fr e a
    let bs ← loadN fr e (a + 1) n
    return b :: bs

/-- `hpb_EpsCopyInputStream_Init` on the caller's whole buffer; also the updated `*ptr`. -/
def init (fr : Frame) (enableAliasing : Bool) : EpsCopyInputStream × Int :=
  if fr.size ≤ slopBytes then
    let e : EpsCopyInputStream :=
      { end_ := fr.patch + fr.size
        limitPtr := fr.patch + fr.size
        aliasing := if enableAliasing then uintptr (fr.base - fr.patch) else noAliasing
        limit := 0
        error := false
        patch := fr.buf ++ List.replicate (2 * slopBytes - fr.size) 0 }
    (e, fr.patch)
  else
    let e : EpsCopyInputStream :=
      { end_ := fr.base + fr.size - slopBytes
        limitPtr := fr.base + fr.size - slopBytes
        aliasing := if enableAliasing then noDelta else noAliasing
        limit := slopBytes
        error := false
        patch := List.replicate (2 * slopBytes) 0 }
    (e, fr.base)

/-- `hpb_IsDoneStatus`. -/
inductive IsDoneStatus where
  /-- The current stream position is at a limit. -/
  | done
  /-- The current stream position is not at a limit. -/
  | notDone
  /-- The current stream position is not at a limit, and the stream needs to be flipped to a new
  buffer before more data can be read. -/
  | needFallback
  deriving DecidableEq

/-- `hpb_EpsCopyInputStream_IsDoneStatus`; also `*overrun`. -/
def isDoneStatus (e : EpsCopyInputStream) (ptr : Int) : IsDoneStatus × Int :=
  let overrun := toInt32 (ptr - e.end_)
  if ptr < e.limitPtr then (.notDone, overrun)
  else if overrun = e.limit then (.done, overrun)
  else (.needFallback, overrun)

/-- What `_hpb_EpsCopyInputStream_IsDoneFallbackInline` passes to its callback. -/
inductive Fallback where
  /-- `callback(e, old_end, new_start)`: the rest of the data is in the patch buffer now. -/
  | flip (e : EpsCopyInputStream) (oldEnd newStart : Int)
  /-- `callback(e, NULL, NULL)`: the position is past the limit. -/
  | error (e : EpsCopyInputStream)

/-- `_hpb_EpsCopyInputStream_IsDoneFallbackInline`, up to the call of the callback. -/
def isDoneFallback (fr : Frame) (e : EpsCopyInputStream) (ptr overrun : Int) : Option Fallback :=
  if overrun < e.limit then do
    let data ← loadN fr e e.end_ slopBytes
    let newStart := fr.patch + overrun
    let limit := e.limit - slopBytes
    let end_ : Int := fr.patch + slopBytes
    let e' : EpsCopyInputStream :=
      { e with
        patch := data ++ List.replicate slopBytes 0
        end_ := end_
        limit := limit
        limitPtr := end_ + limit
        aliasing := if e.aliasing ≠ noAliasing then uintptr (ptr - newStart) else e.aliasing }
    return .flip e' ptr newStart
  else
    return .error { e with error := true }

/-- `hpb_EpsCopyInputStream_IsDone`: whether a limit was hit, and the new `*ptr` (`none` is the
`NULL` of the error case). -/
def isDone (fr : Frame) (e : EpsCopyInputStream) (ptr : Int) :
    Option (Bool × EpsCopyInputStream × Option Int) :=
  match isDoneStatus e ptr with
  | (.done, _) => some (true, e, some ptr)
  | (.notDone, _) => some (false, e, some ptr)
  | (.needFallback, overrun) => do
    match ← isDoneFallback fr e ptr overrun with
    | .flip e' _ newStart => return (false, e', some newStart)
    | .error e' => return (true, e', none)

/-- `hpb_EpsCopyInputStream_CheckSize`. -/
def checkSize (e : EpsCopyInputStream) (ptr size : Int) : Bool :=
  ptr - e.end_ + size ≤ e.limit

/-- `_hpb_EpsCopyInputStream_CheckSizeAvailable`; `size` is an `int`, converted to `size_t`. -/
def checkSizeAvailable (e : EpsCopyInputStream) (ptr size : Int) (submessage : Bool) : Bool :=
  let uptr := uintptr ptr
  let uend := uintptr (if submessage then e.limitPtr else e.limitPtr + slopBytes)
  let res := uintptr (uptr + uintptr size)
  uptr ≤ res && res ≤ uend

/-- `hpb_EpsCopyInputStream_CheckDataSizeAvailable`. -/
def checkDataSizeAvailable (e : EpsCopyInputStream) (ptr size : Int) : Bool :=
  checkSizeAvailable e ptr size false

/-- `hpb_EpsCopyInputStream_CheckSubMessageSizeAvailable`. -/
def checkSubMessageSizeAvailable (e : EpsCopyInputStream) (ptr size : Int) : Bool :=
  checkSizeAvailable e ptr size true

/-- `hpb_EpsCopyInputStream_AliasingAvailable`. -/
def aliasingAvailable (e : EpsCopyInputStream) (ptr size : Int) : Bool :=
  checkDataSizeAvailable e ptr size && noDelta ≤ e.aliasing

/-- `hpb_EpsCopyInputStream_GetAliasedPtr`. -/
def getAliasedPtr (e : EpsCopyInputStream) (ptr : Int) : Int :=
  let delta := if e.aliasing = noDelta then 0 else e.aliasing
  uintptr (uintptr ptr + delta)

/-- `hpb_EpsCopyInputStream_Skip`; `none` inside is the `NULL` result. -/
def skip (e : EpsCopyInputStream) (ptr size : Int) : Option Int :=
  if checkDataSizeAvailable e ptr size then some (ptr + size) else none

/-- `hpb_EpsCopyInputStream_Copy`: the bytes copied to `to` and the pointer past them. The outer
`none` is an invalid access, the inner one the `NULL` result. -/
def copy (fr : Frame) (e : EpsCopyInputStream) (ptr : Int) (size : Nat) :
    Option (Option (List UInt8 × Int)) :=
  if checkDataSizeAvailable e ptr size then do
    let bs ← loadN fr e ptr size
    return some (bs, ptr + size)
  else return none

/-- Where the data of a string that was read lives. -/
inductive StrData where
  /-- The string is the memory at this address of the caller's buffer. -/
  | aliased (addr : Int)
  /-- The string was copied to memory of the arena. -/
  | copied (bytes : List UInt8)
  deriving DecidableEq

/-- `hpb_EpsCopyInputStream_ReadString` with an arena that has memory. -/
def readString (fr : Frame) (e : EpsCopyInputStream) (ptr : Int) (size : Nat) :
    Option (Option (StrData × Int)) :=
  if aliasingAvailable e ptr size then
    return some (.aliased (getAliasedPtr e ptr), ptr + size)
  else do
    match ← copy fr e ptr size with
    | some (bs, ret) => return some (.copied bs, ret)
    | none => return none

/-- `hpb_EpsCopyInputStream_PushLimit`: the saved delta and the stream with the new limit. -/
def pushLimit (e : EpsCopyInputStream) (ptr size : Int) : Int × EpsCopyInputStream :=
  let limit := toInt32 (size + toInt32 (ptr - e.end_))
  let delta := toInt32 (e.limit - limit)
  (delta, { e with limit := limit, limitPtr := e.end_ + min 0 limit })

/-- `hpb_EpsCopyInputStream_PopLimit`. -/
def popLimit (e : EpsCopyInputStream) (savedDelta : Int) : EpsCopyInputStream :=
  let limit := toInt32 (e.limit + savedDelta)
  { e with limit := limit, limitPtr := e.end_ + min 0 limit }

end EpsCopyInputStream

end Hpb
