import Hpb.Lib.Doubling
import Hpb.Mem.ArenaAlloc

/-!
# Arrays (`hpb/collections/array.c`, `internal/array.h`)

An array has a size, a capacity and its elements, of `1 << lg2` bytes each, in the memory of an arena. Sizes are
`size_t` and wrap around; nothing checks for overflow. The assertions of the code are left to its callers.

A result `none` is a call through a null pointer or a loop that does not stop.
-/

namespace Hpb

/-- `hpb_Array`; `data` is kept as the pointer and its tag. -/
structure HpbArray where
  ptr : Nat
  lg2 : Nat
  size : Nat
  /-- In elements. -/
  capacity : Nat
  deriving DecidableEq

/-- `sizeof(hpb_Array)`, rounded up to `HPB_MALLOC_ALIGN`. -/
def sizeofArray : Nat := 24

namespace HpbArray

/-- `n << lg2` for a `size_t`. -/
def shift (arr : HpbArray) (n : Nat) : Nat := n * 2 ^ arr.lg2 % 2 ^ 64

/-- `_hpb_Array_New`. -/
def new (a : Arena) (initCapacity lg2 : Nat) (heap : Nat → Option Nat) : Option (Option HpbArray × Arena) := do
  let bytes := (sizeofArray + initCapacity * 2 ^ lg2 % 2 ^ 64) % 2 ^ 64
  let (arr, a) ← a.malloc bytes heap
  if arr = 0 then return (none, a) else return (some ⟨(arr + sizeofArray) % 2 ^ 64, lg2, 0, initCapacity⟩, a)

/-- `_hpb_array_realloc`. The capacity is 0 after 64 doublings, and then the loop never stops. -/
def realloc (arr : HpbArray) (minCapacity : Nat) (a : Arena) (heap : Nat → Option Nat) :
    Option (Bool × HpbArray × Arena) := do
  let oldBytes := arr.shift arr.capacity
  let newCapacity ← doubleUntil 64 65 (max arr.capacity 4) minCapacity
  let newBytes := arr.shift newCapacity
  let (ptr, a) ← a.realloc arr.ptr oldBytes newBytes heap
  if ptr = 0 then return (false, arr, a) else return (true, { arr with ptr := ptr, capacity := newCapacity }, a)

/-- `_hpb_array_reserve`. -/
def reserve (arr : HpbArray) (size : Nat) (a : Arena) (heap : Nat → Option Nat) : Option (Bool × HpbArray × Arena) :=
  if arr.capacity < size then arr.realloc size a heap else some (true, arr, a)

/-- `_hpb_Array_ResizeUninitialized`. -/
def resizeUninitialized (arr : HpbArray) (size : Nat) (a : Arena) (heap : Nat → Option Nat) :
    Option (Bool × HpbArray × Arena) := do
  let (ok, arr, a) ← arr.reserve size a heap
  if ok then return (true, { arr with size := size }, a) else return (false, arr, a)

/-- The address of an element. -/
def elem (arr : HpbArray) (i : Nat) : Nat := (arr.ptr + arr.shift i) % 2 ^ 64

/-- `hpb_Array_Resize`. -/
def resize (arr : HpbArray) (size : Nat) (a : Arena) (heap : Nat → Option Nat) :
    Option (Bool × HpbArray × Arena) := do
  let oldsize := arr.size
  let (ok, arr, a) ← arr.resizeUninitialized size a heap
  if !ok then return (false, arr, a)
  else if oldsize < arr.size then
    let zeros := List.replicate (arr.shift (arr.size - oldsize)) 0
    return (true, arr, { a with mem := storeAt a.mem (arr.elem oldsize) zeros })
  else return (true, arr, a)

/-- `hpb_Array_Set`; the value is the bytes of an `hpb_MessageValue`. -/
def set (arr : HpbArray) (i : Nat) (val : List UInt8) (a : Arena) : Arena :=
  { a with mem := storeAt a.mem (arr.elem i) (val.take (2 ^ arr.lg2)) }

/-- `hpb_Array_Append`. -/
def append (arr : HpbArray) (val : List UInt8) (a : Arena) (heap : Nat → Option Nat) :
    Option (Bool × HpbArray × Arena) := do
  let (ok, arr, a) ← arr.resize ((arr.size + 1) % 2 ^ 64) a heap
  if ok then return (true, arr, arr.set (arr.size - 1) val a) else return (false, arr, a)

/-- `hpb_Array_Move`. -/
def move (arr : HpbArray) (dstIdx srcIdx count : Nat) (a : Arena) : Arena :=
  { a with mem := storeAt a.mem (arr.elem dstIdx) (loadAt a.mem (arr.elem srcIdx) (arr.shift count)) }

/-- `hpb_Array_Insert`. -/
def insert (arr : HpbArray) (i count : Nat) (a : Arena) (heap : Nat → Option Nat) :
    Option (Bool × HpbArray × Arena) := do
  let oldsize := arr.size
  let (ok, arr, a) ← arr.resize ((arr.size + count) % 2 ^ 64) a heap
  if ok then return (true, arr, arr.move ((i + count) % 2 ^ 64) i (oldsize - i) a) else return (false, arr, a)

/-- `hpb_Array_Delete`. -/
def delete (arr : HpbArray) (i count : Nat) (a : Arena) : HpbArray × Arena :=
  let stop := (i + count) % 2 ^ 64
  ({ arr with size := arr.size - count }, arr.move i stop (arr.size - stop) a)

end HpbArray

end Hpb
