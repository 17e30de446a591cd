import Hpb.Lib.AddrRange

/-!
# Allocation from an arena (`hpb/mem/arena.h`, `arena.c`)

An arena takes blocks from an `hpb_alloc` and hands out their bytes from the start to the end; `head.ptr` and
`head.end` bound what is left of the newest block. The numbers are those of the code: `size_t` and pointers with
64 bits, wrapping around, and the size of a block kept as a `uint32_t`. The build is one without sanitizer
(`HPB_ASAN_GUARD_SIZE` is 0).

An address is a number, 0 is the null pointer. What `hpb_malloc` returns is up to the environment: `heap` gives
its answer for each size. A result `none` is a call through a null pointer.

`real` and `bytes` of a block are history: no code reads them.
-/

namespace Hpb

/-- `HPB_ALIGN_MALLOC`, in `size_t`. -/
def alignMalloc (size : Nat) : Nat := (size + 7) % 2 ^ 64 / 8 * 8

/-- The `ptrdiff_t` with the bits of a `size_t`. -/
def toPtrdiff (n : Nat) : Int := if n < 2 ^ 63 then n else (n : Int) - 2 ^ 64

/-- The bytes of a number, the lowest first. -/
def littleEndian (n : Nat) : Nat → List UInt8
  | 0 => []
  | k + 1 => UInt8.ofNat (n % 256) :: littleEndian (n / 256) k

/-- `_hpb_MemBlock`. -/
structure MemBlock where
  addr : Nat
  /-- The recorded size, a `uint32_t`. -/
  size : Nat
  /-- The size that the block really has. -/
  real : Nat
  /-- The bytes that `hpb_malloc` was asked for. -/
  bytes : Nat
  deriving DecidableEq

/-- `memblock_reserve`; also `sizeof(_hpb_MemBlock)`. -/
def memblockReserve : Nat := 16

/-- `sizeof(hpb_Arena)`. -/
def sizeofArena : Nat := 56

/-- `hpb_Arena`, and the memory it is in. -/
structure Arena where
  /-- `head.ptr`. -/
  ptr : Nat
  /-- `head.end`. -/
  endPtr : Nat
  /-- The list `blocks`. -/
  blocks : List MemBlock
  /-- `hpb_Arena_BlockAlloc` is no null pointer. -/
  alloc : Bool
  /-- The initial block, if `hpb_Arena_HasInitialBlock`: its address and its size. -/
  initial : Option (Nat × Nat)
  /-- Where the arena itself is. -/
  self : Nat
  mem : Nat → UInt8

namespace Arena

/-- `_hpb_ArenaHas`. -/
def has (a : Arena) : Nat := (a.endPtr + 2 ^ 64 - a.ptr) % 2 ^ 64

/-- `hpb_Arena_AddBlock`. -/
def addBlock (a : Arena) (block size bytes : Nat) : Arena :=
  let next := (a.blocks.head?.map MemBlock.addr).getD 0
  { a with
    blocks := ⟨block, size % 2 ^ 32, size, bytes⟩ :: a.blocks
    ptr := (block + memblockReserve) % 2 ^ 64
    endPtr := (block + size) % 2 ^ 64
    mem := storeAt a.mem block (littleEndian next 8 ++ littleEndian size 4) }

/-- `last_size` of `hpb_Arena_AllocBlock`. -/
def lastSize (a : Arena) : Nat := (a.blocks.head?.map MemBlock.size).getD 128

/-- `block_size` of `hpb_Arena_AllocBlock`. -/
def blockSize (a : Arena) (size : Nat) : Nat := (max size (a.lastSize * 2) + memblockReserve) % 2 ^ 64

/-- `hpb_Arena_AllocBlock`. The test of `block_alloc` does not see that only the tag bit is set. -/
def allocBlock (a : Arena) (size : Nat) (heap : Nat → Option Nat) : Option (Bool × Arena) :=
  if !a.alloc && a.initial.isNone then some (false, a)
  else if !a.alloc then none
  else
    match heap (a.blockSize size) with
    | none => some (false, a)
    | some block => some (true, a.addBlock block (a.blockSize size) (a.blockSize size))

/-- `hpb_Arena_Malloc` with `_hpb_Arena_SlowMalloc`, which calls it again; the nesting is bounded. -/
def mallocRec : Nat → Arena → Nat → (Nat → Option Nat) → Option (Nat × Arena)
  | 0, _, _, _ => none
  | n + 1, a, size, heap =>
    let size := alignMalloc size
    if a.has < size then do
      let (ok, a) ← a.allocBlock size heap
      if ok then mallocRec n a size heap else return (0, a)
    else some (a.ptr, { a with ptr := (a.ptr + size) % 2 ^ 64 })

/-- `hpb_Arena_Malloc`. -/
def malloc (a : Arena) (size : Nat) (heap : Nat → Option Nat) : Option (Nat × Arena) := mallocRec 2 a size heap

/-- `hpb_Arena_ShrinkLast`. -/
def shrinkLast (a : Arena) (ptr size : Nat) : Arena := { a with ptr := (ptr + alignMalloc size) % 2 ^ 64 }

/-- The end of `hpb_Arena_Realloc`: other memory, and a copy. -/
def moveTo (a : Arena) (ptr oldsize size : Nat) (heap : Nat → Option Nat) : Option (Nat × Arena) := do
  let (ret, a) ← a.malloc size heap
  if ret ≠ 0 ∧ 0 < oldsize then
    return (ret, { a with mem := storeAt a.mem ret (loadAt a.mem ptr (min oldsize size)) })
  else return (ret, a)

/-- `hpb_Arena_Realloc`. -/
def realloc (a : Arena) (ptr oldsize size : Nat) (heap : Nat → Option Nat) : Option (Nat × Arena) :=
  let oldsize := alignMalloc oldsize
  let size := alignMalloc size
  -- is_most_recent_alloc
  if (ptr + oldsize) % 2 ^ 64 = a.ptr then
    let diff := (size + 2 ^ 64 - oldsize) % 2 ^ 64
    if toPtrdiff a.has ≥ toPtrdiff diff then some (ptr, { a with ptr := (a.ptr + diff) % 2 ^ 64 })
    else a.moveTo ptr oldsize size heap
  else if size ≤ oldsize then some (ptr, a)
  else a.moveTo ptr oldsize size heap

/-- The sum of `hpb_Arena_SpaceAllocated` for an arena that is not fused. -/
def spaceAllocated (a : Arena) : Nat :=
  a.blocks.foldl (fun memsize block => (memsize + (memblockReserve + block.size)) % 2 ^ 64) 0

/-- `hpb_Arena_InitSlow`; `none` is the null result. -/
def initSlow (alloc : Bool) (heap : Nat → Option Nat) (mem : Nat → UInt8) : Option Arena :=
  let n := sizeofArena + memblockReserve + 256
  if alloc then do
    let block ← heap n
    let a : Arena := ⟨0, 0, [], true, none, (block + (n - sizeofArena)) % 2 ^ 64, mem⟩
    return a.addBlock block (n - sizeofArena) n
  else none

/-- `hpb_Arena_Init`; `none` is the null result. -/
def init (start n : Nat) (alloc : Bool) (heap : Nat → Option Nat) (mem : Nat → UInt8) : Option Arena :=
  let aligned := if n = 0 then start else (start + 7) % 2 ^ 64 / 8 * 8
  let delta := (aligned + 2 ^ 64 - start) % 2 ^ 64
  let n := if delta ≤ n then n - delta else 0
  let n := n / 8 * 8
  if n < sizeofArena then initSlow alloc heap mem
  else
    let self := (aligned + (n - sizeofArena)) % 2 ^ 64
    some ⟨aligned, self, [], alloc, some (aligned, n), self, mem⟩

end Arena

end Hpb
