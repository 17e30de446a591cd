import Hpb.Hash.TableSpec

/-!
# `hpb_inttable` (`hpb/hash/common.c`)

The table over `uintptr_t` keys: small keys live in an array whose free slots hold a sentinel, the
others in the hash part. Key 0 is always in the array, so an entry of the hash part with key 0 is
empty, as the base table has it.

`array` is the memory that was allocated for the array part and `arraySize` the number of slots the
code believes it has; `array_size * sizeof(hpb_value)` is a `size_t` product, so the two can differ.
A result comes with the arena, also when an invalid access (`none`) cuts the call short.
-/

namespace Hpb

/-- The bytes `0xff` of a free array slot: `HPB_TABVALUE_EMPTY_INIT`. -/
def tabvalEmpty : UInt64 := 0xFFFFFFFFFFFFFFFF

/-- `hpb_arrhas`. -/
def arrHas (v : UInt64) : Bool := v ≠ tabvalEmpty

/-- `hpb_inthash`. -/
def intHash (key : Nat) : Nat := key % 2 ^ 32

/-- `hpb_inttable`. -/
structure IntTable where
  /-- For entries that don't fit in the array. -/
  t : Table Nat UInt64
  /-- Array part of the table. -/
  array : List UInt64
  /-- Array part size. -/
  arraySize : Nat
  /-- Array part number of elements. -/
  arrayCount : Nat
  deriving DecidableEq

namespace IntTable

/-- `hpb_inttable_count`. -/
def count (t : IntTable) : Nat := t.t.count + t.arrayCount

/-- `hpb_inttable_sizedinit`; `none` is the `false` result. -/
def sizedInit (asize hsizeLg2 : Nat) (a : Alloc) : Option IntTable × Alloc :=
  match (Table.init (hsizeLg2 % 256) a : Option (Option (Table Nat UInt64) × Alloc)) with
  | none => (none, a)
  | some (none, a) => (none, a)
  | some (some tab, a) =>
    let arraySize := max 1 asize
    let arrayBytes := arraySize * 8 % 2 ^ 64
    match a.malloc arrayBytes with
    | (false, a) => (none, a)
    | (true, a) => (some ⟨tab, List.replicate (arrayBytes / 8) tabvalEmpty, arraySize, 0⟩, a)

/-- `hpb_inttable_init`. -/
def init (a : Alloc) : Option IntTable × Alloc := sizedInit 0 4 a

/-- The entry of `key` in the hash part, entered without growing it. -/
def insertHash (t : Table Nat UInt64) (key : Nat) (val : UInt64) : Option (Table Nat UInt64) :=
  Table.insert intHash t key val (intHash key)

/-- The loop of `hpb_inttable_insert` over the used slots of the old hash part. -/
def rehash (t new : Table Nat UInt64) : Option (Table Nat UInt64) :=
  t.forEach (fun new p => insertHash new p.1 p.2) (t.size + 1) (-1) new

/-- `hpb_inttable_insert`. -/
def insert (t : IntTable) (key : Nat) (val : UInt64) (a : Alloc) :
    Option (Bool × IntTable) × Alloc :=
  if key < t.arraySize then
    match t.array[key]? with
    | none => (none, a)
    | some _ =>
      (some (true, { t with arrayCount := t.arrayCount + 1, array := t.array.set key val }), a)
  else if t.t.isFull then
    -- resize the hash part, but re-use the array part
    match Table.init ((t.t.sizeLg2 + 1) % 256) a with
    | none => (none, a)
    | some (none, a) => (some (false, t), a)
    | some (some new, a) =>
      (do let new ← rehash t.t new
          let new ← insertHash new key val
          return (true, { t with t := new }), a)
  else
    (do let new ← insertHash t.t key val
        return (true, { t with t := new }), a)

/-- `inttable_val` and the load through it: the value of `key`. -/
def lookup (t : IntTable) (key : Nat) : Option (Option UInt64) :=
  if key < t.arraySize then do
    let v ← t.array[key]?
    return if arrHas v then some v else none
  else t.t.lookup key (intHash key)

/-- `hpb_inttable_replace`. -/
def replace (t : IntTable) (key : Nat) (val : UInt64) : Option (Bool × IntTable) :=
  if key < t.arraySize then do
    let v ← t.array[key]?
    if arrHas v then return (true, { t with array := t.array.set key val })
    else return (false, t)
  else do
    match ← t.t.findEntry key (intHash key) with
    | none => return (false, t)
    | some i =>
      let e ← t.t.entries[i]?
      return (true, { t with t := { t.t with entries := t.t.entries.set i { e with val := val } } })

/-- `hpb_inttable_remove`: the value removed. -/
def remove (t : IntTable) (key : Nat) : Option (Option UInt64 × IntTable) :=
  if key < t.arraySize then do
    let v ← t.array[key]?
    if arrHas v then
      return (some v, { t with
        arrayCount := t.arrayCount - 1, array := t.array.set key tabvalEmpty })
    else return (none, t)
  else do
    let (v, tab) ← t.t.rm key (intHash key)
    return (v, { t with t := tab })

/-- `while ((size_t)++i < t->array_size)`: the first used array slot of the `n` slots from `i`. -/
def arrayScan (t : IntTable) : Nat → Nat → Option (Option (Nat × UInt64))
  | 0, _ => some none
  | n + 1, i => do
    let v ← t.array[i]?
    if arrHas v then return some (i, v) else arrayScan t n (i + 1)

/-- The part of `hpb_inttable_next` after the array: `i` is relative to the hash part. -/
def nextHash (t : IntTable) (i : Int) : Option (Option (Nat × UInt64 × Int)) :=
  match t.t.next i with
  | none => some none
  | some j => do
    let p ← t.t.pairAt j
    return some (p.1, p.2, (j + t.arraySize : Nat))

/-- `hpb_inttable_next`: the next key and value, and the new iterator. -/
def next (t : IntTable) (iter : Int) : Option (Option (Nat × UInt64 × Int)) :=
  if (iter + 1).toNat ≤ t.arraySize then do
    match ← t.arrayScan (t.arraySize - (iter + 1).toNat) (iter + 1).toNat with
    | some (i, v) => return some (i, v, i)
    -- back up to exactly one position before the start of the table
    | none => t.nextHash (-1)
  else t.nextHash (iter - t.arraySize)

/-- `while (hpb_inttable_next(t, &key, &val, &iter))`. -/
def forEach {σ : Type} (t : IntTable) (body : σ → Nat × UInt64 → Option σ) :
    Nat → Int → σ → Option σ
  | 0, _, _ => none
  | n + 1, iter, s => do
    match ← t.next iter with
    | none => return s
    | some (k, v, iter) =>
      let s ← body s (k, v)
      forEach t body n iter s

/-- A whole loop: no more rounds than slots. -/
def forAll {σ : Type} (t : IntTable) (body : σ → Nat × UInt64 → Option σ) (s : σ) : Option σ :=
  t.forEach body (t.arraySize + t.t.size + 1) (-1) s

/-- `is_pow2`. -/
def isPow2 (v : Nat) : Bool := v = 0 || v &&& (v - 1) = 0

/-- `HPB_MAXARRSIZE`. -/
def maxArrSize : Nat := 16

/-- `log2ceil`. -/
def log2ceil (v : Nat) : Nat := min maxArrSize (if isPow2 v then Nat.log2 v else Nat.log2 v + 1)

/-- The power-of-two histogram of the table keys, and the max key in each bucket. -/
structure Histogram where
  counts : Nat → Nat
  max : Nat → Nat

/-- One round of the first loop of `compact`. -/
def Histogram.add (h : Histogram) (key : Nat) : Histogram :=
  let bucket := log2ceil key
  { counts := fun b => if b = bucket then h.counts b + 1 else h.counts b
    max := fun b => if b = bucket then Nat.max (h.max b) key else h.max b }

/-- The largest power of two that satisfies `MIN_DENSITY` (one in ten) while actually having some
keys, looked for from `2 ^ s` down; also the number of keys it covers. -/
def arrayLg2 (counts : Nat → Nat) : Nat → Nat → Nat × Nat
  | 0, arrCount => (0, arrCount)
  | s + 1, arrCount =>
    if counts (s + 1) = 0 then arrayLg2 counts s arrCount
    else if 2 ^ (s + 1) ≤ 10 * arrCount then (s + 1, arrCount)
    else arrayLg2 counts s (arrCount - counts (s + 1))

/-- `hash_size`: `(hash_count / MAX_LOAD) + 1`. -/
def hashSize (hashCount : Nat) : Nat := if hashCount = 0 then 0 else hashCount * 20 / 17 + 1

/-- The round of the second loop of `compact`; the result of the insertion is ignored. -/
def moveInto (s : IntTable × Alloc) (p : Nat × UInt64) : Option (IntTable × Alloc) :=
  match s.1.insert p.1 p.2 s.2 with
  | (none, _) => none
  | (some (_, new), a) => some (new, a)

/-- `hpb_inttable_compact`. The result of `sizedinit` is not checked: without memory the new table is
used uninitialised. -/
def compact (t : IntTable) (a : Alloc) : Option IntTable × Alloc :=
  match t.forAll (fun (h : Histogram) p => some (h.add p.1)) ⟨fun _ => 0, fun _ => 0⟩ with
  | none => (none, a)
  | some hist =>
    let (sizeLg2, arrCount) := arrayLg2 hist.counts maxArrSize t.count
    let arrSize := (hist.max sizeLg2 + 1) % 2 ^ 64
    let hashCount := t.count - arrCount
    match sizedInit arrSize (log2ceil (hashSize hashCount)) a with
    | (none, a) => (none, a)
    | (some new, a) =>
      match t.forAll moveInto (new, a) with
      | none => (none, a)
      | some (new, a) => (some new, a)

end IntTable

end Hpb
