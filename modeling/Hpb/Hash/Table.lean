import Mathlib.Data.List.GetD
import Mathlib.Tactic.Common
import Mathlib.Tactic.Linarith

/-!
# The base hash table (`hpb/hash/common.c`, shared code)

`hpb_table` is a chained scatter table with Brent's variation: all entries live in one array of
`2 ^ size_lg2` slots, chains are linked through `next`, and an entry that sits in a slot that is not
its main position is evicted when a key with that main position arrives.

A pointer to an entry is its index. Keys are generic; an empty slot (`key == 0`) has key `none`, and
keeps its old value and `next`, as in the source. Every function that dereferences an entry is an
`Option`: `none` is an access outside `entries`, a key read from an empty slot, a shift past the
width of `int`, or a walk that does not end. The walks carry fuel, one unit for each slot.

`Alloc` is what the table code sees of the arena: whether each allocation succeeds.
-/

namespace Hpb

/-- The outcomes of an arena's allocations: `grants n` says whether the `n`-th call gets memory.
`failed` records that some call did not. -/
structure Alloc where
  grants : Nat → Bool
  calls : Nat
  failed : Bool

/-- `hpb_Arena_Malloc`: whether it returned memory. No object is larger than `PTRDIFF_MAX`. -/
def Alloc.malloc (a : Alloc) (bytes : Nat) : Bool × Alloc :=
  if bytes < 2 ^ 63 ∧ a.grants a.calls then (true, { a with calls := a.calls + 1 })
  else (false, { a with calls := a.calls + 1, failed := true })

/-- An arena that always has memory. -/
def Alloc.granting : Alloc := ⟨fun _ => true, 0, false⟩

/-- `hpb_tabent`. -/
structure TabEnt (K V : Type) where
  key : Option K
  val : V
  next : Option Nat
  deriving DecidableEq

/-- `hpb_tabent_isempty`. -/
def TabEnt.isEmpty {K V : Type} (e : TabEnt K V) : Bool := e.key.isNone

/-- `hpb_table`. -/
structure Table (K V : Type) where
  /-- Number of entries in the hash part. -/
  count : Nat
  /-- Mask to turn hash value into bucket. -/
  mask : Nat
  /-- Max count before we hit our load limit. -/
  maxCount : Nat
  /-- Size of the hashtable part is `2 ^ sizeLg2` entries. -/
  sizeLg2 : Nat
  entries : List (TabEnt K V)
  deriving DecidableEq

/-- `hpb_table_size`. `1 << 31` is `INT_MIN`, sign extended to `size_t`. -/
def tableSize (sizeLg2 : Nat) : Nat :=
  if sizeLg2 = 0 then 0 else if sizeLg2 = 31 then 2 ^ 64 - 2 ^ 31 else 2 ^ sizeLg2

/-- `sizeof(hpb_tabent)`. -/
def tabentBytes : Nat := 24

/-- `hpb_Log2Ceiling`; the argument is an `int`. -/
def log2Ceiling (x : Int) : Nat :=
  if x ≤ 1 then 0 else Nat.log2 (x - 1).toNat + 1

namespace Table

variable {K V : Type}

/-- `hpb_table_size(t)`. -/
def size (t : Table K V) : Nat := tableSize t.sizeLg2

/-- A table right after `init`: no entries, all memory zero. -/
def empty [Inhabited V] (sizeLg2 : Nat) : Table K V :=
  { count := 0
    mask := tableSize sizeLg2 - 1
    -- `hpb_table_size(t) * MAX_LOAD` with `MAX_LOAD = 0.85`
    maxCount := tableSize sizeLg2 * 17 / 20
    sizeLg2 := sizeLg2
    entries := List.replicate (tableSize sizeLg2) ⟨none, default, none⟩ }

/-- `init`: the inner `none` is the `false` result. -/
def init [Inhabited V] (sizeLg2 : Nat) (a : Alloc) : Option (Option (Table K V) × Alloc) :=
  if 32 ≤ sizeLg2 then none
  else
    let bytes := tableSize sizeLg2 * tabentBytes % 2 ^ 64
    if 0 < bytes then
      match a.malloc bytes with
      | (true, a') => some (some (empty sizeLg2), a')
      | (false, a') => some (none, a')
    else some (some (empty sizeLg2), a)

/-- `isfull`. -/
def isFull (t : Table K V) : Bool := t.count = t.maxCount

/-- `hpb_getentry`. -/
def getEntry (t : Table K V) (hash : Nat) : Nat := hash &&& t.mask

/-- Is there an entry `i`, and does it hold no key? -/
def emptyAt (t : Table K V) (i : Nat) : Bool :=
  match t.entries[i]? with
  | some e => e.isEmpty
  | none => false

/-- Is there an entry `i`, and does it hold a key? -/
def usedAt (t : Table K V) (i : Nat) : Bool :=
  match t.entries[i]? with
  | some e => !e.isEmpty
  | none => false

/-- `emptyent`: the first empty slot after `e`, then from the start. -/
def emptyEnt (t : Table K V) (e : Nat) : Option Nat :=
  (List.range' (e + 1) (t.size - (e + 1)) ++ List.range t.size).find? t.emptyAt

section Find

variable [DecidableEq K]

/-- The loop of `findentry`. -/
def findLoop (t : Table K V) (key : K) : Nat → Nat → Option (Option Nat)
  | 0, _ => none
  | n + 1, i => do
    let e ← t.entries[i]?
    let k ← e.key
    if k = key then return some i
    else match e.next with
      | none => return none
      | some j => findLoop t key n j

/-- `findentry`. -/
def findEntry (t : Table K V) (key : K) (hash : Nat) : Option (Option Nat) :=
  if t.sizeLg2 = 0 then some none
  else do
    let i := t.getEntry hash
    let e ← t.entries[i]?
    if e.isEmpty then return none
    else findLoop t key t.size i

/-- `lookup`: the value found. -/
def lookup (t : Table K V) (key : K) (hash : Nat) : Option (Option V) := do
  match ← t.findEntry key hash with
  | some i =>
    let e ← t.entries[i]?
    return some e.val
  | none => return none

end Find

/-- `while (chain->next != target) chain = chain->next`. -/
def findPrev (es : List (TabEnt K V)) (target : Nat) : Nat → Nat → Option Nat
  | 0, _ => none
  | n + 1, chain => do
    let e ← es[chain]?
    let j ← e.next
    if j = target then return chain else findPrev es target n j

/-- `insert`. The given key must not already exist in the table. -/
def insert (hashfunc : K → Nat) (t : Table K V) (tabkey : K) (val : V) (hash : Nat) :
    Option (Table K V) := do
  let mainpos := t.getEntry hash
  let e ← t.entries[mainpos]?
  let ours : TabEnt K V := ⟨some tabkey, val, none⟩
  match e.key with
  | none =>
    return { t with count := t.count + 1, entries := t.entries.set mainpos ours }
  | some k =>
    let new ← t.emptyEnt mainpos
    let chain := t.getEntry (hashfunc k)
    if chain = mainpos then
      -- the existing entry is in its main position: append to its chain
      let es := t.entries.set new { ours with next := e.next }
      let es := es.set mainpos { e with next := some new }
      return { t with count := t.count + 1, entries := es }
    else
      -- the existing entry is a node of some other chain: evict it
      let es := t.entries.set new e
      let prev ← findPrev es mainpos t.size chain
      let pe ← es[prev]?
      let es := es.set prev { pe with next := some new }
      let es := es.set mainpos ours
      return { t with count := t.count + 1, entries := es }

/-- `while (chain->next && !eql(chain->next->key, key)) chain = chain->next`. -/
def rmLoop [DecidableEq K] (t : Table K V) (key : K) : Nat → Nat → Option Nat
  | 0, _ => none
  | n + 1, chain => do
    let e ← t.entries[chain]?
    match e.next with
    | none => return chain
    | some j =>
      let ne ← t.entries[j]?
      let k ← ne.key
      if k = key then return chain else rmLoop t key n j

/-- `rm`: the removed value, `none` inside when the key is not in the table. -/
def rm [DecidableEq K] (t : Table K V) (key : K) (hash : Nat) :
    Option (Option V × Table K V) := do
  let chain := t.getEntry hash
  let e ← t.entries[chain]?
  match e.key with
  | none => return (none, t)
  | some k =>
    if k = key then
      -- the element to remove is at the head of its chain
      match e.next with
      | some move =>
        let me ← t.entries[move]?
        let es := t.entries.set chain me
        let es := es.set move { me with key := none }
        return (some e.val, { t with count := t.count - 1, entries := es })
      | none =>
        let es := t.entries.set chain { e with key := none }
        return (some e.val, { t with count := t.count - 1, entries := es })
    else
      let chain ← rmLoop t key t.size chain
      let e ← t.entries[chain]?
      match e.next with
      | some r =>
        let re ← t.entries[r]?
        let es := t.entries.set r { re with key := none }
        let es := es.set chain { e with next := re.next }
        return (some re.val, { t with count := t.count - 1, entries := es })
      | none => return (none, t)

/-- `next`: the first used slot after `i`; `begin` is `next t (-1)`. `none` is the `SIZE_MAX - 1` of
the source. -/
def next (t : Table K V) (i : Int) : Option Nat :=
  (List.range' (i + 1).toNat (t.size - (i + 1).toNat)).find? t.usedAt

/-- The key and the value in slot `i`. -/
def pairAt (t : Table K V) (i : Nat) : Option (K × V) := do
  let e ← t.entries[i]?
  let k ← e.key
  return (k, e.val)

/-- A loop over the used slots after `i`, in the order of `next`. -/
def forEach {σ : Type} (t : Table K V) (body : σ → K × V → Option σ) :
    Nat → Int → σ → Option σ
  | 0, _, _ => none
  | n + 1, i, s =>
    match t.next i with
    | none => some s
    | some j => do
      let p ← t.pairAt j
      let s' ← body s p
      forEach t body n j s'

end Table

end Hpb
