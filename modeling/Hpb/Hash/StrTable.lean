import Hpb.Hash.TableSpec
import Hpb.Lib.Listing

/-!
# `hpb_strtable` (`hpb/hash/common.c`)

The table over byte string keys: the hash function, the copy of the key that the table owns
(`strcopy`, whose length field is a `uint32_t`), and growth. `insert` and `resize` call each other;
`insertRec` counts the nesting, which is two at most because a table that has just doubled has room.
-/

namespace Hpb

/-- A key of a string table: the bytes of a string view. -/
abbrev StrKey : Type := List UInt8

section Wyhash

/-- `UnalignedLoad64`. -/
def unalignedLoad64 (p : StrKey) : UInt64 :=
  (p.take 8).foldr (fun b acc => acc <<< 8 ||| b.toUInt64) 0

/-- `UnalignedLoad32`. -/
def unalignedLoad32 (p : StrKey) : UInt64 :=
  (p.take 4).foldr (fun b acc => acc <<< 8 ||| b.toUInt64) 0

/-- `WyhashMix`: the low half of the product xor the high half. -/
def wyhashMix (v0 v1 : UInt64) : UInt64 :=
  let p := v0.toNat * v1.toNat
  UInt64.ofNat p ^^^ UInt64.ofNat (p / 2 ^ 64)

/-- `kWyhashSalt`. -/
def wyhashSalt : Nat → UInt64
  | 0 => 0x243F6A8885A308D3
  | 1 => 0x13198A2E03707344
  | 2 => 0xA4093822299F31D0
  | 3 => 0x082EFA98EC4E6C89
  | _ => 0x452821E638D01377

/-- The loop over chunks of 64 bytes; one unit of fuel a chunk. -/
def wyhashChunks : Nat → StrKey → UInt64 → UInt64 → StrKey × UInt64
  | 0, ptr, cur, dup => (ptr, cur ^^^ dup)
  | n + 1, ptr, cur, dup =>
    let word (i : Nat) := unalignedLoad64 (ptr.drop (8 * i))
    let cs0 := wyhashMix (word 0 ^^^ wyhashSalt 1) (word 1 ^^^ cur)
    let cs1 := wyhashMix (word 2 ^^^ wyhashSalt 2) (word 3 ^^^ cur)
    let ds0 := wyhashMix (word 4 ^^^ wyhashSalt 3) (word 5 ^^^ dup)
    let ds1 := wyhashMix (word 6 ^^^ wyhashSalt 4) (word 7 ^^^ dup)
    let ptr := ptr.drop 64
    if 64 < ptr.length then wyhashChunks n ptr (cs0 ^^^ cs1) (ds0 ^^^ ds1)
    else (ptr, (cs0 ^^^ cs1) ^^^ (ds0 ^^^ ds1))

/-- The loop over 16 bytes; one unit of fuel a round. -/
def wyhashRounds : Nat → StrKey → UInt64 → StrKey × UInt64
  | 0, ptr, cur => (ptr, cur)
  | n + 1, ptr, cur =>
    if 16 < ptr.length then
      let cur := wyhashMix (unalignedLoad64 ptr ^^^ wyhashSalt 1)
        (unalignedLoad64 (ptr.drop 8) ^^^ cur)
      wyhashRounds n (ptr.drop 16) cur
    else (ptr, cur)

/-- `Wyhash`. -/
def wyhash (data : StrKey) (seed : UInt64) : UInt64 :=
  let cur := seed ^^^ wyhashSalt 0
  let (ptr, cur) := if 64 < data.length then wyhashChunks data.length data cur cur else (data, cur)
  let (ptr, cur) := wyhashRounds data.length ptr cur
  let len := ptr.length
  let byte (i : Nat) : UInt64 := (ptr.getD i 0).toUInt64
  let (a, b) : UInt64 × UInt64 :=
    if 8 < len then (unalignedLoad64 ptr, unalignedLoad64 (ptr.drop (len - 8)))
    else if 3 < len then (unalignedLoad32 ptr, unalignedLoad32 (ptr.drop (len - 4)))
    else if 0 < len then (byte 0 <<< 16 ||| byte (len / 2) <<< 8 ||| byte (len - 1), 0)
    else (0, 0)
  let w := wyhashMix (a ^^^ wyhashSalt 1) (b ^^^ cur)
  let z := wyhashSalt 1 ^^^ UInt64.ofNat data.length
  wyhashMix w z

/-- `_hpb_Hash_NoSeed`, also `strhash` of the view of a stored key. -/
def strHash (k : StrKey) : Nat := (wyhash k 0).toUInt32.toNat

end Wyhash

/-- `hpb_strtable`. -/
abbrev StrTable (V : Type) : Type := Table StrKey V

namespace StrTable

variable {V : Type} [Inhabited V]

/-- Conversion of `size_t` to `int`. -/
def sizeToInt (n : Nat) : Int := ((n : Int) + 2 ^ 31) % 2 ^ 32 - 2 ^ 31

/-- `need_entries` of `hpb_strtable_init`, in `size_t`. -/
def needEntries (expectedSize : Nat) : Nat := (expectedSize + 1) % 2 ^ 64 * 1204 % 2 ^ 64 / 1024

/-- `hpb_strtable_init`; the inner `none` is the `false` result. -/
def init (expectedSize : Nat) (a : Alloc) : Option (Option (StrTable V) × Alloc) :=
  Table.init (log2Ceiling (sizeToInt (needEntries expectedSize))) a

/-- `hpb_strtable_clear`. -/
def clear (t : StrTable V) : StrTable V :=
  { t with count := 0, entries := List.replicate t.size ⟨none, default, none⟩ }

/-- `strcopy`, as the view `hpb_tabstr` gives of the copy: the stored length is a `uint32_t`. -/
def strcopy (k : StrKey) (a : Alloc) : Option StrKey × Alloc :=
  match a.malloc (k.length + 4 + 1) with
  | (true, a') => (some (k.take (k.length % 2 ^ 32)), a')
  | (false, a') => (none, a')

/-- The loop body of `hpb_strtable_resize`; the result of `ins` is ignored. -/
def reinsert (ins : StrTable V → StrKey → V → Alloc → Option (Bool × StrTable V × Alloc))
    (s : StrTable V × Alloc) (p : StrKey × V) : Option (StrTable V × Alloc) := do
  let r ← ins s.1 p.1 p.2 s.2
  return r.2

/-- `hpb_strtable_resize`, with `ins` as `hpb_strtable_insert`. `init` takes a `uint8_t`. -/
def resizeWith (ins : StrTable V → StrKey → V → Alloc → Option (Bool × StrTable V × Alloc))
    (t : StrTable V) (sizeLg2 : Nat) (a : Alloc) : Option (Bool × StrTable V × Alloc) := do
  match ← Table.init (sizeLg2 % 256) a with
  | (none, a) => return (false, t, a)
  | (some new, a) =>
    let s ← t.forEach (reinsert ins) (t.size + 1) (-1) (new, a)
    return (true, s)

/-- `hpb_strtable_insert` once there is room: copy the key, enter it. -/
def insertCopy (t : StrTable V) (k : StrKey) (v : V) (a : Alloc) :
    Option (Bool × StrTable V × Alloc) :=
  match strcopy k a with
  | (none, a) => some (false, t, a)
  | (some tabkey, a) => do
    let t ← Table.insert strHash t tabkey v (strHash k)
    return (true, t, a)

/-- `hpb_strtable_insert`, with the nesting of calls bounded. -/
def insertRec : Nat → StrTable V → StrKey → V → Alloc → Option (Bool × StrTable V × Alloc)
  | 0, _, _, _, _ => none
  | n + 1, t, k, v, a =>
    if t.isFull then do
      let (ok, t, a) ← resizeWith (insertRec n) t (t.sizeLg2 + 1) a
      if ok then insertCopy t k v a else return (false, t, a)
    else insertCopy t k v a

/-- `hpb_strtable_insert`. -/
def insert (t : StrTable V) (k : StrKey) (v : V) (a : Alloc) :
    Option (Bool × StrTable V × Alloc) :=
  insertRec 2 t k v a

/-- `hpb_strtable_resize`. -/
def resize (t : StrTable V) (sizeLg2 : Nat) (a : Alloc) : Option (Bool × StrTable V × Alloc) :=
  resizeWith insert t sizeLg2 a

/-- `hpb_strtable_lookup2`: the value found. -/
def lookup2 (t : StrTable V) (k : StrKey) : Option (Option V) := t.lookup k (strHash k)

/-- `hpb_strtable_remove2`: the value removed. -/
def remove2 (t : StrTable V) (k : StrKey) : Option (Option V × StrTable V) := t.rm k (strHash k)

/-- `hpb_strtable_next2`: the next pair and the new iterator. -/
def next2 (t : StrTable V) (iter : Int) : Option (Option (StrKey × V × Int)) :=
  match t.next iter with
  | none => some none
  | some j => do
    let p ← t.pairAt j
    return some (p.1, p.2, j)

/-- `while (hpb_strtable_next2(t, &key, &val, &iter))`: the pairs it yields. -/
def iterate (t : StrTable V) : Nat → Int → Option (List (StrKey × V))
  | 0, _ => none
  | n + 1, iter => do
    match ← t.next2 iter with
    | none => return []
    | some (k, v, iter) =>
      let rest ← iterate t n iter
      return (k, v) :: rest

end StrTable

end Hpb
