import Hpb.Hash.StrTableCalls
import Hpb.MiniTable.Field

/-!
# `hpb_Map` (`hpb/collections/map.c`, `internal/map.h`)

A map is a string table whose keys are the raw bytes of the key, or its characters. A value is kept in the eight
bytes of an `hpb_value`, and a string as a pointer to a string view in the arena. What is a string is decided by
sizes: the size 0 stands for strings.

A message value is here the bytes of the union's member that its type selects, for a string its characters. A
result `none` is an invalid access: a pointer read from something that is none, a key shorter than its type, an
arena that is not there, or one of the hash table.
-/

namespace Hpb

/-- `_hpb_Map_CTypeSizeTable`. -/
def CType.mapSize : CType → Nat
  | .bool => 1
  | .float | .int32 | .uint32 | .enum => 4
  | .message | .double | .int64 | .uint64 => 8
  | .string | .bytes => 0

/-- `hpb_MessageValue`. -/
abbrev MessageValue : Type := List UInt8

/-- A value of a type with this size. -/
def MessageValue.Fits (size : Nat) (v : MessageValue) : Prop := size ≠ 0 → v.length = size

/-- `hpb_value` in a map. Nothing writes to the string view behind a pointer, so a pointer is its view. -/
inductive TabValue where
  | word (bytes : List UInt8)
  | strp (view : List UInt8)
  deriving DecidableEq

/-- `{0}`. -/
def TabValue.zero : TabValue := .word (List.replicate 8 0)

instance : Inhabited TabValue := ⟨.zero⟩

/-- The bytes of a word; those of a pointer are not modelled. -/
def TabValue.bytes : TabValue → List UInt8
  | .word bytes => bytes
  | .strp _ => List.replicate 8 0

/-- `hpb_MapInsertStatus`. -/
inductive MapInsertStatus where
  | inserted
  | replaced
  | outOfMemory
  deriving DecidableEq

/-- `hpb_Map`. -/
structure Map where
  keySize : Nat
  valSize : Nat
  table : StrTable TabValue
  deriving DecidableEq

namespace Map

/-- `_hpb_map_tokey`. -/
def tokey (key : MessageValue) (size : Nat) : StrKey := if size = 0 then key else key.take size

/-- `_hpb_map_fromkey`. -/
def fromkey (key : StrKey) (size : Nat) : Option MessageValue :=
  if size = 0 then some key
  else if key.length < size then none
  else some (key.take size)

/-- `_hpb_map_tovalue`, into an `hpb_value` that holds `msgval`; the inner `none` is the `false` result, and an
arena `none` is the null pointer. -/
def tovalue (val : MessageValue) (size : Nat) (msgval : TabValue) (a : Option Alloc) :
    Option (Option TabValue × Option Alloc) :=
  if size = 0 then do
    let a ← a
    match a.malloc 16 with
    | (false, a) => return (none, some a)
    | (true, a) => return (some (.strp val), some a)
  else some (some (.word (val.take size ++ msgval.bytes.drop size)), a)

/-- `_hpb_map_fromvalue`. -/
def fromvalue (val : TabValue) (size : Nat) : Option MessageValue :=
  match val with
  | .strp view => if size = 0 then some view else none
  | .word bytes => if size = 0 then none else some (bytes.take size)

/-- `sizeof(hpb_Map)`. -/
def structBytes : Nat := 40

/-- The table that `hpb_strtable_init` leaves when it gets no memory: a size, and no slots. -/
def unallocated : StrTable TabValue :=
  let t : StrTable TabValue := Table.empty 3
  { t with entries := [] }

/-- `hpb_Map_New`. The result of `hpb_strtable_init` is not checked. -/
def new (a : Alloc) (keyType valueType : CType) : Option (Option Map × Alloc) :=
  match a.malloc structBytes with
  | (false, a) => some (none, a)
  | (true, a) => do
    let (t, a) ← StrTable.init 4 a
    return (some ⟨keyType.mapSize, valueType.mapSize, t.getD unallocated⟩, a)

/-- `hpb_Map_Size`. -/
def size (map : Map) : Nat := map.table.count

/-- `hpb_Map_Get`: whether the key was found, and what is in `*val` then; a `val` of `none` is the null pointer. -/
def get (map : Map) (key : MessageValue) (val : Option MessageValue) : Option (Bool × Option MessageValue) := do
  match ← map.table.lookup2 (tokey key map.keySize) with
  | none => return (false, val)
  | some v =>
    if val.isSome then
      let out ← fromvalue v map.valSize
      return (true, some out)
    else return (true, none)

/-- `hpb_Map_Clear`. -/
def clear (map : Map) : Map := { map with table := map.table.clear }

/-- `hpb_Map_Insert`. -/
def insert (map : Map) (key val : MessageValue) (a : Alloc) : Option (MapInsertStatus × Map × Alloc) := do
  let strkey := tokey key map.keySize
  match ← tovalue val map.valSize .zero (some a) with
  | (none, a) => return (.outOfMemory, map, ← a)
  | (some tabval, a) =>
    let (removed, t) ← map.table.remove2 strkey
    let (ok, t, a) ← StrTable.insert t strkey tabval (← a)
    let status := if ok then (if removed.isSome then .replaced else .inserted) else .outOfMemory
    return (status, { map with table := t }, a)

/-- `hpb_Map_Delete`; `v` is what its variable of that name holds before it is set. -/
def delete (map : Map) (key : MessageValue) (val : Option MessageValue) (v : TabValue) :
    Option (Bool × Option MessageValue × Map) := do
  let (removed, t) ← map.table.remove2 (tokey key map.keySize)
  let v := removed.getD v
  if val.isSome then
    let out ← fromvalue v map.valSize
    return (removed.isSome, some out, { map with table := t })
  else return (removed.isSome, none, { map with table := t })

/-- `hpb_Map_Next`: the key, the value and the new iterator. -/
def next (map : Map) (iter : Int) : Option (Option (MessageValue × MessageValue × Int)) := do
  match ← map.table.next2 iter with
  | none => return none
  | some (k, v, iter) =>
    let key ← fromkey k map.keySize
    let val ← fromvalue v map.valSize
    return some (key, val, iter)

/-- `while (hpb_Map_Next(map, &key, &val, &iter))`: the pairs that it yields. -/
def iterate (map : Map) : Nat → Int → Option (List (MessageValue × MessageValue))
  | 0, _ => none
  | n + 1, iter => do
    match ← map.next iter with
    | none => return []
    | some (key, val, iter) =>
      let rest ← iterate map n iter
      return (key, val) :: rest

/-- `hpb_Map_SetEntryValue`; `v` is what its variable of that name holds before it is set. -/
def setEntryValue (map : Map) (iter : Nat) (val : MessageValue) (v : TabValue) : Option Map := do
  let (msgval, _) ← tovalue val map.valSize v none
  let t ← map.table.setEntryValue iter (msgval.getD v)
  return { map with table := t }

end Map

end Hpb
