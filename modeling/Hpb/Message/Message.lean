import Mathlib.Logic.Function.Basic
import Hpb.MiniTable.Schema

/-!
# Messages (`hpb/message/message.c`, `internal/message.h`, `internal/accessors.h`)

A message has its has-bits, the cases of its oneofs, its fields by their offsets, the bytes of its
unknown fields and its extensions. A message that another one points to is a part of it (`Slot.msg`).
Allocation does not fail.
-/

namespace Hpb

/-- A message whose fields hold values of `S`. -/
structure MessageOf (S : Type) where
  /-- By the index of the has-bit. -/
  hasbits : Nat → Bool
  /-- By the offset of the case. -/
  oneofCase : Nat → Nat
  /-- By the offset of the field. -/
  data : Nat → S
  unknown : List UInt8
  /-- By the number of the extension, the last one created first. -/
  exts : List (Nat × S)

/-- The key of a map entry: its bytes if it is a string, else its value. -/
inductive MapKey where
  | scalar (val : UInt64)
  | str (bytes : List UInt8)
  deriving DecidableEq, Repr

/-- What a field, an element or a map value holds. -/
inductive Slot where
  /-- Zero bytes: the number 0, the empty string or a null pointer. -/
  | zero
  | scalar (val : UInt64)
  | str (bytes : List UInt8)
  /-- `hpb_TaggedMessagePtr`: a message, and whether it is of the empty type. -/
  | msg (isEmpty : Bool) (m : MessageOf Slot)
  /-- `hpb_Array`. -/
  | arr (elems : List Slot)
  /-- `hpb_Map`, its entries in the order in which they were inserted. -/
  | map (entries : List (MapKey × Slot))

/-- `hpb_Message`. -/
abbrev Message := MessageOf Slot

namespace Slot

/-- The memory of a number. -/
def ofScalar (val : UInt64) : Slot := if val = 0 then .zero else .scalar val

/-- The memory of a string. -/
def ofStr (bytes : List UInt8) : Slot := if bytes = [] then .zero else .str bytes

/-- The number in a field. -/
def scalarVal : Slot → UInt64
  | .scalar v => v
  | _ => 0

/-- The string in a field. -/
def strVal : Slot → List UInt8
  | .str bytes => bytes
  | _ => []

/-- The elements of an array that may not have been created. -/
def elems : Slot → List Slot
  | .arr xs => xs
  | _ => []

/-- The entries of a map that may not have been created. -/
def entries : Slot → List (MapKey × Slot)
  | .map es => es
  | _ => []

end Slot

namespace Message

/-- `_hpb_Message_New`. -/
def new : Message where
  hasbits := fun _ => false
  oneofCase := fun _ => 0
  data := fun _ => .zero
  unknown := []
  exts := []

/-- `_hpb_Message_AddUnknown`. -/
def addUnknown (m : Message) (bytes : List UInt8) : Message := { m with unknown := m.unknown ++ bytes }

/-- A write to the field at an offset. -/
def setData (m : Message) (offset : Nat) (s : Slot) : Message :=
  { m with data := Function.update m.data offset s }

/-- `_hpb_sethas_field`. -/
def setHas (m : Message) (index : Nat) : Message :=
  { m with hasbits := Function.update m.hasbits index true }

/-- `*_hpb_oneofcase_field(msg, f) = number`. -/
def setOneofCase (m : Message) (offset number : Nat) : Message :=
  { m with oneofCase := Function.update m.oneofCase offset number }

/-- The data of an extension; it is zero if `_hpb_Message_GetOrCreateExtension` has to create it. -/
def ext (m : Message) (id : Nat) : Slot :=
  match m.exts.find? fun e => e.1 == id with
  | some e => e.2
  | none => .zero

/-- A write to the data of the extension that `_hpb_Message_GetOrCreateExtension` returned. -/
def setExt (m : Message) (id : Nat) (s : Slot) : Message :=
  if m.exts.any fun e => e.1 == id then
    { m with exts := m.exts.map fun e => if e.1 = id then (id, s) else e }
  else { m with exts := (id, s) :: m.exts }

/-- An extension holds what was written to it. -/
theorem ext_setExt (m : Message) (id : Nat) (s : Slot) : (m.setExt id s).ext id = s := by
  unfold setExt
  split
  next hany =>
    obtain ⟨e, he, hid⟩ := List.any_eq_true.mp hany
    obtain ⟨e', he'⟩ : ∃ e', m.exts.find? (fun e => e.1 == id) = some e' := by
      cases hfind : m.exts.find? fun e => e.1 == id with
      | none => exact absurd hid (List.find?_eq_none.mp hfind e he)
      | some e' => exact ⟨e', rfl⟩
    have hkey : ((fun e => e.1 == id) ∘ fun e : Nat × Slot => if e.1 = id then (id, s) else e) =
        fun e => e.1 == id := by
      funext e
      by_cases h : e.1 = id <;> simp [h]
    have hbeq := List.find?_some he'
    have hid' : e'.1 = id := eq_of_beq hbeq
    rw [ext, List.find?_map, hkey, he', Option.map_some, if_pos hid']
  next => simp [ext]

end Message

/-- `_hpb_Map_Insert`. -/
def mapInsert (entries : List (MapKey × Slot)) (key : MapKey) (val : Slot) : List (MapKey × Slot) :=
  entries.filter (fun e => e.1 ≠ key) ++ [(key, val)]

end Hpb
