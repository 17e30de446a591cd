import Hpb.MiniTable.Enum
import Hpb.MiniTable.FindField

/-!
# Linked mini tables (`hpb/mini_table/extension.h`, `extension_registry.h`, `internal/message.c`)

The tables, enums and extensions that refer to each other. A pointer to one of them is its number.
-/

namespace Hpb

/-- A `const hpb_MiniTable*` that is not `NULL`: `&_kHpb_MiniTable_Empty` or one of the tables. -/
inductive TableRef where
  | empty
  | table (id : Nat)
  deriving DecidableEq, Repr

/-- `_kHpb_MiniTable_Empty`. -/
def MiniTable.empty : MiniTable where
  subs := []
  fields := []
  size := 0
  fieldCount := 0
  ext := ExtMode.nonExtendable
  denseBelow := 0
  tableMask := 255
  requiredCount := 0

/-- The table of a `submsg`. -/
def MiniTableSub.tableRef : MiniTableSub → TableRef
  | .submsg id => .table id
  | _ => .empty

/-- What `fields[i].submsg_index` refers to. -/
def MiniTable.sub (t : MiniTable) (f : MiniTableField) : MiniTableSub :=
  t.subs.getD f.submsgIndex .emptyMessage

/-- `hpb_MiniTableExtension`, whose field the builder places at the start of the extension's data and
gives no presence. -/
structure MiniTableExtension where
  field : MiniTableField
  extendee : TableRef
  sub : MiniTableSub
  deriving DecidableEq, Repr

/-- The tables of a program. Each has its fields in the order of their numbers, the dense ones first. -/
structure Schema where
  tables : Nat → MiniTable
  enums : Nat → MiniTableEnum
  exts : Nat → MiniTableExtension
  fieldCount_eq : ∀ id, (tables id).fieldCount = (tables id).fields.length
  searchable : ∀ id, MiniTable.Searchable (tables id).fields (tables id).denseBelow

namespace Schema

/-- The table that a pointer refers to. -/
def table (s : Schema) : TableRef → MiniTable
  | .empty => .empty
  | .table id => s.tables id

/-- The enum of a `subenum`. A field of a closed enum is linked before it is parsed. -/
def subenum (s : Schema) : MiniTableSub → MiniTableEnum
  | .subenum id => s.enums id
  | _ => ⟨0, 0, []⟩

theorem table_fieldCount (s : Schema) (t : TableRef) :
    (s.table t).fieldCount = (s.table t).fields.length := by
  cases t with
  | empty => rfl
  | table id => exact s.fieldCount_eq id

theorem table_searchable (s : Schema) (t : TableRef) :
    MiniTable.Searchable (s.table t).fields (s.table t).denseBelow := by
  cases t with
  | empty => exact ⟨List.Pairwise.nil, fun _ hi => absurd hi (Nat.not_lt_zero _)⟩
  | table id => exact s.searchable id

end Schema

/-- `hpb_ExtensionRegistry`: the extension of a table with a number, as `hpb_ExtensionRegistry_Lookup`
finds it. -/
abbrev ExtensionRegistry := TableRef → Nat → Option Nat

end Hpb
