import Mathlib.Logic.Relation
import Hpb.Message.Equal
import Hpb.MiniTable.Field

/-!
# Deep copies of messages (`hpb/message/copy.c`)

A clone first gets the memory of the source, and then every string, message, array and map in it is
replaced by a copy of its own. A result of `none` is an assertion that fails, or a call that returns `NULL`
though there is memory enough.

* `deepClone`: the clone of a message.
* `Tree`, `WellFormed`: the messages that a message holds, and what each of them looks like.
* `Clonable`: what the copier can copy.
* `cloneMessageValue_equal_iff`, `cloneElems_equal_iff`, `cloneEntries_equal_iff`: copies of values.
-/

namespace Hpb

/-- A null pointer, an empty string or the number 0. -/
def Slot.isZero : Slot → Bool
  | .zero => true
  | _ => false

namespace Message

/-- `_hpb_Message_GetNonExtensionField`, with a default of zero. -/
def getNonExtensionField (m : Message) (f : MiniTableField) : Slot :=
  if f.presence < 0 ∧ m.oneofCase (-f.presence - 1).toNat ≠ f.number then .zero else m.data f.offset

/-- `_hpb_Message_SetPresence`. -/
def setPresence (m : Message) (f : MiniTableField) : Message :=
  if 0 < f.presence then m.setHas f.presence.toNat
  else if f.presence < 0 then m.setOneofCase (-f.presence - 1).toNat f.number
  else m

/-- `_hpb_Message_SetNonExtensionField`. -/
def setNonExtensionField (m : Message) (f : MiniTableField) (s : Slot) : Message :=
  (m.setPresence f).setData f.offset s

end Message

/-- `hpb_MiniTable_GetSubMessageTable`, with its assertions; the table may be `NULL`. -/
def MiniTable.subMessageTable (t : MiniTable) (f : MiniTableField) : Option (Option TableRef) :=
  if f.cType = .message then (t.getSubMessageTable f).map (·.map .table) else none

namespace Copy

/-- The string of `hpb_Clone_MessageValue`, whose size is an `int`. There is no memory for a negative one. -/
def cloneString (bytes : List UInt8) : Option (List UInt8) :=
  let size := bytes.length % 2 ^ 32
  if size < 2 ^ 31 then some (bytes.take size) else none

/-- The table of the values in `hpb_Map_DeepClone`. -/
def valueSub (entry : MiniTable) (value : MiniTableField) : Option (Option TableRef) :=
  if value.submsgIndex ≠ noSub then entry.subMessageTable value else some none

/-- The table of the elements in `hpb_Message_Array_DeepClone`. -/
def elemSub (table : MiniTable) (f : MiniTableField) : Option (Option TableRef) :=
  if f.cType = .message ∧ f.submsgIndex ≠ noSub then table.subMessageTable f else some none

/-- `sub.submsg` of an extension. -/
def extSub : MiniTableSub → Option TableRef
  | .submsg id => some (.table id)
  | .emptyMessage => some .empty
  | _ => none

/-- A field set, if there is something to set. -/
def setField (f : MiniTableField) (dst : Message) : Option Slot → Message
  | none => dst
  | some s => dst.setNonExtensionField f s

variable (S : Schema)

mutual

/-- `hpb_Clone_MessageValue`. -/
def cloneMessageValue (type : CType) (sub : Option TableRef) : Slot → Option Slot
  | .msg isEmpty m =>
    match if isEmpty then some .empty else sub with
    | some t => (deepClone t m).map (.msg isEmpty)
    | none => none
  | .str bytes => (cloneString bytes).map .ofStr
  | s => if type = .message then none else some s

/-- `hpb_Array_DeepClone`. -/
def arrayDeepClone (type : CType) (sub : Option TableRef) : Slot → Option Slot
  | .arr xs => (cloneElems type sub xs).map .arr
  | _ => none

/-- The elements of an array. -/
def cloneElems (type : CType) (sub : Option TableRef) : List Slot → Option (List Slot)
  | [] => some []
  | x :: xs => do
    let x ← cloneMessageValue type sub x
    let xs ← cloneElems type sub xs
    some (x :: xs)

/-- `hpb_Map_DeepClone`. -/
def mapDeepClone (entry : MiniTable) : Slot → Option Slot
  | .map es => (cloneEntries entry es []).map .map
  | _ => none

/-- The loop over the entries of a map. -/
def cloneEntries (entry : MiniTable) :
    List (MapKey × Slot) → List (MapKey × Slot) → Option (List (MapKey × Slot))
  | [], cloned => some cloned
  | (key, val) :: es, cloned =>
    match entry.fields with
    | _ :: value :: _ => do
      let sub ← valueSub entry value
      let val ← cloneMessageValue value.cType sub val
      cloneEntries entry es (mapInsert cloned key val)
    | _ => none

/-- The loop over the extensions of a message. -/
def cloneExtensions : List (Nat × Slot) → Message → Option Message
  | [], dst => some dst
  | (id, s) :: exts, dst =>
    let ext := S.exts id
    let copy := if ext.field.isRepeatedOrMap then arrayDeepClone ext.field.cType (extSub ext.sub) s
      else cloneMessageValue ext.field.cType (extSub ext.sub) s
    copy.bind fun s => cloneExtensions exts (dst.setExt id s)

/-- `hpb_Message_DeepClone` with `_hpb_Message_Copy`. -/
def deepClone (t : TableRef) : Message → Option Message
  | ⟨hasbits, oneofCase, data, unknown, exts⟩ => do
    let table := S.table t
    let src : Message := ⟨hasbits, oneofCase, data, unknown, exts⟩
    let dst : Message := ⟨hasbits, oneofCase, data, [], []⟩
    let dst ← table.fields.foldlM (fun dst f =>
      -- a field that is read and not zero is the memory at its offset
      let copy := if (src.getNonExtensionField f).isZero then some none
        else if f.isRepeatedOrMap then
          if f.fieldMode = FieldMode.map then
            (mapDeepClone (S.table (table.sub f).tableRef) (data f.offset)).map some
          else do
            let sub ← elemSub table f
            (arrayDeepClone f.cType sub (data f.offset)).map some
        else match f.cType with
          | .message => do
            let sub ← table.subMessageTable f
            (cloneMessageValue .message sub (data f.offset)).map some
          | .string | .bytes => some (some (data f.offset))
          | _ => some none
      copy.map (setField f dst)) dst
    let dst ← cloneExtensions exts dst
    some (if unknown = [] then dst else dst.addUnknown unknown)

end

/-! ### The messages that can be copied -/

/-- Where a value stands in a message. -/
inductive Place where
  | field | elem | value | ext
  deriving DecidableEq, Repr

/-- A value of a message, with its place, its field and the sub-table of the field. -/
inductive HasValue (t : TableRef) (m : Message) : Place → MiniTableField → MiniTableSub → Slot → Prop where
  | field {f : MiniTableField} (hf : f ∈ (S.table t).fields) (hmode : f.isRepeatedOrMap = false) :
      HasValue t m .field f ((S.table t).sub f) (m.getNonExtensionField f)
  | elem {f : MiniTableField} (hf : f ∈ (S.table t).fields) (hmode : f.isRepeatedOrMap = true)
      (hmap : f.fieldMode ≠ FieldMode.map) {x : Slot} (hx : x ∈ (m.getNonExtensionField f).elems) :
      HasValue t m .elem f ((S.table t).sub f) x
  | value {f : MiniTableField} (hf : f ∈ (S.table t).fields) (hmap : f.fieldMode = FieldMode.map)
      {key val : MiniTableField} {rest : List MiniTableField}
      (hentry : (S.table ((S.table t).sub f).tableRef).fields = key :: val :: rest) {k : MapKey} {x : Slot}
      (hx : (k, x) ∈ (m.getNonExtensionField f).entries) :
      HasValue t m .value val ((S.table ((S.table t).sub f).tableRef).sub val) x
  | ext {id : Nat} {x : Slot} (hmem : (id, x) ∈ m.exts) (hmode : (S.exts id).field.isRepeatedOrMap = false) :
      HasValue t m .ext (S.exts id).field (S.exts id).sub x
  | extElem {id : Nat} {s x : Slot} (hmem : (id, s) ∈ m.exts)
      (hmode : (S.exts id).field.isRepeatedOrMap = true) (hx : x ∈ s.elems) :
      HasValue t m .elem (S.exts id).field (S.exts id).sub x

/-- The table of a message that a value holds. -/
def subTable (sub : MiniTableSub) (isEmpty : Bool) : TableRef := if isEmpty then .empty else sub.tableRef

/-- A message that another one holds. -/
def Child (a b : TableRef × Message) : Prop :=
  ∃ place f sub isEmpty, HasValue S a.1 a.2 place f sub (.msg isEmpty b.2) ∧ b.1 = subTable sub isEmpty

/-- The messages in the tree of a message. -/
def Tree : TableRef × Message → TableRef × Message → Prop := Relation.ReflTransGen (Child S)

/-- What the builder and the linker make sure of. -/
structure Linked : Prop where
  /-- Only the members of a oneof share their place. -/
  offset : ∀ t, ∀ f ∈ (S.table t).fields, ∀ g ∈ (S.table t).fields, f ≠ g → f.offset = g.offset →
    f.presence < 0 ∧ g.presence = f.presence ∧ g.number ≠ f.number
  submsg : ∀ t, ∀ f ∈ (S.table t).fields, f.isSubMessage →
    f.submsgIndex ≠ noSub ∧ ∃ id, (S.table t).subs[f.submsgIndex]? = some (.submsg id)
  subenum : ∀ t, ∀ f ∈ (S.table t).fields, f.submsgIndex ≠ noSub → f.isSubMessage ∨ f.isClosedEnum
  closed : ∀ t, ∀ f ∈ (S.table t).fields, f.isClosedEnum → f.submsgIndex ≠ noSub
  /-- A map has a table for its entries. -/
  entry : ∀ t, ∀ f ∈ (S.table t).fields, f.fieldMode = FieldMode.map →
    f.isRepeatedOrMap = true ∧
      ∃ key val rest, (S.table ((S.table t).sub f).tableRef).fields = key :: val :: rest
  extension : ∀ id, (S.exts id).field.isSubMessage → ∃ table, (S.exts id).sub = .submsg table

/-- A value has the type of its field. A message that is not set is a null pointer; an element or a map
value is set. -/
def Fits (place : Place) (f : MiniTableField) (x : Slot) : Prop :=
  match f.cType with
  | .message => (∃ isEmpty m, x = .msg isEmpty m) ∨ x = .zero ∧ (place = .field ∨ place = .ext)
  | .string | .bytes => x = .zero ∨ ∃ bytes, bytes ≠ [] ∧ x = .str bytes
  | _ => x = .zero ∨ ∃ val, x = .scalar val

/-- What a message over a table looks like. -/
structure WellFormed (t : TableRef) (m : Message) : Prop where
  value : ∀ place f sub x, HasValue S t m place f sub x → Fits place f x
  array : ∀ f ∈ (S.table t).fields, f.isRepeatedOrMap = true → f.fieldMode ≠ FieldMode.map →
    m.getNonExtensionField f = .zero ∨ ∃ xs, m.getNonExtensionField f = .arr xs
  map : ∀ f ∈ (S.table t).fields, f.fieldMode = FieldMode.map →
    m.getNonExtensionField f = .zero ∨
      ∃ es, m.getNonExtensionField f = .map es ∧ (es.map Prod.fst).Nodup
  extArray : ∀ id s, (id, s) ∈ m.exts → (S.exts id).field.isRepeatedOrMap = true →
    s = .zero ∨ ∃ xs, s = .arr xs
  ids : (m.exts.map Prod.fst).Nodup
  /-- A field whose has-bit is not set is zero. -/
  hasbit : ∀ f ∈ (S.table t).fields, 0 < f.presence → m.hasbits f.presence.toNat = false →
    m.data f.offset = .zero

/-- What the copier can copy: no entry of a map has a closed enum, the strings that are not fields have a
size that is an `int`, and no extension is a null pointer. -/
structure Clonable (t : TableRef) (m : Message) : Prop where
  closedEnum : ∀ f sub x, HasValue S t m .value f sub x → f.isClosedEnum = false
  string : ∀ place f sub bytes, HasValue S t m place f sub (.str bytes) → place ≠ .field →
    bytes.length < 2 ^ 31
  extension : ∀ id, (id, Slot.zero) ∈ m.exts →
    (S.exts id).field.isRepeatedOrMap = false ∧ (S.exts id).field.cType ≠ .message

/-- There is a clone that is equal to the source. -/
def Copies (t : TableRef) (m : Message) : Prop := ∃ m', deepClone S t m = some m' ∧ Message.Equal m m'

/-! ### The parts of a message -/

/-- The part of `_hpb_Message_Copy` for one field: what is set in the clone, if anything. -/
def copyField (t : TableRef) (src : Message) (f : MiniTableField) : Option (Option Slot) :=
  if (src.getNonExtensionField f).isZero then some none
  else if f.isRepeatedOrMap then
    if f.fieldMode = FieldMode.map then
      (mapDeepClone S (S.table ((S.table t).sub f).tableRef) (src.data f.offset)).map some
    else do
      let sub ← elemSub (S.table t) f
      (arrayDeepClone S f.cType sub (src.data f.offset)).map some
  else match f.cType with
    | .message => do
      let sub ← (S.table t).subMessageTable f
      (cloneMessageValue S .message sub (src.data f.offset)).map some
    | .string | .bytes => some (some (src.data f.offset))
    | _ => some none

/-- The copy of one extension. -/
def copyExtension (id : Nat) (s : Slot) : Option Slot :=
  if (S.exts id).field.isRepeatedOrMap then
    arrayDeepClone S (S.exts id).field.cType (extSub (S.exts id).sub) s
  else cloneMessageValue S (S.exts id).field.cType (extSub (S.exts id).sub) s

variable {S}

theorem deepClone_eq (t : TableRef) (m : Message) :
    deepClone S t m = (do
      let dst ← (S.table t).fields.foldlM (fun dst f => (copyField S t m f).map (setField f dst))
        ⟨m.hasbits, m.oneofCase, m.data, [], []⟩
      let dst ← cloneExtensions S m.exts dst
      some (if m.unknown = [] then dst else dst.addUnknown m.unknown)) := by
  obtain ⟨hasbits, oneofCase, data, unknown, exts⟩ := m
  rw [deepClone]
  rfl

/-! ### Values, elements and entries -/

/-- A value that is copied, in this place and with this sub-table. -/
structure ValueCopies (place : Place) (f : MiniTableField) (sub : MiniTableSub) (x : Slot) : Prop where
  string : place ≠ .field → ∀ bytes, x = .str bytes → bytes.length < 2 ^ 31
  null : place ≠ .field → x = .zero → f.cType ≠ .message
  closedEnum : place = .value → f.isClosedEnum = false
  msg : ∀ isEmpty m, x = .msg isEmpty m → Copies S (subTable sub isEmpty) m

theorem Fits.cases {place : Place} {f : MiniTableField} {x : Slot} (h : Fits place f x) :
    x = .zero ∨
      (∃ val, x = .scalar val ∧ f.cType ≠ .message ∧ f.cType ≠ .string ∧ f.cType ≠ .bytes) ∨
      (∃ bytes, bytes ≠ [] ∧ x = .str bytes ∧ (f.cType = .string ∨ f.cType = .bytes)) ∨
      ∃ isEmpty m, x = .msg isEmpty m ∧ f.cType = .message := by
  unfold Fits at h
  split at h
  next htype =>
    obtain ⟨isEmpty, m, rfl⟩ | ⟨rfl, -⟩ := h
    · exact .inr (.inr (.inr ⟨isEmpty, m, rfl, htype⟩))
    · exact .inl rfl
  next htype =>
    obtain rfl | ⟨bytes, hne, rfl⟩ := h
    · exact .inl rfl
    · exact .inr (.inr (.inl ⟨bytes, hne, rfl, .inl htype⟩))
  next htype =>
    obtain rfl | ⟨bytes, hne, rfl⟩ := h
    · exact .inl rfl
    · exact .inr (.inr (.inl ⟨bytes, hne, rfl, .inr htype⟩))
  next hmessage hstring hbytes =>
    obtain rfl | ⟨val, rfl⟩ := h
    · exact .inl rfl
    · exact .inr (.inl ⟨val, rfl, hmessage, hstring, hbytes⟩)

/-- A string is copied whole if its size is an `int`. -/
theorem cloneString_equal_iff {bytes : List UInt8} (hne : bytes ≠ []) :
    (∃ x', (cloneString bytes).map Slot.ofStr = some x' ∧ Slot.Equal (.str bytes) x') ↔
      bytes.length < 2 ^ 31 := by
  constructor
  · rintro ⟨x', hx', heq⟩
    obtain ⟨bytes', hclone, rfl⟩ := Option.map_eq_some_iff.mp hx'
    have hsame : bytes' = bytes := by
      unfold Slot.ofStr at heq
      split at heq
      next => exact nomatch heq
      next =>
        cases heq
        rfl
    subst hsame
    unfold cloneString at hclone
    dsimp only at hclone
    split at hclone
    next hsize =>
      have hlen := congrArg List.length (Option.some.inj hclone)
      rw [List.length_take] at hlen
      omega
    next => exact nomatch hclone
  · intro hlen
    have hmod : bytes.length % 2 ^ 32 = bytes.length := Nat.mod_eq_of_lt (by omega)
    refine ⟨.str bytes, ?_, .str bytes⟩
    unfold cloneString
    dsimp only
    rw [hmod, if_pos hlen, List.take_length, Option.map_some, Slot.ofStr, if_neg hne]

theorem cloneMessageValue_zero (type : CType) (table : Option TableRef) :
    cloneMessageValue S type table .zero = if type = .message then none else some .zero := by
  rw [cloneMessageValue] <;> nofun

theorem cloneMessageValue_scalar (type : CType) (table : Option TableRef) (val : UInt64) :
    cloneMessageValue S type table (.scalar val) = if type = .message then none else some (.scalar val) := by
  rw [cloneMessageValue] <;> nofun

/-- **A value** is copied if it is a string of a size that is an `int`, a message that is copied, or no
string and no message. -/
theorem cloneMessageValue_equal_iff {place : Place} {f : MiniTableField} {sub : MiniTableSub}
    {table : Option TableRef} {x : Slot} (hfits : Fits place f x) (hplace : place ≠ .field)
    (hclosed : f.isClosedEnum = false ∨ place ≠ .value)
    (htable : f.cType = .message → table = some sub.tableRef) :
    (∃ x', cloneMessageValue S f.cType table x = some x' ∧ Slot.Equal x x') ↔
      ValueCopies (S := S) place f sub x := by
  obtain rfl | ⟨val, rfl, htype, -⟩ | ⟨bytes, hne, rfl, htype⟩ | ⟨isEmpty, m, rfl, htype⟩ := hfits.cases
  · rw [cloneMessageValue_zero]
    by_cases htype : f.cType = .message
    · rw [if_pos htype]
      exact ⟨fun ⟨_, h, _⟩ => (nomatch h), fun h => absurd htype (h.null hplace rfl)⟩
    · rw [if_neg htype]
      exact ⟨fun _ => ⟨fun _ _ h => (nomatch h), fun _ _ => htype, fun h => hclosed.resolve_right (· h),
        fun _ _ h => (nomatch h)⟩, fun _ => ⟨_, rfl, .zero⟩⟩
  · rw [cloneMessageValue_scalar, if_neg htype]
    exact ⟨fun _ => ⟨fun _ _ h => (nomatch h), fun _ h => (nomatch h), fun h => hclosed.resolve_right (· h),
      fun _ _ h => (nomatch h)⟩, fun _ => ⟨_, rfl, .scalar val⟩⟩
  · rw [cloneMessageValue, cloneString_equal_iff hne]
    refine ⟨fun h => ⟨fun _ _ hb => ?_, fun _ h => (nomatch h), fun h => hclosed.resolve_right (· h),
      fun _ _ h => (nomatch h)⟩, fun h => h.string hplace bytes rfl⟩
    cases hb
    exact h
  · have hsub : (if isEmpty = true then some TableRef.empty else table) = some (subTable sub isEmpty) := by
      rw [htable htype]
      unfold subTable
      cases isEmpty <;> rfl
    rw [cloneMessageValue, hsub]
    constructor
    · rintro ⟨x', hx', heq⟩
      obtain ⟨m', hm', rfl⟩ := Option.map_eq_some_iff.mp hx'
      refine ⟨fun _ _ h => (nomatch h), fun _ h => (nomatch h), fun h => hclosed.resolve_right (· h), ?_⟩
      intro _ _ h
      cases h
      cases heq with
      | msg _ heq => exact ⟨m', hm', heq⟩
    · intro h
      obtain ⟨m', hm', heq⟩ := h.msg isEmpty m rfl
      exact ⟨.msg isEmpty m', Option.map_eq_some_iff.mpr ⟨m', hm', rfl⟩, .msg isEmpty heq⟩

theorem arr_equal_cons {x y : Slot} {xs ys : List Slot} :
    Slot.Equal (.arr (x :: xs)) (.arr (y :: ys)) ↔ Slot.Equal x y ∧ Slot.Equal (.arr xs) (.arr ys) := by
  constructor
  · intro h
    cases h with
    | arr hlen helem =>
      refine ⟨helem 0 x y rfl rfl, .arr (Nat.succ.inj hlen) fun i a b ha hb => ?_⟩
      exact helem (i + 1) a b ha hb
  · rintro ⟨hxy, h⟩
    cases h with
    | arr hlen helem =>
      refine .arr (congrArg Nat.succ hlen) fun i a b ha hb => ?_
      cases i with
      | zero =>
        obtain rfl := Option.some.inj ha
        obtain rfl := Option.some.inj hb
        exact hxy
      | succ i => exact helem i a b ha hb

/-- **An array** is copied if its elements are. -/
theorem cloneElems_equal_iff {type : CType} {table : Option TableRef} (xs : List Slot) :
    (∃ ys, cloneElems S type table xs = some ys ∧ Slot.Equal (.arr xs) (.arr ys)) ↔
      ∀ x ∈ xs, ∃ x', cloneMessageValue S type table x = some x' ∧ Slot.Equal x x' := by
  induction xs with
  | nil =>
    rw [cloneElems]
    exact ⟨fun _ => List.forall_mem_nil _, fun _ => ⟨[], rfl, .refl _⟩⟩
  | cons x xs ih =>
    rw [cloneElems, List.forall_mem_cons, ← ih]
    constructor
    · rintro ⟨ys, hys, heq⟩
      obtain ⟨x', hx', hys⟩ := Option.bind_eq_some_iff.mp hys
      obtain ⟨xs', hxs', hys⟩ := Option.bind_eq_some_iff.mp hys
      obtain rfl := Option.some.inj hys
      obtain ⟨hx, hxs⟩ := arr_equal_cons.mp heq
      exact ⟨⟨x', hx', hx⟩, xs', hxs', hxs⟩
    · rintro ⟨⟨x', hx', hx⟩, xs', hxs', hxs⟩
      refine ⟨x' :: xs', ?_, arr_equal_cons.mpr ⟨hx, hxs⟩⟩
      rw [hx', hxs']
      rfl

/-- The copy of a map value. -/
def copyValue (S : Schema) (entry : MiniTable) (value : MiniTableField) (_ : MapKey) (val : Slot) :
    Option Slot :=
  (valueSub entry value).bind fun sub => cloneMessageValue S value.cType sub val

theorem cloneEntries_eq_some_iff {entry : MiniTable} {key value : MiniTableField} {rest : List MiniTableField}
    (hentry : entry.fields = key :: value :: rest) {es cloned es' : List (MapKey × Slot)}
    (hnd : ((cloned ++ es).map Prod.fst).Nodup) :
    cloneEntries S entry es cloned = some es' ↔
      ∃ copies, Revalued (copyValue S entry value) es copies ∧ es' = cloned ++ copies := by
  induction es generalizing cloned with
  | nil =>
    rw [cloneEntries, Option.some_inj]
    constructor
    · rintro rfl
      exact ⟨[], .nil, (List.append_nil _).symm⟩
    · rintro ⟨copies, hcopies, rfl⟩
      cases hcopies
      exact (List.append_nil _).symm
  | cons e es ih =>
    obtain ⟨k, x⟩ := e
    have hfresh : k ∉ cloned.map Prod.fst := by
      rw [List.map_append, List.map_cons] at hnd
      intro hk
      exact (List.nodup_append.mp hnd).2.2 k hk k List.mem_cons_self rfl
    have hinsert : ∀ x', mapInsert cloned k x' = cloned ++ [(k, x')] := fun x' => by
      unfold mapInsert
      rw [List.filter_eq_self.mpr]
      intro e he
      refine decide_eq_true fun hk => hfresh ?_
      exact hk ▸ List.mem_map.mpr ⟨e, he, rfl⟩
    have hnext : ∀ x', ((cloned ++ [(k, x')] ++ es).map Prod.fst).Nodup := fun x' => by
      simpa using hnd
    rw [cloneEntries, hentry]
    constructor
    · intro h
      obtain ⟨sub, hsub, h⟩ := Option.bind_eq_some_iff.mp h
      obtain ⟨x', hx', h⟩ := Option.bind_eq_some_iff.mp h
      rw [hinsert] at h
      obtain ⟨copies, hcopies, rfl⟩ := (ih (hnext x')).mp h
      refine ⟨(k, x') :: copies, .cons ⟨rfl, ?_⟩ hcopies, List.append_assoc _ _ _⟩
      exact Option.bind_eq_some_iff.mpr ⟨sub, hsub, hx'⟩
    · rintro ⟨copies, hcopies, rfl⟩
      obtain ⟨⟨k', x'⟩, copies, ⟨hk, hcopy⟩, htail, rfl⟩ := List.forall₂_cons_left_iff.mp hcopies
      obtain rfl : k' = k := hk
      obtain ⟨sub, hsub, hx'⟩ := Option.bind_eq_some_iff.mp hcopy
      refine Option.bind_eq_some_iff.mpr ⟨sub, hsub, Option.bind_eq_some_iff.mpr ⟨x', hx', ?_⟩⟩
      rw [hinsert]
      exact (ih (hnext x')).mpr ⟨copies, htail, by simp⟩

/-- **A map** is copied if its values are. -/
theorem cloneEntries_equal_iff {entry : MiniTable} {key value : MiniTableField} {rest : List MiniTableField}
    (hentry : entry.fields = key :: value :: rest) {es : List (MapKey × Slot)}
    (hnd : (es.map Prod.fst).Nodup) :
    (∃ es', cloneEntries S entry es [] = some es' ∧ Slot.Equal (.map es) (.map es')) ↔
      ∀ k x, (k, x) ∈ es → ∃ x', copyValue S entry value k x = some x' ∧ Slot.Equal x x' := by
  rw [← revalued_related_iff List.Perm.refl hnd]
  refine exists_congr fun es' => ?_
  rw [@cloneEntries_eq_some_iff S entry key value rest hentry es [] es' hnd]
  constructor
  · rintro ⟨⟨_, hcopies, rfl⟩, heq⟩
    cases heq with
    | map hkeys hvalue => exact ⟨hcopies, hkeys, hvalue⟩
  · rintro ⟨hcopies, hkeys, hvalue⟩
    exact ⟨⟨es', hcopies, rfl⟩, .map hkeys hvalue⟩

theorem setExt_of_notMem {m : Message} {id : Nat} (h : id ∉ m.exts.map Prod.fst) (s : Slot) :
    m.setExt id s = { m with exts := (id, s) :: m.exts } := by
  unfold Message.setExt
  rw [if_neg]
  intro hany
  obtain ⟨e, he, hid⟩ := List.any_eq_true.mp hany
  exact h (List.mem_map.mpr ⟨e, he, eq_of_beq hid⟩)

theorem cloneExtensions_eq_some_iff {exts : List (Nat × Slot)} {dst dst' : Message}
    (hnd : ((dst.exts ++ exts).map Prod.fst).Nodup) :
    cloneExtensions S exts dst = some dst' ↔
      ∃ copies, Revalued (copyExtension S) exts copies ∧
        dst' = { dst with exts := copies.reverse ++ dst.exts } := by
  induction exts generalizing dst with
  | nil =>
    rw [cloneExtensions, Option.some_inj]
    constructor
    · rintro rfl
      exact ⟨[], .nil, rfl⟩
    · rintro ⟨copies, hcopies, rfl⟩
      cases hcopies
      rfl
  | cons e exts ih =>
    obtain ⟨id, s⟩ := e
    have hfresh : id ∉ dst.exts.map Prod.fst := by
      rw [List.map_append, List.map_cons] at hnd
      intro hid
      exact (List.nodup_append.mp hnd).2.2 id hid id List.mem_cons_self rfl
    have hnext : ∀ s', ((((id, s') :: dst.exts) ++ exts).map Prod.fst).Nodup := fun s' => by
      simp only [List.map_append, List.map_cons] at hnd ⊢
      exact List.perm_middle.nodup_iff.mp hnd
    rw [cloneExtensions]
    change (copyExtension S id s).bind _ = _ ↔ _
    constructor
    · intro h
      obtain ⟨s', hs', h⟩ := Option.bind_eq_some_iff.mp h
      rw [setExt_of_notMem hfresh] at h
      obtain ⟨copies, hcopies, rfl⟩ := (ih (hnext s')).mp h
      refine ⟨(id, s') :: copies, .cons ⟨rfl, hs'⟩ hcopies, ?_⟩
      simp
    · rintro ⟨copies, hcopies, rfl⟩
      obtain ⟨⟨id', s'⟩, copies, ⟨hid, hcopy⟩, htail, rfl⟩ := List.forall₂_cons_left_iff.mp hcopies
      obtain rfl : id' = id := hid
      refine Option.bind_eq_some_iff.mpr ⟨s', hcopy, ?_⟩
      rw [setExt_of_notMem hfresh]
      refine (ih (hnext s')).mpr ⟨copies, htail, ?_⟩
      simp

end Copy

end Hpb
