import Hpb.Message.Copy

/-!
# Copies that are equal (`hpb/message/copy.c`)

A message has a clone that is equal to it if its values have copies and the messages in it have such clones.

* `FieldCopies`, `ExtCopies`: what the copier does with one field and with one extension.
* `copies_iff_children`: one message, and those that it holds.
* `deepClone_equal_iff`: all messages in the tree of a message.
* `not_deepClone_enumMapMessage`: a map of a closed enum is not cloned.
-/

namespace Hpb.Copy

variable {S : Schema}

/-! ### Fields and extensions -/

variable {t : TableRef} {m : Message} {f : MiniTableField}

theorem arrayDeepClone_equal_iff {type : CType} {table : Option TableRef} {s : Slot} :
    (∃ s', arrayDeepClone S type table s = some s' ∧ Slot.Equal s s') ↔
      ∃ xs, s = .arr xs ∧ ∀ x ∈ xs, ∃ x', cloneMessageValue S type table x = some x' ∧ Slot.Equal x x' := by
  constructor
  · rintro ⟨s', hs', heq⟩
    cases s with
    | arr xs =>
      rw [arrayDeepClone] at hs'
      obtain ⟨ys, hys, rfl⟩ := Option.map_eq_some_iff.mp hs'
      exact ⟨xs, rfl, (cloneElems_equal_iff xs).mp ⟨ys, hys, heq⟩⟩
    | _ => simp [arrayDeepClone] at hs'
  · rintro ⟨xs, rfl, h⟩
    obtain ⟨ys, hys, heq⟩ := (cloneElems_equal_iff xs).mpr h
    exact ⟨.arr ys, by rw [arrayDeepClone, hys, Option.map_some], heq⟩

/-- The elements of an array are copied. -/
theorem elems_copied_iff {sub : MiniTableSub} {table : Option TableRef} {xs : List Slot}
    (hfits : ∀ x ∈ xs, Fits .elem f x) (htable : f.cType = .message → table = some sub.tableRef) :
    (∀ x ∈ xs, ∃ x', cloneMessageValue S f.cType table x = some x' ∧ Slot.Equal x x') ↔
      ∀ x ∈ xs, ValueCopies (S := S) .elem f sub x :=
  forall₂_congr fun x hx =>
    cloneMessageValue_equal_iff (hfits x hx) (by decide) (.inr (by decide)) htable

/-- An extension is copied. -/
def ExtCopies (S : Schema) (id : Nat) (s : Slot) : Prop :=
  ∃ s', copyExtension S id s = some s' ∧ Slot.Equal s s'

theorem Linked.extSub (hS : Linked S) (id : Nat) (htype : (S.exts id).field.cType = .message) :
    extSub (S.exts id).sub = some (S.exts id).sub.tableRef := by
  obtain ⟨table, hsub⟩ := hS.extension id ((MiniTableField.cType_message_iff _).mp htype)
  rw [hsub]
  rfl

theorem extCopies_scalar {id : Nat} {s : Slot} (hS : Linked S) (hm : WellFormed S t m)
    (hmem : (id, s) ∈ m.exts) (hmode : (S.exts id).field.isRepeatedOrMap = false) :
    ExtCopies S id s ↔ ValueCopies (S := S) .ext (S.exts id).field (S.exts id).sub s := by
  unfold ExtCopies copyExtension
  rw [hmode, if_neg (by decide)]
  exact cloneMessageValue_equal_iff (hm.value _ _ _ _ (.ext hmem hmode)) (by decide) (.inr (by decide))
    (hS.extSub id)

theorem extCopies_array {id : Nat} {s : Slot} (hS : Linked S) (hm : WellFormed S t m)
    (hmem : (id, s) ∈ m.exts) (hmode : (S.exts id).field.isRepeatedOrMap = true) :
    ExtCopies S id s ↔ s ≠ .zero ∧
      ∀ x ∈ s.elems, ValueCopies (S := S) .elem (S.exts id).field (S.exts id).sub x := by
  unfold ExtCopies copyExtension
  rw [hmode, if_pos rfl, arrayDeepClone_equal_iff]
  obtain rfl | ⟨xs, rfl⟩ := hm.extArray id s hmem hmode
  · exact ⟨fun ⟨_, h, _⟩ => (nomatch h), fun h => absurd rfl h.1⟩
  · have hfits : ∀ x ∈ xs, Fits .elem (S.exts id).field x := fun x hx =>
      hm.value _ _ _ _ (.extElem hmem hmode hx)
    constructor
    · rintro ⟨_, hxs, h⟩
      cases hxs
      exact ⟨fun h => (nomatch h), (elems_copied_iff hfits (hS.extSub id)).mp h⟩
    · rintro ⟨-, h⟩
      exact ⟨xs, rfl, (elems_copied_iff hfits (hS.extSub id)).mpr h⟩

/-- What is set in the clone for a field is equal to what the source has there. -/
def FieldCopies (S : Schema) (t : TableRef) (m : Message) (f : MiniTableField) : Prop :=
  ∃ copy, copyField S t m f = some copy ∧ ∀ s, copy = some s → Slot.Equal (m.data f.offset) s

theorem isZero_iff {s : Slot} : s.isZero = true ↔ s = .zero := by
  cases s <;> simp [Slot.isZero]

theorem getNonExtensionField_eq_data (h : m.getNonExtensionField f ≠ .zero) :
    m.getNonExtensionField f = m.data f.offset := by
  unfold Message.getNonExtensionField at h ⊢
  split
  next hcase => rw [if_pos hcase] at h; exact absurd rfl h
  next => rfl

theorem copyField_of_zero (h : m.getNonExtensionField f = .zero) : copyField S t m f = some none := by
  unfold copyField
  rw [h]
  rfl

theorem fieldCopies_of_zero (h : m.getNonExtensionField f = .zero) : FieldCopies S t m f :=
  ⟨none, copyField_of_zero h, fun _ h => nomatch h⟩

/-- A field that is a copy in one `bind`. -/
theorem fieldCopies_map_iff {copy : Option Slot} (h : copyField S t m f = copy.map some) :
    FieldCopies S t m f ↔ ∃ s, copy = some s ∧ Slot.Equal (m.data f.offset) s := by
  unfold FieldCopies
  rw [h]
  constructor
  · rintro ⟨_, hcopy, heq⟩
    obtain ⟨s, hs, rfl⟩ := Option.map_eq_some_iff.mp hcopy
    exact ⟨s, hs, heq s rfl⟩
  · rintro ⟨s, hs, heq⟩
    refine ⟨some s, by rw [hs, Option.map_some], fun _ h => ?_⟩
    exact Option.some.inj h ▸ heq

theorem Linked.sub (hS : Linked S) (hf : f ∈ (S.table t).fields) (htype : f.cType = .message) :
    f.submsgIndex ≠ noSub ∧
      (S.table t).subMessageTable f = some (some ((S.table t).sub f).tableRef) := by
  obtain ⟨hidx, id, hid⟩ := hS.submsg t f hf ((MiniTableField.cType_message_iff f).mp htype)
  refine ⟨hidx, ?_⟩
  unfold MiniTable.subMessageTable MiniTable.getSubMessageTable MiniTable.sub
  rw [if_pos htype, List.getD_eq_getElem?_getD, hid]
  rfl

/-- A field that is not zero. -/
theorem copyField_of_ne_zero (h : m.getNonExtensionField f ≠ .zero) :
    copyField S t m f =
      if f.isRepeatedOrMap then
        if f.fieldMode = FieldMode.map then
          (mapDeepClone S (S.table ((S.table t).sub f).tableRef) (m.getNonExtensionField f)).map some
        else (elemSub (S.table t) f).bind fun sub =>
          (arrayDeepClone S f.cType sub (m.getNonExtensionField f)).map some
      else match f.cType with
        | .message => ((S.table t).subMessageTable f).bind fun sub =>
          (cloneMessageValue S .message sub (m.getNonExtensionField f)).map some
        | .string | .bytes => some (some (m.getNonExtensionField f))
        | _ => some none := by
  rw [getNonExtensionField_eq_data h]
  unfold copyField
  rw [if_neg fun hzero => h (isZero_iff.mp hzero)]
  rfl

/-- A field that is neither repeated nor a map is copied if the message in it is. -/
theorem fieldCopies_scalar (hS : Linked S) (hm : WellFormed S t m) (hf : f ∈ (S.table t).fields)
    (hmode : f.isRepeatedOrMap = false) :
    FieldCopies S t m f ↔
      ValueCopies (S := S) .field f ((S.table t).sub f) (m.getNonExtensionField f) := by
  have hfits := hm.value _ _ _ _ (.field hf hmode)
  have hvalue : ∀ {x : Slot}, (∀ isEmpty m', x ≠ .msg isEmpty m') →
      ValueCopies (S := S) .field f ((S.table t).sub f) x := fun hno =>
    ⟨absurd rfl, absurd rfl, fun h => (nomatch h), fun isEmpty m' h => absurd h (hno isEmpty m')⟩
  obtain hzero | ⟨val, hval, htype⟩ | ⟨bytes, hne, hval, htype⟩ | ⟨isEmpty, m', hval, htype⟩ := hfits.cases
  · rw [hzero]
    exact ⟨fun _ => hvalue nofun, fun _ => fieldCopies_of_zero hzero⟩
  · have hnz : m.getNonExtensionField f ≠ .zero := by rw [hval]; nofun
    have hcopy : FieldCopies S t m f := by
      refine ⟨none, ?_, nofun⟩
      rw [copyField_of_ne_zero hnz, hmode, if_neg (by decide)]
      obtain ⟨hmessage, hstring, hbytes⟩ := htype
      split
      next h => exact absurd h hmessage
      next h => exact absurd h hstring
      next h => exact absurd h hbytes
      next => rfl
    rw [hval]
    exact ⟨fun _ => hvalue nofun, fun _ => hcopy⟩
  · have hnz : m.getNonExtensionField f ≠ .zero := by rw [hval]; nofun
    have hcopy : copyField S t m f = some (some (m.getNonExtensionField f)) := by
      rw [copyField_of_ne_zero hnz, hmode, if_neg (by decide)]
      obtain htype | htype := htype <;> rw [htype]
    have hequal : FieldCopies S t m f := by
      refine ⟨_, hcopy, fun s hs => ?_⟩
      obtain rfl := Option.some.inj hs
      rw [getNonExtensionField_eq_data hnz]
      exact .refl _
    rw [hval]
    exact ⟨fun _ => hvalue nofun, fun _ => hequal⟩
  · have hnz : m.getNonExtensionField f ≠ .zero := by rw [hval]; nofun
    have hcopy : copyField S t m f = (cloneMessageValue S f.cType (some ((S.table t).sub f).tableRef)
        (m.getNonExtensionField f)).map some := by
      rw [copyField_of_ne_zero hnz, hmode, if_neg (by decide), htype, (hS.sub hf htype).2]
      rfl
    rw [fieldCopies_map_iff hcopy, ← getNonExtensionField_eq_data hnz, hval]
    -- as a value elsewhere: a message is copied in the same way
    have hfits' : Fits .ext f (.msg isEmpty m') := by
      unfold Fits
      rw [htype]
      exact .inl ⟨isEmpty, m', rfl⟩
    rw [cloneMessageValue_equal_iff hfits' (by decide) (.inr (by decide)) fun _ => rfl]
    exact ⟨fun h => ⟨absurd rfl, absurd rfl, fun h => (nomatch h), h.msg⟩,
      fun h => ⟨fun _ _ h => (nomatch h), fun _ h => (nomatch h), fun h => (nomatch h), h.msg⟩⟩

/-- An array is copied if its elements are. -/
theorem fieldCopies_array (hS : Linked S) (hm : WellFormed S t m) (hf : f ∈ (S.table t).fields)
    (hmode : f.isRepeatedOrMap = true) (hmap : f.fieldMode ≠ FieldMode.map) :
    FieldCopies S t m f ↔ ∀ x ∈ (m.getNonExtensionField f).elems,
      ValueCopies (S := S) .elem f ((S.table t).sub f) x := by
  obtain hzero | ⟨xs, hxs⟩ := hm.array f hf hmode hmap
  · rw [hzero]
    exact ⟨fun _ => List.forall_mem_nil _, fun _ => fieldCopies_of_zero hzero⟩
  · have hnz : m.getNonExtensionField f ≠ .zero := by rw [hxs]; nofun
    have hsub : ∃ table, elemSub (S.table t) f = some table ∧
        (f.cType = .message → table = some ((S.table t).sub f).tableRef) := by
      unfold elemSub
      by_cases htype : f.cType = .message
      · obtain ⟨hidx, hsub⟩ := hS.sub hf htype
        exact ⟨_, by rw [if_pos ⟨htype, hidx⟩, hsub], fun _ => rfl⟩
      · exact ⟨none, by rw [if_neg fun h => htype h.1], fun h => absurd h htype⟩
    obtain ⟨table, htable, hmsg⟩ := hsub
    have hcopy : copyField S t m f =
        (arrayDeepClone S f.cType table (m.getNonExtensionField f)).map some := by
      rw [copyField_of_ne_zero hnz, if_pos hmode, if_neg hmap, htable]
      rfl
    have hfits : ∀ x ∈ xs, Fits .elem f x := fun x hx => by
      refine hm.value _ _ _ _ (.elem hf hmode hmap ?_)
      rw [hxs]
      exact hx
    rw [fieldCopies_map_iff hcopy, ← getNonExtensionField_eq_data hnz, hxs, arrayDeepClone_equal_iff]
    constructor
    · rintro ⟨_, heq, h⟩
      cases heq
      exact (elems_copied_iff hfits hmsg).mp h
    · intro h
      exact ⟨xs, rfl, (elems_copied_iff hfits hmsg).mpr h⟩

/-- The table of a map's values is found unless they are of a closed enum. -/
theorem Linked.valueSub (hS : Linked S) {value : MiniTableField} (hf : value ∈ (S.table t).fields) :
    value.isClosedEnum = true ∧ valueSub (S.table t) value = none ∨
      value.isClosedEnum = false ∧ ∃ table, valueSub (S.table t) value = some table ∧
        (value.cType = .message → table = some ((S.table t).sub value).tableRef) := by
  unfold Copy.valueSub
  cases hclosed : value.isClosedEnum with
  | true =>
    have htype : value.cType ≠ .message := by
      have henum := (MiniTableField.cType_enum_iff value).mpr (.inl hclosed)
      rw [henum]
      decide
    refine .inl ⟨rfl, ?_⟩
    rw [if_pos (hS.closed t value hf hclosed), MiniTable.subMessageTable, if_neg htype]
  | false =>
    refine .inr ⟨rfl, ?_⟩
    by_cases htype : value.cType = .message
    · obtain ⟨hidx, hsub⟩ := hS.sub hf htype
      exact ⟨_, by rw [if_pos hidx, hsub], fun _ => rfl⟩
    · refine ⟨none, ?_, fun h => absurd h htype⟩
      rw [if_neg]
      intro hidx
      obtain hsub | henum := hS.subenum t value hf hidx
      · exact htype ((MiniTableField.cType_message_iff value).mpr hsub)
      · rw [hclosed] at henum
        exact nomatch henum

/-- A map is copied if its values are. -/
theorem fieldCopies_map (hS : Linked S) (hm : WellFormed S t m) (hf : f ∈ (S.table t).fields)
    (hmap : f.fieldMode = FieldMode.map) {key value : MiniTableField} {rest : List MiniTableField}
    (hentry : (S.table ((S.table t).sub f).tableRef).fields = key :: value :: rest) :
    FieldCopies S t m f ↔ ∀ k x, (k, x) ∈ (m.getNonExtensionField f).entries →
      ValueCopies (S := S) .value value ((S.table ((S.table t).sub f).tableRef).sub value) x := by
  obtain hzero | ⟨es, hes, hnd⟩ := hm.map f hf hmap
  · rw [hzero]
    exact ⟨fun _ _ _ h => (nomatch h), fun _ => fieldCopies_of_zero hzero⟩
  · have hnz : m.getNonExtensionField f ≠ .zero := by rw [hes]; nofun
    have hcopy : copyField S t m f = (mapDeepClone S (S.table ((S.table t).sub f).tableRef)
        (m.getNonExtensionField f)).map some := by
      rw [copyField_of_ne_zero hnz, if_pos (hS.entry t f hf hmap).1, if_pos hmap]
    have hmem : value ∈ (S.table ((S.table t).sub f).tableRef).fields := by
      rw [hentry]
      simp
    rw [fieldCopies_map_iff hcopy, ← getNonExtensionField_eq_data hnz, hes]
    have hclone : (∃ s, mapDeepClone S (S.table ((S.table t).sub f).tableRef) (.map es) = some s ∧
        Slot.Equal (.map es) s) ↔
        ∃ es', cloneEntries S (S.table ((S.table t).sub f).tableRef) es [] = some es' ∧
          Slot.Equal (.map es) (.map es') := by
      rw [mapDeepClone]
      constructor
      · rintro ⟨s, hs, heq⟩
        obtain ⟨es', hes', rfl⟩ := Option.map_eq_some_iff.mp hs
        exact ⟨es', hes', heq⟩
      · rintro ⟨es', hes', heq⟩
        exact ⟨_, by rw [hes', Option.map_some], heq⟩
    rw [hclone, cloneEntries_equal_iff hentry hnd]
    refine forall₃_congr fun k x hx => ?_
    have hx' : (k, x) ∈ (m.getNonExtensionField f).entries := by
      rw [hes]
      exact hx
    have hfits : Fits .value value x := hm.value _ _ _ _ (.value hf hmap hentry hx')
    unfold copyValue
    obtain ⟨hclosed, hnone⟩ | ⟨hclosed, table, htable, hmsg⟩ := hS.valueSub hmem
    · rw [hnone]
      refine ⟨fun ⟨_, h, _⟩ => (nomatch h), fun h => ?_⟩
      have := h.closedEnum rfl
      rw [hclosed] at this
      exact nomatch this
    · rw [htable, Option.bind_some]
      exact cloneMessageValue_equal_iff hfits (by decide) (.inl hclosed) hmsg

/-! ### Messages -/

/-- What one copied field does not change. -/
theorem setPresence_eq (hm : WellFormed S t m) (hf : f ∈ (S.table t).fields)
    (hnz : m.getNonExtensionField f ≠ .zero) {dst : Message} (hhas : dst.hasbits = m.hasbits)
    (hcase : dst.oneofCase = m.oneofCase) : dst.setPresence f = dst := by
  have hdata := getNonExtensionField_eq_data hnz
  unfold Message.setPresence
  split
  next hpos =>
    have hset : m.hasbits f.presence.toNat = true := by
      refine Bool.not_eq_false _ ▸ fun hunset => hnz ?_
      rw [hdata, hm.hasbit f hf hpos hunset]
    unfold Message.setHas
    rw [Function.update_eq_self_iff.mpr (by rw [hhas, hset])]
  next hpos =>
    split
    next hneg =>
      have hset : m.oneofCase (-f.presence - 1).toNat = f.number := by
        refine Decidable.byContradiction fun hother => hnz ?_
        rw [Message.getNonExtensionField, if_pos ⟨hneg, hother⟩]
      unfold Message.setOneofCase
      rw [Function.update_eq_self_iff.mpr (by rw [hcase, hset])]
    next => rfl

theorem copyField_some_ne_zero {s : Slot} (h : copyField S t m f = some (some s)) :
    m.getNonExtensionField f ≠ .zero := by
  intro hzero
  rw [copyField_of_zero hzero] at h
  exact nomatch h

/-- The clone after the fields of a list: at each offset it has the memory of the source or a copy that was
set there. -/
structure FieldsCopied (S : Schema) (t : TableRef) (m : Message) (fields : List MiniTableField)
    (old : Nat → Slot) (dst' : Message) : Prop where
  hasbits : dst'.hasbits = m.hasbits
  oneofCase : dst'.oneofCase = m.oneofCase
  unknown : dst'.unknown = []
  exts : dst'.exts = []
  copied : ∀ f ∈ fields, ∃ copy, copyField S t m f = some copy
  data : ∀ offset, (dst'.data offset = old offset ∧
      ∀ f ∈ fields, f.offset = offset → copyField S t m f = some none) ∨
    ∃ f ∈ fields, f.offset = offset ∧ copyField S t m f = some (some (dst'.data offset))

theorem foldlM_copyField (hm : WellFormed S t m) {fields : List MiniTableField}
    (hfields : ∀ f ∈ fields, f ∈ (S.table t).fields) {dst dst' : Message} (hhas : dst.hasbits = m.hasbits)
    (hcase : dst.oneofCase = m.oneofCase) (hunknown : dst.unknown = []) (hexts : dst.exts = [])
    (h : fields.foldlM (fun dst f => (copyField S t m f).map (setField f dst)) dst = some dst') :
    FieldsCopied S t m fields dst.data dst' := by
  induction fields generalizing dst with
  | nil =>
    obtain rfl := Option.some.inj h
    exact ⟨hhas, hcase, hunknown, hexts, List.forall_mem_nil _,
      fun _ => .inl ⟨rfl, List.forall_mem_nil _⟩⟩
  | cons f fields ih =>
    rw [List.foldlM_cons] at h
    obtain ⟨next, hnext, h⟩ := Option.bind_eq_some_iff.mp h
    obtain ⟨copy, hcopy, rfl⟩ := Option.map_eq_some_iff.mp hnext
    obtain ⟨hf, hrest⟩ := List.forall_mem_cons.mp hfields
    cases copy with
    | none =>
      obtain ⟨h1, h2, h3, h4, hsome, hdata⟩ := ih hrest hhas hcase hunknown hexts h
      refine ⟨h1, h2, h3, h4, List.forall_mem_cons.mpr ⟨⟨none, hcopy⟩, hsome⟩, fun offset => ?_⟩
      obtain ⟨hsame, hnone⟩ | ⟨g, hg, hoff, hset⟩ := hdata offset
      · exact .inl ⟨hsame, List.forall_mem_cons.mpr ⟨fun _ => hcopy, hnone⟩⟩
      · exact .inr ⟨g, List.mem_cons_of_mem _ hg, hoff, hset⟩
    | some s =>
      have hpres := setPresence_eq hm hf (copyField_some_ne_zero hcopy) hhas hcase
      have hset : setField f dst (some s) = dst.setData f.offset s := by
        change (dst.setPresence f).setData f.offset s = _
        rw [hpres]
      rw [hset] at h
      have hhas' : (dst.setData f.offset s).hasbits = m.hasbits := hhas
      obtain ⟨h1, h2, h3, h4, hsome, hdata⟩ := ih hrest hhas' hcase hunknown hexts h
      refine ⟨h1, h2, h3, h4, List.forall_mem_cons.mpr ⟨⟨some s, hcopy⟩, hsome⟩, fun offset => ?_⟩
      obtain ⟨hsame, hnone⟩ | ⟨g, hg, hoff, hset⟩ := hdata offset
      · by_cases hoff : f.offset = offset
        · refine .inr ⟨f, List.mem_cons_self, hoff, ?_⟩
          have hself : (dst.setData f.offset s).data f.offset = s := Function.update_self _ _ _
          rw [hcopy, hsame, ← hoff, hself]
        · refine .inl ⟨?_, List.forall_mem_cons.mpr ⟨fun h => absurd h hoff, hnone⟩⟩
          rw [hsame]
          exact Function.update_of_ne (Ne.symm hoff) _ _
      · exact .inr ⟨g, List.mem_cons_of_mem _ hg, hoff, hset⟩

theorem fieldsCopied_of_foldlM (hm : WellFormed S t m) {dst : Message}
    (h : (S.table t).fields.foldlM (fun dst f => (copyField S t m f).map (setField f dst))
      ⟨m.hasbits, m.oneofCase, m.data, [], []⟩ = some dst) :
    FieldsCopied S t m (S.table t).fields m.data dst :=
  @foldlM_copyField S t m hm _ (fun _ hf => hf) ⟨m.hasbits, m.oneofCase, m.data, [], []⟩ dst rfl rfl rfl rfl h

theorem exists_foldlM_copyField {fields : List MiniTableField}
    (h : ∀ f ∈ fields, ∃ copy, copyField S t m f = some copy) (dst : Message) :
    ∃ dst', fields.foldlM (fun dst f => (copyField S t m f).map (setField f dst)) dst = some dst' := by
  induction fields generalizing dst with
  | nil => exact ⟨dst, rfl⟩
  | cons f fields ih =>
    obtain ⟨⟨copy, hcopy⟩, hrest⟩ := List.forall_mem_cons.mp h
    rw [List.foldlM_cons, hcopy]
    exact ih hrest _

/-- Two fields that are both set do not share their place. -/
theorem Linked.eq_of_offset (hS : Linked S) {g : MiniTableField} (hf : f ∈ (S.table t).fields)
    (hg : g ∈ (S.table t).fields) (hoff : f.offset = g.offset) (hfnz : m.getNonExtensionField f ≠ .zero)
    (hgnz : m.getNonExtensionField g ≠ .zero) : f = g := by
  by_contra hne
  obtain ⟨hneg, hpres, hnumber⟩ := hS.offset t f hf g hg hne hoff
  have hcase : ∀ h : MiniTableField, h.presence < 0 → m.getNonExtensionField h ≠ .zero →
      m.oneofCase (-h.presence - 1).toNat = h.number := by
    intro h hneg hnz
    by_contra hother
    exact hnz (if_pos ⟨hneg, hother⟩)
  have hgcase := hcase g (by omega) hgnz
  rw [hpres, hcase f hneg hfnz] at hgcase
  exact hnumber hgcase.symm

/-- The data of the clone after all fields is equal to that of the source if and only if every field is
copied. -/
theorem FieldsCopied.equal_iff (hS : Linked S) {dst : Message}
    (h : FieldsCopied S t m (S.table t).fields m.data dst) :
    (∀ offset, Slot.Equal (m.data offset) (dst.data offset)) ↔
      ∀ f ∈ (S.table t).fields, FieldCopies S t m f := by
  constructor
  · intro hequal f hf
    obtain ⟨copy, hcopy⟩ := h.copied f hf
    refine ⟨copy, hcopy, fun s hs => ?_⟩
    subst hs
    obtain ⟨-, hnone⟩ | ⟨g, hg, hoff, hset⟩ := h.data f.offset
    · rw [hnone f hf rfl] at hcopy
      exact nomatch hcopy
    · obtain rfl := hS.eq_of_offset hg hf hoff (copyField_some_ne_zero hset) (copyField_some_ne_zero hcopy)
      rw [hset] at hcopy
      obtain rfl := Option.some.inj (Option.some.inj hcopy)
      exact hequal g.offset
  · intro hfields offset
    obtain ⟨hsame, -⟩ | ⟨f, hf, rfl, hset⟩ := h.data offset
    · rw [hsame]
      exact .refl _
    · obtain ⟨copy, hcopy, hequal⟩ := hfields f hf
      rw [hset] at hcopy
      exact hequal _ (Option.some.inj hcopy).symm

/-- **One message** has a clone that is equal to it if and only if its fields and extensions are copied. -/
theorem copies_iff_parts (hS : Linked S) (hm : WellFormed S t m) :
    Copies S t m ↔ (∀ f ∈ (S.table t).fields, FieldCopies S t m f) ∧
      ∀ id s, (id, s) ∈ m.exts → ExtCopies S id s := by
  have hexts : (∃ copies, Revalued (copyExtension S) m.exts copies ∧
      (m.exts.map Prod.fst).Perm (copies.reverse.map Prod.fst) ∧
      ∀ id s s', m.exts.lookup id = some s → copies.reverse.lookup id = some s' → Slot.Equal s s') ↔
      ∀ id s, (id, s) ∈ m.exts → ExtCopies S id s :=
    revalued_related_iff (fun l => List.reverse_perm l) hm.ids
  have hunknown : ∀ dst : Message, dst.unknown = [] →
      (if m.unknown = [] then dst else dst.addUnknown m.unknown) = { dst with unknown := m.unknown } := by
    intro dst hdst
    split
    next hnil => rw [hnil, ← hdst]
    next => rw [Message.addUnknown, hdst, List.nil_append]
  have hnd : (([] ++ m.exts).map Prod.fst).Nodup := hm.ids
  unfold Copies
  rw [deepClone_eq, ← hexts]
  constructor
  · rintro ⟨m', hclone, hequal⟩
    obtain ⟨dst, hfold, hclone⟩ := Option.bind_eq_some_iff.mp hclone
    obtain ⟨dst', hext, hclone⟩ := Option.bind_eq_some_iff.mp hclone
    have hfields := fieldsCopied_of_foldlM hm hfold
    rw [← hfields.exts] at hnd
    obtain ⟨copies, hcopies, rfl⟩ := (cloneExtensions_eq_some_iff hnd).mp hext
    rw [hunknown { dst with exts := copies.reverse ++ dst.exts } hfields.unknown] at hclone
    obtain rfl := Option.some.inj hclone
    cases hequal with
    | intro _ _ hdata _ hids hexts =>
      rw [hfields.exts, List.append_nil] at hids hexts
      exact ⟨(hfields.equal_iff hS).mp hdata, copies, hcopies, hids, hexts⟩
  · rintro ⟨hall, copies, hcopies, hids, hexts⟩
    have hsome : ∀ f ∈ (S.table t).fields, ∃ copy, copyField S t m f = some copy := fun f hf =>
      (hall f hf).imp fun _ h => h.1
    obtain ⟨dst, hfold⟩ := exists_foldlM_copyField hsome ⟨m.hasbits, m.oneofCase, m.data, [], []⟩
    have hfields := fieldsCopied_of_foldlM hm hfold
    rw [← hfields.exts] at hnd
    have hext := (cloneExtensions_eq_some_iff hnd).mpr ⟨copies, hcopies, rfl⟩
    refine ⟨_, Option.bind_eq_some_iff.mpr ⟨dst, hfold, Option.bind_eq_some_iff.mpr ⟨_, hext, rfl⟩⟩, ?_⟩
    rw [hunknown { dst with exts := copies.reverse ++ dst.exts } hfields.unknown]
    refine .intro hfields.hasbits hfields.oneofCase ((hfields.equal_iff hS).mpr hall) rfl ?_ ?_
    · rw [hfields.exts, List.append_nil]
      exact hids
    · rw [hfields.exts, List.append_nil]
      exact hexts

theorem HasValue.ext_mem {sub : MiniTableSub} {x : Slot} (h : HasValue S t m .ext f sub x) :
    ∃ id, (id, x) ∈ m.exts ∧ f = (S.exts id).field := by
  cases h with
  | ext hmem hmode => exact ⟨_, hmem, rfl⟩

/-- **One message** has a clone that is equal to it if and only if it can be copied and the messages in it
have such clones. -/
theorem copies_iff_children (hS : Linked S) (hm : WellFormed S t m) :
    Copies S t m ↔ Clonable S t m ∧ ∀ b, Child S (t, m) b → Copies S b.1 b.2 := by
  -- all values of the message, each where it stands
  have hvalues : Copies S t m ↔
      (∀ place f sub x, HasValue S t m place f sub x → ValueCopies (S := S) place f sub x) ∧
        ∀ id, (id, Slot.zero) ∈ m.exts → (S.exts id).field.isRepeatedOrMap = false := by
    rw [copies_iff_parts hS hm]
    constructor
    · rintro ⟨hfields, hexts⟩
      refine ⟨fun place f sub x h => ?_, fun id hmem => ?_⟩
      · cases h with
        | field hf hmode => exact (fieldCopies_scalar hS hm hf hmode).mp (hfields _ hf)
        | elem hf hmode hmap hx => exact (fieldCopies_array hS hm hf hmode hmap).mp (hfields _ hf) _ hx
        | value hf hmap hentry hx => exact (fieldCopies_map hS hm hf hmap hentry).mp (hfields _ hf) _ _ hx
        | ext hmem hmode => exact (extCopies_scalar hS hm hmem hmode).mp (hexts _ _ hmem)
        | extElem hmem hmode hx => exact ((extCopies_array hS hm hmem hmode).mp (hexts _ _ hmem)).2 _ hx
      · by_contra hmode
        rw [Bool.not_eq_false] at hmode
        exact ((extCopies_array hS hm hmem hmode).mp (hexts _ _ hmem)).1 rfl
    · rintro ⟨hall, hzero⟩
      refine ⟨fun f hf => ?_, fun id s hmem => ?_⟩
      · cases hmode : f.isRepeatedOrMap with
        | false => exact (fieldCopies_scalar hS hm hf hmode).mpr (hall _ _ _ _ (.field hf hmode))
        | true =>
          by_cases hmap : f.fieldMode = FieldMode.map
          · obtain ⟨-, key, value, rest, hentry⟩ := hS.entry t f hf hmap
            exact (fieldCopies_map hS hm hf hmap hentry).mpr fun k x hx =>
              hall _ _ _ _ (.value hf hmap hentry hx)
          · exact (fieldCopies_array hS hm hf hmode hmap).mpr fun x hx =>
              hall _ _ _ _ (.elem hf hmode hmap hx)
      · cases hmode : (S.exts id).field.isRepeatedOrMap with
        | false => exact (extCopies_scalar hS hm hmem hmode).mpr (hall _ _ _ _ (.ext hmem hmode))
        | true =>
          refine (extCopies_array hS hm hmem hmode).mpr ⟨fun hs => ?_, fun x hx => ?_⟩
          · have := hzero id (hs ▸ hmem)
            rw [hmode] at this
            exact nomatch this
          · exact hall _ _ _ _ (.extElem hmem hmode hx)
  rw [hvalues]
  constructor
  · rintro ⟨hall, hzero⟩
    refine ⟨⟨fun f sub x h => (hall _ _ _ _ h).closedEnum rfl,
      fun place f sub bytes h hplace => (hall _ _ _ _ h).string hplace bytes rfl,
      fun id hmem => ⟨hzero id hmem, ?_⟩⟩, ?_⟩
    · exact (hall _ _ _ _ (.ext hmem (hzero id hmem))).null (by decide) rfl
    · rintro ⟨t', m'⟩ ⟨place, f, sub, isEmpty, h, ht⟩
      obtain rfl : t' = _ := ht
      exact (hall _ _ _ _ h).msg isEmpty m' rfl
  · rintro ⟨⟨hclosed, hstring, hext⟩, hchildren⟩
    refine ⟨fun place f sub x h => ⟨fun hplace bytes hx => ?_, fun hplace hx htype => ?_, fun hplace => ?_,
      fun isEmpty m' hx => ?_⟩, fun id hmem => (hext id hmem).1⟩
    · subst hx
      exact hstring _ _ _ _ h hplace
    · subst hx
      have hfits := hm.value _ _ _ _ h
      unfold Fits at hfits
      rw [htype] at hfits
      obtain ⟨isEmpty, m', habs⟩ | ⟨-, hfield | hplace'⟩ := hfits
      · exact nomatch habs
      · exact hplace hfield
      · subst hplace'
        obtain ⟨id, hmem, rfl⟩ := h.ext_mem
        exact (hext id hmem).2 htype
    · subst hplace
      exact hclosed _ _ _ h
    · subst hx
      exact hchildren (subTable sub isEmpty, m') ⟨place, f, sub, isEmpty, h, rfl⟩

/-- A message that is a value is nested. -/
theorem HasValue.nested {place : Place} {sub : MiniTableSub} {x : Slot} {isEmpty : Bool} {m' : Message}
    (h : HasValue S t m place f sub x) (hx : x = .msg isEmpty m') : m.Nested m' := by
  have hslot : ∀ f : MiniTableField, (m.getNonExtensionField f).Nested m' → m.Nested m' := by
    intro f hnested
    refine .inl ⟨f.offset, ?_⟩
    rwa [← getNonExtensionField_eq_data]
    intro hzero
    rw [hzero] at hnested
    cases hnested
  cases h with
  | @field f hf hmode =>
    refine hslot f ?_
    rw [hx]
    exact .msg isEmpty m'
  | @elem f hf hmode hmap _ hmem =>
    refine hslot f ?_
    cases hs : m.getNonExtensionField f with
    | arr xs =>
      rw [hs] at hmem
      exact .elem (hx ▸ hmem)
    | _ =>
      rw [hs] at hmem
      cases hmem
  | @value f hf hmap _ _ _ hentry k _ hmem =>
    refine hslot f ?_
    cases hs : m.getNonExtensionField f with
    | map es =>
      rw [hs] at hmem
      exact .value (hx ▸ hmem)
    | _ =>
      rw [hs] at hmem
      cases hmem
  | ext hmem hmode =>
    subst hx
    exact .inr ⟨_, hmem, .msg isEmpty m'⟩
  | @extElem id s _ hmem hmode hmem' =>
    refine .inr ⟨_, hmem, ?_⟩
    cases s with
    | arr xs => exact .elem (hx ▸ hmem')
    | _ => cases hmem'

theorem Child.nested {b : TableRef × Message} (h : Child S (t, m) b) : m.Nested b.2 := by
  obtain ⟨place, f, sub, isEmpty, h, -⟩ := h
  exact h.nested rfl

/-- `message { map<int32, E> m = 1; }` for a closed enum. -/
def enumMapTable : MiniTable where
  subs := [.submsg 1]
  fields := [⟨1, 0, 0, 0, .message, FieldMode.map ||| 192⟩]
  size := 8
  fieldCount := 1
  ext := ExtMode.nonExtendable
  denseBelow := 1
  tableMask := 255
  requiredCount := 0

/-- The entries of the map. -/
def enumEntryTable : MiniTable where
  subs := [.subenum 0]
  fields := [⟨1, 0, 0, noSub, .int32, FieldMode.scalar ||| 64⟩, ⟨2, 16, 0, 0, .enum, FieldMode.scalar ||| 64⟩]
  size := 32
  fieldCount := 2
  ext := ExtMode.isMapEntry
  denseBelow := 2
  tableMask := 255
  requiredCount := 0

def enumMapSchema : Schema where
  tables := fun id => if id = 0 then enumMapTable else enumEntryTable
  enums := fun _ => ⟨0, 0, []⟩
  exts := fun _ => ⟨⟨9, 0, 0, noSub, .int32, FieldMode.scalar ||| LabelFlags.isExtension⟩, .empty, .emptyMessage⟩
  fieldCount_eq := fun id => by
    by_cases h : id = 0
    · rw [if_pos h]
      rfl
    · rw [if_neg h]
      rfl
  searchable := fun id => by
    by_cases h : id = 0
    · rw [if_pos h]
      refine ⟨List.pairwise_singleton _ _, fun i hi => ?_⟩
      obtain rfl : i = 0 := Nat.lt_one_iff.mp hi
      exact ⟨_, rfl, rfl⟩
    · rw [if_neg h]
      refine ⟨by decide, fun i hi => ?_⟩
      obtain rfl | rfl : i = 0 ∨ i = 1 := by
        change i < 2 at hi
        omega
      · exact ⟨_, rfl, rfl⟩
      · exact ⟨_, rfl, rfl⟩

theorem enumMapSchema_table (t : TableRef) : enumMapSchema.table t = .empty ∨
    enumMapSchema.table t = enumMapTable ∨ enumMapSchema.table t = enumEntryTable := by
  cases t with
  | empty => exact .inl rfl
  | table id =>
    by_cases h : id = 0
    · exact .inr (.inl (if_pos h))
    · exact .inr (.inr (if_neg h))

theorem enumMapSchema_linked : Linked enumMapSchema where
  offset t := by obtain h | h | h := enumMapSchema_table t <;> rw [h] <;> decide
  submsg t := by
    obtain h | h | h := enumMapSchema_table t <;> rw [h]
    · exact fun f hf => nomatch hf
    · intro f hf _
      obtain rfl := List.mem_singleton.mp hf
      exact ⟨by decide, 1, rfl⟩
    · have hno : ∀ f ∈ enumEntryTable.fields, f.isSubMessage = false := by decide
      exact fun f hf hsub => nomatch (hno f hf).symm.trans hsub
  subenum t := by obtain h | h | h := enumMapSchema_table t <;> rw [h] <;> decide
  closed t := by obtain h | h | h := enumMapSchema_table t <;> rw [h] <;> decide
  entry t := by
    obtain h | h | h := enumMapSchema_table t <;> rw [h]
    · exact fun f hf => nomatch hf
    · intro f hf _
      obtain rfl := List.mem_singleton.mp hf
      exact ⟨by decide, _, _, _, rfl⟩
    · have hno : ∀ f ∈ enumEntryTable.fields, f.fieldMode ≠ FieldMode.map := by decide
      exact fun f hf hmode => absurd hmode (hno f hf)
  extension id h := nomatch h

/-- A message with the entries of the map, and unknown bytes. -/
def enumMapMessage (entries : List (MapKey × Slot)) : Message :=
  { Message.new with data := fun _ => .map entries, unknown := [16, 1] }

section

variable {es : List (MapKey × Slot)}

theorem enumMapMessage_value {place : Place} {sub : MiniTableSub} {x : Slot}
    (h : HasValue enumMapSchema (.table 0) (enumMapMessage es) place f sub x) :
    place = .value ∧ f = ⟨2, 16, 0, 0, .enum, FieldMode.scalar ||| 64⟩ ∧ ∃ k, (k, x) ∈ es := by
  cases h with
  | field hf hmode =>
    obtain rfl := List.mem_singleton.mp hf
    exact absurd hmode (by decide)
  | elem hf hmode hmap hx =>
    obtain rfl := List.mem_singleton.mp hf
    exact absurd rfl hmap
  | value hf hmap hentry hx =>
    obtain rfl := List.mem_singleton.mp hf
    change enumEntryTable.fields = _ at hentry
    rw [enumEntryTable, List.cons.injEq, List.cons.injEq] at hentry
    exact ⟨rfl, hentry.2.1.symm, _, hx⟩
  | ext hmem hmode => exact nomatch hmem
  | extElem hmem hmode hx => exact nomatch hmem

variable (hes : ∀ k x, (k, x) ∈ es → ∃ val, x = .scalar val) (hnd : (es.map Prod.fst).Nodup)
include hes

theorem enumMapMessage_tree {b : TableRef × Message}
    (h : Tree enumMapSchema (.table 0, enumMapMessage es) b) : b = (.table 0, enumMapMessage es) := by
  obtain rfl | ⟨c, ⟨place, f, sub, isEmpty, hc, -⟩, -⟩ := Relation.ReflTransGen.cases_head h
  · rfl
  · obtain ⟨-, -, k, hk⟩ := enumMapMessage_value hc
    obtain ⟨val, hval⟩ := hes k _ hk
    exact nomatch hval

include hnd

theorem enumMapMessage_wellFormed (b : TableRef × Message)
    (hb : Tree enumMapSchema (.table 0, enumMapMessage es) b) : WellFormed enumMapSchema b.1 b.2 := by
  rw [enumMapMessage_tree hes hb]
  refine ⟨fun place f sub x h => ?_, fun f hf _ hmap => ?_, fun f hf _ => ?_, fun _ _ h => (nomatch h),
    List.nodup_nil, fun f hf hpos => ?_⟩
  · obtain ⟨-, rfl, k, hk⟩ := enumMapMessage_value h
    exact .inr (hes k x hk)
  · obtain rfl := List.mem_singleton.mp hf
    exact absurd rfl hmap
  · obtain rfl := List.mem_singleton.mp hf
    exact .inr ⟨es, rfl, hnd⟩
  · obtain rfl := List.mem_singleton.mp hf
    exact absurd hpos (by decide)

end

end Hpb.Copy
