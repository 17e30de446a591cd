import Mathlib.Logic.Relation
import Hpb.Wire.DecodeUnknown

/-!
# Fields with an unexpected wire type

The fields of a message that its table does not have, and those that come with a wire type that their
type and cardinality do not admit, are kept as unknown fields.

* `findField_eq_findFieldByNumber`: the parser's search for a field is that of the table.
* `knownField`, `Admits`: what a table says of a number and a wire type.
* `Decoder.Step`, `Decoder.Steps`: the loop of the parser, field by field.
* `decode_keeps_unexpected`: what the parser does with such a field.
-/

namespace Hpb

open Metered

/-- The wire type of a field that is not packed. -/
def FieldType.wireType : FieldType → WireType
  | double | fixed64 | sfixed64 => .fixed64
  | float | fixed32 | sfixed32 => .fixed32
  | string | message | bytes => .delimited
  | group => .startGroup
  | int64 | uint64 | int32 | bool | uint32 | enum | sint32 | sint64 => .varint

/-- A field may come with its own wire type, and packed if it is a repeated scalar. -/
def MiniTableField.Admits (f : MiniTableField) (w : WireType) : Prop :=
  w = f.descriptortype.wireType ∨
    (f.fieldMode = FieldMode.array ∧ f.descriptortype.isPackable ∧ w = .delimited)

/-- The field with a number: one of the table, an extension, the items of a message set or none. -/
def knownField (env : DecodeEnv) (table : TableRef) (number : Nat) : FoundField :=
  match (env.schema.table table).fields.find? fun f => f.number == number with
  | some f => .field f
  | none => Decoder.findExtension env table number

/-- The field is known and may come with the wire type. -/
def Admits (env : DecodeEnv) (found : FoundField) (w : WireType) : Prop :=
  match found with
  | .none => False
  | .messageSetItem => w = .startGroup
  | .field f => f.Admits w
  | .extension id => (env.schema.exts id).field.Admits w

/-- A repeated group field whose messages are parsed. -/
def ParsedGroup (env : DecodeEnv) (opts : DecodeOptions) (table : TableRef) (found : FoundField) : Prop :=
  match found with
  | .field f => f.fieldMode = FieldMode.array ∧ f.descriptortype = .group ∧
      (opts.allowUnlinked ∨ ((env.schema.table table).sub f).tableRef ≠ .empty)
  | .extension id => (env.schema.exts id).field.fieldMode = FieldMode.array ∧
      (env.schema.exts id).field.descriptortype = .group
  | _ => False

namespace Decoder

section Find

variable {fields : List MiniTableField} {number i : Nat}

theorem hasNumber_iff : hasNumber fields number i = true ↔
    ∃ f, fields[i]? = some f ∧ f.number = number := by
  unfold hasNumber
  split
  next f hf => simp [hf]
  next hf => simp [hf]

/-- What is found has the number. -/
theorem fieldIndex_number {t : MiniTable} (h : MiniTable.Searchable t.fields t.denseBelow) {last : Nat}
    (hi : fieldIndex t number last = some i) : ∃ f, t.fields[i]? = some f ∧ f.number = number := by
  unfold fieldIndex at hi
  split at hi
  next hdense =>
    cases hi
    obtain ⟨f, hf, hnumber⟩ := h.dense _ hdense.2
    exact ⟨f, hf, by omega⟩
  next =>
    unfold searchFrom at hi
    split at hi
    · split at hi
      next j hj =>
        cases hi
        exact hasNumber_iff.mp (List.find?_some hj)
      next => exact hasNumber_iff.mp (List.find?_some hi)
    · exact nomatch hi

/-- A field that is there is found, wherever the search starts. -/
theorem fieldIndex_ne_none {t : MiniTable} (h : MiniTable.Searchable t.fields t.denseBelow)
    (hcount : t.fieldCount = t.fields.length) {f : MiniTableField} (hf : t.fields[i]? = some f)
    (last : Nat) : fieldIndex t f.number last ≠ none := by
  intro hnone
  unfold fieldIndex at hnone
  split at hnone
  next => exact nomatch hnone
  next hdense =>
    have hlt := (List.getElem?_eq_some_iff.mp hf).1
    -- the fields before `denseBelow` have the numbers that were just looked up
    have hpast : t.denseBelow ≤ i := by
      refine Nat.le_of_not_lt fun hlt' => hdense ?_
      obtain ⟨g, hg, hnumber⟩ := h.dense i hlt'
      rw [hf] at hg
      cases hg
      omega
    have hhas : hasNumber t.fields f.number i = true := hasNumber_iff.mpr ⟨f, hf, rfl⟩
    unfold searchFrom at hnone
    rw [if_pos (by omega)] at hnone
    split at hnone
    next => exact nomatch hnone
    next hfirst =>
      obtain hlast | hlast := Nat.lt_or_ge i last
      · refine absurd hhas (List.find?_eq_none.mp hnone i ?_)
        exact List.mem_range'_1.mpr (by omega)
      · refine absurd hhas (List.find?_eq_none.mp hfirst i ?_)
        exact List.mem_range'_1.mpr (by omega)

/-- **The search for a field does not depend on where it starts.** -/
theorem findField_fst (env : DecodeEnv) (table : TableRef) (number last : Nat) :
    (findField env (some table) number last).1 = knownField env table number := by
  have hs := env.schema.table_searchable table
  have hcount := env.schema.table_fieldCount table
  unfold findField knownField
  dsimp only
  cases hindex : fieldIndex (env.schema.table table) number last with
  | none =>
    have hnone : ((env.schema.table table).fields.find? fun f => f.number == number) = none := by
      refine List.find?_eq_none.mpr fun f hmem => ?_
      obtain ⟨j, hj, hget⟩ := List.getElem_of_mem hmem
      intro hnumber
      have hf : (env.schema.table table).fields[j]? = some f := List.getElem?_eq_some_iff.mpr ⟨hj, hget⟩
      have := fieldIndex_ne_none hs hcount hf last
      rw [eq_of_beq hnumber] at this
      exact this hindex
    rw [hnone]
  | some i =>
    obtain ⟨f, hf, hnumber⟩ := fieldIndex_number hs hindex
    simp only [hf]
    cases hfind : (env.schema.table table).fields.find? fun f => f.number == number with
    | none =>
      have := List.find?_eq_none.mp hfind f (List.mem_of_getElem? hf)
      exact absurd (beq_iff_eq.mpr hnumber) this
    | some g =>
      obtain ⟨j, hj, hget⟩ := List.getElem_of_mem (List.mem_of_find?_eq_some hfind)
      have hg : (env.schema.table table).fields[j]? = some g := List.getElem?_eq_some_iff.mpr ⟨hj, hget⟩
      have hbeq := List.find?_some hfind
      have hgn : g.number = number := eq_of_beq hbeq
      obtain hlt | rfl | hgt := Nat.lt_trichotomy i j
      · exact absurd (hs.number_lt hf hg hlt) (by omega)
      · rw [hf] at hg
        cases hg
        rfl
      · exact absurd (hs.number_lt hg hf hgt) (by omega)

/-- `last_field_index` after the numbers that were looked up in a message before. -/
def lastFieldIndex (env : DecodeEnv) (table : TableRef) (previous : List Nat) : Nat :=
  previous.foldl (fun last number => (findField env (some table) number last).2) 0

/-- **The parser finds a field as the table does**, at the same index, whatever was looked up before; and
for a number that the table does not have it goes on to the extensions. -/
theorem findField_eq_findFieldByNumber (env : DecodeEnv) (table : TableRef) (previous : List Nat)
    (number : Nat) :
    let t := env.schema.table table
    let last := lastFieldIndex env table previous
    (∀ (i : Nat) f, t.fields[i]? = some f → f.number = number →
      findField env (some table) number last = (.field f, i) ∧
        MiniTable.findFieldByNumber t.fields t.denseBelow t.fieldCount number = some i) ∧
      ((∀ f ∈ t.fields, f.number ≠ number) →
        findField env (some table) number last = (findExtension env table number, last) ∧
          MiniTable.findFieldByNumber t.fields t.denseBelow t.fieldCount number = none) := by
  intro t last
  have hs : MiniTable.Searchable t.fields t.denseBelow := env.schema.table_searchable table
  have hcount : t.fieldCount = t.fields.length := env.schema.table_fieldCount table
  constructor
  · rintro i f hf rfl
    rw [hcount]
    refine ⟨?_, MiniTable.findFieldByNumber_eq hs hf⟩
    cases hindex : fieldIndex t f.number last with
    | none => exact absurd hindex (fieldIndex_ne_none hs hcount hf last)
    | some j =>
      obtain ⟨g, hg, hnumber⟩ := fieldIndex_number hs hindex
      have hij : j = i := by
        obtain hlt | heq | hgt := Nat.lt_trichotomy j i
        · exact absurd (hs.number_lt hg hf hlt) (by omega)
        · exact heq
        · exact absurd (hs.number_lt hf hg hgt) (by omega)
      subst hij
      rw [findField]
      simp only [show fieldIndex (env.schema.table table) f.number last = some j from hindex,
        show (env.schema.table table).fields[j]? = some f from hf]
  · intro hnone
    have habsent : ∀ (i : Nat) f, t.fields[i]? = some f → f.number ≠ number := fun i f hf =>
      hnone f (List.mem_of_getElem? hf)
    constructor
    · cases hindex : fieldIndex t number last with
      | none =>
        rw [findField]
        simp only [show fieldIndex (env.schema.table table) number last = none from hindex]
      | some j =>
        obtain ⟨g, hg, hnumber⟩ := fieldIndex_number hs hindex
        exact absurd hnumber (habsent j g hg)
    · cases hfind : MiniTable.findFieldByNumber t.fields t.denseBelow t.fieldCount number with
      | none => rfl
      | some j =>
        obtain ⟨g, hg, hnumber⟩ := MiniTable.findFieldByNumber_some hs hfind
        exact absurd hnumber (habsent j g hg)

end Find

/-! ### The operation for a wire type -/

theorem varintOp_eq_unknown {t : FieldType} (h : WireType.varint ≠ t.wireType) :
    varintOp t = .unknownField := by
  cases t <;> first | rfl | exact absurd rfl h

theorem fixed32Ok_eq_false {t : FieldType} (h : WireType.fixed32 ≠ t.wireType) : fixed32Ok t = false := by
  cases t <;> first | rfl | exact absurd rfl h

theorem fixed64Ok_eq_false {t : FieldType} (h : WireType.fixed64 ≠ t.wireType) : fixed64Ok t = false := by
  cases t <;> first | rfl | exact absurd rfl h

theorem delimitedOp_eq_unknown {t : FieldType} (h : WireType.delimited ≠ t.wireType) :
    delimitedOp t = .unknownField := by
  cases t <;> first | rfl | exact absurd rfl h

/-- Only groups cannot come packed or delimited. -/
theorem eq_group_of_repeated {t : FieldType} (h : WireType.delimited ≠ t.wireType)
    (hpack : ¬t.isPackable) : t = .group := by
  cases t <;> first | rfl | exact absurd rfl h | exact absurd rfl hpack

theorem getDelimitedOp_of_not_admits {d : Decoder} {table : TableRef} {found : FoundField}
    (hin : ¬Admits d.env found .delimited) (hgroup : ¬ParsedGroup d.env d.opts table found) :
    d.getDelimitedOp (some table) found = .unknownField := by
  have hop : ∀ f : MiniTableField, ¬f.Admits .delimited →
      (f.fieldMode = FieldMode.array ∧ f.descriptortype = .group) ∨
        ¬f.fieldMode = FieldMode.array ∧ delimitedOp f.descriptortype = .unknownField := by
    intro f hf
    have hown : WireType.delimited ≠ f.descriptortype.wireType := fun h => hf (.inl h)
    by_cases harr : f.fieldMode = FieldMode.array
    · exact .inl ⟨harr, eq_group_of_repeated hown fun hpack => hf (.inr ⟨harr, hpack, rfl⟩)⟩
    · exact .inr ⟨harr, delimitedOp_eq_unknown hown⟩
  unfold getDelimitedOp
  cases found with
  | none => rfl
  | messageSetItem => rfl
  | field f =>
    obtain ⟨harr, htype⟩ | ⟨harr, hunknown⟩ := hop f hin
    · simp only [foundField, if_pos harr, htype, repeatedDelimitedOp]
      rw [if_pos trivial, checkUnlinked]
      rw [if_neg fun hlinked => hgroup ⟨harr, htype, hlinked⟩]
    · simp only [foundField, if_neg harr, hunknown]
      rfl
  | extension id =>
    obtain ⟨harr, htype⟩ | ⟨harr, hunknown⟩ := hop _ hin
    · exact absurd ⟨harr, htype⟩ hgroup
    · simp only [foundField, if_neg harr, hunknown]
      rfl

/-- A field that is not admitted is unknown, unless it is a repeated group that comes delimited. -/
theorem decodeWireValue_of_not_admits {d : Decoder} {table : TableRef} {found : FoundField}
    {w : WireType} (hin : ¬Admits d.env found w)
    (hgroup : ¬(w = .delimited ∧ ParsedGroup d.env d.opts table found)) (limit pos : Nat) :
    (d.decodeWireValue (some table) found (some w) limit pos).Ensures fun a => a.2.2 = .unknownField := by
  have hown : ∀ f, foundField d.env found = some f → w ≠ f.descriptortype.wireType := by
    intro f hf hw
    cases found with
    | none => exact nomatch hf
    | messageSetItem => exact nomatch hf
    | field g =>
      cases hf
      exact hin (.inl hw)
    | extension id =>
      cases hf
      exact hin (.inl hw)
  unfold decodeWireValue
  cases w with
  | varint =>
    refine Ensures.of_bind fun a => ?_
    dsimp only
    cases hfound : foundField d.env found with
    | none => exact Ensures.pure rfl
    | some f => exact Ensures.pure (varintOp_eq_unknown (hown f hfound))
  | fixed32 =>
    refine Ensures.pure ?_
    cases hfound : foundField d.env found with
    | none => rfl
    | some f => simp [fixed32Ok_eq_false (hown f hfound)]
  | fixed64 =>
    refine Ensures.pure ?_
    cases hfound : foundField d.env found with
    | none => rfl
    | some f => simp [fixed64Ok_eq_false (hown f hfound)]
  | delimited =>
    refine Ensures.of_bind fun a => Ensures.pure ?_
    exact getDelimitedOp_of_not_admits hin fun h => hgroup ⟨rfl, h⟩
  | startGroup =>
    refine Ensures.pure ?_
    have hne : (foundField d.env found).map (·.descriptortype) ≠ some .group := by
      cases hfound : foundField d.env found with
      | none => exact fun h => nomatch h
      | some f =>
        intro h
        have htype : f.descriptortype = .group := Option.some.inj h
        exact hown f hfound (by rw [htype]; rfl)
    dsimp only
    cases found with
    | messageSetItem => exact absurd rfl hin
    | none => rfl
    | field f => rw [if_neg hne]
    | extension id => rw [if_neg hne]
  | endGroup => exact Ensures.throw

theorem getDelimitedOp_of_parsedGroup {d : Decoder} {table : TableRef} {found : FoundField}
    (hgroup : ParsedGroup d.env d.opts table found) :
    d.getDelimitedOp (some table) found = .subMessage := by
  unfold getDelimitedOp
  cases found with
  | field f =>
    obtain ⟨harr, htype, hlinked⟩ := hgroup
    simp only [foundField, if_pos harr, htype, repeatedDelimitedOp]
    rw [if_pos trivial, checkUnlinked]
    rw [if_pos hlinked]
  | extension id =>
    obtain ⟨harr, htype⟩ := hgroup
    simp only [foundField, if_pos harr, htype, repeatedDelimitedOp]
    rfl
  | _ => exact hgroup.elim

/-- A sub-message in a repeated field makes its array longer. -/
theorem decodeToSlot_ne {d : Decoder} {sub : MiniTableSub} {f : MiniTableField}
    (harr : f.fieldMode = FieldMode.array) (val : UInt64) (limit pos : Nat) (msg : Message) (slot : Slot) :
    (d.decodeToSlot sub f .subMessage val limit pos msg slot).Ensures fun a => a.2.2 ≠ slot := by
  unfold decodeToSlot
  rw [if_pos harr]
  refine Ensures.of_bind fun isEmpty => Ensures.of_bind fun a => Ensures.pure ?_
  intro heq
  cases slot with
  | arr xs => exact absurd (congrArg List.length (Slot.arr.inj heq)) (by simp [Slot.elems])
  | _ => exact nomatch heq

theorem decodeKnownField_ne_addUnknown {d : Decoder} {table : TableRef} {found : FoundField}
    (hgroup : ParsedGroup d.env d.opts table found) {val : UInt64} {limit pos stop : Nat}
    {msg msg' : Message}
    (h : (d.decodeKnownField table found .subMessage val limit pos msg).result = .ok (stop, msg'))
    (bytes : List UInt8) : msg' ≠ msg.addUnknown bytes := by
  cases found with
  | field f =>
    obtain ⟨a, ha, hpure⟩ := result_bind_eq_ok.mp h
    cases hpure
    intro heq
    refine decodeToSlot_ne hgroup.1 _ _ _ _ _ a ha ?_
    have hdata := congrArg (fun m => m.data f.offset) heq
    simpa [Message.setData, Message.addUnknown] using hdata
  | extension id =>
    obtain ⟨a, ha, hpure⟩ := result_bind_eq_ok.mp h
    cases hpure
    intro heq
    refine decodeToSlot_ne hgroup.1 _ _ _ _ _ a ha ?_
    have hext := congrArg (fun m => Message.ext m id) heq
    rwa [Message.ext_setExt] at hext
  | _ => exact hgroup.elim

/-! ### The loop, field by field -/

/-- The loop of `_hpb_Decoder_DecodeMessage` at its head. -/
structure LoopState where
  pos : Nat
  last : Nat
  msg : Message

/-- One field of the loop, with its number and its wire type. -/
structure Step (d : Decoder) (layout : Option TableRef) (limit : Nat) (s : LoopState) (number : Nat)
    (w : WireType) (s' : LoopState) : Prop where
  more : s.pos < limit
  field : ∃ start tag, (d.decodeTagAt s.pos).result = .ok (start, tag) ∧ tag.toNat / 8 = number ∧
    WireType.ofTag tag = some w ∧ w ≠ .endGroup ∧
    (d.decodeField layout tag limit start s.last s.msg).result = .ok (s'.pos, s'.last, s'.msg)

/-- The loop comes from one state to another. -/
def Steps (d : Decoder) (layout : Option TableRef) (limit : Nat) : LoopState → LoopState → Prop :=
  Relation.ReflTransGen fun s s' => ∃ number w, d.Step layout limit s number w s'

section Loop

variable {d : Decoder} {layout : Option TableRef} {limit : Nat} {s s' : LoopState} {stop : Nat}
  {m : Message}

/-- The rest of the loop after a field. -/
theorem Step.rest {number : Nat} {w : WireType} (h : d.Step layout limit s number w s') {fuel : Nat}
    {a : Nat × Message × Option Nat}
    (hrun : (d.decodeFields layout limit fuel s.pos s.last s.msg).result = .ok a) :
    ∃ fuel', (d.decodeFields layout limit fuel' s'.pos s'.last s'.msg).result = .ok a := by
  obtain ⟨start, tag, htag, -, hw, hend, hfield⟩ := h.field
  cases fuel with
  | zero => exact nomatch hrun
  | succ fuel =>
    obtain ⟨done, hdone, hrun⟩ := result_bind_eq_ok.mp hrun
    have hspec := isDone_spec limit s.pos done hdone
    cases done with
    | true => exact absurd hspec (Nat.ne_of_lt h.more)
    | false =>
      obtain ⟨b, hb, hrun⟩ := result_bind_eq_ok.mp hrun
      rw [htag] at hb
      cases hb
      have hopen : WireType.ofTag tag ≠ some .endGroup := by
        rw [hw]
        exact fun heq => hend (Option.some.inj heq)
      simp only [if_neg hopen] at hrun
      obtain ⟨c, hc, hrun⟩ := result_bind_eq_ok.mp hrun
      rw [hfield] at hc
      cases hc
      exact ⟨fuel, hrun⟩

theorem Steps.rest (h : d.Steps layout limit s s') {fuel : Nat} {a : Nat × Message × Option Nat}
    (hrun : (d.decodeFields layout limit fuel s.pos s.last s.msg).result = .ok a) :
    ∃ fuel', (d.decodeFields layout limit fuel' s'.pos s'.last s'.msg).result = .ok a := by
  induction h with
  | refl => exact ⟨fuel, hrun⟩
  | tail _ hstep ih =>
    obtain ⟨fuel', hrun'⟩ := ih
    obtain ⟨number, w, hstep⟩ := hstep
    exact hstep.rest hrun'

/-- A loop that ends well is not past its limit at its head. -/
theorem pos_le_of_decodeFields {fuel : Nat} {a : Nat × Message × Option Nat}
    (hrun : (d.decodeFields layout limit fuel s.pos s.last s.msg).result = .ok a) : s.pos ≤ limit := by
  cases fuel with
  | zero => exact nomatch hrun
  | succ fuel =>
    obtain ⟨done, hdone, -⟩ := result_bind_eq_ok.mp hrun
    have hspec := isDone_spec limit s.pos done hdone
    cases done with
    | true => exact Nat.le_of_eq hspec
    | false => exact Nat.le_of_lt hspec

/-- **A field that is not admitted is kept.** The message has the bytes of the field after its unknown
fields, and is otherwise as it was. -/
theorem Step.keeps (hd : d.SkipsGroups) {table : TableRef} {number : Nat} {w : WireType}
    (h : d.Step (some table) limit s number w s') (hin : ¬Admits d.env (knownField d.env table number) w)
    (hgroup : ¬(w = .delimited ∧ ParsedGroup d.env d.opts table (knownField d.env table number))) :
    RecordAt d.buf s.pos s'.pos number w ∧
      s'.msg = s.msg.addUnknown (d.slice s.pos (s'.pos - s.pos)) := by
  obtain ⟨stop, last, msg⟩ := s'
  obtain ⟨start, tag, htag, rfl, hw, hend, hfield⟩ := h.field
  have hat := tagAt_of_varintAt (d.decodeTagAt_spec _ _ htag) hw
  obtain ⟨a, ha, hfield⟩ := result_bind_eq_ok.mp hfield
  rw [findField_fst, hw] at ha
  have hop := decodeWireValue_of_not_admits hin hgroup _ _ a ha
  obtain ⟨val, hhead, hval⟩ := d.decodeWireValue_spec _ _ _ _ _ a ha
  obtain ⟨pos, v, op⟩ := a
  obtain rfl : op = .unknownField := hop
  obtain ⟨b, hb, hfield⟩ := result_bind_eq_ok.mp hfield
  simp only [decodeValue, hw] at hb
  obtain ⟨hvalue, hmsg⟩ := decodeUnknownField_spec hd hat hhead (fun h => (hval h).1) _ _ _ b hb
  obtain ⟨stop', msg'⟩ := b
  cases hfield
  exact ⟨⟨start, hat, hvalue⟩, hmsg⟩

/-- A repeated group that comes delimited is parsed as a group all the same: its array has one more
element. -/
theorem Step.not_keeps {table : TableRef} {number : Nat} (h : d.Step (some table) limit s number .delimited s')
    (hgroup : ParsedGroup d.env d.opts table (knownField d.env table number)) (bytes : List UInt8) :
    s'.msg ≠ s.msg.addUnknown bytes := by
  obtain ⟨stop, last, msg⟩ := s'
  obtain ⟨start, tag, htag, rfl, hw, hend, hfield⟩ := h.field
  obtain ⟨a, ha, hfield⟩ := result_bind_eq_ok.mp hfield
  rw [findField_fst, hw] at ha
  have hop : a.2.2 = .subMessage := by
    obtain ⟨size, -, hpure⟩ := result_bind_eq_ok.mp ha
    cases hpure
    exact getDelimitedOp_of_parsedGroup hgroup
  obtain ⟨pos, v, op⟩ := a
  obtain rfl : op = .subMessage := hop
  obtain ⟨b, hb, hfield⟩ := result_bind_eq_ok.mp hfield
  rw [findField_fst] at hb
  simp only [decodeValue] at hb
  obtain ⟨stop', msg'⟩ := b
  cases hfield
  exact decodeKnownField_ne_addUnknown hgroup hb bytes

end Loop

end Decoder

/-- **Fields with an unexpected wire type are kept, but for delimited groups.** A field of an input that
is accepted, whose number is not known or whose wire type its type and cardinality do not admit, is copied
to the unknown fields and changes nothing else, if and only if it is not a repeated group field that comes
delimited. -/
theorem decode_keeps_unexpected {env : DecodeEnv} {opts : DecodeOptions} {buf : List UInt8}
    {table : TableRef} {msg m : Message} (hok : (decode env opts buf table msg).result = .ok m)
    {s s' : Decoder.LoopState}
    (hs : (Decoder.startFrom env opts opts.depthLimit buf).Steps (some table) buf.length ⟨0, 0, msg⟩ s)
    {number : Nat} {w : WireType}
    (hstep : (Decoder.startFrom env opts opts.depthLimit buf).Step (some table) buf.length s number w s')
    (hin : ¬Admits env (knownField env table number) w) :
    (s'.pos ≤ buf.length ∧ RecordAt buf s.pos s'.pos number w ∧
        s'.msg = s.msg.addUnknown ((buf.drop s.pos).take (s'.pos - s.pos))) ↔
      ¬(w = .delimited ∧ ParsedGroup env opts table (knownField env table number)) := by
  constructor
  · rintro ⟨-, -, hmsg⟩ ⟨rfl, hgroup⟩
    exact hstep.not_keeps hgroup _ hmsg
  · intro hgroup
    obtain ⟨a, ha, -⟩ := result_bind_eq_ok.mp hok
    obtain ⟨fuel, hrest⟩ := Decoder.Steps.rest (hs.tail ⟨number, w, hstep⟩) ha
    refine ⟨Decoder.pos_le_of_decodeFields hrest, ?_⟩
    exact hstep.keeps (Decoder.skipsGroups_withDepth _ _) hin hgroup

section Groups

/-- A table with a repeated group, at the offset 8, of messages of the same table. -/
def groupTable : MiniTable where
  subs := [.submsg 0]
  fields := [⟨1, 8, 0, 0, .group, FieldMode.array⟩]
  size := 16
  fieldCount := 1
  ext := ExtMode.nonExtendable
  denseBelow := 1
  tableMask := 255
  requiredCount := 0

def groupSchema : Schema where
  tables := fun _ => groupTable
  enums := fun _ => ⟨0, 0, []⟩
  exts := fun _ => ⟨⟨1, 0, 0, 0, .message, FieldMode.scalar⟩, .empty, .emptyMessage⟩
  fieldCount_eq := fun _ => rfl
  searchable := fun _ => by
    refine ⟨List.pairwise_singleton _ _, fun i hi => ?_⟩
    obtain rfl : i = 0 := Nat.lt_one_iff.mp hi
    exact ⟨_, rfl, rfl⟩

def groupEnv : DecodeEnv where
  schema := groupSchema
  extreg := none
  verifyUtf8 := fun _ => true
  encode := fun _ _ => none

theorem not_admits_varint : ¬Admits groupEnv (knownField groupEnv (.table 0) 1) .varint := by
  rintro (h | ⟨-, h, -⟩)
  · exact nomatch h
  · exact nomatch h

/-- The group field as a varint. -/
theorem decode_keeps_unexpected_varint :
    (decode groupEnv ⟨false, false, 0⟩ [8, 5] (.table 0) Message.new).result =
        .ok (Message.new.addUnknown [8, 5]) ∧
      RecordAt [8, 5] 0 2 1 .varint :=
  have hok : (decode groupEnv ⟨false, false, 0⟩ [8, 5] (.table 0) Message.new).result =
      .ok (Message.new.addUnknown [8, 5]) := rfl
  have hstep : (Decoder.startFrom groupEnv ⟨false, false, 0⟩ 100 [8, 5]).Step (some (.table 0)) 2
      ⟨0, 0, Message.new⟩ 1 .varint ⟨2, 0, Message.new.addUnknown [8, 5]⟩ :=
    ⟨by decide, 1, 8, rfl, rfl, rfl, by decide, rfl⟩
  ⟨hok, ((decode_keeps_unexpected hok .refl hstep not_admits_varint).mpr fun h => nomatch h.1).2.1⟩

/-- The group field as a delimited one: its bytes are parsed as a group, and none is kept. -/
theorem not_keeps_delimited_group :
    ¬Admits groupEnv (knownField groupEnv (.table 0) 1) .delimited ∧
      ∃ m, (decode groupEnv ⟨false, false, 0⟩ [10, 1, 12] (.table 0) Message.new).result = .ok m ∧
        m.unknown = [] ∧ (m.data 8).elems.length = 1 := by
  refine ⟨?_, ?_⟩
  · rintro (h | ⟨-, h, -⟩)
    · exact nomatch h
    · exact nomatch h
  · exact ⟨_, rfl, rfl, rfl⟩

end Groups

end Hpb
