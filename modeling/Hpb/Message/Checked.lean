import Hpb.Message.Required

/-!
# The messages whose required fields are checked

The parser looks at the required fields of a message when its data ends. It does not do so for a group,
nor for a map value that its entry does not have. `Sound` says that the other messages below a message are
complete; `Kept` is what a loop over the fields of one message keeps of it.
-/

namespace Hpb

/-- Map values are not repeated, no groups and not in a oneof. -/
structure MiniTableField.IsMapValue (f : MiniTableField) : Prop where
  presence : 0 ≤ f.presence
  type : f.descriptortype ≠ .group
  mode : f.fieldMode ≠ FieldMode.array ∧ f.fieldMode ≠ FieldMode.map

/-- What the builder of the tables makes sure of. -/
structure Schema.Regular (S : Schema) : Prop where
  number : ∀ t, ∀ f ∈ (S.table t).fields, 0 < f.number
  /-- Only the members of a oneof share their place. -/
  offset : ∀ t, ∀ f ∈ (S.table t).fields, ∀ g ∈ (S.table t).fields, f ≠ g → f.offset = g.offset →
    f.presence < 0 ∧ g.presence = f.presence
  /-- A has-bit belongs to one field. -/
  hasbit : ∀ t, ∀ f ∈ (S.table t).fields, ∀ g ∈ (S.table t).fields, f ≠ g → 0 < f.presence →
    g.presence ≠ f.presence
  /-- Arrays and maps have no presence. -/
  repeated : ∀ t, ∀ f ∈ (S.table t).fields,
    f.fieldMode = FieldMode.array ∨ f.fieldMode = FieldMode.map → f.presence = 0
  entry : ∀ t, ∀ f ∈ (S.table t).fields, f.fieldMode = FieldMode.map → ∀ key val rest,
    (S.table ((S.table t).sub f).tableRef).fields = key :: val :: rest → val.IsMapValue
  /-- Extensions have no presence and are no maps. -/
  extension : ∀ id, (S.exts id).field.presence = 0 ∧ (S.exts id).field.fieldMode ≠ FieldMode.map

namespace Message

/-- A message that is held so is looked at when its data ends; a map value may not have come. -/
def Checked (k : Held) (m : Message) : Prop := k = .message ∨ k = .value ∧ m ≠ Message.new

end Message

/-- What a loop over the fields keeps of a message: the fields that are set hold messages of which it was
kept too, and the checked ones are complete. The value `x` of a map entry is there from the start. -/
inductive Message.Kept (S : Schema) : Option MiniTableField → TableRef → Message → Prop where
  | intro {x : Option MiniTableField} {t : TableRef} {m : Message}
      (checked : ∀ f ∈ (S.table t).fields, x ≠ some f → f.isSubMessage →
        (f.presence < 0 → m.oneofCase (-f.presence - 1).toNat = f.number) →
        (m.data f.offset = .zero → m.shows f) → ∀ k t' m',
        Slot.Holds S ((S.table t).sub f) f (m.data f.offset) k t' m' →
        Message.Checked k m' → Message.Complete S t' m')
      (below : ∀ f ∈ (S.table t).fields, x ≠ some f → f.isSubMessage →
        (f.presence < 0 → m.oneofCase (-f.presence - 1).toNat = f.number) →
        (m.data f.offset = .zero → m.shows f) → ∀ k t' m',
        Slot.Holds S ((S.table t).sub f) f (m.data f.offset) k t' m' → Kept S none t' m')
      (value : ∀ v, x = some v → v.isSubMessage → ∃ e m', m.data v.offset = .msg e m' ∧
        (m' = Message.new ∨ Message.Complete S ((S.table t).sub v).tableRef m'))
      (valueBelow : ∀ v, x = some v → v.isSubMessage → ∀ e m', m.data v.offset = .msg e m' →
        Kept S none ((S.table t).sub v).tableRef m')
      (exts : ∀ e ∈ m.exts, ∀ k t' m', Slot.Holds S (S.exts e.1).sub (S.exts e.1).field e.2 k t' m' →
        Message.Checked k m' → m'.Complete S t')
      (extsBelow : ∀ e ∈ m.exts, ∀ k t' m',
        Slot.Holds S (S.exts e.1).sub (S.exts e.1).field e.2 k t' m' → Kept S none t' m') :
      Kept S x t m

section

variable {S : Schema} {x : Option MiniTableField} {t : TableRef} {m : Message} {sub : MiniTableSub}
  {f : MiniTableField} {s : Slot}

/-- Only fields of a message type hold messages. -/
theorem Slot.Holds.isSubMessage {k : Held} {t' : TableRef} {m' : Message}
    (h : Slot.Holds S sub f s k t' m') : f.isSubMessage = true := by
  cases h <;> assumption

/-- The messages that a field holds were kept, and the checked ones are complete. -/
def Slot.Good (S : Schema) (sub : MiniTableSub) (f : MiniTableField) (s : Slot) : Prop :=
  ∀ k t' m', Slot.Holds S sub f s k t' m' →
    (Message.Checked k m' → m'.Complete S t') ∧ m'.Kept S none t'

/-- A map value that is a message: one that did not come, or a complete one. -/
def Slot.GoodValue (S : Schema) (sub : MiniTableSub) (v : MiniTableField) (s : Slot) : Prop :=
  v.isSubMessage → ∃ e m', s = .msg e m' ∧
    (m' = Message.new ∨ Message.Complete S sub.tableRef m') ∧ Message.Kept S none sub.tableRef m'

/-- The field is not another member of a oneof than the one that is set. -/
def Message.Reads (m : Message) (f : MiniTableField) : Prop :=
  f.presence < 0 → m.oneofCase (-f.presence - 1).toNat = f.number

theorem Message.kept_iff : m.Kept S x t ↔
    (∀ f ∈ (S.table t).fields, x ≠ some f → f.isSubMessage → m.Reads f →
      (m.data f.offset = .zero ∧ m.shows f = false) ∨ (m.data f.offset).Good S ((S.table t).sub f) f) ∧
    (∀ v, x = some v → (m.data v.offset).GoodValue S ((S.table t).sub v) v) ∧
    ∀ e ∈ m.exts, e.2.Good S (S.exts e.1).sub (S.exts e.1).field := by
  constructor
  · rintro ⟨checked, below, value, valueBelow, exts, extsBelow⟩
    refine ⟨fun f hf hx hsub hreads => ?_, fun v hv hsub => ?_, fun e he k t' m' h => ?_⟩
    · by_cases hset : m.data f.offset = .zero → m.shows f = true
      · refine .inr fun k t' m' h => ?_
        exact ⟨checked f hf hx hsub hreads hset k t' m' h, below f hf hx hsub hreads hset k t' m' h⟩
      · obtain ⟨hzero, hhide⟩ := Classical.not_imp.mp hset
        exact .inl ⟨hzero, by simpa using hhide⟩
    · obtain ⟨e, m', hs, hm⟩ := value v hv hsub
      exact ⟨e, m', hs, hm, valueBelow v hv hsub e m' hs⟩
    · exact ⟨exts e he k t' m' h, extsBelow e he k t' m' h⟩
  · rintro ⟨fields, value, exts⟩
    have hgood : ∀ f ∈ (S.table t).fields, x ≠ some f → f.isSubMessage → m.Reads f →
        (m.data f.offset = .zero → m.shows f) →
        (m.data f.offset).Good S ((S.table t).sub f) f := by
      intro f hf hx hsub hreads hset
      obtain ⟨hzero, hhide⟩ | hgood := fields f hf hx hsub hreads
      · rw [hset hzero] at hhide
        exact nomatch hhide
      · exact hgood
    refine ⟨fun f hf hx hsub hreads hset k t' m' h => ?_, fun f hf hx hsub hreads hset k t' m' h => ?_,
      fun v hv hsub => ?_, fun v hv hsub e m' hs => ?_, fun e he k t' m' h => ?_,
      fun e he k t' m' h => ?_⟩
    · exact (hgood f hf hx hsub hreads hset k t' m' h).1
    · exact (hgood f hf hx hsub hreads hset k t' m' h).2
    · obtain ⟨e, m', hs, hm, -⟩ := value v hv hsub
      exact ⟨e, m', hs, hm⟩
    · obtain ⟨e', m'', hs', -, hkept⟩ := value v hv hsub
      rw [hs'] at hs
      cases hs
      exact hkept
    · exact (exts e he k t' m' h).1
    · exact (exts e he k t' m' h).2

theorem Message.Kept.new (hS : S.Regular) : Message.new.Kept S none t := by
  refine Message.kept_iff.mpr ⟨fun f hf _ _ _ => ?_, ?_, ?_⟩
  · exact .inl ⟨rfl, Message.shows_new (hS.number t f hf)⟩
  · exact fun v hv => nomatch hv
  · exact fun e he => nomatch he

/-- A oneof member that is shown is the one that is set. -/
theorem Message.reads_of_shows (h : m.shows f = true) : m.Reads f := by
  intro hp
  rw [Message.shows, if_pos (by omega), Message.hasField, if_pos hp] at h
  exact eq_of_beq h

/-- **The checked messages in the tree of a message are complete.** -/
theorem Message.Kept.complete (h : m.Kept S none t) {t₁ t₂ : TableRef} {m₁ m₂ : Message} {k : Held}
    (htree : Message.Tree S (t, m) (t₁, m₁)) (hchild : m₁.Child S t₁ k t₂ m₂)
    (hchecked : Message.Checked k m₂) : m₂.Complete S t₂ := by
  have hgood : ∀ {t m k t' m'}, Message.Kept S none t m → Message.Child S t m k t' m' →
      (Message.Checked k m' → m'.Complete S t') ∧ m'.Kept S none t' := by
    intro t m k t' m' hkept hchild
    obtain ⟨fields, -, exts⟩ := Message.kept_iff.mp hkept
    cases hchild with
    | @field f _ _ _ hf hshow hholds =>
      have hsub : f.isSubMessage := hholds.isSubMessage
      obtain ⟨-, hhide⟩ | hgood := fields f hf (fun h => by cases h) hsub (Message.reads_of_shows hshow)
      · rw [hhide] at hshow
        cases hshow
      · exact hgood k t' m' hholds
    | ext hmem hholds => exact exts _ hmem k t' m' hholds
  suffices hall : ∀ a, Message.Tree S (t, m) a → Message.Kept S none a.1 a.2 from
    (hgood (hall _ htree) hchild).1 hchecked
  intro a ha
  induction ha with
  | refl => exact h
  | tail _ hstep ih =>
    obtain ⟨k, hchild⟩ := hstep
    exact (hgood ih hchild).2

/-! ### Fields -/

/-- A field that is not of a message type holds none. -/
theorem Slot.Good.of_not_sub (hsub : ¬f.isSubMessage) : s.Good S sub f :=
  fun _ _ _ h => absurd h.isSubMessage hsub

theorem Slot.good_msg {e : Bool} (hcomplete : f.descriptortype ≠ .group → m.Complete S sub.tableRef)
    (hkept : m.Kept S none sub.tableRef) : (Slot.msg e m).Good S sub f := by
  intro k t' m' h
  cases h with
  | msg hsub =>
    refine ⟨?_, hkept⟩
    rintro (hk | ⟨hk, -⟩)
    · refine hcomplete fun hgroup => ?_
      rw [MiniTableField.held, if_pos hgroup] at hk
      exact nomatch hk
    · rw [MiniTableField.held] at hk
      split at hk <;> exact nomatch hk

/-- What is known of a field that is not cleared: it was never set, or it is good. -/
def Slot.Fit (S : Schema) (sub : MiniTableSub) (f : MiniTableField) (s : Slot) : Prop :=
  s = .zero ∨ s.Good S sub f

theorem Slot.Fit.kept {e : Bool} (h : (Slot.msg e m).Fit S sub f) (hsub : f.isSubMessage) :
    m.Kept S none sub.tableRef := by
  obtain hzero | hgood := h
  · exact nomatch hzero
  · exact (hgood _ _ _ (.msg hsub e m)).2

/-- An array with one more element. -/
theorem Slot.Fit.push (h : s.Fit S sub f) {e : Bool} (hm : (Slot.msg e m).Good S sub f) :
    (Slot.arr (s.elems ++ [.msg e m])).Good S sub f := by
  intro k t' m' hholds
  cases hholds with
  | elem hsub hmem =>
    obtain hmem | hmem := List.mem_append.mp hmem
    · obtain rfl | hgood := h
      · exact nomatch hmem
      · cases s with
        | arr xs => exact hgood _ _ _ (.elem hsub hmem)
        | _ => exact nomatch hmem
    · cases List.mem_singleton.mp hmem
      exact hm _ _ _ (.msg hsub _ _)

/-- A map without a change. -/
theorem Slot.Fit.entries (h : s.Fit S sub f) : (Slot.map s.entries).Good S sub f := by
  intro k t' m' hholds
  cases hholds with
  | value hf hentry hsub hmem =>
    obtain rfl | hgood := h
    · exact nomatch hmem
    · cases s with
      | map es => exact hgood _ _ _ (.value hf hentry hsub hmem)
      | _ => exact nomatch hmem

/-- A map with one more entry. -/
theorem Slot.Fit.insert (h : s.Fit S sub f) (key : MapKey) {v : Slot}
    (hv : ∀ k val rest, (S.table sub.tableRef).fields = k :: val :: rest →
      v.GoodValue S ((S.table sub.tableRef).sub val) val) :
    (Slot.map (mapInsert s.entries key v)).Good S sub f := by
  intro k t' m' hholds
  cases hholds with
  | value hf hentry hsub hmem =>
    obtain hmem | hmem := List.mem_append.mp hmem
    · exact h.entries _ _ _ (.value hf hentry hsub (List.mem_filter.mp hmem).1)
    · obtain ⟨e, m, hs, hcomplete, hkept⟩ := hv _ _ _ hentry hsub
      obtain ⟨-, rfl⟩ := Prod.mk.inj (List.mem_singleton.mp hmem)
      cases hs
      refine ⟨?_, hkept⟩
      rintro (hk | ⟨-, hne⟩)
      · exact nomatch hk
      · exact hcomplete.resolve_left hne

/-! ### Messages -/

theorem Message.Kept.fit (h : m.Kept S x t) (hf : f ∈ (S.table t).fields) (hx : x ≠ some f)
    (hsub : f.isSubMessage) (hreads : m.Reads f) : (m.data f.offset).Fit S ((S.table t).sub f) f := by
  obtain ⟨hzero, -⟩ | hgood := (Message.kept_iff.mp h).1 f hf hx hsub hreads
  · exact .inl hzero
  · exact .inr hgood

theorem Message.Kept.goodValue (h : m.Kept S (some f) t) :
    (m.data f.offset).GoodValue S ((S.table t).sub f) f := (Message.kept_iff.mp h).2.1 f rfl

theorem Message.Kept.ext (h : m.Kept S x t) (id : Nat) :
    (m.ext id).Fit S (S.exts id).sub (S.exts id).field := by
  unfold Message.ext
  split
  next e he =>
    have hbeq := List.find?_some he
    have hid : e.1 = id := eq_of_beq hbeq
    have hgood := (Message.kept_iff.mp h).2.2 e (List.mem_of_find?_eq_some he)
    rw [hid] at hgood
    exact .inr hgood
  next => exact .inl rfl

theorem Message.Kept.congr {m' : Message} (h : m.Kept S x t) (hbits : m'.hasbits = m.hasbits)
    (hcase : m'.oneofCase = m.oneofCase) (hdata : m'.data = m.data)
    (hexts : ∀ e ∈ m'.exts, e ∈ m.exts ∨ e.2.Good S (S.exts e.1).sub (S.exts e.1).field) :
    m'.Kept S x t := by
  obtain ⟨fields, value, exts⟩ := Message.kept_iff.mp h
  have hshows : ∀ f, m'.shows f = m.shows f := by
    intro f
    simp only [Message.shows, Message.hasField, hdata, hbits, hcase]
  refine Message.kept_iff.mpr ⟨fun f hf hx hsub hreads => ?_, fun v hv => ?_, fun e he => ?_⟩
  · rw [Message.Reads, hcase] at hreads
    rw [hdata, hshows]
    exact fields f hf hx hsub hreads
  · rw [hdata]
    exact value v hv
  · obtain he | hgood := hexts e he
    · exact exts e he
    · exact hgood

theorem Message.Kept.setExt (h : m.Kept S x t) {id : Nat}
    (hs : s.Good S (S.exts id).sub (S.exts id).field) : (m.setExt id s).Kept S x t := by
  unfold Message.setExt
  split
  · refine h.congr rfl rfl rfl fun e he => ?_
    obtain ⟨e', he', rfl⟩ := List.mem_map.mp he
    split
    · exact .inr hs
    · exact .inl he'
  · refine h.congr rfl rfl rfl fun e he => ?_
    obtain rfl | he := List.mem_cons.mp he
    · exact .inr hs
    · exact .inl he

/-- The presence of a field is set. -/
def Message.mark (m : Message) (f : MiniTableField) : Message :=
  if 0 < f.presence then m.setHas f.presence.toNat
  else if f.presence < 0 then m.setOneofCase (-f.presence - 1).toNat f.number
  else m

/-- The messages differ in unknown fields only. -/
structure Message.SameFields (m m' : Message) : Prop where
  hasbits : m'.hasbits = m.hasbits
  oneofCase : m'.oneofCase = m.oneofCase
  data : m'.data = m.data
  exts : m'.exts = m.exts

theorem Message.SameFields.refl (m : Message) : m.SameFields m := ⟨rfl, rfl, rfl, rfl⟩

theorem Message.SameFields.addUnknown {m' : Message} (h : m.SameFields m') (bytes : List UInt8) :
    m.SameFields (m'.addUnknown bytes) := ⟨h.hasbits, h.oneofCase, h.data, h.exts⟩

theorem Message.Kept.sameFields {m' : Message} (h : m.Kept S x t) (hm : m.SameFields m') :
    m'.Kept S x t :=
  h.congr hm.hasbits hm.oneofCase hm.data fun _ he => .inl (hm.exts ▸ he)

theorem Schema.field_eq_of_number {g : MiniTableField} (hf : f ∈ (S.table t).fields)
    (hg : g ∈ (S.table t).fields) (h : f.number = g.number) : f = g := by
  obtain ⟨i, hi, hif⟩ := List.getElem_of_mem hf
  obtain ⟨j, hj, hjg⟩ := List.getElem_of_mem hg
  have hfi := List.getElem?_eq_some_iff.mpr ⟨hi, hif⟩
  have hgj := List.getElem?_eq_some_iff.mpr ⟨hj, hjg⟩
  have hs := S.table_searchable t
  obtain hlt | rfl | hgt := Nat.lt_trichotomy i j
  · exact absurd (hs.number_lt hfi hgj hlt) (by omega)
  · exact hif.symm.trans hjg
  · exact absurd (hs.number_lt hgj hfi hgt) (by omega)

section Mark

variable {g : MiniTableField}

theorem Message.data_mark : (m.mark f).data = m.data := by
  unfold Message.mark
  split
  · rfl
  · split <;> rfl

theorem Message.exts_mark : (m.mark f).exts = m.exts := by
  unfold Message.mark
  split
  · rfl
  · split <;> rfl

/-- The oneof case of another field. -/
theorem Message.oneofCase_mark (hg : g.presence < 0) (hne : g.presence ≠ f.presence) :
    (m.mark f).oneofCase (-g.presence - 1).toNat = m.oneofCase (-g.presence - 1).toNat := by
  unfold Message.mark
  split
  · rfl
  · split
    · exact Function.update_of_ne (by omega) _ _
    · rfl

theorem Message.oneofCase_mark_self (hf : f.presence < 0) :
    (m.mark f).oneofCase (-f.presence - 1).toNat = f.number := by
  rw [Message.mark, if_neg (by omega), if_pos hf]
  exact Function.update_self _ _ _

/-- The has-bit of another field. -/
theorem Message.hasbits_mark (hne : 0 < f.presence → g.presence ≠ f.presence) :
    (m.mark f).hasbits g.presence.toNat = m.hasbits g.presence.toNat := by
  unfold Message.mark
  split
  next hf =>
    have hindex : g.presence.toNat ≠ f.presence.toNat := by
      have := hne hf
      omega
    exact Function.update_of_ne hindex _ _
  next => split <;> rfl

/-- What is said of the other fields after one is stored. -/
theorem Message.reads_of_mark (hne : f.number ≠ g.number) (hreads : (m.mark f).Reads g) :
    m.Reads g ∧ ¬(g.presence < 0 ∧ g.presence = f.presence) := by
  have hother : ¬(g.presence < 0 ∧ g.presence = f.presence) := by
    rintro ⟨hg, heq⟩
    have hcase := hreads hg
    rw [heq, Message.oneofCase_mark_self (by omega)] at hcase
    exact hne hcase
  refine ⟨fun hg => ?_, hother⟩
  rw [← Message.oneofCase_mark (f := f) hg fun heq => hother ⟨hg, heq⟩]
  exact hreads hg

end Mark

/-- **A field is stored.** -/
theorem Message.Kept.store (hS : S.Regular) (h : m.Kept S x t) (hf : f ∈ (S.table t).fields)
    (hx : ∀ v, x = some v → v ∈ (S.table t).fields ∧ 0 ≤ v.presence) {m' : Message}
    (hm : (m.mark f).SameFields m') (hgood : x ≠ some f → s.Good S ((S.table t).sub f) f)
    (hvalue : x = some f → s.GoodValue S ((S.table t).sub f) f) :
    (m'.setData f.offset s).Kept S x t := by
  obtain ⟨fields, value, exts⟩ := Message.kept_iff.mp h
  have hdata : m'.data = m.data := hm.data.trans Message.data_mark
  refine Message.kept_iff.mpr ⟨fun g hg hxg hsub hreads => ?_, fun v hv => ?_, fun e he => ?_⟩
  · change (Function.update m'.data f.offset s g.offset = _ ∧ _) ∨
      (Function.update m'.data f.offset s g.offset).Good _ _ _
    by_cases hfg : f = g
    · subst hfg
      rw [Function.update_self]
      exact .inr (hgood hxg)
    · have hnumber : f.number ≠ g.number := fun h => hfg (Schema.field_eq_of_number hf hg h)
      have hreads' : (m.mark f).Reads g := fun hp => by
        have := hreads hp
        rwa [← hm.oneofCase]
      obtain ⟨hreads', hother⟩ := Message.reads_of_mark hnumber hreads'
      have hoffset : g.offset ≠ f.offset := by
        intro heq
        obtain ⟨hp, heq⟩ := hS.offset t f hf g hg hfg heq.symm
        exact hother ⟨by omega, heq⟩
      have hshows : (m'.setData f.offset s).shows g = m.shows g := by
        have hfield : (m'.setData f.offset s).hasField g = m.hasField g := by
          simp only [Message.hasField]
          split
          next hp =>
            change (m'.oneofCase _ == _) = _
            rw [hm.oneofCase, Message.oneofCase_mark hp fun heq => hother ⟨hp, heq⟩]
          next hp =>
            change m'.hasbits _ = _
            rw [hm.hasbits, Message.hasbits_mark fun hp => hS.hasbit t f hf g hg hfg hp]
        have hslot : (m'.setData f.offset s).data g.offset = m.data g.offset :=
          (Function.update_of_ne hoffset _ _).trans (congrFun hdata _)
        rw [Message.shows, Message.shows, hfield, hslot]
      rw [Function.update_of_ne hoffset, hdata, hshows]
      exact fields g hg hxg hsub hreads'
  · change (Function.update m'.data f.offset s v.offset).GoodValue _ _ _
    by_cases hfv : f = v
    · subst hfv
      rw [Function.update_self]
      exact hvalue hv
    · obtain ⟨hvmem, hp⟩ := hx v hv
      have hoffset : v.offset ≠ f.offset := by
        intro heq
        obtain ⟨hpf, heq⟩ := hS.offset t f hf v hvmem hfv heq.symm
        omega
      rw [Function.update_of_ne hoffset, hdata]
      exact value v hv
  · have : m'.exts = m.exts := hm.exts.trans Message.exts_mark
    exact exts e (this ▸ he)

/-- A map entry before it is parsed. -/
theorem Message.Kept.entry (hS : S.Regular) {v : MiniTableField} (hv : v ∈ (S.table t).fields)
    (hval : v.IsMapValue) (hs : s.GoodValue S ((S.table t).sub v) v) :
    (Message.new.setData v.offset s).Kept S (some v) t := by
  refine Message.kept_iff.mpr ⟨fun f hf hx _ _ => ?_, fun w hw => ?_, fun e he => nomatch he⟩
  · have hne : f ≠ v := fun heq => hx (congrArg some heq.symm)
    have hoffset : f.offset ≠ v.offset := by
      intro heq
      obtain ⟨hp, hsame⟩ := hS.offset t f hf v hv hne heq
      have := hval.presence
      omega
    have hslot : (Message.new.setData v.offset s).data f.offset = .zero :=
      Function.update_of_ne hoffset _ _
    refine .inl ⟨hslot, ?_⟩
    have hnew := Message.shows_new (hS.number t f hf)
    rw [Message.shows] at hnew ⊢
    rw [hslot]
    exact hnew
  · cases hw
    change (Function.update Message.new.data v.offset s v.offset).GoodValue _ _ _
    rwa [Function.update_self]

end

end Hpb
