import Hpb.Message.Checked
import Hpb.Wire.DecodeAdmits

/-!
# Required fields of what is parsed

With `kHpb_DecodeOption_CheckRequired`, a parse that does not set `missing_required` makes only messages
whose required fields are set, but for groups and for map values that did not come
(`decodeFrom_checked`).
-/

namespace Hpb

open Metered

namespace Decoder

/-- What is kept of the messages one level below, and of those that `hpb_Decode` itself makes. -/
structure KeepsRequired (d : Decoder) : Prop where
  check : d.opts.checkRequired = true
  recurse : ∀ (x : Option MiniTableField) (t : TableRef) (limit pos : Nat) (msg : Message),
    (∀ v, x = some v → v ∈ (d.env.schema.table t).fields ∧ v.IsMapValue) →
    msg.Kept d.env.schema x t →
    EnsuresUnless .missingRequired (d.recurse limit pos (some t) msg) fun a =>
      a.2.1.Kept d.env.schema x t ∧ (a.2.2 = none → a.2.1.Complete d.env.schema t)
  nested : ∀ data t, EnsuresUnless .missingRequired (d.nested data t) fun m =>
    m.Complete d.env.schema t ∧ m.Kept d.env.schema none t

namespace KeepsRequired

variable {d : Decoder} {t : TableRef} {x : Option MiniTableField}

section Parts

variable (h : d.KeepsRequired)
include h

theorem decodeSubMessage (sub : MiniTableSub)
    (hx : ∀ v, x = some v → v ∈ (d.env.schema.table sub.tableRef).fields ∧ v.IsMapValue)
    (size pos : Nat) {msg : Message} (hm : msg.Kept d.env.schema x sub.tableRef) :
    EnsuresUnless .missingRequired (d.decodeSubMessage sub size pos msg) fun a =>
      a.2.Kept d.env.schema x sub.tableRef ∧ a.2.Complete d.env.schema sub.tableRef := by
  refine EnsuresUnless.bind (h.recurse x _ _ _ _ hx hm) fun a ha => ?_
  dsimp only
  split
  next hend => exact EnsuresUnless.pure ⟨ha.1, ha.2 hend⟩
  next => exact EnsuresUnless.throw

theorem decodeSubField (sub : MiniTableSub) (f : MiniTableField) (size limit pos : Nat) {msg : Message}
    (hm : msg.Kept d.env.schema none sub.tableRef) :
    EnsuresUnless .missingRequired (d.decodeSubField sub f size limit pos msg) fun a =>
      a.2.Kept d.env.schema none sub.tableRef ∧
        (f.descriptortype ≠ .group → a.2.Complete d.env.schema sub.tableRef) := by
  have hnone : ∀ v, (none : Option MiniTableField) = some v →
      v ∈ (d.env.schema.table sub.tableRef).fields ∧ v.IsMapValue := fun v hv => nomatch hv
  unfold Decoder.decodeSubField
  split
  next hgroup =>
    refine EnsuresUnless.of_bind fun done => ?_
    split
    · exact EnsuresUnless.throw
    · refine EnsuresUnless.bind (h.recurse none _ _ _ _ hnone hm) fun a ha => ?_
      dsimp only
      split
      · exact EnsuresUnless.pure ⟨ha.1, fun hne => absurd hgroup hne⟩
      · exact EnsuresUnless.throw
  next =>
    intro hmark a ha
    obtain ⟨hkept, hcomplete⟩ := h.decodeSubMessage sub hnone size pos hm hmark a ha
    exact ⟨hkept, fun _ => hcomplete⟩

/-- The bytes of a field go to a message that was kept. -/
theorem subField (isEmpty : Bool) (sub : MiniTableSub) (f : MiniTableField) (size limit pos : Nat)
    {msg : Message} (hm : msg.Kept d.env.schema none sub.tableRef) :
    EnsuresUnless .missingRequired (d.decodeSubField sub f size limit pos msg) fun a =>
      (Slot.msg isEmpty a.2).Good d.env.schema sub f ∧
        (f.descriptortype ≠ .group → (Slot.msg isEmpty a.2).GoodValue d.env.schema sub f) := by
  intro hmark a ha
  obtain ⟨hkept, hcomplete⟩ := h.decodeSubField sub f size limit pos hm hmark a ha
  refine ⟨Slot.good_msg hcomplete hkept, fun hgroup _ => ?_⟩
  exact ⟨isEmpty, a.2, rfl, .inr (hcomplete hgroup), hkept⟩

theorem subMessageOf (hS : d.env.schema.Regular) (sub : MiniTableSub) {slot : Slot}
    (hs : ∀ (e : Bool) (m : Message), slot = .msg e m → m.Kept d.env.schema none sub.tableRef) :
    EnsuresUnless .missingRequired (d.subMessageOf sub slot) fun a =>
      a.2.Kept d.env.schema none sub.tableRef := by
  unfold Decoder.subMessageOf
  split
  next isEmpty m =>
    unfold reuseSubMessage
    split
    · exact EnsuresUnless.pure (hs isEmpty m rfl)
    · refine EnsuresUnless.of_bind fun isEmpty => EnsuresUnless.of_bind fun _ => ?_
      exact EnsuresUnless.bind (EnsuresUnless.level (h.nested _ _)) fun m hm => EnsuresUnless.pure hm.2
  next => exact EnsuresUnless.of_bind fun _ => EnsuresUnless.pure (Message.Kept.new hS)

end Parts

/-- The elements of a packed field change the unknown fields of a message only. -/
theorem decodePacked {msg : Message} (add : UInt64 → Message × List Slot → Message × List Slot)
    (hadd : ∀ v acc, msg.SameFields acc.1 → msg.SameFields (add v acc).1) (limit fuel pos : Nat)
    {acc : Message × List Slot} (hacc : msg.SameFields acc.1) :
    (d.decodePacked add limit fuel pos acc).Ensures fun a => msg.SameFields a.2.1 := by
  induction fuel generalizing pos acc with
  | zero => exact Ensures.throw
  | succ fuel ih =>
    refine Ensures.of_bind fun done => ?_
    split
    · exact Ensures.pure hacc
    · exact Ensures.of_bind fun a => ih _ (hadd _ _ hacc)

theorem addEnum {msg : Message} (sub : MiniTableSub) (f : MiniTableField) (v : UInt64)
    (acc : Message × List Slot) (hacc : msg.SameFields acc.1) :
    msg.SameFields (d.addEnum sub f v acc).1 := by
  unfold Decoder.addEnum
  split
  · exact hacc
  · exact hacc.addUnknown _

section Fields

variable (h : d.KeepsRequired) (hS : d.env.schema.Regular)
include h hS

/-- A sub-message is the only op for a field of a message type. -/
theorem decodeToArray (sub : MiniTableSub) (f : MiniTableField) {op : DecodeOp}
    (hop : f.isSubMessage → op = .subMessage) (val : UInt64) (limit pos : Nat) (msg : Message)
    {slot : Slot} (hs : f.isSubMessage → slot.Fit d.env.schema sub f) :
    EnsuresUnless .missingRequired (d.decodeToArray sub f op val limit pos msg slot) fun a =>
      msg.SameFields a.2.1 ∧ a.2.2.Good d.env.schema sub f := by
  have hnot : op ≠ .subMessage → ∀ s : Slot, s.Good d.env.schema sub f :=
    fun hne s => Slot.Good.of_not_sub fun hsub => hne (hop hsub)
  have hrefl := Message.SameFields.refl msg
  cases op with
  | subMessage =>
    refine EnsuresUnless.of_bind fun isEmpty => ?_
    refine EnsuresUnless.bind (h.subField isEmpty sub f _ _ _ (Message.Kept.new hS))
      fun a ha => ?_
    refine EnsuresUnless.pure ⟨hrefl, ?_⟩
    by_cases hsub : f.isSubMessage
    · exact (hs hsub).push ha.1
    · exact Slot.Good.of_not_sub hsub
  | string => exact EnsuresUnless.of_bind fun _ => EnsuresUnless.pure ⟨hrefl, hnot (by simp) _⟩
  | fixPck lg2 =>
    dsimp only [Decoder.decodeToArray]
    split
    · exact EnsuresUnless.throw
    · exact EnsuresUnless.pure ⟨hrefl, hnot (by simp) _⟩
  | varPck lg2 =>
    refine EnsuresUnless.bind (decodePacked (addVarint f lg2) (fun _ _ hacc => hacc) _ _ _ hrefl).unless fun a ha => ?_
    exact EnsuresUnless.pure ⟨ha, hnot (by simp) _⟩
  | enum =>
    dsimp only [Decoder.decodeToArray]
    split
    · exact EnsuresUnless.pure ⟨hrefl, hnot (by simp) _⟩
    · exact EnsuresUnless.pure ⟨hrefl.addUnknown _, hnot (by simp) _⟩
  | packedEnum =>
    refine EnsuresUnless.bind (decodePacked _ (addEnum sub f) _ _ _ hrefl).unless fun a ha => ?_
    exact EnsuresUnless.pure ⟨ha, hnot (by simp) _⟩
  | _ => exact EnsuresUnless.pure ⟨hrefl, hnot (by simp) _⟩

omit h in
/-- The value of a map entry is new before it comes. -/
theorem mapEntryValue (entry : MiniTable) (val : MiniTableField) :
    (d.mapEntryValue entry val).Ensures fun s => s.GoodValue d.env.schema (entry.sub val) val := by
  unfold Decoder.mapEntryValue
  split
  · refine Ensures.of_bind fun isEmpty => Ensures.pure fun _ => ?_
    exact ⟨isEmpty, Message.new, rfl, .inl rfl, Message.Kept.new hS⟩
  next hsub => exact Ensures.pure fun hsub' => absurd hsub' hsub

theorem decodeToMap (sub : MiniTableSub) (f : MiniTableField)
    (hentry : ∀ key val rest, (d.env.schema.table sub.tableRef).fields = key :: val :: rest →
      val.IsMapValue)
    (size pos : Nat) (msg : Message) {slot : Slot} (hs : f.isSubMessage → slot.Fit d.env.schema sub f) :
    EnsuresUnless .missingRequired (d.decodeToMap sub f size pos msg slot) fun a =>
      msg.SameFields a.2.1 ∧ a.2.2.Good d.env.schema sub f := by
  have hrefl := Message.SameFields.refl msg
  unfold Decoder.decodeToMap
  dsimp only
  split
  next key val rest hfields =>
    have hval := hentry key val rest hfields
    have hmem : val ∈ (d.env.schema.table sub.tableRef).fields := by
      rw [hfields]
      exact List.mem_cons_of_mem _ List.mem_cons_self
    refine EnsuresUnless.bind (mapEntryValue hS (d.env.schema.table sub.tableRef) val).unless
      fun value hvalue => ?_
    have hkept := Message.Kept.entry hS hmem hval hvalue
    refine EnsuresUnless.bind (h.decodeSubMessage sub ?_ size pos hkept) fun a ha => ?_
    · rintro v hv
      cases hv
      exact ⟨hmem, hval⟩
    · split
      · split
        · exact EnsuresUnless.throw
        · refine EnsuresUnless.pure ⟨(hrefl.addUnknown _).addUnknown _, ?_⟩
          by_cases hsub : f.isSubMessage
          · exact (hs hsub).entries
          · exact Slot.Good.of_not_sub hsub
      · refine EnsuresUnless.pure ⟨hrefl, ?_⟩
        by_cases hsub : f.isSubMessage
        · refine (hs hsub).insert _ fun k v rest' hfields' => ?_
          rw [hfields] at hfields'
          cases hfields'
          exact ha.1.goodValue
        · exact Slot.Good.of_not_sub hsub
  next => exact EnsuresUnless.throw

/-- What is stored in a field that is neither an array nor a map. -/
theorem storeValue (sub : MiniTableSub) (f : MiniTableField) {op : DecodeOp}
    (hop : f.isSubMessage → op = .subMessage) (val : UInt64) (limit pos : Nat) {slot : Slot}
    (hs : f.isSubMessage → ∀ (e : Bool) (m : Message), slot = .msg e m →
      m.Kept d.env.schema none sub.tableRef) :
    EnsuresUnless .missingRequired (d.storeValue sub f op val limit pos slot) fun a =>
      a.2.Good d.env.schema sub f ∧
        (f.descriptortype ≠ .group → a.2.GoodValue d.env.schema sub f) := by
  by_cases hsub : f.isSubMessage
  · obtain rfl := hop hsub
    refine EnsuresUnless.bind (h.subMessageOf hS sub (hs hsub)) fun a ha => ?_
    exact EnsuresUnless.bind (h.subField a.1 sub f _ _ _ ha) fun b hb => EnsuresUnless.pure hb
  · intro _ a _
    exact ⟨Slot.Good.of_not_sub hsub, fun _ hsub' => absurd hsub' hsub⟩

theorem decodeToSubMessage (sub : MiniTableSub) (f : MiniTableField) {op : DecodeOp}
    (hop : f.isSubMessage → op = .subMessage) (val : UInt64) (limit pos : Nat) {msg : Message}
    {slot : Slot} (hs : f.isSubMessage → msg.Reads f → ∀ (e : Bool) (m : Message), slot = .msg e m →
      m.Kept d.env.schema none sub.tableRef) :
    EnsuresUnless .missingRequired (d.decodeToSubMessage sub f op val limit pos msg slot) fun a =>
      ((msg.mark f).SameFields a.2.1 ∧ a.2.2.Good d.env.schema sub f ∧
          (f.descriptortype ≠ .group → a.2.2.GoodValue d.env.schema sub f)) ∨
        (¬f.isSubMessage ∧ msg.SameFields a.2.1 ∧ a.2.2 = slot) := by
  unfold Decoder.decodeToSubMessage
  split
  next henum =>
    have hsub : ¬f.isSubMessage := fun hsub => by
      have := (hop hsub).symm.trans henum.1
      exact nomatch this
    exact EnsuresUnless.pure (.inr ⟨hsub, (Message.SameFields.refl msg).addUnknown _, rfl⟩)
  next =>
    have hmark : (setPresence f op msg slot).1 = msg.mark f := by
      unfold setPresence Message.mark
      split
      · rfl
      · split <;> rfl
    have hslot : f.isSubMessage → ∀ (e : Bool) (m : Message), (setPresence f op msg slot).2 = .msg e m →
        m.Kept d.env.schema none sub.tableRef := by
      intro hsub e m heq
      obtain rfl := hop hsub
      unfold setPresence at heq
      split at heq
      next hp => exact hs hsub (fun hneg => absurd hneg (by omega)) e m heq
      next =>
        split at heq
        next =>
          dsimp only at heq
          split at heq
          next => exact nomatch heq
          next hcase => exact hs hsub (fun _ => by simpa using hcase) e m heq
        next hp => exact hs hsub (fun hneg => absurd hneg hp) e m heq
    refine EnsuresUnless.bind (h.storeValue hS sub f hop val limit pos hslot) fun a ha => ?_
    exact EnsuresUnless.pure (.inl ⟨hmark ▸ Message.SameFields.refl _, ha⟩)

theorem decodeToSlot (sub : MiniTableSub) (f : MiniTableField) {op : DecodeOp}
    (hop : f.isSubMessage → op = .subMessage)
    (hrep : f.fieldMode = FieldMode.array ∨ f.fieldMode = FieldMode.map → f.presence = 0)
    (hentry : f.fieldMode = FieldMode.map → ∀ key val rest,
      (d.env.schema.table sub.tableRef).fields = key :: val :: rest → val.IsMapValue)
    (val : UInt64) (limit pos : Nat) {msg : Message} {slot : Slot}
    (hs : f.isSubMessage → msg.Reads f → slot.Fit d.env.schema sub f ∨
      f.IsMapValue ∧ slot.GoodValue d.env.schema sub f) :
    EnsuresUnless .missingRequired (d.decodeToSlot sub f op val limit pos msg slot) fun a =>
      ((msg.mark f).SameFields a.2.1 ∧ a.2.2.Good d.env.schema sub f ∧
          (f.IsMapValue → a.2.2.GoodValue d.env.schema sub f)) ∨
        (¬f.isSubMessage ∧ msg.SameFields a.2.1 ∧ a.2.2 = slot) := by
  have hfit : f.fieldMode = FieldMode.array ∨ f.fieldMode = FieldMode.map → f.isSubMessage →
      slot.Fit d.env.schema sub f := by
    intro hmode hsub
    obtain hfit | ⟨hval, -⟩ := hs hsub fun hneg => absurd hneg (by have := hrep hmode; omega)
    · exact hfit
    · obtain hmode | hmode := hmode
      · exact absurd hmode hval.mode.1
      · exact absurd hmode hval.mode.2
  have hmark : f.presence = 0 → msg.mark f = msg := by
    intro hp
    rw [Message.mark, if_neg (by omega), if_neg (by omega)]
  unfold Decoder.decodeToSlot
  split
  next harr =>
    intro hflag a ha
    obtain ⟨hsame, hgood⟩ :=
      h.decodeToArray hS sub f hop val limit pos msg (hfit (.inl harr)) hflag a ha
    rw [hmark (hrep (.inl harr))]
    exact .inl ⟨hsame, hgood, fun hval => absurd harr hval.mode.1⟩
  next =>
    split
    next hmap =>
      intro hflag a ha
      obtain ⟨hsame, hgood⟩ :=
        h.decodeToMap hS sub f (hentry hmap) _ pos msg (hfit (.inr hmap)) hflag a ha
      rw [hmark (hrep (.inr hmap))]
      exact .inl ⟨hsame, hgood, fun hval => absurd hmap hval.mode.2⟩
    next =>
      intro hflag a ha
      have hslot : f.isSubMessage → msg.Reads f → ∀ (e : Bool) (m : Message), slot = .msg e m →
          m.Kept d.env.schema none sub.tableRef := by
        rintro hsub hreads e m rfl
        obtain hfit | ⟨-, hvalue⟩ := hs hsub hreads
        · exact hfit.kept hsub
        · obtain ⟨e', m', heq, -, hkept⟩ := hvalue hsub
          cases heq
          exact hkept
      obtain ⟨hsame, hgood, hvalue⟩ | hnone :=
        h.decodeToSubMessage hS sub f hop val limit pos hslot hflag a ha
      · exact .inl ⟨hsame, hgood, fun hval => hvalue hval.type⟩
      · exact .inr hnone

/-- **A field keeps what is known of its message.** -/
theorem decodeKnownField (hx : ∀ v, x = some v → v ∈ (d.env.schema.table t).fields ∧ v.IsMapValue)
    {found : FoundField} (hfound : ∀ f, found = .field f → f ∈ (d.env.schema.table t).fields)
    {op : DecodeOp} (hop : ∀ f, foundField d.env found = some f → f.isSubMessage → op = .subMessage)
    (val : UInt64) (limit pos : Nat) {msg : Message} (hm : msg.Kept d.env.schema x t) :
    EnsuresUnless .missingRequired (d.decodeKnownField t found op val limit pos msg) fun a =>
      a.2.Kept d.env.schema x t := by
  cases found with
  | field f =>
    have hf := hfound f rfl
    have hs : f.isSubMessage → msg.Reads f →
        (msg.data f.offset).Fit d.env.schema ((d.env.schema.table t).sub f) f ∨
          f.IsMapValue ∧ (msg.data f.offset).GoodValue d.env.schema ((d.env.schema.table t).sub f) f := by
      intro hsub hreads
      by_cases hxf : x = some f
      · subst hxf
        exact .inr ⟨(hx f rfl).2, hm.goodValue⟩
      · exact .inl (hm.fit hf hxf hsub hreads)
    refine EnsuresUnless.bind (h.decodeToSlot hS _ f (hop f rfl) (hS.repeated t f hf) (hS.entry t f hf)
      val limit pos hs) fun a ha => ?_
    refine EnsuresUnless.pure ?_
    obtain ⟨hsame, hgood, hvalue⟩ | ⟨-, hsame, hslot⟩ := ha
    · refine hm.store hS hf (fun v hv => ⟨(hx v hv).1, (hx v hv).2.presence⟩) hsame (fun _ => hgood) ?_
      exact fun hxf => hvalue (hx f hxf).2
    · refine hm.sameFields ⟨hsame.hasbits, hsame.oneofCase, ?_, hsame.exts⟩
      change Function.update a.2.1.data f.offset a.2.2 = _
      rw [hslot, hsame.data]
      exact Function.update_eq_self _ _
  | extension id =>
    obtain ⟨hp, hmode⟩ := hS.extension id
    refine EnsuresUnless.bind (h.decodeToSlot hS _ _ (hop _ rfl) (fun _ => hp)
      (fun hmap => absurd hmap hmode) val limit pos fun _ _ => .inl (hm.ext id)) fun a ha => ?_
    refine EnsuresUnless.pure ?_
    obtain ⟨hsame, hgood, -⟩ | ⟨hsub, hsame, -⟩ := ha
    · rw [Message.mark, if_neg (by omega), if_neg (by omega)] at hsame
      exact (hm.sameFields hsame).setExt hgood
    · exact (hm.sameFields hsame).setExt (Slot.Good.of_not_sub hsub)
  | _ => exact EnsuresUnless.pure hm

omit h hS in
theorem decodeUnknownField (layout : Option TableRef) (number : Nat) (w : WireType) (val : UInt64)
    (limit pos : Nat) {msg : Message} (hm : msg.Kept d.env.schema x t) :
    EnsuresUnless .missingRequired (d.decodeUnknownField layout number w val limit pos msg) fun a =>
      a.2.Kept d.env.schema x t := by
  unfold Decoder.decodeUnknownField
  split
  · exact EnsuresUnless.throw
  · refine EnsuresUnless.of_bind fun stop => ?_
    split
    · exact EnsuresUnless.pure (hm.sameFields ((Message.SameFields.refl msg).addUnknown _))
    · exact EnsuresUnless.pure hm

omit hS in
theorem addMessageSetItem (t' : TableRef) (typeId : UInt32) (data : List UInt8) {msg : Message}
    (hm : msg.Kept d.env.schema x t) :
    EnsuresUnless .missingRequired (d.addMessageSetItem t' typeId data msg) fun m =>
      m.Kept d.env.schema x t := by
  unfold Decoder.addMessageSetItem
  split
  · refine EnsuresUnless.of_bind fun isEmpty => ?_
    refine EnsuresUnless.bind (h.nested _ _) fun m hm' => EnsuresUnless.pure ?_
    exact hm.setExt (Slot.good_msg (fun _ => hm'.1) hm'.2)
  · exact EnsuresUnless.pure (hm.sameFields ((Message.SameFields.refl msg).addUnknown _))

omit hS in
theorem decodeMessageSetItem (t' : TableRef) (limit fuel pos : Nat) (typeId : Option UInt32)
    (payload : Option (List UInt8)) {msg : Message} (hm : msg.Kept d.env.schema x t) :
    EnsuresUnless .missingRequired (d.decodeMessageSetItem t' limit fuel pos typeId payload msg) fun a =>
      a.2.Kept d.env.schema x t := by
  induction fuel generalizing pos typeId payload msg with
  | zero => exact EnsuresUnless.throw
  | succ fuel ih =>
    refine EnsuresUnless.of_bind fun done => ?_
    split
    · exact EnsuresUnless.throw
    · refine EnsuresUnless.of_bind fun a => ?_
      dsimp only
      split
      · exact EnsuresUnless.pure hm
      · split
        · refine EnsuresUnless.of_bind fun b => ?_
          split
          · exact ih _ _ _ hm
          · exact ih _ _ _ hm
          · exact EnsuresUnless.bind (h.addMessageSetItem _ _ _ hm) fun m hm' => ih _ _ _ hm'
        · split
          · refine EnsuresUnless.of_bind fun b => ?_
            split
            · exact ih _ _ _ hm
            · exact ih _ _ _ hm
            · exact EnsuresUnless.bind (h.addMessageSetItem _ _ _ hm) fun m hm' => ih _ _ _ hm'
          · exact EnsuresUnless.of_bind fun b => ih _ _ _ hm

omit h hS in
/-- The op for a field of a message type. -/
theorem decodeWireValue_op (layout : Option TableRef) (found : FoundField) (w : Option WireType)
    (limit pos : Nat) : (d.decodeWireValue layout found w limit pos).Ensures fun a =>
      w ≠ none ∧ ∀ f, foundField d.env found = some f → f.isSubMessage →
        a.2.2 = .subMessage ∨ a.2.2 = .unknownField := by
  have htype : ∀ f : MiniTableField, f.isSubMessage →
      f.descriptortype = .message ∨ f.descriptortype = .group := by
    intro f hsub
    simpa [MiniTableField.isSubMessage] using hsub
  have hunlinked : d.checkUnlinked layout found = .subMessage ∨
      d.checkUnlinked layout found = .unknownField := by
    unfold checkUnlinked
    split
    · split
      · exact .inl rfl
      · exact .inr rfl
    · exact .inl rfl
  unfold decodeWireValue
  split
  · refine Ensures.of_bind fun a => ?_
    cases hfound : foundField d.env found with
    | none => exact Ensures.pure ⟨by simp, fun f hf => by cases hf⟩
    | some g =>
      refine Ensures.pure ⟨by simp, fun f hf hsub => .inr ?_⟩
      cases hf
      obtain hg | hg := htype g hsub
      · simp [hg, varintOp]
      · simp [hg, varintOp]
  · refine Ensures.pure ⟨by simp, fun f hf hsub => .inr ?_⟩
    obtain hg | hg := htype f hsub
    · simp [hf, hg, fixed32Ok]
    · simp [hf, hg, fixed32Ok]
  · refine Ensures.pure ⟨by simp, fun f hf hsub => .inr ?_⟩
    obtain hg | hg := htype f hsub
    · simp [hf, hg, fixed64Ok]
    · simp [hf, hg, fixed64Ok]
  · refine Ensures.of_bind fun a => Ensures.pure ⟨by simp, fun f hf hsub => ?_⟩
    simp only [getDelimitedOp, hf]
    by_cases harr : f.fieldMode = FieldMode.array
    · obtain hg | hg := htype f hsub
      · simpa [harr, hg, repeatedDelimitedOp] using hunlinked
      · simpa [harr, hg, repeatedDelimitedOp] using hunlinked
    · obtain hg | hg := htype f hsub
      · simpa [harr, hg, delimitedOp] using hunlinked
      · simp [harr, hg, delimitedOp]
  · refine Ensures.pure ⟨by simp, fun f hf hsub => ?_⟩
    cases found with
    | messageSetItem => cases hf
    | none => cases hf
    | field g =>
      dsimp only
      split
      · exact hunlinked
      · exact .inr rfl
    | extension id =>
      dsimp only
      split
      · exact hunlinked
      · exact .inr rfl
  · exact Ensures.throw

omit h hS in
theorem findExtension_ne_field (env : DecodeEnv) (t : TableRef) (number : Nat) (f : MiniTableField) :
    findExtension env t number ≠ .field f := by
  unfold findExtension
  split
  · exact fun h => nomatch h
  · split
    · split <;> exact fun h => nomatch h
    · split <;> exact fun h => nomatch h

theorem decodeField (hx : ∀ v, x = some v → v ∈ (d.env.schema.table t).fields ∧ v.IsMapValue)
    (tag : UInt32) (limit pos last : Nat) {msg : Message} (hm : msg.Kept d.env.schema x t) :
    EnsuresUnless .missingRequired (d.decodeField (some t) tag limit pos last msg) fun a =>
      a.2.2.Kept d.env.schema x t := by
  unfold Decoder.decodeField
  dsimp only
  rw [findField_fst]
  refine EnsuresUnless.bind (decodeWireValue_op _ _ _ _ _).unless fun a ha => ?_
  obtain ⟨pos', val, op⟩ := a
  obtain ⟨hw, hop⟩ := ha
  refine EnsuresUnless.bind (P := fun b => b.2.Kept d.env.schema x t) ?_ fun b hb => EnsuresUnless.pure hb
  obtain ⟨w, hw⟩ := Option.ne_none_iff_exists'.mp hw
  unfold Decoder.decodeValue
  split
  · exact decodeUnknownField _ _ _ _ _ _ hm
  next heq _ =>
    cases heq
    refine EnsuresUnless.of_bind fun _ => EnsuresUnless.level ?_
    exact h.decodeMessageSetItem _ _ _ _ _ _ hm
  next heq _ hunknown =>
    cases heq
    refine h.decodeKnownField hS hx ?_ ?_ _ _ _ hm
    · intro f hf
      unfold knownField at hf
      split at hf
      next g hg =>
        cases hf
        exact List.mem_of_find?_eq_some hg
      next => exact absurd hf (findExtension_ne_field _ _ _ f)
    · intro f hf hsub
      obtain hsub | hunk := hop f hf hsub
      · exact hsub
      · exact absurd hw (hunknown w hunk)
  next hlayout _ => exact nomatch hlayout

omit hS in
theorem checkRequired (msg : Message) :
    EnsuresUnless .missingRequired (d.checkRequired (some t) msg) fun _ =>
      msg.Complete d.env.schema t := by
  unfold Decoder.checkRequired
  dsimp only
  split
  · intro hmark
    exact nomatch hmark
  next hset =>
    refine EnsuresUnless.pure fun i hi => ?_
    rw [h.check] at hset
    simp only [true_and, List.any_eq_true, List.mem_range, not_exists, not_and] at hset
    simpa using hset i hi

theorem decodeFields (hx : ∀ v, x = some v → v ∈ (d.env.schema.table t).fields ∧ v.IsMapValue)
    (limit fuel pos last : Nat) {msg : Message} (hm : msg.Kept d.env.schema x t) :
    EnsuresUnless .missingRequired (d.decodeFields (some t) limit fuel pos last msg) fun a =>
      a.2.1.Kept d.env.schema x t ∧ (a.2.2 = none → a.2.1.Complete d.env.schema t) := by
  induction fuel generalizing pos last msg with
  | zero => exact EnsuresUnless.throw
  | succ fuel ih =>
    refine EnsuresUnless.of_bind fun done => ?_
    split
    · refine EnsuresUnless.bind (h.checkRequired msg) fun _ hcomplete => ?_
      exact EnsuresUnless.pure ⟨hm, fun _ => hcomplete⟩
    · refine EnsuresUnless.of_bind fun a => ?_
      dsimp only
      split
      · exact EnsuresUnless.pure ⟨hm, fun hend => nomatch hend⟩
      · exact EnsuresUnless.bind (h.decodeField hS hx _ _ _ _ hm) fun b hb => ih _ _ hb

end Fields

end KeepsRequired

section Runs

variable {d : Decoder} (hcheck : d.opts.checkRequired = true) (hS : d.env.schema.Regular)
  (hnested : ∀ data t, EnsuresUnless .missingRequired (d.nested data t) fun m =>
    m.Complete d.env.schema t ∧ m.Kept d.env.schema none t)
include hcheck hS hnested

theorem keepsRequired_withDepth (depth : Nat) : (d.withDepth depth).KeepsRequired := by
  induction depth with
  | zero => exact ⟨hcheck, fun _ _ _ _ _ _ _ => EnsuresUnless.throw, hnested⟩
  | succ depth ih =>
    refine ⟨hcheck, fun x t limit pos msg hx hm => ?_, hnested⟩
    exact EnsuresUnless.level (ih.decodeFields hS hx _ _ _ _ hm)

theorem decodeTop_checked (depth : Nat) (t : TableRef) {msg : Message}
    (hm : msg.Kept d.env.schema none t) :
    ((d.withDepth depth).decodeTop t msg).Ensures fun m =>
      m.Complete d.env.schema t ∧ m.Kept d.env.schema none t := by
  intro m hres
  obtain ⟨a, ha, hres⟩ := result_bind_eq_ok.mp hres
  have hnone : ∀ v, (none : Option MiniTableField) = some v →
      v ∈ (d.env.schema.table t).fields ∧ v.IsMapValue := fun v hv => nomatch hv
  have hrun := (keepsRequired_withDepth hcheck hS hnested depth).decodeFields hS hnone
    d.buf.length (d.buf.length - 0 + 1) 0 0 hm
  dsimp only at hres
  split at hres
  · exact nomatch hres
  next hend =>
    split at hres
    · exact nomatch hres
    next hmark =>
      cases hres
      obtain ⟨hkept, hcomplete⟩ := hrun (Bool.eq_false_iff.mpr hmark) a ha
      exact ⟨hcomplete (not_not.mp hend), hkept⟩

end Runs

end Decoder

section

variable {env : DecodeEnv} {opts : DecodeOptions}

theorem decodeNested_checked (hcheck : opts.checkRequired = true) (hS : env.schema.Regular) (fuel : Nat)
    (data : List UInt8) (t : TableRef) : (decodeNested env opts fuel data t).Ensures fun m =>
      m.Complete env.schema t ∧ m.Kept env.schema none t := by
  induction fuel generalizing data t with
  | zero => exact Ensures.throw
  | succ fuel ih =>
    let d : Decoder :=
      { env := env, opts := opts, buf := data, recurse := fun _ _ _ _ => throw .maxDepthExceeded,
        nested := decodeNested env opts fuel }
    exact Decoder.decodeTop_checked (d := d) hcheck hS (fun data t => (ih data t).unless) _ _
      (Message.Kept.new hS)

/-- **With `kHpb_DecodeOption_CheckRequired`, the message that is returned is complete, and so are the
checked messages in its tree.** -/
theorem decodeFrom_checked (hcheck : opts.checkRequired = true) (hS : env.schema.Regular) (depth : Nat)
    (buf : List UInt8) (t : TableRef) : (decodeFrom env opts depth buf t Message.new).Ensures fun m =>
      m.Complete env.schema t ∧ m.Kept env.schema none t := by
  let d : Decoder :=
    { env := env, opts := opts, buf := buf, recurse := fun _ _ _ _ => throw .maxDepthExceeded,
      nested := fun data => decodeNested env opts (data.length + 1) data }
  exact Decoder.decodeTop_checked (d := d) hcheck hS
    (fun data t => (decodeNested_checked hcheck hS _ data t).unless) _ _ (Message.Kept.new hS)

end

end Hpb
