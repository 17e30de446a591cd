import Hpb.Wire.DecodeEnum

/-!
# Items of a message set (`hpb_Decoder_DecodeMessageSetItem`)

An item is a group with a type id and a payload. `ItemAt` are the fields of the group in any order; the
first type id and the first payload are the item that it stands for (`itemOf`), and the loop over the group
does what they ask for (`decodeMessageSetItem_spec`), as it does for the canonical one (`Step.canonical`).

The payload of a known type should be merged into the extension that is there, as for any other message
field (`mergeItem`). The parser makes a new message for each item instead, so this holds in runs where no
known type comes twice and none is there before (`messageSet_items`).
-/

namespace Hpb

/-- A field in the group of an item. -/
inductive ItemField where
  | typeId (id : UInt32)
  | message (data : List UInt8)
  | other
  deriving DecidableEq

/-- The tags that mean something in the group of an item. -/
def isItemTag (number : Nat) (w : WireType) : Prop :=
  (number = 2 ∧ w = .varint) ∨ (number = 3 ∧ w = .delimited)

/-- The fields of an item from `pos`, after its start tag, to `stop`, after its end tag. -/
inductive ItemAt (buf : List UInt8) : Nat → Nat → List ItemField → Prop where
  | done {pos stop : Nat} (htag : TagAt buf pos stop 1 .endGroup) : ItemAt buf pos stop []
  | typeId {pos mid start stop : Nat} {v : UInt64} {fs : List ItemField} (htag : TagAt buf pos mid 2 .varint)
      (hv : VarintAt buf 10 mid start v.toNat) (hfs : ItemAt buf start stop fs) :
      ItemAt buf pos stop (.typeId v.toUInt32 :: fs)
  | message {pos mid start size stop : Nat} {fs : List ItemField} (htag : TagAt buf pos mid 3 .delimited)
      (hsize : VarintAt buf 10 mid start size) (hmax : size < int32Max) (hfs : ItemAt buf (start + size) stop fs) :
      ItemAt buf pos stop (.message ((buf.drop start).take size) :: fs)
  | other {pos mid start stop number : Nat} {w : WireType} {fs : List ItemField}
      (htag : TagAt buf pos mid number w) (hother : ¬isItemTag number w)
      (hvalue : ValueAt buf number w mid start) (hfs : ItemAt buf start stop fs) :
      ItemAt buf pos stop (.other :: fs)

/-- The first type id. -/
def firstTypeId (fs : List ItemField) : Option UInt32 :=
  fs.findSome? fun | .typeId id => some id | _ => none

/-- The first payload. -/
def firstMessage (fs : List ItemField) : Option (List UInt8) :=
  fs.findSome? fun | .message data => some data | _ => none

/-- The item that a group stands for, if it is one. -/
def itemOf (fs : List ItemField) : Option (UInt32 × List UInt8) :=
  match firstTypeId fs, firstMessage fs with
  | some id, some data => some (id, data)
  | _, _ => none

/-- The canonical item, after its start tag. -/
def canonicalItem (id : UInt32) (data : List UInt8) : List UInt8 :=
  Decoder.encodeVarint32 Decoder.typeIdTag ++ Decoder.encodeVarint32 id ++
    Decoder.encodeVarint32 Decoder.messageTag ++ Decoder.encodeVarint32 (UInt32.ofNat data.length) ++ data ++
    Decoder.encodeVarint32 Decoder.endItemTag

/-- The whole group of the canonical item. -/
def itemRecord (id : UInt32) (data : List UInt8) : List UInt8 :=
  Decoder.encodeVarint32 Decoder.startItemTag ++ canonicalItem id data

/-- A field of a message set: an item, or one that it does not know. -/
inductive SetRecord where
  | item (fields : List ItemField)
  | other (bytes : List UInt8)

/-- A field of a message set from `pos` to `stop`. -/
inductive SetRecordAt (buf : List UInt8) (pos stop : Nat) : SetRecord → Prop where
  | item {start : Nat} {fs : List ItemField} (htag : TagAt buf pos start 1 .startGroup)
      (hitem : ItemAt buf start stop fs) : SetRecordAt buf pos stop (.item fs)
  | other {number : Nat} {w : WireType} (hrecord : RecordAt buf pos stop number w)
      (hother : ¬(number = 1 ∧ w = .startGroup)) :
      SetRecordAt buf pos stop (.other ((buf.drop pos).take (stop - pos)))

/-- Fields of a message set, one after the other. -/
inductive SetRecordsAt (buf : List UInt8) : Nat → Nat → List SetRecord → Prop where
  | nil (pos : Nat) : SetRecordsAt buf pos pos []
  | cons {pos mid stop : Nat} {r : SetRecord} {rs : List SetRecord} (hrecord : SetRecordAt buf pos mid r)
      (hrecords : SetRecordsAt buf mid stop rs) : SetRecordsAt buf pos stop (r :: rs)

/-- A message set, parsed with a registry. -/
structure DecodeEnv.IsMessageSet (env : DecodeEnv) (t : TableRef) : Prop where
  fields : (env.schema.table t).fields = []
  ext : (env.schema.table t).ext = ExtMode.isMessageSet
  extreg : env.extreg ≠ none

/-- `hpb_Decode` into a message, with the arguments that the parser has for the payload of an item. -/
def decodeInto (env : DecodeEnv) (opts : DecodeOptions) (data : List UInt8) (table : TableRef) (msg : Message) :
    DecodeM Message :=
  (Decoder.start env opts (decodeNested env opts data.length) defaultDepthLimit data).decodeTop table msg

namespace SetRecord

/-- What a field does, if an item does `add`. -/
def apply (add : UInt32 × List UInt8 → Message → DecodeM Message) : SetRecord → Message → DecodeM Message
  | .item fs, msg =>
    match itemOf fs with
    | some idData => add idData msg
    | none => pure msg
  | .other bytes, msg => pure (msg.addUnknown bytes)

/-- What fields do, one after the other. -/
def applyAll (add : UInt32 × List UInt8 → Message → DecodeM Message) :
    List SetRecord → Message → DecodeM Message
  | [], msg => pure msg
  | r :: rs, msg => r.apply add msg >>= applyAll add rs

/-- The item of a field. -/
def item? : SetRecord → Option (UInt32 × List UInt8)
  | .item fs => itemOf fs
  | .other _ => none

end SetRecord

namespace Decoder

section Items

variable (d : Decoder) (t : TableRef)

/-- The extension of a type id. -/
def itemExtension (typeId : UInt32) : Option Nat := d.env.extreg.bind fun reg => reg t typeId.toNat

/-- What the parser does for an item. -/
def addItem (item : UInt32 × List UInt8) (msg : Message) : DecodeM Message :=
  d.addMessageSetItem t item.1 item.2 msg

/-- **What an item should do**: the payload of a known type is merged into its extension, as
`_hpb_Decoder_DecodeToSubMessage` does it for a field, and the canonical item is kept for an unknown type. -/
def mergeItem (item : UInt32 × List UInt8) (msg : Message) : DecodeM Message :=
  match d.itemExtension t item.1 with
  | some id => do
    let sub := (d.env.schema.exts id).sub
    let (isEmpty, m) ← d.subMessageOf sub (msg.ext id)
    let m ← decodeInto d.env d.opts item.2 sub.tableRef m
    pure (msg.setExt id (.msg isEmpty m))
  | none => pure (msg.addUnknown (itemRecord item.1 item.2))

/-- The extensions of the items with a known type. -/
def knownItems (rs : List SetRecord) : List Nat :=
  rs.filterMap fun r => r.item?.bind fun item => d.itemExtension t item.1

/-- No known type comes twice, and none is there before. -/
def FreshItems (rs : List SetRecord) (msg : Message) : Prop :=
  (d.knownItems t rs).Nodup ∧ ∀ id ∈ d.knownItems t rs, msg.isSet (.extension id) = false

end Items

/-- What is left to do when the type id and the payload that were seen are `typeId` and `payload`. -/
def finishItem (d : Decoder) (t : TableRef) (typeId : Option UInt32) (payload : Option (List UInt8))
    (fs : List ItemField) (msg : Message) : DecodeM Message :=
  match typeId, payload with
  | some _, some _ => pure msg
  | _, _ =>
    match typeId.or (firstTypeId fs), payload.or (firstMessage fs) with
    | some id, some data => d.addMessageSetItem t id data msg
    | _, _ => pure msg

section Spec

open Metered

variable {d : Decoder} {t : TableRef}

theorem finishItem_nil (typeId : Option UInt32) (payload : Option (List UInt8)) (msg : Message) :
    d.finishItem t typeId payload [] msg = pure msg := by
  cases typeId <;> cases payload <;> rfl

/-- A field that is neither the first type id nor the first payload does nothing. -/
theorem finishItem_other (typeId : Option UInt32) (payload : Option (List UInt8)) (fs : List ItemField)
    (msg : Message) : d.finishItem t typeId payload (.other :: fs) msg = d.finishItem t typeId payload fs msg := by
  cases typeId <;> cases payload <;> rfl

theorem finishItem_typeId (id id' : UInt32) (payload : Option (List UInt8)) (fs : List ItemField)
    (msg : Message) :
    d.finishItem t (some id) payload (.typeId id' :: fs) msg = d.finishItem t (some id) payload fs msg := by
  cases payload <;> rfl

theorem finishItem_message (typeId : Option UInt32) (data data' : List UInt8) (fs : List ItemField)
    (msg : Message) :
    d.finishItem t typeId (some data) (.message data' :: fs) msg = d.finishItem t typeId (some data) fs msg := by
  cases typeId <;> rfl

/-- `hpb_Decoder_SkipField` goes over one value. -/
theorem skipField_spec (hd : d.SkipsGroups) (tag : UInt32) (limit pos : Nat) :
    (d.skipField tag limit pos).Ensures fun stop =>
      ∃ w, WireType.ofTag tag = some w ∧ ValueAt d.buf (tag.toNat / 8) w pos stop := by
  unfold skipField
  split
  next hw =>
    exact Ensures.bind (d.decodeVarintAt_spec pos) fun a ha => Ensures.pure ⟨_, hw, .varint ha⟩
  next hw => exact Ensures.pure ⟨_, hw, .fixed64 _ _⟩
  next hw => exact Ensures.pure ⟨_, hw, .fixed32 _ _⟩
  next hw =>
    exact Ensures.bind (d.decodeSizeAt_spec limit pos) fun a ha => Ensures.pure ⟨_, hw, .delimited ha.1⟩
  next hw =>
    intro stop hstop
    exact ⟨_, hw, decodeUnknownGroup_spec hd _ _ _ stop hstop⟩
  next => exact Ensures.throw

/-- **The loop over the fields of an item does what its first type id and its first payload ask for.** -/
theorem decodeMessageSetItem_spec (hd : d.SkipsGroups) (limit fuel pos : Nat) (typeId : Option UInt32)
    (payload : Option (List UInt8)) (msg : Message) :
    (d.decodeMessageSetItem t limit fuel pos typeId payload msg).Ensures fun a =>
      ∃ fs, ItemAt d.buf pos a.1 fs ∧ (d.finishItem t typeId payload fs msg).result = .ok a.2 := by
  induction fuel generalizing pos typeId payload msg with
  | zero => exact Ensures.throw
  | succ fuel ih =>
    refine Ensures.of_bind fun done => ?_
    split
    · exact Ensures.throw
    · refine Ensures.bind (d.decodeTagAt_spec pos) ?_
      rintro ⟨mid, tag⟩ htag
      dsimp only at htag ⊢
      split
      · next hend =>
        subst hend
        exact Ensures.pure ⟨[], .done ⟨htag, by decide⟩, by rw [finishItem_nil]; rfl⟩
      · split
        · next hid =>
          subst hid
          refine Ensures.bind (d.decodeVarintAt_spec mid) ?_
          rintro ⟨start, v⟩ hv
          dsimp only at hv ⊢
          split
          · next id payload =>
            rintro a ha
            obtain ⟨fs, hfs, hres⟩ := ih _ _ _ _ a ha
            exact ⟨_, .typeId ⟨htag, by decide⟩ hv hfs, by rw [finishItem_typeId]; exact hres⟩
          · rintro a ha
            obtain ⟨fs, hfs, hres⟩ := ih _ _ _ _ a ha
            exact ⟨_, .typeId ⟨htag, by decide⟩ hv hfs, hres⟩
          · next data =>
            rintro a ha
            obtain ⟨msg', hmsg', ha⟩ := result_bind_eq_ok.mp ha
            obtain ⟨fs, hfs, hres⟩ := ih _ _ _ _ a ha
            cases hres
            exact ⟨_, .typeId ⟨htag, by decide⟩ hv hfs, hmsg'⟩
        · split
          · next hmessage =>
            subst hmessage
            refine Ensures.bind (d.decodeSizeAt_spec limit mid) ?_
            rintro ⟨start, size⟩ ⟨hsize, -, hmax⟩
            dsimp only at hsize hmax ⊢
            split
            · next data typeId =>
              rintro a ha
              obtain ⟨fs, hfs, hres⟩ := ih _ _ _ _ a ha
              exact ⟨_, .message ⟨htag, by decide⟩ hsize hmax hfs, by rw [finishItem_message]; exact hres⟩
            · rintro a ha
              obtain ⟨fs, hfs, hres⟩ := ih _ _ _ _ a ha
              exact ⟨_, .message ⟨htag, by decide⟩ hsize hmax hfs, hres⟩
            · next id =>
              rintro a ha
              obtain ⟨msg', hmsg', ha⟩ := result_bind_eq_ok.mp ha
              obtain ⟨fs, hfs, hres⟩ := ih _ _ _ _ a ha
              cases hres
              exact ⟨_, .message ⟨htag, by decide⟩ hsize hmax hfs, hmsg'⟩
          · next hend hid hmessage =>
            refine Ensures.bind (skipField_spec hd tag limit mid) ?_
            rintro start ⟨w, hw, hvalue⟩ a ha
            obtain ⟨fs, hfs, hres⟩ := ih _ _ _ _ a ha
            have hat := tagAt_of_varintAt htag hw
            refine ⟨_, .other hat ?_ hvalue hfs, by rw [finishItem_other]; exact hres⟩
            have htagEq := tag_toNat hw
            rintro (⟨hnum, rfl⟩ | ⟨hnum, rfl⟩)
            · exact hid (UInt32.toNat_inj.mp (by rw [htagEq, hnum]; rfl))
            · exact hmessage (UInt32.toNat_inj.mp (by rw [htagEq, hnum]; rfl))

end Spec

end Decoder

section Canonical

open Decoder

/-- The bytes from a position on are those of one item. -/
theorem ItemAt.unique {buf : List UInt8} {pos stop stop' : Nat} {fs fs' : List ItemField}
    (h : ItemAt buf pos stop fs) (h' : ItemAt buf pos stop' fs') : stop = stop' ∧ fs = fs' := by
  induction h generalizing stop' fs' with
  | done htag =>
    cases h' with
    | done htag' => exact ⟨(htag.unique htag').1, rfl⟩
    | typeId htag' => exact nomatch (htag.unique htag').2.2
    | message htag' => exact nomatch (htag.unique htag').2.2
    | other htag' _ hvalue => exact absurd (htag.unique htag').2.2.symm hvalue.ne_endGroup
  | typeId htag hv _ ih =>
    cases h' with
    | done htag' => exact nomatch (htag.unique htag').2.2
    | typeId htag' hv' hfs' =>
      obtain ⟨rfl, -, -⟩ := htag.unique htag'
      obtain ⟨rfl, hval⟩ := hv.unique hv'
      obtain rfl := UInt64.toNat_inj.mp hval
      obtain ⟨rfl, rfl⟩ := ih hfs'
      exact ⟨rfl, rfl⟩
    | message htag' => exact nomatch (htag.unique htag').2.2
    | other htag' hother =>
      obtain ⟨-, rfl, rfl⟩ := htag.unique htag'
      exact absurd (.inl ⟨rfl, rfl⟩) hother
  | message htag hsize _ _ ih =>
    cases h' with
    | done htag' => exact nomatch (htag.unique htag').2.2
    | typeId htag' => exact nomatch (htag.unique htag').2.2
    | message htag' hsize' _ hfs' =>
      obtain ⟨rfl, -, -⟩ := htag.unique htag'
      obtain ⟨rfl, rfl⟩ := hsize.unique hsize'
      obtain ⟨rfl, rfl⟩ := ih hfs'
      exact ⟨rfl, rfl⟩
    | other htag' hother =>
      obtain ⟨-, rfl, rfl⟩ := htag.unique htag'
      exact absurd (.inr ⟨rfl, rfl⟩) hother
  | other htag hother hvalue _ ih =>
    cases h' with
    | done htag' => exact absurd (htag.unique htag').2.2 hvalue.ne_endGroup
    | typeId htag' =>
      obtain ⟨-, rfl, rfl⟩ := htag.unique htag'
      exact absurd (.inl ⟨rfl, rfl⟩) hother
    | message htag' =>
      obtain ⟨-, rfl, rfl⟩ := htag.unique htag'
      exact absurd (.inr ⟨rfl, rfl⟩) hother
    | other htag' _ hvalue' hfs' =>
      obtain ⟨rfl, rfl, rfl⟩ := htag.unique htag'
      obtain rfl := hvalue.unique hvalue'
      obtain ⟨rfl, rfl⟩ := ih hfs'
      exact ⟨rfl, rfl⟩

/-- A varint of 32 bits that was written. -/
theorem varintAt_encodeVarint32 (before : List UInt8) (val : UInt32) (rest : List UInt8) {len : Nat} (hlen : 5 ≤ len) :
    VarintAt (before ++ (encodeVarint32 val ++ rest)) len before.length
      (before.length + (encodeVarint32 val).length) val.toNat := by
  obtain ⟨n, hn, hends, hstop, hval⟩ := varintAt_putSeptets before rest
    (show val.toUInt64.toNat < 2 ^ (7 * 5) from Nat.lt_trans val.toNat_lt (by decide)) (by decide)
  exact ⟨n, Nat.lt_of_lt_of_le hn hlen, hends, hstop, hval⟩

/-- The canonical item has its type id and its payload. -/
theorem itemAt_canonicalItem (before : List UInt8) (id : UInt32) {data : List UInt8} (hdata : data.length < int32Max)
    (rest : List UInt8) : ItemAt (before ++ (canonicalItem id data ++ rest)) before.length
      (before.length + (canonicalItem id data).length) [.typeId id, .message data] := by
  have hsize : (UInt32.ofNat data.length).toNat = data.length := UInt32.toNat_ofNat_of_lt' (Nat.lt_trans hdata (by decide))
  have h₁ := varintAt_encodeVarint32 before typeIdTag (encodeVarint32 id ++ (encodeVarint32 messageTag ++
    (encodeVarint32 (UInt32.ofNat data.length) ++ (data ++ (encodeVarint32 endItemTag ++ rest))))) (Nat.le_refl 5)
  have h₂ := varintAt_encodeVarint32 (before ++ encodeVarint32 typeIdTag) id (encodeVarint32 messageTag ++
    (encodeVarint32 (UInt32.ofNat data.length) ++ (data ++ (encodeVarint32 endItemTag ++ rest))))
    (show 5 ≤ 10 by decide)
  have h₃ := varintAt_encodeVarint32 (before ++ encodeVarint32 typeIdTag ++ encodeVarint32 id) messageTag
    (encodeVarint32 (UInt32.ofNat data.length) ++ (data ++ (encodeVarint32 endItemTag ++ rest))) (Nat.le_refl 5)
  have h₄ := varintAt_encodeVarint32 (before ++ encodeVarint32 typeIdTag ++ encodeVarint32 id ++ encodeVarint32 messageTag)
    (UInt32.ofNat data.length) (data ++ (encodeVarint32 endItemTag ++ rest)) (show 5 ≤ 10 by decide)
  have h₅ := varintAt_encodeVarint32 (before ++ encodeVarint32 typeIdTag ++ encodeVarint32 id ++
    encodeVarint32 messageTag ++ encodeVarint32 (UInt32.ofNat data.length) ++ data) endItemTag rest (Nat.le_refl 5)
  rw [hsize] at h₄
  have hbuf : before ++ (canonicalItem id data ++ rest) = before ++ (encodeVarint32 typeIdTag ++ (encodeVarint32 id ++
      (encodeVarint32 messageTag ++ (encodeVarint32 (UInt32.ofNat data.length) ++
        (data ++ (encodeVarint32 endItemTag ++ rest)))))) := by
    simp only [canonicalItem, List.append_assoc]
  have hslice : ((before ++ (canonicalItem id data ++ rest)).drop (before ++ encodeVarint32 typeIdTag ++
      encodeVarint32 id ++ encodeVarint32 messageTag ++
        encodeVarint32 (UInt32.ofNat data.length)).length).take data.length = data := by
    have hsplit : before ++ (canonicalItem id data ++ rest) = (before ++ encodeVarint32 typeIdTag ++ encodeVarint32 id ++
        encodeVarint32 messageTag ++ encodeVarint32 (UInt32.ofNat data.length)) ++
          (data ++ (encodeVarint32 endItemTag ++ rest)) := by
      simp only [hbuf, List.append_assoc]
    rw [hsplit, List.drop_left, List.take_left]
  have hid : id.toUInt64.toUInt32 = id := UInt32.toUInt32_toUInt64 id
  have hitem : ItemAt (before ++ (canonicalItem id data ++ rest)) before.length
      (before.length + (canonicalItem id data).length)
      [.typeId id.toUInt64.toUInt32, .message (((before ++ (canonicalItem id data ++ rest)).drop
        (before ++ encodeVarint32 typeIdTag ++ encodeVarint32 id ++ encodeVarint32 messageTag ++
          encodeVarint32 (UInt32.ofNat data.length)).length).take data.length)] := by
    have hlen : before.length + (canonicalItem id data).length = before.length + (encodeVarint32 typeIdTag).length +
        (encodeVarint32 id).length + (encodeVarint32 messageTag).length +
        (encodeVarint32 (UInt32.ofNat data.length)).length + data.length + (encodeVarint32 endItemTag).length := by
      simp only [canonicalItem, List.length_append, Nat.add_assoc]
    simp only [List.append_assoc, ← hbuf] at h₁ h₂ h₃ h₄ h₅
    simp only [List.length_append, ← Nat.add_assoc] at h₁ h₂ h₃ h₄ h₅ hlen ⊢
    rw [← hlen] at h₅
    exact .typeId ⟨h₁, by decide⟩ h₂ (.message ⟨h₃, by decide⟩ h₄ hdata (.done ⟨h₅, by decide⟩))
  rwa [hid, hslice] at hitem

/-- Each field of an item has a byte. -/
theorem ItemAt.length_add_le {buf : List UInt8} {pos stop : Nat} {fs : List ItemField} (h : ItemAt buf pos stop fs) :
    pos + fs.length + 1 ≤ stop := by
  induction h with
  | done htag => exact htag.lt
  | typeId htag hv _ ih =>
    have h₁ := htag.lt
    have h₂ := hv.lt
    rw [List.length_cons]
    omega
  | message htag hsize _ _ ih =>
    have h₁ := htag.lt
    have h₂ := hsize.lt
    rw [List.length_cons]
    omega
  | other htag _ hvalue _ ih =>
    have h₁ := htag.lt
    have h₂ := hvalue.le
    rw [List.length_cons]
    omega

/-- The canonical item as a field of a message set. -/
theorem setRecordAt_itemRecord (before : List UInt8) (id : UInt32) {data : List UInt8}
    (hdata : data.length < int32Max) (rest : List UInt8) :
    SetRecordAt (before ++ (itemRecord id data ++ rest)) before.length
      (before.length + (itemRecord id data).length) (.item [.typeId id, .message data]) := by
  have htag := varintAt_encodeVarint32 before startItemTag (canonicalItem id data ++ rest) (Nat.le_refl 5)
  have hitem := itemAt_canonicalItem (before ++ encodeVarint32 startItemTag) id hdata rest
  have hlen : (itemRecord id data).length = (encodeVarint32 startItemTag).length + (canonicalItem id data).length :=
    List.length_append
  rw [List.append_assoc, List.length_append, Nat.add_assoc, ← hlen] at hitem
  rw [← List.append_assoc (encodeVarint32 startItemTag)] at htag hitem
  exact .item ⟨htag, by decide⟩ hitem

/-- A payload has a size that the parser takes. -/
theorem ItemAt.firstMessage_length_lt {buf : List UInt8} {pos stop : Nat} {fs : List ItemField}
    (h : ItemAt buf pos stop fs) {data : List UInt8} (hdata : firstMessage fs = some data) :
    data.length < int32Max := by
  induction h with
  | done htag => exact nomatch hdata
  | typeId htag hv hfs ih => exact ih hdata
  | message htag hsize hmax hfs ih =>
    cases hdata
    exact Nat.lt_of_le_of_lt (List.length_take_le _ _) hmax
  | other htag hother hvalue hfs ih => exact ih hdata

theorem ItemAt.length_lt {buf : List UInt8} {pos stop : Nat} {fs : List ItemField} (h : ItemAt buf pos stop fs)
    {id : UInt32} {data : List UInt8} (hitem : itemOf fs = some (id, data)) : data.length < int32Max := by
  refine h.firstMessage_length_lt ?_
  unfold itemOf at hitem
  split at hitem
  next hid hdata =>
    cases hitem
    exact hdata
  next => exact nomatch hitem

theorem SetRecordAt.lt {buf : List UInt8} {pos stop : Nat} {r : SetRecord} (h : SetRecordAt buf pos stop r) :
    pos < stop := by
  cases h with
  | item htag hitem =>
    have h₁ := htag.lt
    have h₂ := hitem.length_add_le
    omega
  | other hrecord _ =>
    obtain ⟨start, htag, hvalue⟩ := hrecord
    exact Nat.lt_of_lt_of_le htag.lt hvalue.le

theorem SetRecordAt.unique {buf : List UInt8} {pos stop stop' : Nat} {r r' : SetRecord}
    (h : SetRecordAt buf pos stop r) (h' : SetRecordAt buf pos stop' r') : stop = stop' ∧ r = r' := by
  cases h with
  | item htag hitem =>
    cases h' with
    | item htag' hitem' =>
      obtain ⟨rfl, -, -⟩ := htag.unique htag'
      obtain ⟨rfl, rfl⟩ := hitem.unique hitem'
      exact ⟨rfl, rfl⟩
    | other hrecord' hother' =>
      obtain ⟨start', htag', -⟩ := hrecord'
      obtain ⟨-, rfl, rfl⟩ := htag.unique htag'
      exact absurd ⟨rfl, rfl⟩ hother'
  | other hrecord hother =>
    cases h' with
    | item htag' _ =>
      obtain ⟨start, htag, -⟩ := hrecord
      obtain ⟨-, rfl, rfl⟩ := htag.unique htag'
      exact absurd ⟨rfl, rfl⟩ hother
    | other hrecord' _ =>
      obtain rfl := hrecord.unique hrecord'
      exact ⟨rfl, rfl⟩

theorem SetRecordsAt.le {buf : List UInt8} {pos stop : Nat} {rs : List SetRecord} (h : SetRecordsAt buf pos stop rs) :
    pos ≤ stop := by
  induction h with
  | nil => exact Nat.le_refl _
  | cons hrecord _ ih => exact Nat.le_trans (Nat.le_of_lt hrecord.lt) ih

/-- The bytes between two positions are those of one list of fields. -/
theorem SetRecordsAt.unique {buf : List UInt8} {pos stop : Nat} {rs rs' : List SetRecord}
    (h : SetRecordsAt buf pos stop rs) (h' : SetRecordsAt buf pos stop rs') : rs = rs' := by
  induction h generalizing rs' with
  | nil =>
    cases h' with
    | nil => rfl
    | cons hrecord' hrecords' => exact absurd (Nat.lt_of_lt_of_le hrecord'.lt hrecords'.le) (Nat.lt_irrefl _)
  | cons hrecord hrecords ih =>
    cases h' with
    | nil => exact absurd (Nat.lt_of_lt_of_le hrecord.lt hrecords.le) (Nat.lt_irrefl _)
    | cons hrecord' hrecords' =>
      obtain ⟨rfl, rfl⟩ := hrecord.unique hrecord'
      rw [ih hrecords']

end Canonical

namespace Decoder

section Forward

open Metered

variable {d : Decoder} {pos stop : Nat}

theorem decodeVarintAt_of_varintAt {v : UInt64} (h : VarintAt d.buf 10 pos stop v.toNat) :
    d.decodeVarintAt pos = pure (stop, v) := by
  obtain ⟨n, hn, hends, rfl, hval⟩ := h
  have hv : UInt64.ofNat (septets (bytesFrom d.buf pos) (n + 1)) = v :=
    UInt64.toNat_inj.mp (UInt64.toNat_ofNat'.trans hval.symm)
  rw [decodeVarintAt, mem, decodeVarint_of_ends hends hn, hv]
  rfl

theorem decodeTagAt_of_varintAt {tag : UInt32} (h : VarintAt d.buf 5 pos stop tag.toNat) :
    d.decodeTagAt pos = pure (stop, tag) := by
  obtain ⟨n, hn, hends, rfl, hval⟩ := h
  have hv := decodeVarint_of_ends hends (Nat.lt_trans hn (by decide))
  have htag : (UInt64.ofNat (septets (bytesFrom d.buf pos) (n + 1))).toNat = tag.toNat :=
    UInt64.toNat_ofNat'.trans hval.symm
  have hlt := tag.toNat_lt
  have hdecode : decodeTag (bytesFrom d.buf pos) = some (n + 1, tag) := by
    unfold decodeTag
    unfold decodeVarint at hv
    split
    next hone =>
      rw [if_pos hone] at hv
      obtain ⟨hlen, hv⟩ := Prod.mk.inj (Option.some.inj hv)
      rw [← hlen]
      refine congrArg (fun tag => some (1, tag)) (UInt32.toNat_inj.mp ?_)
      rw [← htag, ← hv, UInt8.toNat_toUInt64, UInt8.toNat_toUInt32]
    next hmore =>
      rw [if_neg hmore] at hv
      rw [hv]
      dsimp only
      rw [if_neg (by omega)]
      refine congrArg (fun tag => some (n + 1, tag)) (UInt32.toNat_inj.mp ?_)
      rw [UInt64.toNat_toUInt32, htag]
      omega
  rw [decodeTagAt, mem, hdecode]
  rfl

theorem decodeTagAt_of_tagAt {number : Nat} {w : WireType} (h : TagAt d.buf pos stop number w) :
    d.decodeTagAt pos = pure (stop, makeTag number w) := by
  refine decodeTagAt_of_varintAt ?_
  rw [makeTag_toNat h.2]
  exact h.1

theorem decodeSizeAt_of_varintAt {size limit : Nat} (h : VarintAt d.buf 10 pos stop size) (hmax : size < int32Max)
    (hlimit : stop + size ≤ limit) : d.decodeSizeAt limit pos = pure (stop, size) := by
  obtain ⟨n, hn, hends, rfl, hval⟩ := h
  have hsize : (UInt32.ofNat (septets (bytesFrom d.buf pos) (n + 1))).toNat = size := by
    rw [UInt32.toNat_ofNat']
    have h31 : int32Max < 2 ^ 32 := by decide
    omega
  rw [decodeSizeAt, mem, decodeSize_of_ends _ hends hn, ← hval, if_pos ⟨hmax, decide_eq_true (by omega)⟩]
  exact congrArg (fun size => pure (pos + (n + 1), size)) hsize

theorem isDone_of_lt {limit : Nat} (h : pos < limit) : isDone limit pos = pure false := if_pos h

/-- A group with a type id and then a payload adds the item. -/
theorem decodeMessageSetItem_canonical {t : TableRef} {id : UInt32} {data : List UInt8}
    (hitem : ItemAt d.buf pos stop [.typeId id, .message data]) {limit fuel : Nat} (hlimit : stop ≤ limit)
    (hfuel : 3 ≤ fuel) (msg : Message) :
    (d.decodeMessageSetItem t limit fuel pos none none msg).result =
      (d.addMessageSetItem t id data msg >>= fun msg => pure (stop, msg)).result := by
  obtain ⟨fuel, rfl⟩ : ∃ k, fuel = k + 3 := ⟨fuel - 3, by omega⟩
  cases hitem with
  | typeId htag hv hfs =>
    cases hfs with
    | message htag' hsize hmax hend =>
      cases hend with
      | done htag'' =>
        have hpos := htag.lt
        have hpos' := htag'.lt
        have hpos'' := htag''.lt
        have hlt := hv.lt
        have hlt' := hsize.lt
        have hid : makeTag 2 .varint = typeIdTag := rfl
        have hid' : typeIdTag ≠ endItemTag := by decide
        have hmessage : makeTag 3 .delimited = messageTag := rfl
        have hmessage' : messageTag ≠ endItemTag := by decide
        have hmessage'' : messageTag ≠ typeIdTag := by decide
        have hend : makeTag 1 .endGroup = endItemTag := rfl
        rw [decodeMessageSetItem, isDone_of_lt (by omega), pure_bind, decodeTagAt_of_tagAt htag, hid]
        simp only [pure_bind, Bool.false_eq_true, if_false, if_neg hid', if_true, decodeVarintAt_of_varintAt hv]
        rw [decodeMessageSetItem, isDone_of_lt (by omega), pure_bind, decodeTagAt_of_tagAt htag', hmessage]
        simp only [pure_bind, Bool.false_eq_true, if_false, if_neg hmessage', if_neg hmessage'', if_true,
          decodeSizeAt_of_varintAt hsize hmax (show _ ≤ limit by omega)]
        refine congrArg Metered.result (congrArg (d.addMessageSetItem t _ _ msg >>= ·) (funext fun m => ?_))
        rw [decodeMessageSetItem, isDone_of_lt (by omega), pure_bind, decodeTagAt_of_tagAt htag'', hend]
        simp only [pure_bind, Bool.false_eq_true, if_false, if_true]

end Forward

section Steps

open Metered

variable {d : Decoder} {t : TableRef} {limit : Nat} {s s' : LoopState}

theorem finishItem_eq_apply (fs : List ItemField) (msg : Message) :
    d.finishItem t none none fs msg = (SetRecord.item fs).apply (d.addItem t) msg := by
  unfold finishItem SetRecord.apply itemOf
  dsimp only [Option.none_or]
  cases firstTypeId fs <;> cases firstMessage fs <;> rfl

theorem knownField_of_isMessageSet {env : DecodeEnv} (hset : env.IsMessageSet t) (number : Nat) :
    knownField env t number = if number = 1 then .messageSetItem else .none := by
  unfold knownField
  rw [hset.fields, List.find?_nil]
  dsimp only
  unfold findExtension
  cases hreg : env.extreg with
  | none => exact absurd hreg hset.extreg
  | some reg =>
    dsimp only
    have hne : ¬ExtMode.isMessageSet = ExtMode.extendable := by decide
    rw [hset.ext, if_neg hne]
    by_cases hnumber : number = 1
    · rw [if_pos hnumber, if_pos ⟨rfl, hnumber⟩]
    · rw [if_neg hnumber, if_neg fun h => hnumber h.2]

theorem not_admits_of_isMessageSet {env : DecodeEnv} (hset : env.IsMessageSet t) {number : Nat} {w : WireType}
    (hother : ¬(number = 1 ∧ w = .startGroup)) : ¬Admits env (knownField env t number) w := by
  rw [knownField_of_isMessageSet hset]
  split
  next hnumber => exact fun hw => hother ⟨hnumber, hw⟩
  next => exact id

/-- What the loop does for the start tag of an item. -/
theorem decodeField_item (hset : d.env.IsMessageSet t) {pos last stop last' : Nat} {msg msg' : Message} :
    (d.decodeField (some t) startItemTag limit pos last msg).result = .ok (stop, last', msg') ↔
      last' = (findField d.env (some t) 1 last).2 ∧
        (d.decodeMessageSetItem t limit (limit - pos + 1) pos none none msg).result = .ok (stop, msg') := by
  have hfound : (findField d.env (some t) (startItemTag.toNat / 8) last).1 = .messageSetItem := by
    rw [findField_fst, knownField_of_isMessageSet hset]
    rfl
  have hw : WireType.ofTag startItemTag = some .startGroup := rfl
  unfold decodeField
  dsimp only
  rw [hfound, hw]
  simp only [decodeWireValue, pure_bind, decodeValue, hw]
  constructor
  · intro h
    obtain ⟨a, ha, hpure⟩ := result_bind_eq_ok.mp h
    obtain ⟨-, -, ha⟩ := result_bind_eq_ok.mp ha
    cases hpure
    exact ⟨rfl, ha⟩
  · rintro ⟨rfl, h⟩
    exact result_bind_eq_ok.mpr ⟨_, result_bind_eq_ok.mpr ⟨(), rfl, h⟩, rfl⟩

/-- The loop at an item. -/
theorem Step.item (hd : d.SkipsGroups) (hset : d.env.IsMessageSet t)
    (h : d.Step (some t) limit s 1 .startGroup s') :
    ∃ fs, SetRecordAt d.buf s.pos s'.pos (.item fs) ∧ s'.last = (findField d.env (some t) 1 s.last).2 ∧
      ((SetRecord.item fs).apply (d.addItem t) s.msg).result = .ok s'.msg := by
  obtain ⟨start, tag, htag, hnumber, hw, -, hfield⟩ := h.field
  have hat := tagAt_of_varintAt (d.decodeTagAt_spec _ _ htag) hw
  rw [hnumber] at hat
  obtain rfl : tag = startItemTag := UInt32.toNat_inj.mp (by rw [tag_toNat hw, hnumber]; rfl)
  obtain ⟨hlast, hitem⟩ := (decodeField_item hset).mp hfield
  obtain ⟨fs, hfs, hres⟩ := decodeMessageSetItem_spec hd _ _ _ _ _ _ _ hitem
  rw [finishItem_eq_apply] at hres
  exact ⟨fs, .item hat hfs, hlast, hres⟩

/-- The loop at a field of a message set. -/
theorem Step.setRecord (hd : d.SkipsGroups) (hset : d.env.IsMessageSet t) {number : Nat} {w : WireType}
    (h : d.Step (some t) limit s number w s') :
    ∃ r, SetRecordAt d.buf s.pos s'.pos r ∧ (r.apply (d.addItem t) s.msg).result = .ok s'.msg := by
  by_cases hitem : number = 1 ∧ w = .startGroup
  · obtain ⟨rfl, rfl⟩ := hitem
    obtain ⟨fs, hfs, -, hres⟩ := h.item hd hset
    exact ⟨_, hfs, hres⟩
  · have hgroup : ¬(w = .delimited ∧ ParsedGroup d.env d.opts t (knownField d.env t number)) := by
      rw [knownField_of_isMessageSet hset]
      rintro ⟨-, hparsed⟩
      split at hparsed <;> exact hparsed
    obtain ⟨hrecord, hmsg⟩ := h.keeps hd (not_admits_of_isMessageSet hset hitem) hgroup
    exact ⟨_, .other hrecord hitem, congrArg Except.ok hmsg.symm⟩

/-- The loop over fields of a message set. -/
theorem Steps.setRecords (hd : d.SkipsGroups) (hset : d.env.IsMessageSet t) (h : d.Steps (some t) limit s s') :
    ∃ rs, SetRecordsAt d.buf s.pos s'.pos rs ∧
      (SetRecord.applyAll (d.addItem t) rs s.msg).result = .ok s'.msg := by
  induction h using Relation.ReflTransGen.head_induction_on with
  | refl => exact ⟨[], .nil _, rfl⟩
  | head hstep _ ih =>
    obtain ⟨number, w, hstep⟩ := hstep
    obtain ⟨r, hr, hres⟩ := hstep.setRecord hd hset
    obtain ⟨rs, hrs, hrest⟩ := ih
    exact ⟨r :: rs, .cons hr hrs, result_bind_eq_ok.mpr ⟨_, hres, hrest⟩⟩

/-- The canonical item takes the loop from a message to the same message as the group that it is for. -/
theorem Step.canonical {d' : Decoder} (hset : d.env.IsMessageSet t) {id : UInt32} {data rest : List UInt8}
    (hdata : data.length < int32Max) (henv : d'.env = d.env) (hopts : d'.opts = d.opts) (hnested : d'.nested = d.nested)
    (hbuf : d'.buf = itemRecord id data ++ rest) {fs : List ItemField} (hitem : itemOf fs = some (id, data))
    {last : Nat} {msg msg' : Message} (h : ((SetRecord.item fs).apply (d.addItem t) msg).result = .ok msg') :
    d'.Step (some t) d'.buf.length ⟨0, last, msg⟩ 1 .startGroup
      ⟨(itemRecord id data).length, (findField d.env (some t) 1 last).2, msg'⟩ := by
  have hadd : (d'.addMessageSetItem t id data msg).result = .ok msg' := by
    simp only [SetRecord.apply, hitem, addItem] at h
    rw [← h]
    unfold addMessageSetItem addKnownMessageSetItem newSubMessage
    rw [henv, hopts, hnested]
  have hrecord := setRecordAt_itemRecord [] id hdata rest
  rw [List.nil_append, List.length_nil, Nat.zero_add, ← hbuf] at hrecord
  have hlen : (itemRecord id data).length ≤ d'.buf.length := by
    rw [hbuf, List.length_append]
    exact Nat.le_add_right _ _
  cases hrecord with
  | item hstart hat =>
    have hpos : _ + 2 + 1 ≤ _ := hat.length_add_le
    have hlt := hstart.lt
    refine ⟨show 0 < _ by omega, _, startItemTag, congrArg Metered.result (decodeTagAt_of_tagAt hstart), rfl, rfl, by decide, ?_⟩
    rw [← henv]
    refine (decodeField_item (henv ▸ hset)).mpr ⟨rfl, ?_⟩
    rw [decodeMessageSetItem_canonical hat hlen (by omega)]
    exact result_bind_eq_ok.mpr ⟨msg', hadd, rfl⟩

end Steps

section Merge

open Metered

variable {d : Decoder} {t : TableRef}

theorem isSet_setExt_ne {id id' : Nat} (hne : id' ≠ id) (msg : Message) (slot : Slot) :
    (msg.setExt id slot).isSet (.extension id') = msg.isSet (.extension id') := by
  unfold Message.setExt Message.isSet
  dsimp only
  split
  next =>
    rw [List.any_map]
    refine congrArg (List.any msg.exts) (funext fun e => ?_)
    dsimp only [Function.comp]
    by_cases he : e.1 = id
    · rw [if_pos he, he]
    · rw [if_neg he]
  next =>
    have hfalse : (id == id') = false := beq_false_of_ne hne.symm
    rw [List.any_cons, hfalse, Bool.false_or]

theorem ext_of_isSet_eq_false {id : Nat} {msg : Message} (h : msg.isSet (.extension id) = false) : msg.ext id = .zero := by
  have hnone : msg.exts.find? (fun e => e.1 == id) = none := by
    refine List.find?_eq_none.mpr fun e he heq => ?_
    have := List.any_eq_false.mp h e he
    exact this heq
  rw [Message.ext, hnone]

theorem addUnknownMessageSetItem_eq (typeId : UInt32) (data : List UInt8) (msg : Message) :
    addUnknownMessageSetItem typeId data msg = msg.addUnknown (itemRecord typeId data) := by
  simp only [addUnknownMessageSetItem, itemRecord, canonicalItem, List.append_assoc]

/-- An item of a type that is not there is merged. -/
theorem mergeItem_of_fresh (hnested : ∀ data table, d.nested data table = decodeInto d.env d.opts data table Message.new)
    (item : UInt32 × List UInt8) {msg : Message}
    (hfresh : ∀ id, d.itemExtension t item.1 = some id → msg.isSet (.extension id) = false) :
    d.mergeItem t item msg = d.addItem t item msg := by
  unfold mergeItem addItem addMessageSetItem
  change (match d.itemExtension t item.1 with | some id => _ | none => _) =
    match d.itemExtension t item.1 with | some id => _ | none => _
  cases hid : d.itemExtension t item.1 with
  | none => exact congrArg pure (addUnknownMessageSetItem_eq _ _ _).symm
  | some id =>
    dsimp only
    rw [ext_of_isSet_eq_false (hfresh id hid), addKnownMessageSetItem]
    simp only [subMessageOf, bind_assoc, pure_bind, hnested]

/-- An item sets no other extension. -/
theorem apply_isSet {r : SetRecord} {msg msg' : Message} (h : (r.apply (d.addItem t) msg).result = .ok msg')
    {id' : Nat} (hne : ∀ item, r.item? = some item → d.itemExtension t item.1 ≠ some id') :
    msg'.isSet (.extension id') = msg.isSet (.extension id') := by
  cases r with
  | other bytes =>
    cases h
    rfl
  | item fs =>
    unfold SetRecord.apply at h
    dsimp only at h
    cases hitem : itemOf fs with
    | none =>
      rw [hitem] at h
      cases h
      rfl
    | some item =>
      rw [hitem] at h
      dsimp only [addItem, addMessageSetItem] at h
      change (match d.itemExtension t item.1 with | some id => _ | none => _ : DecodeM Message).result = _ at h
      cases hid : d.itemExtension t item.1 with
      | none =>
        rw [hid] at h
        cases h
        rfl
      | some id =>
        rw [hid] at h
        obtain ⟨isEmpty, -, h⟩ := result_bind_eq_ok.mp h
        obtain ⟨m, -, hpure⟩ := result_bind_eq_ok.mp h
        cases hpure
        refine isSet_setExt_ne ?_ _ _
        rintro rfl
        exact hne item hitem hid

/-- **Items of types that do not come twice are merged.** -/
theorem applyAll_merge (hnested : ∀ data table, d.nested data table = decodeInto d.env d.opts data table Message.new)
    {rs : List SetRecord} {msg msg' : Message} (hfresh : d.FreshItems t rs msg)
    (h : (SetRecord.applyAll (d.addItem t) rs msg).result = .ok msg') :
    (SetRecord.applyAll (d.mergeItem t) rs msg).result = .ok msg' := by
  induction rs generalizing msg with
  | nil => exact h
  | cons r rs ih =>
    obtain ⟨msg₁, h₁, h⟩ := result_bind_eq_ok.mp h
    obtain ⟨hnodup, hset⟩ := hfresh
    have hmerge : r.apply (d.mergeItem t) msg = r.apply (d.addItem t) msg := by
      cases r with
      | other bytes => rfl
      | item fs =>
        unfold SetRecord.apply
        dsimp only
        cases hitem : itemOf fs with
        | none => rfl
        | some item =>
          refine mergeItem_of_fresh hnested item fun id hid => hset id ?_
          refine List.mem_filterMap.mpr ⟨.item fs, List.mem_cons_self, ?_⟩
          exact Option.bind_eq_some_iff.mpr ⟨item, hitem, hid⟩
    refine result_bind_eq_ok.mpr ⟨msg₁, by rw [hmerge]; exact h₁, ih ⟨?_, fun id hid => ?_⟩ h⟩
    · exact hnodup.sublist ((List.sublist_cons_self r rs).filterMap _)
    · have hne : ∀ item, r.item? = some item → d.itemExtension t item.1 ≠ some id := by
        intro item hitem hsome
        have hcons : d.knownItems t (r :: rs) = id :: d.knownItems t rs := by
          simp only [knownItems, List.filterMap_cons, hitem, Option.bind_some, hsome]
        rw [hcons] at hnodup
        exact (List.nodup_cons.mp hnodup).1 hid
      rw [apply_isSet h₁ hne]
      exact hset id (((List.sublist_cons_self r rs).filterMap _).subset hid)

end Merge

end Decoder

/-- The decoder of a call of `hpb_Decode` where a depth is left. -/
def Decoder.startAt (env : DecodeEnv) (opts : DecodeOptions) (top depth : Nat) (buf : List UInt8) : Decoder :=
  (Decoder.startFrom env opts top buf).withDepth depth

/-- **Items of a message set.** An item does what its canonical form does at any other place. Between two
states of the loop there is one list of fields; they have the effect of the additions of their items,
which are merges if no known type comes twice and none is there before. -/
theorem messageSet_items (env : DecodeEnv) (opts : DecodeOptions) (top depth : Nat) (buf : List UInt8) {t : TableRef}
    (hset : env.IsMessageSet t) (limit : Nat) (s s' : Decoder.LoopState) :
    ((Decoder.startAt env opts top depth buf).Step (some t) limit s 1 .startGroup s' →
      ∃ fs, SetRecordAt buf s.pos s'.pos (.item fs) ∧
        ∀ id data, itemOf fs = some (id, data) → ∀ rest,
          (Decoder.startAt env opts top depth (itemRecord id data ++ rest)).Step (some t)
            (itemRecord id data ++ rest).length ⟨0, s.last, s.msg⟩ 1 .startGroup
            ⟨(itemRecord id data).length, s'.last, s'.msg⟩) ∧
    ((Decoder.startAt env opts top depth buf).Steps (some t) limit s s' →
      ∃ rs, SetRecordsAt buf s.pos s'.pos rs ∧ (∀ rs', SetRecordsAt buf s.pos s'.pos rs' → rs' = rs) ∧
        (SetRecord.applyAll ((Decoder.startAt env opts top depth buf).addItem t) rs s.msg).result = .ok s'.msg ∧
        ((Decoder.startAt env opts top depth buf).FreshItems t rs s.msg →
          (SetRecord.applyAll ((Decoder.startAt env opts top depth buf).mergeItem t) rs s.msg).result =
            .ok s'.msg)) := by
  have hd : (Decoder.startAt env opts top depth buf).SkipsGroups :=
    Decoder.skipsGroups_withDepth (Decoder.startFrom env opts top buf) depth
  constructor
  · intro h
    obtain ⟨fs, hfs, hlast, hres⟩ := h.item hd hset
    refine ⟨fs, hfs, fun id data hitem rest => ?_⟩
    have hdata : data.length < int32Max := by
      cases hfs with
      | item _ hat => exact hat.length_lt hitem
    rw [hlast]
    exact Decoder.Step.canonical hset hdata rfl rfl rfl rfl hitem hres
  · intro h
    obtain ⟨rs, hrs, hres⟩ := h.setRecords hd hset
    exact ⟨rs, hrs, fun rs' hrs' => hrs'.unique hrs, hres,
      fun hfresh => Decoder.applyAll_merge (fun _ _ => rfl) hfresh hres⟩

section TwoItems

/-- A message with the optional int32 fields 1 and 2, at the offsets 8 and 12. -/
def pairTable : MiniTable where
  subs := []
  fields := [⟨1, 8, 1, 0, .int32, FieldMode.scalar⟩, ⟨2, 12, 2, 0, .int32, FieldMode.scalar⟩]
  size := 16
  fieldCount := 2
  ext := ExtMode.nonExtendable
  denseBelow := 2
  tableMask := 255
  requiredCount := 0

theorem pairTable_searchable : MiniTable.Searchable pairTable.fields pairTable.denseBelow := by
  refine ⟨by decide, fun i hi => ?_⟩
  obtain rfl | rfl : i = 0 ∨ i = 1 := by
    change i < 2 at hi
    omega
  · exact ⟨_, rfl, rfl⟩
  · exact ⟨_, rfl, rfl⟩

theorem itemTable_fieldCount (id : Nat) :
    (if id = 0 then { MiniTable.empty with ext := ExtMode.isMessageSet } else pairTable).fieldCount =
      (if id = 0 then { MiniTable.empty with ext := ExtMode.isMessageSet } else pairTable).fields.length := by
  split <;> rfl

theorem itemTable_searchable (id : Nat) : MiniTable.Searchable
    (if id = 0 then { MiniTable.empty with ext := ExtMode.isMessageSet } else pairTable).fields
    (if id = 0 then { MiniTable.empty with ext := ExtMode.isMessageSet } else pairTable).denseBelow := by
  split
  · exact ⟨List.Pairwise.nil, fun _ hi => absurd hi (Nat.not_lt_zero _)⟩
  · exact pairTable_searchable

/-- A message set, at 0, and the type 5 of its items, whose payload is a message of `pairTable`. -/
def itemSchema : Schema where
  tables := fun id => if id = 0 then { MiniTable.empty with ext := ExtMode.isMessageSet } else pairTable
  enums := fun _ => ⟨0, 0, []⟩
  exts := fun _ => ⟨⟨5, 0, 0, 0, .message, FieldMode.scalar⟩, .table 0, .submsg 1⟩
  fieldCount_eq := itemTable_fieldCount
  searchable := itemTable_searchable

def itemEnv : DecodeEnv where
  schema := itemSchema
  extreg := some fun _ number => if number = 5 then some 0 else none
  verifyUtf8 := fun _ => true
  encode := fun _ _ => none

/-- The message in a field. -/
def Slot.message : Slot → Message
  | .msg _ m => m
  | _ => Message.new

theorem itemEnv_isMessageSet : itemEnv.IsMessageSet (.table 0) := ⟨rfl, rfl, nofun⟩

/-- An item whose payload comes first sets its field. -/
theorem messageSet_items_payload_first : ∃ m rs,
    (Decoder.startAt itemEnv ⟨false, false, 0⟩ 100 100 [11, 26, 2, 8, 1, 16, 5, 12]).Steps (some (.table 0)) 8
        ⟨0, 0, Message.new⟩ ⟨8, 0, m⟩ ∧
      SetRecordsAt [11, 26, 2, 8, 1, 16, 5, 12] 0 8 rs ∧
      (SetRecord.applyAll ((Decoder.startAt itemEnv ⟨false, false, 0⟩ 100 100 [11, 26, 2, 8, 1, 16, 5, 12]).addItem
        (.table 0)) rs Message.new).result = .ok m ∧
      (m.ext 0).message.data 8 = .scalar 1 := by
  obtain ⟨m, hfield, hdata⟩ : ∃ m, ((Decoder.startAt itemEnv ⟨false, false, 0⟩ 100 100
      [11, 26, 2, 8, 1, 16, 5, 12]).decodeField (some (.table 0)) 11 8 1 0 Message.new).result = .ok (8, 0, m) ∧
      (m.ext 0).message.data 8 = .scalar 1 := ⟨_, rfl, rfl⟩
  have hsteps : (Decoder.startAt itemEnv ⟨false, false, 0⟩ 100 100 [11, 26, 2, 8, 1, 16, 5, 12]).Steps
      (some (.table 0)) 8 ⟨0, 0, Message.new⟩ ⟨8, 0, m⟩ :=
    .single ⟨1, .startGroup, by decide, 1, 11, rfl, rfl, rfl, by decide, hfield⟩
  obtain ⟨rs, hrs, -, hres, -⟩ :=
    (messageSet_items itemEnv ⟨false, false, 0⟩ 100 100 _ itemEnv_isMessageSet 8 _ _).2 hsteps
  exact ⟨m, rs, hsteps, hrs, hres, hdata⟩

/-- **Of two items of one type, only the second is there**: the field that the first one set is 0, and the
merge of their payloads has both. -/
theorem not_messageSet_items_merged : ∃ m m' rs,
    (decode itemEnv ⟨false, false, 0⟩ (itemRecord 5 [8, 1] ++ itemRecord 5 [16, 2]) (.table 0) Message.new).result =
        .ok m ∧
      SetRecordsAt (itemRecord 5 [8, 1] ++ itemRecord 5 [16, 2]) 0 16 rs ∧
      (SetRecord.applyAll ((Decoder.startAt itemEnv ⟨false, false, 0⟩ 100 100
        (itemRecord 5 [8, 1] ++ itemRecord 5 [16, 2])).mergeItem (.table 0)) rs Message.new).result = .ok m' ∧
      (m.ext 0).message.data 8 = .zero ∧ (m.ext 0).message.data 12 = .scalar 2 ∧
      (m'.ext 0).message.data 8 = .scalar 1 ∧ (m'.ext 0).message.data 12 = .scalar 2 := by
  refine ⟨_, _, [.item [.typeId 5, .message [8, 1]], .item [.typeId 5, .message [16, 2]]], rfl, ?_, rfl, rfl, rfl, rfl, rfl⟩
  have h₁ := @setRecordAt_itemRecord [] 5 [8, 1] (by decide) (itemRecord 5 [16, 2])
  have h₂ := @setRecordAt_itemRecord (itemRecord 5 [8, 1]) 5 [16, 2] (by decide) []
  rw [List.append_nil] at h₂
  exact .cons h₁ (.cons h₂ (.nil _))

end TwoItems

end Hpb
