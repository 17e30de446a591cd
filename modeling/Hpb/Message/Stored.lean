import Hpb.Message.Promote
import Hpb.Wire.DecodeMessageSet

/-!
# The unknown fields that the parser stores

The parser appends to the unknown fields what it copies from its input (`_hpb_Decoder_DecodeUnknownField`) and what it
writes itself: the values that are not in an enum, the map entries with unknown fields of their own, and the items of a
message set that nobody knows. Each of these is a record, so that the unknown fields of a message are the bytes of a
list of records (`stores_decode`), as long as their size is an `int`.

* `findUnknown_stored_iff`: `hpb_MiniTable_FindUnknown` finds the first record with a number there if and only if the
  records up to it have fewer groups inside one another than its depth limit.
-/

namespace Hpb

open Metered Decoder

mutual

/-- A value without a bound on its groups. -/
theorem ValueAt.valueIn {buf : List UInt8} : ∀ {number pos stop : Nat} {w : WireType},
    ValueAt buf number w pos stop → ValueIn buf none number w pos stop
  | _, _, _, _, .varint h => .varint h
  | _, _, _, _, .fixed32 _ _ => .fixed32 _ _ _
  | _, _, _, _, .fixed64 _ _ => .fixed64 _ _ _
  | _, _, _, _, .delimited h => .delimited h
  | _, _, _, _, .group hfields hend => .group nofun hfields.fieldsIn hend

theorem FieldsAt.fieldsIn {buf : List UInt8} : ∀ {pos stop : Nat}, FieldsAt buf pos stop → FieldsIn buf none pos stop
  | _, _, .nil _ => .nil _ _
  | _, _, .cons htag hvalue hfields => .cons htag hvalue.valueIn hfields.fieldsIn

end

/-- The fields of an item are those of a group. -/
theorem ItemAt.groupEnd {buf : List UInt8} {pos stop : Nat} {fs : List ItemField} (h : ItemAt buf pos stop fs) :
    GroupEnd buf pos stop 1 := by
  induction h with
  | done htag => exact ⟨_, .nil _, htag⟩
  | typeId htag hv _ ih =>
    obtain ⟨mid, hfields, hend⟩ := ih
    exact ⟨mid, .cons htag (.varint hv) hfields, hend⟩
  | message htag hsize _ _ ih =>
    obtain ⟨mid, hfields, hend⟩ := ih
    exact ⟨mid, .cons htag (.delimited hsize) hfields, hend⟩
  | other htag _ hvalue _ ih =>
    obtain ⟨mid, hfields, hend⟩ := ih
    exact ⟨mid, .cons htag hvalue hfields, hend⟩

section Written

/-- The unknown field of an enum value is a record. -/
theorem recordIn_enumRecord {number : Nat} (hnumber : number < 2 ^ 29) (v : UInt64) :
    RecordIn (enumRecord number v) none 0 (enumRecord number v).length number .varint := by
  obtain ⟨mid, htag, hvarint⟩ := enumRecord_reads (by omega : number * 8 < 2 ^ 32) v []
  rw [List.append_nil] at htag hvarint
  exact ⟨mid, htag, .varint hvarint⟩

/-- The unknown field of a map entry. -/
def entryBytes (number : Nat) (bytes : List UInt8) : List UInt8 :=
  encodeVarint32 (makeTag number .delimited) ++ encodeVarint32 (UInt32.ofNat bytes.length) ++ bytes

theorem recordIn_entryBytes {number : Nat} (hnumber : number < 2 ^ 29) {bytes : List UInt8}
    (hbytes : bytes.length ≤ int32Max) :
    RecordIn (entryBytes number bytes) none 0 (entryBytes number bytes).length number .delimited := by
  have hbits : WireType.delimited.bits.toNat = 2 := rfl
  have htag := makeTag_toNat (show number * 8 + WireType.delimited.bits.toNat < 2 ^ 32 by omega)
  have hsize : (UInt32.ofNat bytes.length).toNat = bytes.length :=
    UInt32.toNat_ofNat_of_lt' (Nat.lt_of_le_of_lt hbytes (by decide))
  have hfirst := varintAt_encodeVarint32 [] (makeTag number .delimited)
    (encodeVarint32 (UInt32.ofNat bytes.length) ++ bytes) (Nat.le_refl 5)
  have hsecond := varintAt_encodeVarint32 (encodeVarint32 (makeTag number .delimited)) (UInt32.ofNat bytes.length) bytes
    (show 5 ≤ 10 by decide)
  rw [List.nil_append, ← List.append_assoc, List.length_nil, Nat.zero_add, htag] at hfirst
  rw [hsize, ← List.append_assoc] at hsecond
  refine ⟨_, ⟨hfirst, by omega⟩, ?_⟩
  rw [entryBytes, List.length_append, List.length_append]
  exact .delimited hsecond

/-- The item of a message set. -/
theorem recordIn_itemRecord (id : UInt32) {data : List UInt8} (hdata : data.length < int32Max) :
    RecordIn (itemRecord id data) none 0 (itemRecord id data).length 1 .startGroup := by
  have hrecord := setRecordAt_itemRecord [] id hdata []
  rw [List.nil_append, List.append_nil, List.length_nil, Nat.zero_add] at hrecord
  cases hrecord with
  | item htag hitem =>
    obtain ⟨mid, hfields, hend⟩ := hitem.groupEnd
    exact ⟨_, htag, (ValueAt.group hfields hend).valueIn⟩

end Written

/-- Records are appended to the unknown fields, if the size of what is appended is an `int`. -/
def Message.Stores (m m' : Message) : Prop :=
  ∃ added, m'.unknown = m.unknown ++ added ∧ (added.length ≤ int32Max → ∃ rs, added = bytesOf rs)

namespace Message.Stores

variable {m m' m'' : Message}

theorem of_eq (h : m'.unknown = m.unknown) : m.Stores m' :=
  ⟨[], by rw [h, List.append_nil], fun _ => ⟨[], rfl⟩⟩

theorem refl (m : Message) : m.Stores m := of_eq rfl

theorem trans (h : m.Stores m') (h' : m'.Stores m'') : m.Stores m'' := by
  obtain ⟨added, heq, hadded⟩ := h
  obtain ⟨added', heq', hadded'⟩ := h'
  refine ⟨added ++ added', by rw [heq', heq, List.append_assoc], fun hle => ?_⟩
  rw [List.length_append] at hle
  obtain ⟨rs, rfl⟩ := hadded (Nat.le_trans (Nat.le_add_right _ _) hle)
  obtain ⟨rs', rfl⟩ := hadded' (Nat.le_trans (Nat.le_add_left _ _) hle)
  exact ⟨rs ++ rs', (bytesOf_append rs rs').symm⟩

/-- What is appended is one record. -/
theorem of_record (number : Nat) (w : WireType) {bytes : List UInt8} (hunknown : m'.unknown = m.unknown ++ bytes)
    (h : bytes.length ≤ int32Max → RecordIn bytes none 0 bytes.length number w) : m.Stores m' :=
  ⟨bytes, hunknown, fun hle => ⟨[⟨number, w, bytes, h hle⟩], (List.append_nil bytes).symm⟩⟩

end Message.Stores

namespace Decoder

variable {d : Decoder}

theorem stores_addUnknownEnum {field : MiniTableField} (hnumber : field.number < 2 ^ 29) (v : UInt64) (m : Message) :
    m.Stores (addUnknownEnum field v m) :=
  .of_record field.number .varint rfl fun _ => recordIn_enumRecord hnumber v

theorem stores_addUnknownMessageSetItem (typeId : UInt32) (data : List UInt8) (m : Message) :
    m.Stores (addUnknownMessageSetItem typeId data m) := by
  have hbytes : (addUnknownMessageSetItem typeId data m).unknown = m.unknown ++ itemRecord typeId data := by
    simp only [addUnknownMessageSetItem, Message.addUnknown, itemRecord, canonicalItem, List.append_assoc]
  refine .of_record 1 .startGroup hbytes fun hle => recordIn_itemRecord typeId (Nat.lt_of_lt_of_le ?_ hle)
  have hend : (encodeVarint32 endItemTag).length = 1 := by decide
  simp only [itemRecord, canonicalItem, List.length_append, hend]
  omega

/-- The values of a packed field. -/
theorem stores_decodePacked {add : UInt64 → Message × List Slot → Message × List Slot}
    (hadd : ∀ v (acc : Message × List Slot), acc.1.Stores (add v acc).1) (limit fuel pos : Nat) (acc : Message × List Slot) :
    (d.decodePacked add limit fuel pos acc).Ensures fun a => acc.1.Stores a.2.1 := by
  induction fuel generalizing pos acc with
  | zero => exact Ensures.throw
  | succ fuel ih =>
    refine Ensures.of_bind fun done => ?_
    split
    · exact Ensures.pure (.refl _)
    · refine Ensures.of_bind fun a => ?_
      exact (ih a.1 (add a.2 acc)).mono fun b hb => (hadd a.2 acc).trans hb

theorem stores_addEnum (sub : MiniTableSub) {field : MiniTableField} (hnumber : field.number < 2 ^ 29) (v : UInt64)
    (acc : Message × List Slot) : acc.1.Stores (d.addEnum sub field v acc).1 := by
  unfold addEnum
  split
  · exact .refl _
  · exact stores_addUnknownEnum hnumber v acc.1

theorem setPresence_unknown (field : MiniTableField) (op : DecodeOp) (msg : Message) (slot : Slot) :
    (setPresence field op msg slot).1.unknown = msg.unknown := by
  unfold setPresence
  split
  · rfl
  · split <;> rfl

section Field

variable (sub : MiniTableSub) {field : MiniTableField} (hnumber : field.number < 2 ^ 29) (op : DecodeOp) (val : UInt64)
  (limit pos : Nat) (msg : Message) (slot : Slot)

include hnumber

theorem stores_decodeToArray :
    (d.decodeToArray sub field op val limit pos msg slot).Ensures fun a => msg.Stores a.2.1 := by
  cases op with
  | scalar1Byte => exact Ensures.pure (.refl _)
  | scalar4Byte => exact Ensures.pure (.refl _)
  | scalar8Byte => exact Ensures.pure (.refl _)
  | string => exact Ensures.of_bind fun _ => Ensures.pure (.refl _)
  | bytes => exact Ensures.pure (.refl _)
  | subMessage => exact Ensures.of_bind fun _ => Ensures.of_bind fun _ => Ensures.pure (.refl _)
  | fixPck lg2 =>
    dsimp only [decodeToArray]
    split
    · exact Ensures.throw
    · exact Ensures.pure (.refl _)
  | varPck lg2 =>
    have hadd : ∀ v (acc : Message × List Slot), acc.1.Stores (addVarint field lg2 v acc).1 := fun v acc => .refl _
    exact Ensures.bind (stores_decodePacked hadd _ _ _ (msg, slot.elems)) fun a ha => Ensures.pure ha
  | enum =>
    dsimp only [decodeToArray]
    split
    · exact Ensures.pure (.refl _)
    · exact Ensures.pure (stores_addUnknownEnum hnumber val msg)
  | packedEnum =>
    exact Ensures.bind (stores_decodePacked (stores_addEnum sub hnumber) _ _ _ (msg, slot.elems)) fun a ha =>
      Ensures.pure ha
  | unknownField => exact Ensures.pure (.refl _)
  | messageSetItem => exact Ensures.pure (.refl _)

theorem stores_decodeToMap (size : Nat) :
    (d.decodeToMap sub field size pos msg slot).Ensures fun a => msg.Stores a.2.1 := by
  unfold decodeToMap
  dsimp only
  split
  · refine Ensures.of_bind fun value => Ensures.of_bind fun a => ?_
    split
    · split
      next => exact Ensures.throw
      next bytes _ =>
        -- the entry goes to the unknown fields as a whole
        refine Ensures.pure (.of_record field.number .delimited (List.append_assoc msg.unknown _ bytes) fun hle => ?_)
        refine recordIn_entryBytes hnumber (Nat.le_trans ?_ hle)
        rw [List.length_append]
        exact Nat.le_add_left _ _
    · exact Ensures.pure (.refl _)
  · exact Ensures.throw

theorem stores_decodeToSubMessage :
    (d.decodeToSubMessage sub field op val limit pos msg slot).Ensures fun a => msg.Stores a.2.1 := by
  unfold decodeToSubMessage
  split
  · exact Ensures.pure (stores_addUnknownEnum hnumber val msg)
  · have hunknown := setPresence_unknown field op msg slot
    exact Ensures.of_bind fun a => Ensures.pure (.of_eq hunknown)

theorem stores_decodeToSlot :
    (d.decodeToSlot sub field op val limit pos msg slot).Ensures fun a => msg.Stores a.2.1 := by
  unfold decodeToSlot
  split
  · exact stores_decodeToArray sub hnumber op val limit pos msg slot
  · split
    · exact stores_decodeToMap sub hnumber pos msg slot val.toNat
    · exact stores_decodeToSubMessage sub hnumber op val limit pos msg slot

end Field

theorem stores_decodeKnownField (layout : TableRef) {found : FoundField}
    (hnumber : ∀ f, foundField d.env found = some f → f.number < 2 ^ 29) (op : DecodeOp) (val : UInt64)
    (limit pos : Nat) (msg : Message) :
    (d.decodeKnownField layout found op val limit pos msg).Ensures fun a => msg.Stores a.2 := by
  cases found with
  | field f =>
    refine Ensures.bind (stores_decodeToSlot _ (hnumber f rfl) op val limit pos msg _) fun a ha => ?_
    exact Ensures.pure (ha.trans (.of_eq rfl))
  | extension id =>
    refine Ensures.bind (stores_decodeToSlot _ (hnumber _ rfl) op val limit pos msg _) fun a ha => ?_
    exact Ensures.pure (ha.trans (.of_eq (Message.setExt_unknown _ _ _)))
  | none => exact Ensures.pure (.refl _)
  | messageSetItem => exact Ensures.pure (.refl _)

theorem stores_addMessageSetItem (t : TableRef) (typeId : UInt32) (data : List UInt8) (msg : Message) :
    (d.addMessageSetItem t typeId data msg).Ensures fun m => msg.Stores m := by
  unfold addMessageSetItem
  split
  · refine Ensures.of_bind fun isEmpty => Ensures.of_bind fun m => Ensures.pure (.of_eq ?_)
    exact Message.setExt_unknown _ _ _
  · exact Ensures.pure (stores_addUnknownMessageSetItem typeId data msg)

/-- The fields of an item. -/
theorem stores_decodeMessageSetItem (t : TableRef) (limit fuel pos : Nat) (typeId : Option UInt32)
    (payload : Option (List UInt8)) (msg : Message) :
    (d.decodeMessageSetItem t limit fuel pos typeId payload msg).Ensures fun a => msg.Stores a.2 := by
  induction fuel generalizing pos typeId payload msg with
  | zero => exact Ensures.throw
  | succ fuel ih =>
    have hadded : ∀ pos id data typeId payload,
        (d.addMessageSetItem t id data msg >>= fun m => d.decodeMessageSetItem t limit fuel pos typeId payload m).Ensures
          fun a => msg.Stores a.2 := by
      intro pos id data typeId payload
      refine Ensures.bind (stores_addMessageSetItem t id data msg) fun m hm => ?_
      exact (ih pos typeId payload m).mono fun a ha => hm.trans ha
    refine Ensures.of_bind fun done => ?_
    split
    · exact Ensures.throw
    · refine Ensures.of_bind fun a => ?_
      dsimp only
      split
      · exact Ensures.pure (.refl _)
      · split
        · refine Ensures.of_bind fun b => ?_
          split
          · exact ih _ _ _ _
          · exact ih _ _ _ _
          · exact hadded _ _ _ _ _
        · split
          · refine Ensures.of_bind fun b => ?_
            split
            · exact ih _ _ _ _
            · exact ih _ _ _ _
            · exact hadded _ _ _ _ _
          · exact Ensures.of_bind fun b => ih _ _ _ _

section Loop

variable (hd : d.SkipsGroups) (hreg : d.env.Registered) (table : TableRef)

include hd hreg

/-- **One field** adds records, if it ends within the input. -/
theorem stores_decodeField {tag : UInt32} {tagStart pos : Nat} (htag : VarintAt d.buf 5 tagStart pos tag.toNat)
    (limit last : Nat) (msg : Message) :
    (d.decodeField (some table) tag limit pos last msg).Ensures fun a => a.1 ≤ d.buf.length → msg.Stores a.2.2 := by
  cases hw : WireType.ofTag tag with
  | none =>
    -- a wire type that does not exist
    refine Ensures.bind (P := fun _ => False) ?_ fun b hb => hb.elim
    rw [hw]
    exact Ensures.throw
  | some w =>
    refine Ensures.bind (P := fun a => ∃ val, HeadAt d.buf w pos a.1 val ∧
      (w = .delimited → a.2.1.toNat = val ∧ a.1 + val ≤ limit)) ?_ ?_
    · rw [hw]
      exact d.decodeWireValue_spec _ _ _ _ _
    rintro ⟨stop, v, op⟩ ⟨val, hhead, hval⟩
    have hat := tagAt_of_varintAt htag hw
    have hnumber : ∀ f, foundField d.env (findField d.env (some table) (tag.toNat / 8) last).1 = some f →
        f.number < 2 ^ 29 := by
      intro f hf
      rw [findField_fst] at hf
      rw [number_of_knownField hreg hf]
      have := tag.toNat_lt
      omega
    refine Ensures.bind (P := fun a => a.1 ≤ d.buf.length → msg.Stores a.2) ?_ fun a ha => Ensures.pure ha
    unfold decodeValue
    split
    next w' heq =>
      obtain rfl := Option.some.inj (hw.symm.trans heq)
      refine (decodeUnknownField_spec hd hat hhead (fun h => (hval h).1) (some table) limit msg).mono ?_
      rintro a ⟨hvalue, hmsg⟩ hle
      have hrecord : RecordIn d.buf none tagStart a.1 (tag.toNat / 8) w := ⟨pos, hat, hvalue.valueIn⟩
      rw [hmsg]
      exact .of_record _ w rfl fun _ => (Record.slice hrecord hle).wf
    next => exact Ensures.of_bind fun _ => (stores_decodeMessageSetItem _ _ _ _ _ _ _).mono fun a ha _ => ha
    next => exact (stores_decodeKnownField _ hnumber _ _ _ _ _).mono fun a ha _ => ha
    next heq => exact Ensures.pure fun _ => .refl _

/-- **The loop** of a message whose limit is the end of the input. -/
theorem stores_decodeFields {limit : Nat} (hlimit : limit ≤ d.buf.length) (fuel pos last : Nat) (msg : Message) :
    (d.decodeFields (some table) limit fuel pos last msg).Ensures fun a => msg.Stores a.2.1 := by
  induction fuel generalizing pos last msg with
  | zero => exact Ensures.throw
  | succ fuel ih =>
    refine Ensures.of_bind fun done => ?_
    split
    · exact Ensures.of_bind fun _ => Ensures.pure (.refl _)
    · refine Ensures.bind (d.decodeTagAt_spec pos) fun a htag => ?_
      dsimp only
      split
      · exact Ensures.pure (.refl _)
      · intro c hc
        obtain ⟨b, hb, hrest⟩ := result_bind_eq_ok.mp hc
        have hle : b.1 ≤ limit := pos_le_of_decodeFields (s := ⟨b.1, b.2.1, b.2.2⟩) hrest
        have hfield := stores_decodeField hd hreg table htag limit last msg b hb (Nat.le_trans hle hlimit)
        exact hfield.trans (ih b.1 b.2.1 b.2.2 c hrest)

end Loop

end Decoder

/-- **What the parser stores** is a list of records. -/
theorem stores_decode {env : DecodeEnv} (hreg : env.Registered) {opts : DecodeOptions} {buf : List UInt8}
    {table : TableRef} {msg m : Message} (h : (decode env opts buf table msg).result = .ok m) : msg.Stores m := by
  obtain ⟨a, ha, hrest⟩ := result_bind_eq_ok.mp h
  have hstores := stores_decodeFields (d := Decoder.startFrom env opts opts.depthLimit buf) (skipsGroups_withDepth _ _)
    hreg table (Nat.le_refl _) _ _ _ _ a ha
  dsimp only at hrest
  split at hrest
  · cases hrest
  · split at hrest
    · cases hrest
    · cases hrest
      exact hstores

/-- `hpb_MiniTable_FindUnknown` finds the first record with a number, or that there is none. -/
def FindsFirst (fr : Frame) (rs : List Record) (number : Nat) (depthLimit : Int) : Prop :=
  ∃ least, ∀ fuel ≥ least, findUnknown fr number depthLimit fuel = some (firstRecord number fr.base rs)

/-- The fuel does not matter. -/
theorem findsFirst_iff {fr : Frame} (hsz : fr.size ≤ int32Max) {rs : List Record} (hbuf : fr.buf = bytesOf rs)
    (number : Nat) (depthLimit : Int) :
    FindsFirst fr rs number depthLimit ↔
      findUnknown fr number depthLimit (3 * fr.size + 6) = some (firstRecord number fr.base rs) := by
  have hrun : ∀ fuel ≥ 3 * fr.size + 6, findUnknown fr number depthLimit fuel = findIn _ number fr.base rs :=
    fun fuel hfuel => findUnknown_run hsz hbuf hfuel
  constructor
  · rintro ⟨least, hfinds⟩
    rw [hrun _ (Nat.le_refl _), ← hrun _ (Nat.le_max_right least _)]
    exact hfinds _ (Nat.le_max_left _ _)
  · intro hfind
    refine ⟨3 * fr.size + 6, fun fuel hfuel => ?_⟩
    rw [hrun fuel hfuel, ← hrun _ (Nat.le_refl _), hfind]

/-- **`hpb_MiniTable_FindUnknown` on what `hpb_Decode` stored**, in a message that had records or nothing before. -/
theorem findUnknown_stored_iff {env : DecodeEnv} (hreg : env.Registered) {opts : DecodeOptions} {buf : List UInt8}
    {table : TableRef} {msg m : Message} (h : (decode env opts buf table msg).result = .ok m) {before : List Record}
    (hbefore : msg.unknown = bytesOf before) {fr : Frame} (hbuf : fr.buf = m.unknown) (hsz : fr.size ≤ int32Max) :
    ∃ rs, m.unknown = bytesOf rs ∧ ∀ number,
      FindsFirst fr rs number defaultDepthLimit ↔ ∀ r ∈ scanned number rs, r.Within (some (defaultDepthLimit - 1)) := by
  obtain ⟨added, heq, hadded⟩ := stores_decode hreg h
  have hle : added.length ≤ int32Max := by
    rw [Frame.size, hbuf, heq, List.length_append] at hsz
    exact Nat.le_trans (Nat.le_add_left _ _) hsz
  obtain ⟨rs, rfl⟩ := hadded hle
  have hrecords : m.unknown = bytesOf (before ++ rs) := by rw [heq, hbefore, bytesOf_append]
  refine ⟨before ++ rs, hrecords, fun number => ?_⟩
  rw [findsFirst_iff hsz (hbuf.trans hrecords), findUnknown_run hsz (hbuf.trans hrecords) (Nat.le_refl _)]
  exact findIn_eq_iff

section Deep

theorem groupEnv_registered : groupEnv.Registered := nofun

/-- A hundred groups 2 inside one another. -/
def deepGroups : List UInt8 := List.replicate 100 19 ++ List.replicate 100 20

theorem length_deepGroups : deepGroups.length = 200 := by
  rw [deepGroups, List.length_append, List.length_replicate, List.length_replicate]

/-- A varint field 1 that comes for a group is found. -/
theorem findUnknown_stored_varint :
    ∃ rs, (Message.new.addUnknown [8, 5]).unknown = bytesOf rs ∧ ∀ number,
      FindsFirst (smallFrame [8, 5] (by decide)) rs number defaultDepthLimit ↔
        ∀ r ∈ scanned number rs, r.Within (some (defaultDepthLimit - 1)) :=
  findUnknown_stored_iff groupEnv_registered
    (show (decode groupEnv ⟨false, false, 0⟩ [8, 5] (.table 0) Message.new).result =
      .ok (Message.new.addUnknown [8, 5]) from rfl) (show Message.new.unknown = bytesOf [] from rfl) rfl (by decide)

/-- The parser stores groups that `hpb_MiniTable_FindUnknown` does not skip, with the same depth limit. -/
theorem not_findUnknown_stored :
    ∃ m rs, (decode groupEnv ⟨false, false, 0⟩ deepGroups (.table 0) Message.new).result = .ok m ∧
      m.unknown = deepGroups ∧ deepGroups = bytesOf rs ∧
      findUnknown (smallFrame deepGroups (by rw [length_deepGroups]; decide)) 1 defaultDepthLimit 606 =
        some .parseError ∧
      ¬FindsFirst (smallFrame deepGroups (by rw [length_deepGroups]; decide)) rs 1 defaultDepthLimit := by
  have hdecode : (decode groupEnv ⟨false, false, 0⟩ deepGroups (.table 0) Message.new).result.toOption.map
      (·.unknown) = some deepGroups := by decide +kernel
  obtain ⟨m, hm, hunknown⟩ := Option.map_eq_some_iff.mp hdecode
  have hok : (decode groupEnv ⟨false, false, 0⟩ deepGroups (.table 0) Message.new).result = .ok m := by
    revert hm
    cases (decode groupEnv ⟨false, false, 0⟩ deepGroups (.table 0) Message.new).result with
    | error status => nofun
    | ok m' =>
      intro hm
      exact congrArg Except.ok (Option.some.inj hm)
  have hfind : findUnknown (smallFrame deepGroups (by rw [length_deepGroups]; decide)) 1 defaultDepthLimit 606 =
      some .parseError := by decide +kernel
  obtain ⟨added, heq, hadded⟩ := stores_decode groupEnv_registered hok
  obtain rfl : deepGroups = added := hunknown.symm.trans heq
  obtain ⟨rs, hrs⟩ := hadded (by rw [length_deepGroups]; decide)
  refine ⟨m, rs, hok, hunknown, hrs, hfind, ?_⟩
  have hsize : (smallFrame deepGroups (by rw [length_deepGroups]; decide)).size = 200 := length_deepGroups
  rw [findsFirst_iff (by rw [hsize]; decide) hrs, hsize, hfind]
  exact fun hfirst => firstRecord_ne_parseError (Option.some.inj hfirst).symm

end Deep

end Hpb
