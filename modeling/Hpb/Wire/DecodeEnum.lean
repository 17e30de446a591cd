import Hpb.Message.Checked
import Hpb.Wire.DecodeAdmits

/-!
# Closed enums (`_hpb_Decoder_CheckEnum`)

A value that is not in the enum of its field goes to the unknown fields of the message, as a record with
the number of the field. `EnumRun` is a run of the loop over records of one enum field, with the values
that the records hold; `EnumKept` is what should come of them: the values in the enum are in the field, in
their order, and the others are unknown fields.

It comes so in every run, but for one case: the place of an extension is made before its value is checked,
so a singular extension that gets no value of its enum is there all the same (`closedEnum_kept_iff`).
A map entry whose value is not in the enum goes to the unknown fields as a whole (`EntriesKept`).
-/

namespace Hpb

/-- Varints, one after the other. -/
inductive VarintsAt (buf : List UInt8) : Nat → Nat → List UInt64 → Prop where
  | nil (pos : Nat) : VarintsAt buf pos pos []
  | cons {pos mid stop : Nat} {v : UInt64} {vs : List UInt64} (hv : VarintAt buf 10 pos mid v.toNat)
      (hvs : VarintsAt buf mid stop vs) : VarintsAt buf pos stop (v :: vs)

/-- A record of an enum field, alone or packed, with its values. -/
inductive EnumRecordAt (buf : List UInt8) (number pos stop : Nat) : WireType → List UInt64 → Prop where
  | varint {start : Nat} {v : UInt64} (htag : TagAt buf pos start number .varint)
      (hv : VarintAt buf 10 start stop v.toNat) : EnumRecordAt buf number pos stop .varint [v]
  | packed {start mid size : Nat} {vs : List UInt64} (htag : TagAt buf pos start number .delimited)
      (hsize : VarintAt buf 10 start mid size) (hstop : mid + size = stop)
      (hvs : VarintsAt buf mid stop vs) : EnumRecordAt buf number pos stop .delimited vs

/-- The unknown field of a value that is not in the enum. -/
def enumRecord (number : Nat) (v : UInt64) : List UInt8 :=
  Decoder.encodeVarint32 (makeTag number .varint) ++ Decoder.encodeVarint32 v.toUInt32

/-- The memory of a value. -/
def enumSlot (v : UInt64) : Slot := .ofScalar (Decoder.lowBytes 2 v)

/-- A field whose presence is not that of its value. -/
def FoundField.HasPresence : FoundField → Prop
  | .field f => f.presence ≠ 0
  | _ => True

/-- The sub of a field. -/
def FoundField.sub (env : DecodeEnv) (t : TableRef) : FoundField → MiniTableSub
  | .field f => (env.schema.table t).sub f
  | .extension id => (env.schema.exts id).sub
  | _ => .emptyMessage

namespace Message

/-- What a field holds. -/
def fieldSlot (m : Message) : FoundField → Slot
  | .field f => m.data f.offset
  | .extension id => m.ext id
  | _ => .zero

/-- Whether a field that has presence is set. -/
def isSet (m : Message) : FoundField → Bool
  | .field f =>
    if 0 < f.presence then m.hasbits f.presence.toNat
    else m.oneofCase (-f.presence - 1).toNat == f.number
  | .extension id => m.exts.any fun e => e.1 == id
  | _ => false

/-- Nothing but the field, its presence and the unknown fields is changed. -/
def AgreeBeside (m m' : Message) : FoundField → Prop
  | .field f => (∀ o, o ≠ f.offset → m'.data o = m.data o) ∧
      (∀ i, (0 < f.presence → i ≠ f.presence.toNat) → m'.hasbits i = m.hasbits i) ∧
      (∀ o, (f.presence < 0 → o ≠ (-f.presence - 1).toNat) → m'.oneofCase o = m.oneofCase o) ∧
      m'.exts = m.exts
  | .extension id => m'.data = m.data ∧ m'.hasbits = m.hasbits ∧ m'.oneofCase = m.oneofCase ∧
      m'.exts.filter (fun e => e.1 ≠ id) = m.exts.filter fun e => e.1 ≠ id
  | _ => True

end Message

namespace Decoder

/-- Records of one enum field, one after the other, and their values. -/
inductive EnumRun (d : Decoder) (t : TableRef) (limit number : Nat) :
    LoopState → List UInt64 → LoopState → Prop where
  | refl (s : LoopState) : EnumRun d t limit number s [] s
  | tail {s s₁ s₂ : LoopState} {vs ws : List UInt64} {w : WireType} (hrun : EnumRun d t limit number s vs s₁)
      (hstep : d.Step (some t) limit s₁ number w s₂) (hadmits : Admits d.env (knownField d.env t number) w)
      (hrecord : EnumRecordAt d.buf number s₁.pos s₂.pos w ws) : EnumRun d t limit number s (vs ++ ws) s₂

/-- What becomes of the values of an enum field, if those of `sets` set a singular one. -/
structure EnumResult (d : Decoder) (t : TableRef) (found : FoundField) (f : MiniTableField)
    (sets : UInt64 → Bool) (vs : List UInt64) (m m' : Message) : Prop where
  /-- A repeated field gets the values in the enum, in their order. -/
  repeated : f.fieldMode = FieldMode.array → (m'.fieldSlot found).elems =
    (m.fieldSlot found).elems ++ (vs.filter (d.checkEnum (found.sub d.env t))).map enumSlot
  /-- A singular field gets the last of them. -/
  singular : f.fieldMode ≠ FieldMode.array → m'.fieldSlot found =
    (vs.filter (d.checkEnum (found.sub d.env t))).getLast?.elim (m.fieldSlot found) enumSlot
  isSet : f.fieldMode ≠ FieldMode.array → found.HasPresence →
    m'.isSet found = (m.isSet found || vs.any sets)
  /-- The other values are unknown fields, in their order. -/
  unknown : m'.unknown = m.unknown ++
    (vs.filter fun v => !d.checkEnum (found.sub d.env t) v).flatMap (enumRecord f.number)
  beside : m.AgreeBeside m' found

/-- **What should become of them**: a field is set by a value in the enum, and by no other. -/
def EnumKept (d : Decoder) (t : TableRef) (found : FoundField) (f : MiniTableField) :
    List UInt64 → Message → Message → Prop :=
  d.EnumResult t found f (d.checkEnum (found.sub d.env t))

/-- The values that set a singular field: an extension is made before its value is checked. -/
def setsField (d : Decoder) (t : TableRef) (found : FoundField) (v : UInt64) : Bool :=
  match found with
  | .extension _ => true
  | _ => d.checkEnum (found.sub d.env t) v

end Decoder

namespace Message

variable {m m₁ m₂ : Message}

theorem AgreeBeside.trans {found : FoundField} (h : m.AgreeBeside m₁ found) (h' : m₁.AgreeBeside m₂ found) :
    m.AgreeBeside m₂ found := by
  cases found with
  | field f =>
    obtain ⟨hd, hb, ho, he⟩ := h
    obtain ⟨hd', hb', ho', he'⟩ := h'
    exact ⟨fun o hne => (hd' o hne).trans (hd o hne), fun i hi => (hb' i hi).trans (hb i hi),
      fun o hne => (ho' o hne).trans (ho o hne), he'.trans he⟩
  | extension id =>
    obtain ⟨hd, hb, ho, he⟩ := h
    obtain ⟨hd', hb', ho', he'⟩ := h'
    exact ⟨hd'.trans hd, hb'.trans hb, ho'.trans ho, he'.trans he⟩
  | none => trivial
  | messageSetItem => trivial

theorem AgreeBeside.refl (m : Message) (found : FoundField) : m.AgreeBeside m found := by
  cases found with
  | field f => exact ⟨fun _ _ => rfl, fun _ _ => rfl, fun _ _ => rfl, rfl⟩
  | extension id => exact ⟨rfl, rfl, rfl, rfl⟩
  | none => trivial
  | messageSetItem => trivial

/-- A write to an extension leaves the others. -/
theorem filter_setExt (m : Message) (id : Nat) (s : Slot) :
    (m.setExt id s).exts.filter (fun e => e.1 ≠ id) = m.exts.filter fun e => e.1 ≠ id := by
  unfold setExt
  split
  next =>
    induction m.exts with
    | nil => rfl
    | cons e es ih => by_cases he : e.1 = id <;> simp [he] <;> simpa using ih
  next => simp

theorem any_setExt (m : Message) (id : Nat) (s : Slot) : ((m.setExt id s).exts.any fun e => e.1 == id) = true := by
  unfold setExt
  split
  next hany =>
    obtain ⟨e, he, hid⟩ := List.any_eq_true.mp hany
    refine List.any_eq_true.mpr ⟨(id, s), List.mem_map.mpr ⟨e, he, ?_⟩, by simp⟩
    rw [if_pos (eq_of_beq hid)]
  next => simp

theorem setExt_unknown (m : Message) (id : Nat) (s : Slot) : (m.setExt id s).unknown = m.unknown := by
  unfold setExt
  split <;> rfl

/-- A write to a field. -/
def setField (m : Message) (found : FoundField) (s : Slot) : Message :=
  match found with
  | .field f => m.setData f.offset s
  | .extension id => m.setExt id s
  | _ => m

end Message

section Written

open Decoder

/-- A varint that was written is read back. -/
theorem varintAt_putSeptets (before : List UInt8) {fuel : Nat} {val : UInt64} (rest : List UInt8)
    (hval : val.toNat < 2 ^ (7 * fuel)) (hfuel : 0 < fuel) :
    VarintAt (before ++ (putSeptets fuel val ++ rest)) fuel before.length
      (before.length + (putSeptets fuel val).length) val.toNat := by
  obtain ⟨n, hn, hlen, hends, hsept⟩ := putSeptets_spec rest hval hfuel
  have hmem : bytesFrom (before ++ (putSeptets fuel val ++ rest)) before.length =
      memoryOf (putSeptets fuel val ++ rest) := by
    funext i
    rw [bytesFrom, memoryOf, List.getD_append_right _ _ _ _ (Nat.le_add_right _ _), Nat.add_sub_cancel_left]
  refine ⟨n, hn, by rw [hmem]; exact hends, by omega, ?_⟩
  rw [hmem, hsept, Nat.mod_eq_of_lt val.toNat_lt]

/-- The unknown field of a value has the number of the field and the low 32 bits of the value. -/
theorem enumRecord_reads {number : Nat} (hnumber : number * 8 < 2 ^ 32) (v : UInt64) (rest : List UInt8) :
    ∃ mid, TagAt (enumRecord number v ++ rest) 0 mid number .varint ∧
      VarintAt (enumRecord number v ++ rest) 10 mid (enumRecord number v).length v.toUInt32.toNat := by
  have hbits : WireType.varint.bits.toNat = 0 := rfl
  have htag : (makeTag number .varint).toUInt64.toNat = number * 8 + WireType.varint.bits.toNat :=
    makeTag_toNat (by rw [hbits]; exact hnumber)
  have hone := varintAt_putSeptets [] (encodeVarint32 v.toUInt32 ++ rest)
    (show (makeTag number .varint).toUInt64.toNat < 2 ^ (7 * 5) by rw [htag, hbits]; omega) (by decide)
  have htwo := varintAt_putSeptets (encodeVarint32 (makeTag number .varint)) rest
    (show v.toUInt32.toUInt64.toNat < 2 ^ (7 * 5) from Nat.lt_trans (UInt32.toNat_lt v.toUInt32) (by decide))
    (by decide)
  have hassoc : enumRecord number v ++ rest = encodeVarint32 (makeTag number .varint) ++
      (encodeVarint32 v.toUInt32 ++ rest) := List.append_assoc _ _ _
  obtain ⟨n, hn, hends, hstop, hval⟩ := htwo
  refine ⟨(encodeVarint32 (makeTag number .varint)).length, ⟨?_, by rw [hbits]; exact hnumber⟩, ?_⟩
  · rw [htag] at hone
    rw [hassoc]
    simpa [encodeVarint32] using hone
  · rw [hassoc]
    refine ⟨n, by omega, hends, ?_, hval⟩
    rw [enumRecord, List.length_append]
    exact hstop

end Written

theorem VarintsAt.le {buf : List UInt8} {pos stop : Nat} {vs : List UInt64} (h : VarintsAt buf pos stop vs) :
    pos ≤ stop := by
  induction h with
  | nil pos => exact Nat.le_refl pos
  | cons hv _ ih => exact Nat.le_trans (Nat.le_of_lt hv.lt) ih

namespace Decoder

open Metered

section Compose

variable {d : Decoder} {t : TableRef} {found : FoundField} {f : MiniTableField} {sets : UInt64 → Bool}
  {vs ws : List UInt64} {m m₁ m₂ : Message}

theorem EnumResult.refl (d : Decoder) (t : TableRef) (found : FoundField) (f : MiniTableField)
    (sets : UInt64 → Bool) (m : Message) : d.EnumResult t found f sets [] m m where
  repeated := by simp
  singular := by simp
  isSet := by simp
  unknown := by simp
  beside := .refl m found

/-- The results of two lists of values, one after the other. -/
theorem EnumResult.trans (h : d.EnumResult t found f sets vs m m₁) (h' : d.EnumResult t found f sets ws m₁ m₂) :
    d.EnumResult t found f sets (vs ++ ws) m m₂ where
  repeated hmode := by
    rw [h'.repeated hmode, h.repeated hmode, List.filter_append, List.map_append, List.append_assoc]
  singular hmode := by
    rw [h'.singular hmode, h.singular hmode, List.filter_append, List.getLast?_append]
    cases (ws.filter (d.checkEnum (found.sub d.env t))).getLast? <;> rfl
  isSet hmode hpres := by
    rw [h'.isSet hmode hpres, h.isSet hmode hpres, List.any_append, Bool.or_assoc]
  unknown := by
    rw [h'.unknown, h.unknown, List.filter_append, List.flatMap_append, List.append_assoc]
  beside := h.beside.trans h'.beside

end Compose

/-- The loop over packed values adds each of them. -/
theorem decodePacked_varints (d : Decoder) (add : UInt64 → Message × List Slot → Message × List Slot)
    {limit pos : Nat} {vs : List UInt64} (hvs : VarintsAt d.buf pos limit vs) (fuel : Nat)
    (acc : Message × List Slot) :
    (d.decodePacked add limit fuel pos acc).Ensures fun a =>
      a = (limit, vs.foldl (fun acc v => add v acc) acc) := by
  induction hvs generalizing fuel acc with
  | nil pos =>
    cases fuel with
    | zero => exact Ensures.throw
    | succ fuel =>
      intro a ha
      obtain ⟨done, hdone, ha⟩ := result_bind_eq_ok.mp ha
      have hspec := isDone_spec pos pos done hdone
      cases done with
      | false => exact absurd hspec (Nat.lt_irrefl pos)
      | true => cases ha; rfl
  | cons hv hvs ih =>
    cases fuel with
    | zero => exact Ensures.throw
    | succ fuel =>
      intro a ha
      obtain ⟨done, hdone, ha⟩ := result_bind_eq_ok.mp ha
      have hspec := isDone_spec _ _ done hdone
      cases done with
      | true => exact absurd hspec (Nat.ne_of_lt (Nat.lt_of_lt_of_le hv.lt hvs.le))
      | false =>
        obtain ⟨b, hb, ha⟩ := result_bind_eq_ok.mp ha
        obtain ⟨hpos, hval⟩ := (d.decodeVarintAt_spec _ b hb).unique hv
        obtain ⟨mid, v⟩ := b
        obtain rfl := UInt64.toNat_inj.mp hval
        obtain rfl : mid = _ := hpos
        exact ih fuel _ a ha

/-- A known field is parsed in its place. -/
theorem decodeKnownField_eq {d : Decoder} {found : FoundField} {f : MiniTableField}
    (hf : foundField d.env found = some f) (t : TableRef) (op : DecodeOp) (val : UInt64) (limit pos : Nat)
    (msg : Message) :
    d.decodeKnownField t found op val limit pos msg =
      d.decodeToSlot (found.sub d.env t) f op val limit pos msg (msg.fieldSlot found) >>= fun a =>
        pure (a.1, a.2.1.setField found a.2.2) := by
  cases found with
  | field g => cases hf; rfl
  | extension id => cases hf; rfl
  | none => cases hf
  | messageSetItem => cases hf

section Values

variable (d : Decoder) (sub : MiniTableSub) (f : MiniTableField)

/-- The unknown fields of values. -/
def unknownValues (vs : List UInt64) : List UInt8 :=
  (vs.filter fun v => !d.checkEnum sub v).flatMap (enumRecord f.number)

/-- The elements of values. -/
def knownValues (vs : List UInt64) : List Slot := (vs.filter (d.checkEnum sub)).map enumSlot

theorem foldl_addEnum (vs : List UInt64) (m : Message) (es : List Slot) :
    vs.foldl (fun acc v => d.addEnum sub f v acc) (m, es) =
      (m.addUnknown (d.unknownValues sub f vs), es ++ d.knownValues sub vs) := by
  induction vs generalizing m es with
  | nil => simp [unknownValues, knownValues, Message.addUnknown]
  | cons v vs ih =>
    rw [List.foldl_cons, addEnum]
    split
    next hv => rw [ih]; simp [unknownValues, knownValues, hv, enumSlot]
    next hv =>
      rw [ih]
      simp [unknownValues, knownValues, hv, addUnknownEnum, addUnknownVarints, enumRecord, Message.addUnknown]

variable {d sub f} {limit pos : Nat} {msg : Message} {slot : Slot} {a : Nat × Message × Slot}

theorem decodeToSlot_value (hmode : f.fieldMode = FieldMode.array) {v : UInt64}
    (ha : (d.decodeToSlot sub f .enum v limit pos msg slot).result = .ok a) :
    a = (pos, msg.addUnknown (d.unknownValues sub f [v]), .arr (slot.elems ++ d.knownValues sub [v])) := by
  rw [decodeToSlot, if_pos hmode, decodeToArray] at ha
  split at ha
  next hv => cases ha; simp [unknownValues, knownValues, hv, enumSlot, Message.addUnknown]
  next hv =>
    cases ha
    simp [unknownValues, knownValues, hv, addUnknownEnum, addUnknownVarints, enumRecord, Message.addUnknown]

theorem decodeToSlot_packed (hmode : f.fieldMode = FieldMode.array) {size : UInt64} {vs : List UInt64}
    (hvs : VarintsAt d.buf pos (pos + size.toNat) vs)
    (ha : (d.decodeToSlot sub f .packedEnum size limit pos msg slot).result = .ok a) :
    a = (pos + size.toNat, msg.addUnknown (d.unknownValues sub f vs),
      .arr (slot.elems ++ d.knownValues sub vs)) := by
  rw [decodeToSlot, if_pos hmode] at ha
  obtain ⟨b, hb, ha⟩ := result_bind_eq_ok.mp ha
  rw [d.decodePacked_varints _ hvs _ _ b hb, foldl_addEnum] at ha
  cases ha
  rfl

theorem decodeToSlot_singular (hmode : f.fieldMode ≠ FieldMode.array) (hmap : f.fieldMode ≠ FieldMode.map)
    {v : UInt64} (ha : (d.decodeToSlot sub f .enum v limit pos msg slot).result = .ok a) :
    a = if d.checkEnum sub v then (pos, (setPresence f .enum msg slot).1, enumSlot v)
      else (pos, msg.addUnknown (enumRecord f.number v), slot) := by
  rw [decodeToSlot, if_neg hmode, if_neg hmap, decodeToSubMessage] at ha
  by_cases hv : d.checkEnum sub v = true
  · rw [if_neg (fun h => h.2 hv)] at ha
    cases ha
    rw [if_pos hv]
    rfl
  · rw [if_pos ⟨rfl, hv⟩] at ha
    cases ha
    rw [if_neg hv]
    rfl

end Values

section Record

variable {d : Decoder} {t : TableRef} {found : FoundField} {f : MiniTableField} {m : Message}

theorem fieldSlot_setField (hf : foundField d.env found = some f) (m : Message) (s : Slot) :
    (m.setField found s).fieldSlot found = s := by
  cases found with
  | field g => simp [Message.setField, Message.fieldSlot, Message.setData]
  | extension id => exact Message.ext_setExt m id s
  | none => cases hf
  | messageSetItem => cases hf

theorem setField_unknown (m : Message) (found : FoundField) (s : Slot) :
    (m.setField found s).unknown = m.unknown := by
  cases found with
  | extension id => exact Message.setExt_unknown m id s
  | _ => rfl

/-- A write to a field changes nothing beside it. -/
theorem agreeBeside_setField (m : Message) (bytes : List UInt8) (found : FoundField) (s : Slot) :
    m.AgreeBeside ((m.addUnknown bytes).setField found s) found := by
  cases found with
  | field g =>
    exact ⟨fun o ho => Function.update_of_ne ho _ _, fun _ _ => rfl, fun _ _ => rfl, rfl⟩
  | extension id =>
    have hsame : ∀ m : Message, (m.setExt id s).data = m.data ∧ (m.setExt id s).hasbits = m.hasbits ∧
        (m.setExt id s).oneofCase = m.oneofCase := by
      intro m
      unfold Message.setExt
      split <;> exact ⟨rfl, rfl, rfl⟩
    obtain ⟨hd, hb, ho⟩ := hsame (m.addUnknown bytes)
    exact ⟨hd, hb, ho, Message.filter_setExt (m.addUnknown bytes) id s⟩
  | none => trivial
  | messageSetItem => trivial

/-- The values of a record in a repeated field. -/
theorem EnumResult.of_array (hf : foundField d.env found = some f) (hmode : f.fieldMode = FieldMode.array)
    (sets : UInt64 → Bool) (vs : List UInt64) (m : Message) :
    d.EnumResult t found f sets vs m
      ((m.addUnknown (d.unknownValues (found.sub d.env t) f vs)).setField found
        (.arr ((m.fieldSlot found).elems ++ d.knownValues (found.sub d.env t) vs))) where
  repeated _ := by rw [fieldSlot_setField hf]; rfl
  singular hne := absurd hmode hne
  isSet hne := absurd hmode hne
  unknown := setField_unknown _ found _
  beside := agreeBeside_setField m _ found _

/-- A value of a singular field that is not in the enum. -/
theorem EnumResult.of_rejected (hf : foundField d.env found = some f) (hmode : f.fieldMode ≠ FieldMode.array)
    {v : UInt64} (hv : ¬d.checkEnum (found.sub d.env t) v = true) (m : Message) :
    d.EnumResult t found f (d.setsField t found) [v] m
      ((m.addUnknown (enumRecord f.number v)).setField found (m.fieldSlot found)) where
  repeated heq := absurd heq hmode
  singular _ := by simp [fieldSlot_setField hf, hv]
  isSet _ _ := by
    cases found with
    | field g =>
      have hsets : d.setsField t (.field g) v = false := by simpa [setsField] using hv
      simp [Message.isSet, Message.setField, Message.setData, Message.addUnknown, hsets]
    | extension id => simp [Message.isSet, Message.setField, setsField, Message.any_setExt]
    | none => cases hf
    | messageSetItem => cases hf
  unknown := by rw [setField_unknown]; simp [hv, Message.addUnknown]
  beside := agreeBeside_setField m _ found _

/-- A value of a singular field that is in the enum. -/
theorem EnumResult.of_accepted (hf : foundField d.env found = some f) (hmode : f.fieldMode ≠ FieldMode.array)
    (hext : ∀ id, found = .extension id → f.presence = 0)
    {v : UInt64} (hv : d.checkEnum (found.sub d.env t) v = true) (m : Message) (slot : Slot) :
    d.EnumResult t found f (d.setsField t found) [v] m
      ((setPresence f .enum m slot).1.setField found (enumSlot v)) where
  repeated heq := absurd heq hmode
  singular _ := by simp [fieldSlot_setField hf, hv]
  isSet _ hpres := by
    cases found with
    | field g =>
      cases hf
      have hsets : d.setsField t (.field f) v = true := hv
      have hne : f.presence ≠ 0 := hpres
      unfold setPresence
      split
      next hpos => simp [Message.isSet, Message.setField, Message.setData, Message.setHas, hpos, hsets]
      next hpos =>
        rw [if_pos (by omega)]
        simp [Message.isSet, Message.setField, Message.setData, Message.setOneofCase, hpos, hsets]
    | extension id => simp [Message.isSet, Message.setField, setsField, Message.any_setExt]
    | none => cases hf
    | messageSetItem => cases hf
  unknown := by
    rw [setField_unknown]
    have : (setPresence f .enum m slot).1.unknown = m.unknown := by
      unfold setPresence
      split_ifs <;> rfl
    simp [hv, this]
  beside := by
    cases found with
    | field g =>
      cases hf
      unfold setPresence
      split
      next hpos =>
        exact ⟨fun o ho => Function.update_of_ne ho _ _,
          fun i hi => Function.update_of_ne (hi hpos) _ _, fun _ _ => rfl, rfl⟩
      next hpos =>
        split
        next hneg =>
          exact ⟨fun o ho => Function.update_of_ne ho _ _, fun _ _ => rfl,
            fun o ho => Function.update_of_ne (ho hneg) _ _, rfl⟩
        next => exact ⟨fun o ho => Function.update_of_ne ho _ _, fun _ _ => rfl, fun _ _ => rfl, rfl⟩
    | extension id =>
      have hzero := hext id rfl
      have hsame : setPresence f .enum m slot = (m, slot) := by
        rw [setPresence, if_neg (by omega), if_neg (by omega)]
      rw [hsame]
      have := agreeBeside_setField m [] (.extension id) (enumSlot v)
      rwa [Message.addUnknown, List.append_nil] at this
    | none => trivial
    | messageSetItem => trivial

end Record

theorem admits_of_foundField {env : DecodeEnv} {found : FoundField} {f : MiniTableField} {w : WireType}
    (hf : foundField env found = some f) (h : Admits env found w) : f.Admits w := by
  cases found with
  | field g => cases hf; exact h
  | extension id => cases hf; exact h
  | none => cases hf
  | messageSetItem => cases hf

section Run

variable {d : Decoder} {t : TableRef} {limit number : Nat} {f : MiniTableField}

/-- The values of one record. -/
theorem Step.enumResult (hf : foundField d.env (knownField d.env t number) = some f)
    (henum : f.descriptortype = .enum) (hmap : f.fieldMode ≠ FieldMode.map)
    (hext : ∀ id, knownField d.env t number = .extension id → f.presence = 0) {s s' : LoopState} {w : WireType}
    {ws : List UInt64} (hstep : d.Step (some t) limit s number w s')
    (hadmits : Admits d.env (knownField d.env t number) w)
    (hrecord : EnumRecordAt d.buf number s.pos s'.pos w ws) :
    d.EnumResult t (knownField d.env t number) f (d.setsField t (knownField d.env t number)) ws s.msg s'.msg := by
  obtain ⟨start, tag, htag, rfl, hw, -, hfield⟩ := hstep.field
  have hat := tagAt_of_varintAt (d.decodeTagAt_spec _ _ htag) hw
  obtain ⟨a, ha, hfield⟩ := result_bind_eq_ok.mp hfield
  obtain ⟨b, hb, hfield⟩ := result_bind_eq_ok.mp hfield
  rw [findField_fst] at ha hb
  generalize knownField d.env t (tag.toNat / 8) = found at *
  obtain ⟨stop, last, msg⟩ := s'
  obtain ⟨stop', msg'⟩ := b
  cases hfield
  cases hrecord with
  | varint htag' hv =>
    obtain ⟨rfl, -, -⟩ := hat.unique htag'
    rw [hw] at ha
    obtain ⟨c, hc, ha⟩ := result_bind_eq_ok.mp ha
    obtain ⟨hpos, hval⟩ := (d.decodeVarintAt_spec _ c hc).unique hv
    obtain ⟨p, v'⟩ := c
    obtain rfl := UInt64.toNat_inj.mp hval
    simp only [hf, Option.map_some, henum, varintOp, munge] at ha
    cases ha
    change (d.decodeKnownField t found .enum v' limit p s.msg).result = _ at hb
    rw [decodeKnownField_eq hf] at hb
    obtain ⟨e, he, hb⟩ := result_bind_eq_ok.mp hb
    by_cases hmode : f.fieldMode = FieldMode.array
    · rw [decodeToSlot_value hmode he] at hb
      cases hb
      exact .of_array hf hmode _ _ _
    · rw [decodeToSlot_singular hmode hmap he] at hb
      split at hb
      next hin => cases hb; exact .of_accepted hf hmode hext hin _ _
      next hout => cases hb; exact .of_rejected hf hmode hout _
  | packed htag' hsize hstop hvs =>
    obtain ⟨rfl, -, -⟩ := hat.unique htag'
    have hmode : f.fieldMode = FieldMode.array := by
      obtain hown | ⟨hmode, -⟩ := admits_of_foundField hf hadmits
      · rw [henum] at hown
        exact nomatch hown
      · exact hmode
    have hop : d.getDelimitedOp (some t) found = .packedEnum := by
      simp [getDelimitedOp, hf, hmode, henum, repeatedDelimitedOp]
    rw [hw] at ha
    obtain ⟨c, hc, ha⟩ := result_bind_eq_ok.mp ha
    obtain ⟨hsize', -, hmax⟩ := d.decodeSizeAt_spec _ _ c hc
    obtain ⟨hpos, hval⟩ := hsize'.unique hsize
    obtain ⟨p, size'⟩ := c
    dsimp only at hpos hval hmax
    subst hpos hval
    simp only [hop] at ha
    cases ha
    change (d.decodeKnownField t found .packedEnum (UInt64.ofNat size') limit p s.msg).result = _ at hb
    rw [decodeKnownField_eq hf] at hb
    obtain ⟨e, he, hb⟩ := result_bind_eq_ok.mp hb
    have hnat : (UInt64.ofNat size').toNat = size' := by
      rw [UInt64.toNat_ofNat']
      simp only [int32Max] at hmax
      omega
    rw [decodeToSlot_packed hmode (by rw [hnat, hstop]; exact hvs) he] at hb
    cases hb
    exact .of_array hf hmode _ _ _

/-- **The values of a run of records.** -/
theorem EnumRun.enumResult (hf : foundField d.env (knownField d.env t number) = some f)
    (henum : f.descriptortype = .enum) (hmap : f.fieldMode ≠ FieldMode.map)
    (hext : ∀ id, knownField d.env t number = .extension id → f.presence = 0) {s s' : LoopState}
    {vs : List UInt64} (hrun : d.EnumRun t limit number s vs s') :
    d.EnumResult t (knownField d.env t number) f (d.setsField t (knownField d.env t number)) vs s.msg s'.msg := by
  induction hrun with
  | refl => exact .refl d t _ f _ s.msg
  | tail _ hstep hadmits hrecord ih => exact ih.trans (hstep.enumResult hf henum hmap hext hadmits hrecord)

/-- A field that gets no value of its enum but is set all the same. -/
def SetWithoutValue (d : Decoder) (t : TableRef) (found : FoundField) (f : MiniTableField) (vs : List UInt64)
    (m : Message) : Prop :=
  (∃ id, found = .extension id) ∧ f.fieldMode ≠ FieldMode.array ∧ m.isSet found = false ∧ vs ≠ [] ∧
    ∀ v ∈ vs, d.checkEnum (found.sub d.env t) v = false

/-- The result is the right one, but for an extension that is made without a value. -/
theorem EnumResult.kept_iff {found : FoundField} {vs : List UInt64} {m m' : Message}
    (h : d.EnumResult t found f (d.setsField t found) vs m m') :
    d.EnumKept t found f vs m m' ↔ ¬d.SetWithoutValue t found f vs m := by
  constructor
  · rintro hkept ⟨⟨id, rfl⟩, hmode, hunset, hne, hnone⟩
    have hset := h.isSet hmode trivial
    have hset' := hkept.isSet hmode trivial
    obtain ⟨v, hv⟩ := List.exists_mem_of_ne_nil vs hne
    have hany : vs.any (d.setsField t (.extension id)) = true := List.any_eq_true.mpr ⟨v, hv, rfl⟩
    have hnot : vs.any (d.checkEnum ((FoundField.extension id).sub d.env t)) = false :=
      List.any_eq_false.mpr fun v hv => by simp [hnone v hv]
    rw [hset, hany, hunset, hnot] at hset'
    exact nomatch hset'
  · intro hnot
    refine { h with isSet := fun hmode hpres => ?_ }
    rw [h.isSet hmode hpres]
    cases found with
    | extension id =>
      by_cases hset : m.isSet (.extension id) = true
      · rw [hset, Bool.true_or, Bool.true_or]
      · have hunset := Bool.eq_false_iff.mpr hset
        cases vs with
        | nil => rfl
        | cons v vs =>
          have hany : (v :: vs).any (d.checkEnum ((FoundField.extension id).sub d.env t)) = true := by
            by_contra hnone
            refine hnot ⟨⟨id, rfl⟩, hmode, hunset, by simp, fun x hx => ?_⟩
            have := List.any_eq_false.mp (Bool.eq_false_iff.mpr hnone) x hx
            simpa using this
          rw [hany]
          rfl
    | field g => rfl
    | none => rfl
    | messageSetItem => rfl

end Run

end Decoder

/-- A map key: a number, a boolean or a string. -/
structure MiniTableField.IsMapKey (f : MiniTableField) : Prop where
  type : f.descriptortype ≠ .enum ∧ f.descriptortype ≠ .message ∧ f.descriptortype ≠ .group
  mode : f.fieldMode ≠ FieldMode.array ∧ f.fieldMode ≠ FieldMode.map

theorem knownField_of_mem (env : DecodeEnv) {t : TableRef} {f : MiniTableField}
    (h : f ∈ (env.schema.table t).fields) : knownField env t f.number = .field f := by
  have hs := env.schema.table_searchable t
  unfold knownField
  cases hfind : (env.schema.table t).fields.find? fun g => g.number == f.number with
  | none => exact absurd (beq_self_eq_true f.number) (List.find?_eq_none.mp hfind f h)
  | some g =>
    obtain ⟨i, hi, hgi⟩ := List.getElem_of_mem (List.mem_of_find?_eq_some hfind)
    obtain ⟨j, hj, hfj⟩ := List.getElem_of_mem h
    have hg : (env.schema.table t).fields[i]? = some g := List.getElem?_eq_some_iff.mpr ⟨hi, hgi⟩
    have hf : (env.schema.table t).fields[j]? = some f := List.getElem?_eq_some_iff.mpr ⟨hj, hfj⟩
    have hnum : g.number = f.number := by simpa using List.find?_some hfind
    obtain hlt | rfl | hgt := Nat.lt_trichotomy i j
    · exact absurd (hs.number_lt hg hf hlt) (by omega)
    · rw [hg] at hf
      cases hf
      rfl
    · exact absurd (hs.number_lt hf hg hgt) (by omega)

namespace Decoder

open Metered

/-- The fields of a map entry, one after the other: its key, or its value with what it holds. -/
inductive EntryRun (d : Decoder) (t : TableRef) (limit : Nat) (key val : MiniTableField) :
    LoopState → List UInt64 → LoopState → Prop where
  | refl (s : LoopState) : EntryRun d t limit key val s [] s
  | key {s s₁ s₂ : LoopState} {vs : List UInt64} (hrun : EntryRun d t limit key val s vs s₁)
      (hstep : d.Step (some t) limit s₁ key.number key.descriptortype.wireType s₂) :
      EntryRun d t limit key val s vs s₂
  | value {s s₁ s₂ : LoopState} {vs ws : List UInt64} (hrun : EntryRun d t limit key val s vs s₁)
      (hstep : d.Step (some t) limit s₁ val.number .varint s₂)
      (hrecord : EnumRecordAt d.buf val.number s₁.pos s₂.pos .varint ws) :
      EntryRun d t limit key val s (vs ++ ws) s₂

/-- The op of a field that is not an enum, not a message and not repeated. -/
theorem decodeWireValue_mapKey (d : Decoder) (layout : Option TableRef) {key : MiniTableField}
    (hkey : key.IsMapKey) (limit pos : Nat) :
    (d.decodeWireValue layout (.field key) (some key.descriptortype.wireType) limit pos).Ensures fun a =>
      a.2.2 ≠ .unknownField ∧ a.2.2 ≠ .messageSetItem ∧ a.2.2 ≠ .enum := by
  obtain ⟨henum, hmessage, hgroup⟩ := hkey.type
  have hdelimited : d.getDelimitedOp layout (.field key) = delimitedOp key.descriptortype ∨
      delimitedOp key.descriptortype = .subMessage := by
    simp only [getDelimitedOp, foundField, if_neg hkey.mode.1]
    split
    next h => exact .inr h
    next => exact .inl rfl
  obtain ⟨number, offset, presence, submsgIndex, type, mode⟩ := key
  dsimp only at *
  cases type with
  | enum => exact absurd rfl henum
  | message => exact absurd rfl hmessage
  | group => exact absurd rfl hgroup
  | double | fixed64 | sfixed64 => exact Ensures.pure (by simp [foundField, fixed64Ok])
  | float | fixed32 | sfixed32 => exact Ensures.pure (by simp [foundField, fixed32Ok])
  | string | bytes =>
    refine Ensures.of_bind fun a => Ensures.pure ?_
    obtain hop | hop := hdelimited
    · simp [hop, delimitedOp]
    · cases hop
  | int64 | uint64 | int32 | bool | uint32 | sint32 | sint64 =>
    exact Ensures.of_bind fun a => Ensures.pure (by simp [varintOp])

/-- A value that is stored changes the presence and the place of its field. -/
theorem decodeToSubMessage_msg (d : Decoder) (sub : MiniTableSub) (f : MiniTableField) {op : DecodeOp}
    (hop : op ≠ .enum) (val : UInt64) (limit pos : Nat) (msg : Message) (slot : Slot) :
    (d.decodeToSubMessage sub f op val limit pos msg slot).Ensures fun a =>
      a.2.1 = (setPresence f op msg slot).1 := by
  rw [decodeToSubMessage, if_neg fun h => hop h.1]
  exact Ensures.of_bind fun a => Ensures.pure rfl

/-- The key of an entry goes to its place. -/
theorem Step.mapKey {d : Decoder} {t : TableRef} {limit : Nat} {key : MiniTableField}
    (hmem : key ∈ (d.env.schema.table t).fields) (hkey : key.IsMapKey) {s s' : LoopState}
    (hstep : d.Step (some t) limit s key.number key.descriptortype.wireType s') :
    s'.msg.unknown = s.msg.unknown ∧ ∀ o, o ≠ key.offset → s'.msg.data o = s.msg.data o := by
  obtain ⟨start, tag, htag, hnum, hw, -, hfield⟩ := hstep.field
  obtain ⟨a, ha, hfield⟩ := result_bind_eq_ok.mp hfield
  obtain ⟨b, hb, hfield⟩ := result_bind_eq_ok.mp hfield
  rw [findField_fst, hnum, knownField_of_mem d.env hmem] at ha hb
  rw [hw] at ha
  obtain ⟨hunknown, hitem, henum⟩ := d.decodeWireValue_mapKey _ hkey _ _ a ha
  obtain ⟨p, v, op⟩ := a
  obtain ⟨stop, last, msg⟩ := s'
  obtain ⟨stop', msg'⟩ := b
  cases hfield
  have hknown : (d.decodeKnownField t (.field key) op v limit p s.msg).result = .ok (stop, msg) := by
    rw [← hb, decodeValue.eq_def]
    cases op <;> first | rfl | contradiction
  obtain ⟨c, hc, hknown⟩ := result_bind_eq_ok.mp hknown
  rw [decodeToSlot, if_neg hkey.mode.1, if_neg hkey.mode.2] at hc
  have hmsg := d.decodeToSubMessage_msg _ _ henum _ _ _ _ _ c hc
  obtain ⟨q, m, slot⟩ := c
  cases hknown
  dsimp only at hmsg
  subst hmsg
  have hpres : ∀ slot', (setPresence key op s.msg slot').1.unknown = s.msg.unknown ∧
      (setPresence key op s.msg slot').1.data = s.msg.data := by
    intro slot'
    unfold setPresence
    split_ifs <;> exact ⟨rfl, rfl⟩
  exact ⟨(hpres _).1, fun o ho => (Function.update_of_ne ho _ _).trans (congrFun (hpres _).2 o)⟩

section Entry

variable {d : Decoder} {t : TableRef} {limit : Nat} {key val : MiniTableField}

/-- What the fields of an entry leave in it: the last value in the enum, and the other values as unknown
fields. -/
theorem EntryRun.entry (hkeyMem : key ∈ (d.env.schema.table t).fields)
    (hvalMem : val ∈ (d.env.schema.table t).fields) (hkey : key.IsMapKey) (hval : val.IsMapValue)
    (henum : val.descriptortype = .enum) (hoffset : val.offset ≠ key.offset) {s s' : LoopState}
    {vs : List UInt64} (hrun : d.EntryRun t limit key val s vs s') :
    s'.msg.data val.offset =
        (vs.filter (d.checkEnum ((d.env.schema.table t).sub val))).getLast?.elim (s.msg.data val.offset) enumSlot ∧
      s'.msg.unknown = s.msg.unknown ++ d.unknownValues ((d.env.schema.table t).sub val) val vs := by
  have hknown := knownField_of_mem d.env hvalMem
  induction hrun with
  | refl => simp [unknownValues]
  | key _ hstep ih =>
    obtain ⟨hunknown, hdata⟩ := hstep.mapKey hkeyMem hkey
    rw [hunknown, hdata _ hoffset]
    exact ih
  | value _ hstep hrecord ih =>
    have hres := hstep.enumResult (by rw [hknown]; rfl) henum hval.mode.2
      (fun id hid => by rw [hknown] at hid; cases hid) (by rw [hknown]; exact .inl (by rw [henum]; rfl)) hrecord
    rw [hknown] at hres
    have hsing := hres.singular hval.mode.1
    have hunk := hres.unknown
    simp only [Message.fieldSlot, FoundField.sub] at hsing hunk
    obtain ⟨ihv, ihu⟩ := ih
    refine ⟨?_, ?_⟩
    · rw [hsing, ihv, List.filter_append, List.getLast?_append]
      generalize (List.filter _ _).getLast? = x
      cases x <;> rfl
    · rw [hunk, ihu, unknownValues, unknownValues, List.filter_append, List.flatMap_append, List.append_assoc]

end Entry

/-- The unknown field of a map entry: the entry is encoded again. -/
def entryRecord (env : DecodeEnv) (number : Nat) (entry : TableRef) (ent : Message) : Option (List UInt8) :=
  (env.encode ent entry).map fun bytes =>
    encodeVarint32 (makeTag number .delimited) ++ encodeVarint32 (UInt32.ofNat bytes.length) ++ bytes

/-- A map field whose values are of a closed enum. -/
structure EnumMap (env : DecodeEnv) (t : TableRef) (f key val : MiniTableField) : Prop where
  mem : f ∈ (env.schema.table t).fields
  mode : f.fieldMode = FieldMode.map
  type : f.descriptortype = .message
  entry : ∃ rest, (env.schema.table ((env.schema.table t).sub f).tableRef).fields = key :: val :: rest
  key : key.IsMapKey
  value : val.descriptortype = .enum

/-- Entries of one map field, one after the other, each with its values and what was parsed of it. -/
inductive MapRun (d : Decoder) (depth : Nat) (t : TableRef) (limit : Nat) (f key val : MiniTableField) :
    LoopState → List (List UInt64 × Message) → LoopState → Prop where
  | refl (s : LoopState) : MapRun d depth t limit f key val s [] s
  | tail {s s₁ s₂ : LoopState} {es : List (List UInt64 × Message)} {vs : List UInt64} {ent : Message}
      {start mid size last : Nat} (hrun : MapRun d depth t limit f key val s es s₁)
      (hstep : (d.withDepth (depth + 1)).Step (some t) limit s₁ f.number .delimited s₂)
      (htag : TagAt d.buf s₁.pos start f.number .delimited) (hsize : VarintAt d.buf 10 start mid size)
      (hstop : mid + size = s₂.pos)
      (hentry : (d.withDepth depth).EntryRun ((d.env.schema.table t).sub f).tableRef s₂.pos key val
        ⟨mid, 0, Message.new⟩ vs ⟨s₂.pos, last, ent⟩) :
      MapRun d depth t limit f key val s (es ++ [(vs, ent)]) s₂

section Maps

variable (d : Decoder) (t : TableRef) (f key val : MiniTableField)

/-- All values of the entry are in the enum. -/
def inEnum (e : List UInt64 × Message) : Bool :=
  e.1.all (d.checkEnum ((d.env.schema.table ((d.env.schema.table t).sub f).tableRef).sub val))

/-- **What becomes of the entries**: those whose values are in the enum go to the map, and the others are
unknown fields. -/
structure EntriesKept (es : List (List UInt64 × Message)) (m m' : Message) : Prop where
  entries : (m'.data f.offset).entries = (es.filter (d.inEnum t f val)).foldl
    (fun acc e => mapInsert acc (mapKey key.descriptortype (e.2.data key.offset)) (e.2.data val.offset))
    (m.data f.offset).entries
  unknown : m'.unknown = m.unknown ++ (es.filter fun e => !d.inEnum t f val e).flatMap fun e =>
    (entryRecord d.env f.number ((d.env.schema.table t).sub f).tableRef e.2).getD []
  encoded : ∀ e ∈ es, d.inEnum t f val e = false →
    entryRecord d.env f.number ((d.env.schema.table t).sub f).tableRef e.2 ≠ none
  values : ∀ e ∈ es,
    e.2.data val.offset = (e.1.filter (d.checkEnum
      ((d.env.schema.table ((d.env.schema.table t).sub f).tableRef).sub val))).getLast?.elim .zero enumSlot ∧
    e.2.unknown = d.unknownValues
      ((d.env.schema.table ((d.env.schema.table t).sub f).tableRef).sub val) val e.1
  beside : m.AgreeBeside m' (.field f)

variable {d t f key val}

theorem EntriesKept.refl (m : Message) : d.EntriesKept t f key val [] m m where
  entries := rfl
  unknown := by simp
  encoded := by simp
  values := by simp
  beside := .refl m _

theorem EntriesKept.trans {es es' : List (List UInt64 × Message)} {m m₁ m₂ : Message}
    (h : d.EntriesKept t f key val es m m₁) (h' : d.EntriesKept t f key val es' m₁ m₂) :
    d.EntriesKept t f key val (es ++ es') m m₂ where
  entries := by rw [h'.entries, h.entries, List.filter_append, List.foldl_append]
  unknown := by rw [h'.unknown, h.unknown, List.filter_append, List.flatMap_append, List.append_assoc]
  encoded e he := (List.mem_append.mp he).elim (h.encoded e) (h'.encoded e)
  values e he := (List.mem_append.mp he).elim (h.values e) (h'.values e)
  beside := h.beside.trans h'.beside

/-- The fields of an entry are a part of its loop. -/
theorem EntryRun.steps {limit : Nat} {s s' : LoopState} {vs : List UInt64}
    (h : d.EntryRun t limit key val s vs s') : d.Steps (some t) limit s s' := by
  induction h with
  | refl => exact .refl
  | key _ hstep ih => exact ih.tail ⟨_, _, hstep⟩
  | value _ hstep _ ih => exact ih.tail ⟨_, _, hstep⟩

/-- The loop over an entry ends with what its fields leave. -/
theorem EntryRun.decodeSubMessage {depth mid size stop last : Nat} {sub : MiniTableSub} {vs : List UInt64}
    {m ent : Message} (hstop : mid + size = stop)
    (hentry : (d.withDepth depth).EntryRun sub.tableRef stop key val ⟨mid, 0, m⟩ vs ⟨stop, last, ent⟩) :
    ((d.withDepth (depth + 1)).decodeSubMessage sub size mid m).Ensures fun a => a = (stop, ent) := by
  intro a ha
  obtain ⟨b, hb, ha⟩ := result_bind_eq_ok.mp ha
  have hloop : ((d.withDepth depth).decodeFields (some sub.tableRef) stop (mid + size - mid + 1) mid 0 m).result =
      .ok b := by
    rw [← hstop]
    exact hb
  obtain ⟨fuel, hrest⟩ := hentry.steps.rest hloop
  cases fuel with
  | zero => exact nomatch hrest
  | succ fuel =>
    obtain ⟨done, hdone, hrest⟩ := result_bind_eq_ok.mp hrest
    have hspec := isDone_spec stop stop done hdone
    cases done with
    | false => exact absurd hspec (Nat.lt_irrefl stop)
    | true =>
      obtain ⟨u, -, hrest⟩ := result_bind_eq_ok.mp hrest
      cases hrest
      cases ha
      rfl

/-- A map entry goes to the map, or to the unknown fields if it has some. -/
theorem decodeToMap_entry {depth mid size stop last : Nat} {sub : MiniTableSub} {rest : List MiniTableField}
    {vs : List UInt64} {ent : Message} (hfields : (d.env.schema.table sub.tableRef).fields = key :: val :: rest)
    (hval : val.isSubMessage = false) (hstop : mid + size = stop)
    (hentry : (d.withDepth depth).EntryRun sub.tableRef stop key val ⟨mid, 0, Message.new⟩ vs ⟨stop, last, ent⟩)
    {msg : Message} {slot : Slot} :
    ((d.withDepth (depth + 1)).decodeToMap sub f size mid msg slot).Ensures fun a =>
      if ent.unknown = [] then
        a = (stop, msg, .map (mapInsert slot.entries (mapKey key.descriptortype (ent.data key.offset))
          (ent.data val.offset)))
      else ∃ bytes, entryRecord d.env f.number sub.tableRef ent = some bytes ∧
        a = (stop, msg.addUnknown bytes, .map slot.entries) := by
  have hnew : Message.new.setData val.offset .zero = Message.new := by
    simp only [Message.setData, Message.new]
    congr 1
    exact Function.update_eq_self _ _
  intro a ha
  rw [decodeToMap] at ha
  simp only [show (d.withDepth (depth + 1)).env = d.env from rfl, hfields] at ha
  obtain ⟨value, hvalue, ha⟩ := result_bind_eq_ok.mp ha
  rw [mapEntryValue, if_neg (by rw [hval]; decide)] at hvalue
  cases hvalue
  rw [hnew] at ha
  obtain ⟨b, hb, ha⟩ := result_bind_eq_ok.mp ha
  rw [hentry.decodeSubMessage hstop b hb] at ha
  dsimp only at ha
  split
  next hnone =>
    rw [if_neg (fun h => h hnone)] at ha
    cases ha
    rfl
  next hsome =>
    rw [if_pos hsome] at ha
    rw [entryRecord]
    cases henc : d.env.encode ent sub.tableRef with
    | none => rw [henc] at ha; cases ha
    | some bytes =>
      rw [henc] at ha
      cases ha
      exact ⟨_, rfl, by simp [addUnknownVarints, Message.addUnknown]⟩

theorem unknownValues_eq_nil_iff {sub : MiniTableSub} {vs : List UInt64} :
    d.unknownValues sub f vs = [] ↔ vs.all (d.checkEnum sub) = true := by
  have hne : ∀ v, enumRecord f.number v ≠ [] := by
    intro v hnil
    have hlen := congrArg List.length hnil
    rw [enumRecord, encodeVarint32, putSeptets, List.length_append] at hlen
    split at hlen <;> simp at hlen
  rw [unknownValues, List.flatMap_eq_nil_iff, List.all_eq_true]
  constructor
  · intro h v hv
    by_contra hout
    exact hne v (h v (List.mem_filter.mpr ⟨hv, by simpa using hout⟩))
  · intro h v hv
    obtain ⟨hmem, hout⟩ := List.mem_filter.mp hv
    rw [h v hmem] at hout
    cases hout

theorem EnumMap.mem_entry (h : EnumMap d.env t f key val) :
    key ∈ (d.env.schema.table ((d.env.schema.table t).sub f).tableRef).fields ∧
      val ∈ (d.env.schema.table ((d.env.schema.table t).sub f).tableRef).fields := by
  obtain ⟨rest, hrest⟩ := h.entry
  rw [hrest]
  exact ⟨by simp, by simp⟩

/-- The key and the value of an entry have places of their own. -/
theorem EnumMap.offset_ne (hS : d.env.schema.Regular) (h : EnumMap d.env t f key val) :
    val.IsMapValue ∧ val.offset ≠ key.offset := by
  obtain ⟨rest, hrest⟩ := h.entry
  obtain ⟨hkey, hval⟩ := h.mem_entry
  have hmapValue := hS.entry t f h.mem h.mode key val rest hrest
  refine ⟨hmapValue, fun heq => ?_⟩
  have hne : val ≠ key := fun hvk => by
    have htype := h.key.type.1
    rw [← hvk] at htype
    exact htype h.value
  have := (hS.offset _ val hval key hkey hne heq).1
  have := hmapValue.presence
  omega

/-- One entry of a map. -/
theorem Step.entriesKept (hS : d.env.schema.Regular) (hmap : EnumMap d.env t f key val)
    {depth limit start mid size last : Nat} {s s' : LoopState} {vs : List UInt64} {ent : Message}
    (hstep : (d.withDepth (depth + 1)).Step (some t) limit s f.number .delimited s')
    (htag : TagAt d.buf s.pos start f.number .delimited) (hsize : VarintAt d.buf 10 start mid size)
    (hstop : mid + size = s'.pos)
    (hentry : (d.withDepth depth).EntryRun ((d.env.schema.table t).sub f).tableRef s'.pos key val
      ⟨mid, 0, Message.new⟩ vs ⟨s'.pos, last, ent⟩) :
    d.EntriesKept t f key val [(vs, ent)] s.msg s'.msg := by
  obtain ⟨hvalue, hoffset⟩ := hmap.offset_ne hS
  obtain ⟨hkeyMem, hvalMem⟩ := hmap.mem_entry
  obtain ⟨rest, hfields⟩ := hmap.entry
  obtain ⟨hdata, hunknown⟩ : ent.data val.offset = (vs.filter (d.checkEnum
      ((d.env.schema.table ((d.env.schema.table t).sub f).tableRef).sub val))).getLast?.elim .zero enumSlot ∧
      ent.unknown = [] ++ d.unknownValues
        ((d.env.schema.table ((d.env.schema.table t).sub f).tableRef).sub val) val vs :=
    EntryRun.entry (d := d.withDepth depth) hkeyMem hvalMem hmap.key hvalue hmap.value hoffset hentry
  rw [List.nil_append] at hunknown
  obtain ⟨start', tag, htag', hnum, hw, -, hfield⟩ := hstep.field
  have hat := tagAt_of_varintAt ((d.withDepth (depth + 1)).decodeTagAt_spec _ _ htag') hw
  obtain ⟨rfl, -, -⟩ := hat.unique htag
  have hknown : knownField (d.withDepth (depth + 1)).env t f.number = .field f := knownField_of_mem d.env hmap.mem
  have hop : (d.withDepth (depth + 1)).getDelimitedOp (some t) (.field f) = .subMessage := by
    have hlinked : ((d.env.schema.table t).sub f).tableRef ≠ .empty := by
      intro hempty
      rw [hempty] at hfields
      exact nomatch hfields
    have hmode : f.fieldMode ≠ FieldMode.array := by rw [hmap.mode]; decide
    simp only [getDelimitedOp, foundField, if_neg hmode, hmap.type, delimitedOp, ↓reduceIte]
    exact if_pos (.inr hlinked)
  obtain ⟨a, ha, hfield⟩ := result_bind_eq_ok.mp hfield
  obtain ⟨b, hb, hfield⟩ := result_bind_eq_ok.mp hfield
  rw [findField_fst, hnum, hknown] at ha hb
  rw [hw] at ha
  obtain ⟨c, hc, ha⟩ := result_bind_eq_ok.mp ha
  obtain ⟨hsize', -, hmax⟩ := (d.withDepth (depth + 1)).decodeSizeAt_spec _ _ c hc
  obtain ⟨hpos, hval⟩ := hsize'.unique hsize
  obtain ⟨p, size'⟩ := c
  dsimp only at hpos hval hmax
  subst hpos hval
  rw [hop] at ha
  cases ha
  obtain ⟨stop, last', msg⟩ := s'
  obtain ⟨stop', msg'⟩ := b
  cases hfield
  have hnat : (UInt64.ofNat size').toNat = size' := by
    rw [UInt64.toNat_ofNat']
    simp only [int32Max] at hmax
    omega
  change ((d.withDepth (depth + 1)).decodeKnownField t (.field f) .subMessage (UInt64.ofNat size') limit p
    s.msg).result = _ at hb
  obtain ⟨e, he, hb⟩ := result_bind_eq_ok.mp hb
  rw [decodeToSlot, if_neg (by rw [hmap.mode]; decide), if_pos hmap.mode, hnat] at he
  have hres := decodeToMap_entry hfields (by rw [MiniTableField.isSubMessage, hmap.value]; rfl) hstop hentry e he
  have hin : ent.unknown = [] ↔ d.inEnum t f val (vs, ent) = true := by
    rw [hunknown]
    exact unknownValues_eq_nil_iff
  have hvalues : ∀ x ∈ [(vs, ent)], x.2.data val.offset = (x.1.filter (d.checkEnum
      ((d.env.schema.table ((d.env.schema.table t).sub f).tableRef).sub val))).getLast?.elim .zero enumSlot ∧
      x.2.unknown = d.unknownValues
        ((d.env.schema.table ((d.env.schema.table t).sub f).tableRef).sub val) val x.1 := by
    intro x hx
    obtain rfl := List.mem_singleton.mp hx
    exact ⟨hdata, hunknown⟩
  split at hres
  next hnone =>
    have htrue := hin.mp hnone
    subst hres
    cases hb
    exact
      { entries := by simp [htrue, Slot.entries]
        unknown := by simp [htrue]
        encoded := by simp [htrue]
        values := hvalues
        beside := ⟨fun o ho => Function.update_of_ne ho _ _, fun _ _ => rfl, fun _ _ => rfl, rfl⟩ }
  next hsome =>
    have hfalse := Bool.eq_false_iff.mpr fun h => hsome (hin.mpr h)
    obtain ⟨bytes, hbytes, rfl⟩ := hres
    cases hb
    exact
      { entries := by simp [hfalse, Slot.entries]
        unknown := by simp [Message.addUnknown, hfalse, hbytes]
        encoded := by simp [hbytes]
        values := hvalues
        beside := ⟨fun o ho => Function.update_of_ne ho _ _, fun _ _ => rfl, fun _ _ => rfl, rfl⟩ }

/-- **The entries of a run.** -/
theorem MapRun.entriesKept (hS : d.env.schema.Regular) (hmap : EnumMap d.env t f key val) {depth limit : Nat}
    {s s' : LoopState} {es : List (List UInt64 × Message)} (hrun : d.MapRun depth t limit f key val s es s') :
    d.EntriesKept t f key val es s.msg s'.msg := by
  induction hrun with
  | refl => exact .refl _
  | tail _ hstep htag hsize hstop hentry ih =>
    exact ih.trans (hstep.entriesKept hS hmap htag hsize hstop hentry)

end Maps

end Decoder

/-- The registry has each extension under its own number. -/
def DecodeEnv.Registered (env : DecodeEnv) : Prop :=
  ∀ reg, env.extreg = some reg → ∀ t number id, reg t number = some id → (env.schema.exts id).field.number = number

theorem number_of_knownField {env : DecodeEnv} (hreg : env.Registered) {t : TableRef} {number : Nat}
    {f : MiniTableField} (hf : Decoder.foundField env (knownField env t number) = some f) : f.number = number := by
  unfold knownField at hf
  split at hf
  next g hfind =>
    cases hf
    simpa using List.find?_some hfind
  next =>
    unfold Decoder.findExtension at hf
    split at hf
    next => exact nomatch hf
    next reg hsome =>
      split at hf
      · split at hf
        next id hid =>
          cases hf
          exact hreg reg hsome t number id hid
        next => exact nomatch hf
      · split at hf <;> exact nomatch hf

theorem Decoder.EnumRun.number_lt {d : Decoder} {t : TableRef} {limit number : Nat} {s s' : LoopState}
    {vs : List UInt64} (h : d.EnumRun t limit number s vs s') (hne : vs ≠ []) : number * 8 < 2 ^ 32 := by
  cases h with
  | refl => exact absurd rfl hne
  | tail _ _ _ hrecord =>
    cases hrecord with
    | varint htag _ => exact Nat.lt_of_le_of_lt (Nat.le_add_right _ _) htag.2
    | packed htag _ _ _ => exact Nat.lt_of_le_of_lt (Nat.le_add_right _ _) htag.2

section Extension

/-- A table without fields that can be extended. -/
def extendableTable : MiniTable := { MiniTable.empty with ext := ExtMode.extendable }

/-- The enum that has only the value 1, and an extension of it with the number 1. -/
def enumExtensionSchema : Schema where
  tables := fun _ => extendableTable
  enums := fun _ => ⟨64, 0, [2, 0]⟩
  exts := fun _ => ⟨⟨1, 0, 0, 0, .enum, FieldMode.scalar⟩, .table 0, .subenum 0⟩
  fieldCount_eq := fun _ => rfl
  searchable := fun _ => ⟨List.Pairwise.nil, fun _ hi => absurd hi (Nat.not_lt_zero _)⟩

def enumExtensionEnv : DecodeEnv where
  schema := enumExtensionSchema
  extreg := some fun _ number => if number = 1 then some 0 else none
  verifyUtf8 := fun _ => true
  encode := fun _ _ => none

/-- The parser of a value of the extension. -/
def enumExtensionDecoder (value : UInt8) : Decoder :=
  Decoder.startFrom enumExtensionEnv ⟨false, false, 0⟩ 100 [8, value]

theorem enumExtensionSchema_regular : enumExtensionSchema.Regular := by
  have hnone : ∀ t, (enumExtensionSchema.table t).fields = [] := by
    intro t
    cases t <;> rfl
  have hmode : MiniTableField.fieldMode ⟨1, 0, 0, 0, .enum, FieldMode.scalar⟩ ≠ FieldMode.map := by decide
  refine ⟨?_, ?_, ?_, ?_, ?_, fun _ => ⟨rfl, hmode⟩⟩
  all_goals
    intro t f hf
    rw [hnone] at hf
    cases hf

theorem enumExtension_recordAt {value : UInt8} (hvalue : value.toNat < 128) :
    EnumRecordAt [8, value] 1 0 2 .varint [value.toUInt64] := by
  have hnone : ∀ mem : Nat → UInt8, ∀ i < 0, 128 ≤ (mem i).toNat := fun _ i hi => absurd hi (Nat.not_lt_zero i)
  have htag : TagAt [8, value] 0 1 1 .varint := by
    refine ⟨⟨0, by decide, ⟨hnone _, ?_⟩, rfl, rfl⟩, by decide⟩
    change (8 : UInt8).toNat < 128
    decide
  refine .varint htag ⟨0, by decide, ⟨hnone _, hvalue⟩, rfl, ?_⟩
  change value.toNat = (0 + value.toNat % 128 * 2 ^ 0) % 2 ^ 64
  omega

/-- The loop over one value of the extension. -/
theorem enumExtension_run {value : UInt8} {m : Message} (hvalue : value.toNat < 128)
    (htag : ((enumExtensionDecoder value).decodeTagAt 0).result = .ok (1, 8))
    (h : ((enumExtensionDecoder value).decodeField (some (.table 0)) 8 2 1 0 Message.new).result = .ok (2, 0, m)) :
    (enumExtensionDecoder value).EnumRun (.table 0) 2 1 ⟨0, 0, Message.new⟩ [value.toUInt64] ⟨2, 0, m⟩ := by
  have hrun := Decoder.EnumRun.tail (.refl ⟨0, 0, Message.new⟩)
    (⟨by decide, 1, 8, htag, rfl, rfl, by decide, h⟩ :
      (enumExtensionDecoder value).Step (some (.table 0)) 2 ⟨0, 0, Message.new⟩ 1 .varint ⟨2, 0, m⟩)
    (.inl rfl) (enumExtension_recordAt hvalue)
  exact hrun

end Extension

end Hpb
