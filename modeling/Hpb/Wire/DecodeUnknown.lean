import Hpb.Wire.FieldStart

/-!
# Unknown fields

The decoder copies an unknown field from the start of its tag, which a walk back finds, to the end of its
value.

* `Decoder.SkipsGroups`: the parts of the parser that skip unknown groups follow the grammar.
-/

namespace Hpb

open Metered

namespace Decoder

section Readers

variable (d : Decoder)

theorem decodeTagAt_spec (pos : Nat) :
    (d.decodeTagAt pos).Ensures fun a => VarintAt d.buf 5 pos a.1 a.2.toNat := by
  unfold decodeTagAt
  split
  next n tag h =>
    obtain ⟨m, hm, rfl, he, hval⟩ := decodeTag_eq_some h
    refine Ensures.pure ⟨m, hm, he, by omega, ?_⟩
    have h₁ := tag.toNat_lt
    exact hval.trans (Nat.mod_eq_of_lt (by omega)).symm
  next => exact Ensures.throw

theorem decodeVarintAt_spec (pos : Nat) :
    (d.decodeVarintAt pos).Ensures fun a => VarintAt d.buf 10 pos a.1 a.2.toNat := by
  unfold decodeVarintAt
  split
  next n val h =>
    obtain ⟨m, hm, rfl, he, rfl⟩ := decodeVarint_eq_some h
    exact Ensures.pure ⟨m, hm, he, by omega, UInt64.toNat_ofNat'⟩
  next => exact Ensures.throw

theorem decodeSizeAt_spec (limit pos : Nat) :
    (d.decodeSizeAt limit pos).Ensures fun a => VarintAt d.buf 10 pos a.1 a.2 ∧ a.1 + a.2 ≤ limit ∧
      a.2 < int32Max := by
  unfold decodeSizeAt
  split
  next n size h =>
    obtain ⟨m, hm, rfl, he, hval, hmax, hcheck⟩ := decodeSize_eq_some h
    exact Ensures.pure ⟨⟨m, hm, he, by omega, hval⟩, of_decide_eq_true hcheck, hmax⟩
  next => exact Ensures.throw

theorem isDone_spec (limit pos : Nat) :
    (isDone limit pos).Ensures fun done => if done then pos = limit else pos < limit := by
  unfold isDone
  split
  next h => exact Ensures.pure h
  next =>
    split
    next h => exact Ensures.pure h
    next => exact Ensures.throw

end Readers

/-- The tag with a wire type, in its parts. -/
theorem tag_toNat {tag : UInt32} {w : WireType} (h : WireType.ofTag tag = some w) :
    tag.toNat = tag.toNat / 8 * 8 + w.bits.toNat := by
  have hmod : tag.toNat % 8 = w.bits.toNat := by
    unfold WireType.ofTag at h
    split at h <;> cases h <;> assumption
  omega

theorem tagAt_of_varintAt {buf : List UInt8} {pos stop : Nat} {tag : UInt32} {w : WireType}
    (h : VarintAt buf 5 pos stop tag.toNat) (hw : WireType.ofTag tag = some w) :
    TagAt buf pos stop (tag.toNat / 8) w := by
  have htag := tag_toNat hw
  have hlt := tag.toNat_lt
  exact ⟨htag ▸ h, by omega⟩

/-- What is read of a value follows the grammar; a delimited value is within the limit. -/
theorem decodeWireValue_spec (d : Decoder) (layout : Option TableRef) (found : FoundField)
    (w : WireType) (limit pos : Nat) :
    (d.decodeWireValue layout found (some w) limit pos).Ensures fun a =>
      ∃ val, HeadAt d.buf w pos a.1 val ∧
        (w = .delimited → a.2.1.toNat = val ∧ a.1 + val ≤ limit) := by
  cases w with
  | varint =>
    refine Ensures.bind (d.decodeVarintAt_spec pos) fun a ha => ?_
    dsimp only
    split
    · exact Ensures.pure ⟨_, ha, fun h => nomatch h⟩
    · exact Ensures.pure ⟨_, ha, fun h => nomatch h⟩
  | fixed32 => exact Ensures.pure ⟨0, rfl, fun h => nomatch h⟩
  | fixed64 => exact Ensures.pure ⟨0, rfl, fun h => nomatch h⟩
  | delimited =>
    refine Ensures.bind (d.decodeSizeAt_spec limit pos) fun a ha => ?_
    obtain ⟨hat, hle, hmax⟩ := ha
    refine Ensures.pure ⟨a.2, hat, fun _ => ⟨?_, hle⟩⟩
    have hlt : int32Max < 2 ^ 64 := by decide
    exact UInt64.toNat_ofNat_of_lt (Nat.lt_trans hmax hlt)
  | startGroup => exact Ensures.pure ⟨0, rfl, fun h => nomatch h⟩
  | endGroup => exact Ensures.throw

/-- **The walk back from an unknown field ends at its tag** and reads no byte before it, whatever the
encodings of the tag and of the value or its size. -/
theorem fieldStartWithin_unknown (d : Decoder) (layout : Option TableRef) (limit last lo pos start stop : Nat)
    (tag : UInt32) (w : WireType) (v : UInt64) (htag : (d.decodeTagAt pos).result = .ok (start, tag))
    (hw : WireType.ofTag tag = some w) (hnumber : tag.toNat / 8 ≠ 0)
    (hvalue : (d.decodeWireValue layout (findField d.env layout (tag.toNat / 8) last).1 (some w) limit
      start).result = .ok (stop, v, .unknownField)) (hlo : lo ≤ pos) :
    fieldStartWithin d.buf lo (tag.toNat / 8) w stop = some pos ∧
      fieldStart d.buf (tag.toNat / 8) w stop = pos := by
  have hat : TagAt d.buf pos start (tag.toNat / 8) w := tagAt_of_varintAt (d.decodeTagAt_spec pos _ htag) hw
  obtain ⟨val, hhead, -⟩ := d.decodeWireValue_spec _ _ _ _ _ _ hvalue
  have hwithin := fieldStartWithin_eq hat (Nat.pos_of_ne_zero hnumber) hhead hlo
  exact ⟨hwithin, fieldStart_of_within hwithin⟩

/-- A decoder whose tables have no fields. -/
def withoutFields (buf : List UInt8) : Decoder :=
  let schema : Schema :=
    { tables := fun _ => .empty, enums := fun _ => ⟨0, 0, []⟩
      exts := fun _ => ⟨⟨1, 0, 0, 0, .message, FieldMode.scalar⟩, .empty, .emptyMessage⟩
      fieldCount_eq := fun _ => rfl
      searchable := fun _ => ⟨List.Pairwise.nil, fun _ hi => absurd hi (Nat.not_lt_zero _)⟩ }
  start ⟨schema, none, fun _ => true, fun _ _ => none⟩ ⟨false, false, 0⟩ (fun _ _ => throw .malformed) 100 buf

/-- A tag of three bytes and a varint of two, with a zero byte at the end of each. -/
theorem fieldStartWithin_unknown_overlong :
    fieldStartWithin [0, 136, 128, 0, 133, 0] 1 1 .varint 6 = some 1 ∧
      fieldStart [0, 136, 128, 0, 133, 0] 1 .varint 6 = 1 :=
  fieldStartWithin_unknown (withoutFields [0, 136, 128, 0, 133, 0]) (some (.table 0)) 6 0 1 1 4 6 8 .varint 5
    (by decide) (by decide) (by decide) (by decide) (by decide)

/-- The end tag of a group after its fields. -/
def GroupEnd (buf : List UInt8) (pos stop number : Nat) : Prop :=
  ∃ mid, FieldsAt buf pos mid ∧ TagAt buf mid stop number .endGroup

/-- The unknown groups one level below follow the grammar. -/
def SkipsGroups (d : Decoder) : Prop :=
  ∀ limit pos msg, (d.recurse limit pos none msg).Ensures fun a =>
    ∀ number, a.2.2 = some number → GroupEnd d.buf pos a.1 number

section Skip

variable {d : Decoder} (hd : d.SkipsGroups)
include hd

theorem decodeUnknownGroup_spec (number limit pos : Nat) :
    (d.decodeUnknownGroup number limit pos).Ensures fun stop =>
      ValueAt d.buf number .startGroup pos stop := by
  refine Ensures.bind (P := fun a => GroupEnd d.buf pos a.1 number) ?_ fun a ha => ?_
  · refine Ensures.of_bind fun done => ?_
    split
    · exact Ensures.throw
    · refine Ensures.bind (hd limit pos Message.new) fun a ha => ?_
      dsimp only
      split
      next hnumber => exact Ensures.pure (ha number hnumber)
      next => exact Ensures.throw
  · obtain ⟨mid, hfields, hend⟩ := ha
    exact Ensures.pure (.group hfields hend)

theorem unknownFieldEnd_spec {w : WireType} {start pos val : Nat} {v : UInt64}
    (hhead : HeadAt d.buf w start pos val) (hval : w = .delimited → v.toNat = val) (number limit : Nat) :
    (d.unknownFieldEnd number w v limit pos).Ensures fun stop => ValueAt d.buf number w start stop := by
  unfold unknownFieldEnd
  cases w with
  | varint => exact Ensures.pure (.varint hhead)
  | fixed32 =>
    obtain rfl : pos = start + 4 := hhead
    exact Ensures.pure (.fixed32 number start)
  | fixed64 =>
    obtain rfl : pos = start + 8 := hhead
    exact Ensures.pure (.fixed64 number start)
  | delimited =>
    rw [if_neg (by decide), if_pos rfl]
    refine Ensures.pure ?_
    rw [hval rfl]
    exact .delimited hhead
  | startGroup =>
    obtain rfl : pos = start := hhead
    exact decodeUnknownGroup_spec hd number limit pos
  | endGroup => exact hhead.elim

/-- **An unknown field is copied from its tag to the end of its value.** -/
theorem decodeUnknownField_spec {w : WireType} {tagStart start pos val number : Nat} {v : UInt64}
    (htag : TagAt d.buf tagStart start number w) (hhead : HeadAt d.buf w start pos val)
    (hval : w = .delimited → v.toNat = val) (layout : Option TableRef) (limit : Nat) (msg : Message) :
    (d.decodeUnknownField layout number w v limit pos msg).Ensures fun a =>
      ValueAt d.buf number w start a.1 ∧
        a.2 = if layout.isSome then msg.addUnknown (d.slice tagStart (a.1 - tagStart)) else msg := by
  unfold decodeUnknownField
  split
  next => exact Ensures.throw
  next hnumber =>
    refine Ensures.bind (unknownFieldEnd_spec hd hhead hval number limit) fun stop hstop => ?_
    split
    · refine Ensures.pure ⟨hstop, ?_⟩
      rw [fieldStart_eq htag (Nat.pos_of_ne_zero hnumber) hhead]
    · exact Ensures.pure ⟨hstop, rfl⟩

omit hd in
/-- Nothing is known in an unknown group. -/
theorem decodeWireValue_none (layout : Option TableRef) (w : Option WireType) (limit pos : Nat) :
    (d.decodeWireValue layout .none w limit pos).Ensures fun a => a.2.2 = .unknownField := by
  unfold decodeWireValue
  dsimp only
  split
  · exact Ensures.of_bind fun a => Ensures.pure rfl
  · exact Ensures.pure rfl
  · exact Ensures.pure rfl
  · exact Ensures.of_bind fun a => Ensures.pure rfl
  · exact Ensures.pure rfl
  · exact Ensures.throw

theorem decodeField_none {tag : UInt32} {w : WireType} {tagStart pos : Nat}
    (htag : VarintAt d.buf 5 tagStart pos tag.toNat) (hw : WireType.ofTag tag = some w)
    (limit last : Nat) (msg : Message) :
    (d.decodeField none tag limit pos last msg).Ensures fun a =>
      ValueAt d.buf (tag.toNat / 8) w pos a.1 := by
  refine Ensures.bind (P := fun a => a.2.2 = .unknownField ∧ ∃ val, HeadAt d.buf w pos a.1 val ∧
    (w = .delimited → a.2.1.toNat = val ∧ a.1 + val ≤ limit)) ?_ ?_
  · rw [hw]
    intro a ha
    exact ⟨decodeWireValue_none _ _ _ _ a ha, d.decodeWireValue_spec _ _ _ _ _ a ha⟩
  · rintro ⟨stop, v, op⟩ ⟨rfl, val, hhead, hval⟩
    simp only [decodeValue, hw]
    refine Ensures.bind (decodeUnknownField_spec hd (tagAt_of_varintAt htag hw) hhead
      (fun h => (hval h).1) none limit msg) fun b hb => ?_
    exact Ensures.pure hb.1

theorem decodeFields_none (limit fuel pos last : Nat) (msg : Message) :
    (d.decodeFields none limit fuel pos last msg).Ensures fun a =>
      ∀ number, a.2.2 = some number → GroupEnd d.buf pos a.1 number := by
  induction fuel generalizing pos last msg with
  | zero => exact Ensures.throw
  | succ fuel ih =>
    refine Ensures.of_bind fun done => ?_
    split
    · exact Ensures.of_bind fun _ => Ensures.pure fun number h => nomatch h
    · refine Ensures.bind (d.decodeTagAt_spec pos) fun a htag => ?_
      dsimp only
      split
      next hend =>
        refine Ensures.pure ?_
        rintro number ⟨⟩
        exact ⟨pos, .nil pos, tagAt_of_varintAt htag hend⟩
      next hend =>
        cases hw : WireType.ofTag a.2 with
        | none =>
          -- a wire type that does not exist
          refine Ensures.bind (P := fun _ => False) ?_ fun b hb => hb.elim
          unfold decodeField
          rw [hw]
          exact Ensures.bind (P := fun _ => False) Ensures.throw fun b hb => hb.elim
        | some w =>
          refine Ensures.bind (decodeField_none hd htag hw limit last msg) fun b hvalue => ?_
          refine (ih b.1 b.2.1 b.2.2).mono fun c hc number hnumber => ?_
          obtain ⟨mid, hfields, hstop⟩ := hc number hnumber
          exact ⟨mid, .cons (tagAt_of_varintAt htag hw) hvalue hfields, hstop⟩

end Skip

/-- **Unknown groups follow the grammar at every depth.** -/
theorem skipsGroups_withDepth (d : Decoder) (depth : Nat) : (d.withDepth depth).SkipsGroups := by
  induction depth with
  | zero => exact fun _ _ _ => Ensures.throw
  | succ depth ih => exact fun limit pos msg => Ensures.level (decodeFields_none ih _ _ _ _ _)

end Decoder

end Hpb
