import Hpb.Message.Depth
import Hpb.Wire.Decode

/-!
# The depth of a parse

Two decoders that differ in the depth that is left: the one with less is the other one, stopped with
`maxDepthExceeded` where that one goes deeper (`Metered.Capped`). This holds of runs that do not enter a
level without a charge to `d->depth`.
-/

namespace Hpb

open Metered

namespace Decoder

/-- The run `x` is the run `y` with at most `n` more levels. -/
abbrev CappedAt {α : Type} (n : Nat) (x y : DecodeM α) : Prop :=
  Capped DecodeEvent.uncharged DecodeStatus.maxDepthExceeded n x y

section Flat

variable (d : Decoder)

theorem peak_isDone (limit pos : Nat) : (isDone limit pos).peak = 0 := by
  unfold isDone
  split
  · rfl
  · split <;> rfl

theorem peak_decodeVarintAt (pos : Nat) : (d.decodeVarintAt pos).peak = 0 := by
  unfold decodeVarintAt
  split <;> rfl

theorem peak_decodeTagAt (pos : Nat) : (d.decodeTagAt pos).peak = 0 := by
  unfold decodeTagAt
  split <;> rfl

theorem peak_decodeSizeAt (limit pos : Nat) : (d.decodeSizeAt limit pos).peak = 0 := by
  unfold decodeSizeAt
  split <;> rfl

theorem peak_verifyUtf8 (bytes : List UInt8) : (d.verifyUtf8 bytes).peak = 0 := by
  unfold verifyUtf8
  split <;> rfl

theorem peak_newSubMessage (sub : MiniTableSub) : (d.newSubMessage sub).peak = 0 := by
  unfold newSubMessage
  split <;> rfl

theorem peak_decodePacked (add : UInt64 → Message × List Slot → Message × List Slot)
    (limit fuel pos : Nat) (acc : Message × List Slot) :
    (d.decodePacked add limit fuel pos acc).peak = 0 := by
  induction fuel generalizing pos acc with
  | zero => rfl
  | succ fuel ih =>
    refine peak_bind_eq_zero (peak_isDone limit pos) fun done => ?_
    split
    · rfl
    · exact peak_bind_eq_zero (d.peak_decodeVarintAt pos) fun a => ih _ _

/-- A packed field has no messages in it. -/
theorem decodePacked_recurse
    {r : Nat → Nat → Option TableRef → Message → DecodeM (Nat × Message × Option Nat)}
    (add : UInt64 → Message × List Slot → Message × List Slot) (limit fuel pos : Nat)
    (acc : Message × List Slot) :
    { d with recurse := r }.decodePacked add limit fuel pos acc = d.decodePacked add limit fuel pos acc := by
  induction fuel generalizing pos acc with
  | zero => rfl
  | succ fuel ih =>
    simp only [decodePacked, ih]
    rfl

theorem peak_mapEntryValue (entry : MiniTable) (val : MiniTableField) :
    (d.mapEntryValue entry val).peak = 0 := by
  unfold mapEntryValue
  split
  · exact peak_bind_eq_zero (d.peak_newSubMessage _) fun _ => rfl
  · rfl

theorem peak_decodeWireValue (layout : Option TableRef) (found : FoundField) (w : Option WireType)
    (limit pos : Nat) : (d.decodeWireValue layout found w limit pos).peak = 0 := by
  unfold decodeWireValue
  split
  · refine peak_bind_eq_zero (d.peak_decodeVarintAt pos) fun a => ?_
    dsimp only
    split <;> rfl
  · rfl
  · rfl
  · exact peak_bind_eq_zero (d.peak_decodeSizeAt limit pos) fun _ => rfl
  · rfl
  · rfl

theorem peak_checkRequired (layout : Option TableRef) (msg : Message) :
    (d.checkRequired layout msg).peak = 0 := by
  unfold checkRequired
  dsimp only
  split <;> rfl

end Flat

section Capped

variable {d : Decoder} {n : Nat}
  {r : Nat → Nat → Option TableRef → Message → DecodeM (Nat × Message × Option Nat)}
  (hr : ∀ limit pos layout msg, CappedAt n (d.recurse limit pos layout msg) (r limit pos layout msg))
include hr

theorem capped_decodeSubMessage (sub : MiniTableSub) (size pos : Nat) (msg : Message) :
    CappedAt n (d.decodeSubMessage sub size pos msg)
      ({ d with recurse := r }.decodeSubMessage sub size pos msg) := by
  refine Capped.bind (hr _ _ _ _) fun a => ?_
  dsimp only
  split
  · exact Capped.of_peak rfl
  · exact Capped.of_peak rfl

theorem capped_decodeGroup (layout : Option TableRef) (number limit pos : Nat) (msg : Message) :
    CappedAt n (d.decodeGroup layout number limit pos msg)
      ({ d with recurse := r }.decodeGroup layout number limit pos msg) := by
  refine Capped.bind (Capped.of_peak (peak_isDone limit pos)) fun done => ?_
  split
  · exact Capped.of_peak rfl
  · refine Capped.bind (hr _ _ _ _) fun a => ?_
    dsimp only
    split
    · exact Capped.of_peak rfl
    · exact Capped.of_peak rfl

theorem capped_decodeUnknownGroup (number limit pos : Nat) :
    CappedAt n (d.decodeUnknownGroup number limit pos)
      ({ d with recurse := r }.decodeUnknownGroup number limit pos) :=
  Capped.bind (capped_decodeGroup hr none number limit pos Message.new) fun _ => Capped.of_peak rfl

theorem capped_decodeSubField (sub : MiniTableSub) (field : MiniTableField) (size limit pos : Nat)
    (msg : Message) :
    CappedAt n (d.decodeSubField sub field size limit pos msg)
      ({ d with recurse := r }.decodeSubField sub field size limit pos msg) := by
  unfold decodeSubField
  split
  · exact capped_decodeGroup hr _ _ _ _ _
  · exact capped_decodeSubMessage hr _ _ _ _

omit hr in
theorem capped_subMessageOf (sub : MiniTableSub) (slot : Slot) :
    CappedAt n (d.subMessageOf sub slot) ({ d with recurse := r }.subMessageOf sub slot) := by
  unfold subMessageOf
  split
  · unfold reuseSubMessage
    split
    · exact Capped.of_peak rfl
    · -- the promotion is not charged
      refine Capped.bind (Capped.of_peak (d.peak_newSubMessage sub)) fun _ => ?_
      exact Capped.mark_bind
  · exact Capped.bind (Capped.of_peak (d.peak_newSubMessage sub)) fun _ => Capped.of_peak rfl

theorem capped_decodeToArray (sub : MiniTableSub) (field : MiniTableField) (op : DecodeOp) (val : UInt64)
    (limit pos : Nat) (msg : Message) (slot : Slot) :
    CappedAt n (d.decodeToArray sub field op val limit pos msg slot)
      ({ d with recurse := r }.decodeToArray sub field op val limit pos msg slot) := by
  cases op with
  | string => exact Capped.bind (Capped.of_peak (d.peak_verifyUtf8 _)) fun _ => Capped.of_peak rfl
  | subMessage =>
    refine Capped.bind (Capped.of_peak (d.peak_newSubMessage sub)) fun _ => ?_
    exact Capped.bind (capped_decodeSubField hr _ _ _ _ _ _) fun _ => Capped.of_peak rfl
  | fixPck lg2 =>
    refine Capped.of_peak ?_
    dsimp only [decodeToArray]
    split <;> rfl
  | varPck lg2 =>
    dsimp only [decodeToArray]
    rw [d.decodePacked_recurse (r := r)]
    exact Capped.bind (Capped.of_peak (d.peak_decodePacked _ _ _ _ _)) fun _ => Capped.of_peak rfl
  | enum =>
    refine Capped.of_peak ?_
    dsimp only [decodeToArray]
    split <;> rfl
  | packedEnum =>
    dsimp only [decodeToArray]
    rw [d.decodePacked_recurse (r := r)]
    exact Capped.bind (Capped.of_peak (d.peak_decodePacked _ _ _ _ _)) fun _ => Capped.of_peak rfl
  | _ => exact Capped.of_peak rfl

theorem capped_decodeToMap (sub : MiniTableSub) (field : MiniTableField) (size pos : Nat) (msg : Message)
    (slot : Slot) :
    CappedAt n (d.decodeToMap sub field size pos msg slot)
      ({ d with recurse := r }.decodeToMap sub field size pos msg slot) := by
  unfold decodeToMap
  dsimp only
  split
  · refine Capped.bind (Capped.of_peak (d.peak_mapEntryValue _ _)) fun value => ?_
    refine Capped.bind (capped_decodeSubMessage hr _ _ _ _) fun a => ?_
    refine Capped.of_peak ?_
    split
    · split <;> rfl
    · rfl
  · exact Capped.of_peak rfl

theorem capped_storeValue (sub : MiniTableSub) (field : MiniTableField) (op : DecodeOp) (val : UInt64)
    (limit pos : Nat) (slot : Slot) :
    CappedAt n (d.storeValue sub field op val limit pos slot)
      ({ d with recurse := r }.storeValue sub field op val limit pos slot) := by
  cases op with
  | subMessage =>
    refine Capped.bind (capped_subMessageOf sub slot) fun a => ?_
    exact Capped.bind (capped_decodeSubField hr _ _ _ _ _ _) fun _ => Capped.of_peak rfl
  | string => exact Capped.bind (Capped.of_peak (d.peak_verifyUtf8 _)) fun _ => Capped.of_peak rfl
  | _ => exact Capped.of_peak rfl

theorem capped_decodeToSlot (sub : MiniTableSub) (field : MiniTableField) (op : DecodeOp) (val : UInt64)
    (limit pos : Nat) (msg : Message) (slot : Slot) :
    CappedAt n (d.decodeToSlot sub field op val limit pos msg slot)
      ({ d with recurse := r }.decodeToSlot sub field op val limit pos msg slot) := by
  unfold decodeToSlot
  split
  · exact capped_decodeToArray hr _ _ _ _ _ _ _ _
  · split
    · exact capped_decodeToMap hr _ _ _ _ _ _
    · unfold decodeToSubMessage
      split
      · rw [if_pos ‹_›]
        exact Capped.of_peak rfl
      · rw [if_neg ‹_›]
        exact Capped.bind (capped_storeValue hr _ _ _ _ _ _ _) fun _ => Capped.of_peak rfl

theorem capped_decodeKnownField (layout : TableRef) (found : FoundField) (op : DecodeOp) (val : UInt64)
    (limit pos : Nat) (msg : Message) :
    CappedAt n (d.decodeKnownField layout found op val limit pos msg)
      ({ d with recurse := r }.decodeKnownField layout found op val limit pos msg) := by
  cases found with
  | field f => exact Capped.bind (capped_decodeToSlot hr _ _ _ _ _ _ _ _) fun _ => Capped.of_peak rfl
  | extension id =>
    exact Capped.bind (capped_decodeToSlot hr _ _ _ _ _ _ _ _) fun _ => Capped.of_peak rfl
  | _ => exact Capped.of_peak rfl

theorem capped_unknownFieldEnd (number : Nat) (w : WireType) (val : UInt64) (limit pos : Nat) :
    CappedAt n (d.unknownFieldEnd number w val limit pos)
      ({ d with recurse := r }.unknownFieldEnd number w val limit pos) := by
  unfold unknownFieldEnd
  split
  · exact capped_decodeUnknownGroup hr _ _ _
  · refine Capped.of_peak ?_
    split <;> rfl

theorem capped_decodeUnknownField (layout : Option TableRef) (number : Nat) (w : WireType) (val : UInt64)
    (limit pos : Nat) (msg : Message) :
    CappedAt n (d.decodeUnknownField layout number w val limit pos msg)
      ({ d with recurse := r }.decodeUnknownField layout number w val limit pos msg) := by
  unfold decodeUnknownField
  split
  · exact Capped.of_peak rfl
  · refine Capped.bind (capped_unknownFieldEnd hr _ _ _ _ _) fun stop => ?_
    refine Capped.of_peak ?_
    split <;> rfl

theorem capped_decodeValue (layout : Option TableRef) (found : FoundField) (tag : UInt32) (op : DecodeOp)
    (val : UInt64) (limit pos : Nat) (msg : Message) :
    CappedAt n (d.decodeValue layout found tag op val limit pos msg)
      ({ d with recurse := r }.decodeValue layout found tag op val limit pos msg) := by
  unfold decodeValue
  split
  · exact capped_decodeUnknownField hr _ _ _ _ _ _ _
  · exact Capped.mark_bind
  · exact capped_decodeKnownField hr _ _ _ _ _ _ _
  · exact Capped.of_peak rfl

theorem capped_decodeField (layout : Option TableRef) (tag : UInt32) (limit pos last : Nat)
    (msg : Message) :
    CappedAt n (d.decodeField layout tag limit pos last msg)
      ({ d with recurse := r }.decodeField layout tag limit pos last msg) := by
  refine Capped.bind (Capped.of_peak (d.peak_decodeWireValue _ _ _ _ _)) fun a => ?_
  exact Capped.bind (capped_decodeValue hr _ _ _ _ _ _ _ _) fun _ => Capped.of_peak rfl

theorem capped_decodeFields (layout : Option TableRef) (limit fuel pos last : Nat) (msg : Message) :
    CappedAt n (d.decodeFields layout limit fuel pos last msg)
      ({ d with recurse := r }.decodeFields layout limit fuel pos last msg) := by
  induction fuel generalizing pos last msg with
  | zero => exact Capped.of_peak rfl
  | succ fuel ih =>
    refine Capped.bind (Capped.of_peak (peak_isDone limit pos)) fun done => ?_
    split
    · exact Capped.bind (Capped.of_peak (d.peak_checkRequired layout msg)) fun _ => Capped.of_peak rfl
    · refine Capped.bind (Capped.of_peak (d.peak_decodeTagAt pos)) fun a => ?_
      dsimp only
      split
      · exact Capped.of_peak rfl
      · exact Capped.bind (capped_decodeField hr _ _ _ _ _ _) fun b => ih _ _ _

end Capped

/-- **A parse with less depth left is the parse with more, stopped where that one goes deeper.** -/
theorem capped_recurseSubMessage (d : Decoder) {depth depth' : Nat} (h : depth ≤ depth')
    (limit pos : Nat) (layout : Option TableRef) (msg : Message) :
    CappedAt depth (d.recurseSubMessage depth limit pos layout msg)
      (d.recurseSubMessage depth' limit pos layout msg) := by
  induction depth generalizing depth' limit pos layout msg with
  | zero =>
    cases depth' with
    | zero => exact Capped.of_peak rfl
    | succ depth' => exact Capped.throw_level
  | succ depth ih =>
    cases depth' with
    | zero => exact absurd h (Nat.not_succ_le_zero depth)
    | succ depth' =>
      refine Capped.level ?_
      exact capped_decodeFields (d := { d with recurse := d.recurseSubMessage depth })
        (fun limit pos layout msg => ih (Nat.le_of_succ_le_succ h) limit pos layout msg) _ _ _ _ _ _

/-! ### The messages of a parse -/

/-- What the messages one level below come to, with `n` levels left: a message keeps every bound on its
depth that leaves room for the levels below it. -/
structure KeepsDepth (d : Decoder) (n : Nat) : Prop where
  recurse : ∀ limit pos layout msg k, n ≤ k + 1 → Message.DepthLe k msg →
    EnsuresUnless .uncharged (d.recurse limit pos layout msg) fun a => a.2.1.DepthLe k
  zero : n = 0 → ∀ limit pos layout msg, (d.recurse limit pos layout msg).Ensures fun _ => False

namespace KeepsDepth

variable {d : Decoder} {n k : Nat} (h : d.KeepsDepth n)
include h

theorem decodeSubMessage (hk : n ≤ k + 1) (sub : MiniTableSub) (size pos : Nat) {msg : Message}
    (hm : msg.DepthLe k) :
    EnsuresUnless .uncharged (d.decodeSubMessage sub size pos msg) fun a => a.2.DepthLe k := by
  refine EnsuresUnless.bind (h.recurse _ _ _ _ k hk hm) fun a ha => ?_
  dsimp only
  split
  · exact EnsuresUnless.pure ha
  · exact EnsuresUnless.throw

theorem decodeGroup (hk : n ≤ k + 1) (layout : Option TableRef) (number limit pos : Nat) {msg : Message}
    (hm : msg.DepthLe k) :
    EnsuresUnless .uncharged (d.decodeGroup layout number limit pos msg) fun a => a.2.DepthLe k := by
  refine EnsuresUnless.of_bind fun done => ?_
  split
  · exact EnsuresUnless.throw
  · refine EnsuresUnless.bind (h.recurse _ _ _ _ k hk hm) fun a ha => ?_
    dsimp only
    split
    · exact EnsuresUnless.pure ha
    · exact EnsuresUnless.throw

theorem decodeSubField (hk : n ≤ k + 1) (sub : MiniTableSub) (field : MiniTableField)
    (size limit pos : Nat) {msg : Message} (hm : msg.DepthLe k) :
    EnsuresUnless .uncharged (d.decodeSubField sub field size limit pos msg) fun a => a.2.DepthLe k := by
  unfold Decoder.decodeSubField
  split
  · exact h.decodeGroup hk _ _ _ _ hm
  · exact h.decodeSubMessage hk _ _ _ hm

/-- With no level left, no sub-message is parsed. -/
theorem not_decodeSubField (hn : n = 0) (sub : MiniTableSub) (field : MiniTableField)
    (size limit pos : Nat) (msg : Message) :
    (d.decodeSubField sub field size limit pos msg).Ensures fun _ => False := by
  unfold Decoder.decodeSubField
  split
  · refine Ensures.of_bind fun done => ?_
    split
    · exact Ensures.throw
    · exact Ensures.bind (h.zero hn _ _ _ _) fun a ha => ha.elim
  · exact Ensures.bind (h.zero hn _ _ _ _) fun a ha => ha.elim

omit h in
theorem subMessageOf (sub : MiniTableSub) {slot : Slot} (hs : Slot.DepthLe (k + 1) slot) :
    EnsuresUnless .uncharged (d.subMessageOf sub slot) fun a => a.2.DepthLe k := by
  have hnew : EnsuresUnless .uncharged (d.newSubMessage sub >>= fun e => pure (e, Message.new))
      fun a : Bool × Message => a.2.DepthLe k :=
    EnsuresUnless.of_bind fun _ => EnsuresUnless.pure Message.DepthLe.new
  cases slot with
  | msg isEmpty m =>
    dsimp only [Decoder.subMessageOf]
    unfold reuseSubMessage
    split
    · exact EnsuresUnless.pure (Slot.depthLe_msg.mp hs)
    · exact EnsuresUnless.of_bind fun _ => EnsuresUnless.mark_bind
  | _ => exact hnew

/-- A sub-message field has its message one level below. -/
theorem subField {K : Nat} (hK : n ≤ K) (isEmpty : Bool) (sub : MiniTableSub) (field : MiniTableField)
    (size limit pos : Nat) {msg : Message}
    (hm : ∀ k, K = k + 1 → msg.DepthLe k) :
    EnsuresUnless .uncharged (d.decodeSubField sub field size limit pos msg)
      fun a => Slot.DepthLe K (.msg isEmpty a.2) := by
  cases K with
  | zero =>
    intro _ a ha
    exact (h.not_decodeSubField (Nat.le_zero.mp hK) sub field size limit pos msg a ha).elim
  | succ k =>
    intro hmark a ha
    exact Slot.depthLe_msg.mpr (h.decodeSubField hK sub field size limit pos (hm k rfl) hmark a ha)

/-- The message and the value of a field, within a bound. -/
abbrev Within (K : Nat) (a : Nat × Message × Slot) : Prop := a.2.1.DepthLe K ∧ Slot.DepthLe K a.2.2

omit h in
/-- The elements of a packed field have no messages in them. -/
theorem decodePacked {K : Nat} {add : UInt64 → Message × List Slot → Message × List Slot}
    (hadd : ∀ v acc, (acc.1.DepthLe K ∧ ∀ x ∈ acc.2, Slot.DepthLe K x) →
      (add v acc).1.DepthLe K ∧ ∀ x ∈ (add v acc).2, Slot.DepthLe K x)
    (limit fuel pos : Nat) {acc : Message × List Slot}
    (hacc : acc.1.DepthLe K ∧ ∀ x ∈ acc.2, Slot.DepthLe K x) :
    EnsuresUnless .uncharged (d.decodePacked add limit fuel pos acc)
      fun a => a.2.1.DepthLe K ∧ ∀ x ∈ a.2.2, Slot.DepthLe K x := by
  induction fuel generalizing pos acc with
  | zero => exact EnsuresUnless.throw
  | succ fuel ih =>
    refine EnsuresUnless.of_bind fun done => ?_
    split
    · exact EnsuresUnless.pure hacc
    · exact EnsuresUnless.of_bind fun a => ih _ (hadd _ _ hacc)

omit h in
theorem addVarint {K : Nat} (field : MiniTableField) (lg2 : Nat) (v : UInt64) (acc : Message × List Slot)
    (hacc : acc.1.DepthLe K ∧ ∀ x ∈ acc.2, Slot.DepthLe K x) :
    (addVarint field lg2 v acc).1.DepthLe K ∧ ∀ x ∈ (addVarint field lg2 v acc).2, Slot.DepthLe K x := by
  refine ⟨hacc.1, fun x hx => ?_⟩
  obtain hx | hx := List.mem_append.mp hx
  · exact hacc.2 x hx
  · rw [List.mem_singleton.mp hx]
    exact Slot.depthLe_ofScalar _

omit h in
theorem addEnum {K : Nat} (sub : MiniTableSub) (field : MiniTableField) (v : UInt64)
    (acc : Message × List Slot) (hacc : acc.1.DepthLe K ∧ ∀ x ∈ acc.2, Slot.DepthLe K x) :
    (d.addEnum sub field v acc).1.DepthLe K ∧ ∀ x ∈ (d.addEnum sub field v acc).2, Slot.DepthLe K x := by
  unfold Decoder.addEnum
  split
  · refine ⟨hacc.1, fun x hx => ?_⟩
    obtain hx | hx := List.mem_append.mp hx
    · exact hacc.2 x hx
    · rw [List.mem_singleton.mp hx]
      exact Slot.depthLe_ofScalar _
  · exact ⟨hacc.1.addUnknown _, hacc.2⟩

theorem decodeToArray {K : Nat} (hK : n ≤ K) (sub : MiniTableSub) (field : MiniTableField)
    (op : DecodeOp) (val : UInt64) (limit pos : Nat) {msg : Message} {slot : Slot}
    (hm : msg.DepthLe K) (hs : Slot.DepthLe K slot) :
    EnsuresUnless .uncharged (d.decodeToArray sub field op val limit pos msg slot) (Within K) := by
  cases op with
  | scalar1Byte => exact EnsuresUnless.pure ⟨hm, hs.push (Slot.depthLe_ofScalar _)⟩
  | scalar4Byte => exact EnsuresUnless.pure ⟨hm, hs.push (Slot.depthLe_ofScalar _)⟩
  | scalar8Byte => exact EnsuresUnless.pure ⟨hm, hs.push (Slot.depthLe_ofScalar _)⟩
  | string =>
    exact EnsuresUnless.of_bind fun _ => EnsuresUnless.pure ⟨hm, hs.push (Slot.depthLe_ofStr _)⟩
  | bytes => exact EnsuresUnless.pure ⟨hm, hs.push (Slot.depthLe_ofStr _)⟩
  | subMessage =>
    refine EnsuresUnless.of_bind fun isEmpty => ?_
    refine EnsuresUnless.bind (h.subField hK isEmpty _ _ _ _ _ fun _ _ => Message.DepthLe.new) fun a ha => ?_
    exact EnsuresUnless.pure ⟨hm, hs.push ha⟩
  | fixPck lg2 =>
    dsimp only [Decoder.decodeToArray]
    split
    · exact EnsuresUnless.throw
    · refine EnsuresUnless.pure ⟨hm, .arr fun x hx => ?_⟩
      obtain hx | hx := List.mem_append.mp hx
      · exact hs.elems x hx
      · obtain ⟨i, -, rfl⟩ := List.mem_map.mp hx
        exact Slot.depthLe_ofScalar _
  | varPck lg2 =>
    refine EnsuresUnless.bind (decodePacked (addVarint field lg2) _ _ _ ⟨hm, hs.elems⟩) fun a ha => ?_
    exact EnsuresUnless.pure ⟨ha.1, .arr ha.2⟩
  | enum =>
    dsimp only [Decoder.decodeToArray]
    split
    · exact EnsuresUnless.pure ⟨hm, hs.push (Slot.depthLe_ofScalar _)⟩
    · exact EnsuresUnless.pure ⟨hm.addUnknown _, .arr hs.elems⟩
  | packedEnum =>
    refine EnsuresUnless.bind (decodePacked (addEnum sub field) _ _ _ ⟨hm, hs.elems⟩) fun a ha => ?_
    exact EnsuresUnless.pure ⟨ha.1, .arr ha.2⟩
  | unknownField => exact EnsuresUnless.pure ⟨hm, hs⟩
  | messageSetItem => exact EnsuresUnless.pure ⟨hm, hs⟩

theorem decodeToMap {K : Nat} (hK : n ≤ K) (sub : MiniTableSub) (field : MiniTableField)
    (size pos : Nat) {msg : Message} {slot : Slot} (hm : msg.DepthLe K) (hs : Slot.DepthLe K slot) :
    EnsuresUnless .uncharged (d.decodeToMap sub field size pos msg slot) (Within K) := by
  unfold Decoder.decodeToMap
  dsimp only
  split
  case h_2 => exact EnsuresUnless.throw
  case h_1 key val _ _ =>
    -- the value is as deep as the map, though its entry is one level below
    cases K with
    | zero =>
      refine EnsuresUnless.of_bind fun value => ?_
      intro _ a ha
      obtain ⟨b, hb, -⟩ := result_bind_eq_ok.mp ha
      obtain ⟨c, hc, -⟩ := result_bind_eq_ok.mp hb
      exact (h.zero (Nat.le_zero.mp hK) _ _ _ _ c hc).elim
    | succ k =>
      have hvalue : EnsuresUnless .uncharged (d.mapEntryValue (d.env.schema.table sub.tableRef) val)
          fun v => Slot.DepthLe (k + 1) v := by
        unfold mapEntryValue
        split
        · exact EnsuresUnless.of_bind fun _ =>
            EnsuresUnless.pure (Slot.depthLe_msg.mpr Message.DepthLe.new)
        · exact EnsuresUnless.pure (.zero _)
      refine EnsuresUnless.bind hvalue fun value hv => ?_
      refine EnsuresUnless.bind (h.decodeSubMessage (Nat.le_succ_of_le hK) _ _ _
        (Message.DepthLe.new.setData _ hv)) fun a ha => ?_
      split
      · split
        · exact EnsuresUnless.throw
        · exact EnsuresUnless.pure ⟨(hm.addUnknown _).addUnknown _, .map hs.entries⟩
      · exact EnsuresUnless.pure ⟨hm, .map (depthLe_mapInsert hs.entries _ (ha.data _))⟩

theorem storeValue {K : Nat} (hK : n ≤ K) (sub : MiniTableSub) (field : MiniTableField) (op : DecodeOp)
    (val : UInt64) (limit pos : Nat) {slot : Slot} (hs : Slot.DepthLe K slot) :
    EnsuresUnless .uncharged (d.storeValue sub field op val limit pos slot)
      fun a => Slot.DepthLe K a.2 := by
  cases op with
  | subMessage =>
    refine EnsuresUnless.bind (P := fun a => ∀ k, K = k + 1 → a.2.DepthLe k) ?_ fun a ha => ?_
    · intro hmark a ha k hk
      exact subMessageOf sub (hk ▸ hs) hmark a ha
    · exact EnsuresUnless.bind (h.subField hK a.1 _ _ _ _ _ ha) fun b hb => EnsuresUnless.pure hb
  | string => exact EnsuresUnless.of_bind fun _ => EnsuresUnless.pure (Slot.depthLe_ofStr _)
  | bytes => exact EnsuresUnless.pure (Slot.depthLe_ofStr _)
  | scalar1Byte => exact EnsuresUnless.pure (Slot.depthLe_ofScalar _)
  | scalar4Byte => exact EnsuresUnless.pure (Slot.depthLe_ofScalar _)
  | scalar8Byte => exact EnsuresUnless.pure (Slot.depthLe_ofScalar _)
  | enum => exact EnsuresUnless.pure (Slot.depthLe_ofScalar _)
  | _ => exact EnsuresUnless.pure hs

omit h in
theorem setPresence {K : Nat} (field : MiniTableField) (op : DecodeOp) {msg : Message} {slot : Slot}
    (hm : msg.DepthLe K) (hs : Slot.DepthLe K slot) :
    (setPresence field op msg slot).1.DepthLe K ∧ Slot.DepthLe K (setPresence field op msg slot).2 := by
  unfold Decoder.setPresence
  split
  · exact ⟨hm.setHas _, hs⟩
  · split
    · refine ⟨hm.setOneofCase _ _, ?_⟩
      dsimp only
      split
      · exact .zero K
      · exact hs
    · exact ⟨hm, hs⟩

theorem decodeToSlot {K : Nat} (hK : n ≤ K) (sub : MiniTableSub) (field : MiniTableField)
    (op : DecodeOp) (val : UInt64) (limit pos : Nat) {msg : Message} {slot : Slot}
    (hm : msg.DepthLe K) (hs : Slot.DepthLe K slot) :
    EnsuresUnless .uncharged (d.decodeToSlot sub field op val limit pos msg slot) (Within K) := by
  unfold Decoder.decodeToSlot
  split
  · exact h.decodeToArray hK _ _ _ _ _ _ hm hs
  · split
    · exact h.decodeToMap hK _ _ _ _ hm hs
    · unfold decodeToSubMessage
      split
      · exact EnsuresUnless.pure ⟨hm.addUnknown _, hs⟩
      · obtain ⟨hm', hs'⟩ := setPresence field op hm hs
        refine EnsuresUnless.bind (h.storeValue hK _ _ _ _ _ _ hs') fun a ha => ?_
        exact EnsuresUnless.pure ⟨hm', ha⟩

theorem decodeKnownField {K : Nat} (hK : n ≤ K) (layout : TableRef) (found : FoundField)
    (op : DecodeOp) (val : UInt64) (limit pos : Nat) {msg : Message} (hm : msg.DepthLe K) :
    EnsuresUnless .uncharged (d.decodeKnownField layout found op val limit pos msg)
      fun a => a.2.DepthLe K := by
  cases found with
  | field f =>
    refine EnsuresUnless.bind (h.decodeToSlot hK _ _ _ _ _ _ hm (hm.data _)) fun a ha => ?_
    exact EnsuresUnless.pure (ha.1.setData _ ha.2)
  | extension id =>
    refine EnsuresUnless.bind (h.decodeToSlot hK _ _ _ _ _ _ hm (hm.ext id)) fun a ha => ?_
    exact EnsuresUnless.pure (ha.1.setExt id ha.2)
  | _ => exact EnsuresUnless.pure hm

omit h in
theorem decodeUnknownField {K : Nat} (layout : Option TableRef) (number : Nat) (w : WireType)
    (val : UInt64) (limit pos : Nat) {msg : Message} (hm : msg.DepthLe K) :
    EnsuresUnless .uncharged (d.decodeUnknownField layout number w val limit pos msg)
      fun a => a.2.DepthLe K := by
  unfold Decoder.decodeUnknownField
  split
  · exact EnsuresUnless.throw
  · refine EnsuresUnless.of_bind fun stop => ?_
    split
    · exact EnsuresUnless.pure (hm.addUnknown _)
    · exact EnsuresUnless.pure hm

theorem decodeValue {K : Nat} (hK : n ≤ K) (layout : Option TableRef) (found : FoundField)
    (tag : UInt32) (op : DecodeOp) (val : UInt64) (limit pos : Nat) {msg : Message}
    (hm : msg.DepthLe K) :
    EnsuresUnless .uncharged (d.decodeValue layout found tag op val limit pos msg)
      fun a => a.2.DepthLe K := by
  unfold Decoder.decodeValue
  split
  · exact decodeUnknownField _ _ _ _ _ _ hm
  · exact EnsuresUnless.mark_bind
  · exact h.decodeKnownField hK _ _ _ _ _ _ hm
  · exact EnsuresUnless.pure hm

theorem decodeField {K : Nat} (hK : n ≤ K) (layout : Option TableRef) (tag : UInt32)
    (limit pos last : Nat) {msg : Message} (hm : msg.DepthLe K) :
    EnsuresUnless .uncharged (d.decodeField layout tag limit pos last msg)
      fun a => a.2.2.DepthLe K := by
  refine EnsuresUnless.of_bind fun a => ?_
  exact EnsuresUnless.bind (h.decodeValue hK _ _ _ _ _ _ _ hm) fun b hb => EnsuresUnless.pure hb

theorem decodeFields {K : Nat} (hK : n ≤ K) (layout : Option TableRef) (limit fuel pos last : Nat)
    {msg : Message} (hm : msg.DepthLe K) :
    EnsuresUnless .uncharged (d.decodeFields layout limit fuel pos last msg)
      fun a => a.2.1.DepthLe K := by
  induction fuel generalizing pos last msg with
  | zero => exact EnsuresUnless.throw
  | succ fuel ih =>
    refine EnsuresUnless.of_bind fun done => ?_
    split
    · exact EnsuresUnless.of_bind fun _ => EnsuresUnless.pure hm
    · refine EnsuresUnless.of_bind fun a => ?_
      dsimp only
      split
      · exact EnsuresUnless.pure hm
      · exact EnsuresUnless.bind (h.decodeField hK _ _ _ _ _ hm) fun b hb => ih _ _ hb

end KeepsDepth

/-- The decoder keeps the depth of its messages within the levels that are left. -/
theorem keepsDepth_withDepth (d : Decoder) (depth : Nat) : (d.withDepth depth).KeepsDepth depth := by
  induction depth with
  | zero => exact ⟨fun _ _ _ _ _ _ _ => EnsuresUnless.throw, fun _ _ _ _ _ => Ensures.throw⟩
  | succ depth ih =>
    refine ⟨fun limit pos layout msg k hk hm => ?_, fun h => nomatch h⟩
    exact EnsuresUnless.level (ih.decodeFields (Nat.le_of_succ_le_succ hk) _ _ _ _ _ hm)

/-- The whole parse with less depth is the one with more, stopped where that one goes deeper. -/
theorem capped_decodeTop (d : Decoder) {depth depth' : Nat} (h : depth ≤ depth') (table : TableRef)
    (msg : Message) :
    CappedAt depth ((d.withDepth depth).decodeTop table msg) ((d.withDepth depth').decodeTop table msg) := by
  have hrun := capped_decodeFields (d := d.withDepth depth) (d.capped_recurseSubMessage h) (some table)
    d.buf.length (d.buf.length - 0 + 1) 0 0 msg
  refine Capped.bind_of_eq hrun fun heq a => ?_
  dsimp only
  split
  · exact Capped.of_peak rfl
  · -- both runs set `missing_required`, or none does
    have hmark : ((d.withDepth depth).decodeMessage d.buf.length 0 (some table) msg).marked
        .missingRequired = ((d.withDepth depth').decodeMessage d.buf.length 0 (some table) msg).marked
        .missingRequired := congrArg (fun r => r.marked .missingRequired) heq
    split
    next hm =>
      rw [if_pos (hmark ▸ hm)]
      exact Capped.of_peak rfl
    next hm =>
      rw [if_neg (hmark ▸ hm)]
      exact Capped.of_peak rfl

theorem keepsDepth_decodeTop (d : Decoder) {depth k : Nat} (hk : depth ≤ k) (table : TableRef)
    {msg : Message} (hm : msg.DepthLe k) :
    EnsuresUnless .uncharged ((d.withDepth depth).decodeTop table msg) fun m => m.DepthLe k := by
  refine EnsuresUnless.bind ((d.keepsDepth_withDepth depth).decodeFields hk _ _ _ _ _ hm) fun a ha => ?_
  dsimp only
  split
  · exact EnsuresUnless.throw
  · split
    · exact EnsuresUnless.throw
    · exact EnsuresUnless.pure ha

end Decoder

section Levels

variable {env : DecodeEnv} {opts : DecodeOptions} {buf : List UInt8} {table : TableRef} {msg : Message}

/-- **The levels of a parse are within the limit.** In a run that enters no level without a charge, the
levels that are open at once are at most the limit; an input that goes deeper from a higher limit on is
refused; and the message that is returned is nested within the limit, as far as the given one was. -/
theorem decode_levels_le
    (h : (decode env opts buf table msg).marked .uncharged = false) :
    (decode env opts buf table msg).peak ≤ opts.depthLimit ∧
      (∀ depth, opts.depthLimit ≤ depth →
        opts.depthLimit < (decodeFrom env opts depth buf table msg).peak →
        (decode env opts buf table msg).result = .error .maxDepthExceeded) ∧
      ∀ m, (decode env opts buf table msg).result = .ok m →
        ∀ k, opts.depthLimit ≤ k → msg.DepthLe k → m.DepthLe k := by
  refine ⟨?_, fun depth hdepth hdeep => ?_, fun m hres k hk hm => ?_⟩
  · obtain ⟨hle, -⟩ | ⟨-, hle, -⟩ := Decoder.capped_decodeTop _ (Nat.le_refl opts.depthLimit) table msg h
    · exact hle
    · exact hle
  · obtain ⟨hle, -⟩ | ⟨-, -, herr⟩ := Decoder.capped_decodeTop _ hdepth table msg h
    · exact absurd hdeep (Nat.not_lt.mpr hle)
    · exact herr
  · exact Decoder.keepsDepth_decodeTop _ hk table hm h m hres

end Levels

section MessageSet

/-- A table of a message set. -/
def messageSetTable : MiniTable := { MiniTable.empty with ext := ExtMode.isMessageSet }

/-- A message set that is its own extension, with the type id 5. -/
def messageSetSchema : Schema where
  tables := fun _ => messageSetTable
  enums := fun _ => ⟨0, 0, []⟩
  exts := fun _ =>
    { field := ⟨5, 0, 0, 0, .message, FieldMode.scalar ||| LabelFlags.isExtension⟩
      extendee := .table 0
      sub := .submsg 0 }
  fieldCount_eq := fun _ => rfl
  searchable := fun _ => ⟨List.Pairwise.nil, fun _ hi => absurd hi (Nat.not_lt_zero _)⟩

def messageSetEnv : DecodeEnv where
  schema := messageSetSchema
  extreg := some fun _ number => if number = 5 then some 0 else none
  verifyUtf8 := fun _ => true
  encode := fun _ _ => none

/-- An unknown group in an unknown group is refused with a limit of 1. -/
theorem decode_levels_le_groups :
    (decode messageSetEnv ⟨false, false, 1⟩ [19, 27, 28, 20] (.table 0) Message.new).marked .uncharged =
        false ∧
      (decode messageSetEnv ⟨false, false, 1⟩ [19, 27, 28, 20] (.table 0) Message.new).peak ≤ 1 ∧
      (decode messageSetEnv ⟨false, false, 1⟩ [19, 27, 28, 20] (.table 0) Message.new).result.isOk =
        false :=
  have hcharged : (decode messageSetEnv ⟨false, false, 1⟩ [19, 27, 28, 20] (.table 0) Message.new).marked
      .uncharged = false := by decide
  ⟨hcharged, (decode_levels_le hcharged).1, by decide⟩

/-- An item of a message set in an item of a message set is accepted with a limit of 1: two levels are
open at once. -/
theorem not_levels_le_messageSet :
    (decode messageSetEnv ⟨false, false, 1⟩ [11, 16, 5, 26, 6, 11, 16, 5, 26, 0, 12, 12] (.table 0)
        Message.new).result.isOk = true ∧
      ¬(decode messageSetEnv ⟨false, false, 1⟩ [11, 16, 5, 26, 6, 11, 16, 5, 26, 0, 12, 12] (.table 0)
        Message.new).peak ≤ (⟨false, false, 1⟩ : DecodeOptions).depthLimit := by
  decide

end MessageSet

end Hpb
