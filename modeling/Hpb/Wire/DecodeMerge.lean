import Hpb.Wire.DecodeAdmits

/-!
# Parsing a part of the input

A decoder whose input is a part of another one's: what the first accepts, the second accepts at the same
place, with the same message (`Follows`). The second may go on after the part, so its limits can be later
ones.
-/

namespace Hpb

open Metered

/-- `x'` does at `base` and after what `x` does at `pos` and after, if that ends by `last`. -/
def Follows {α : Type} (base last pos : Nat) (x x' : DecodeM (Nat × α)) : Prop :=
  ∀ stop a, Yields .missingRequired x (stop, a) →
    pos ≤ stop ∧ (stop ≤ last → Yields .missingRequired x' (base + stop, a))

namespace Follows

variable {α β : Type} {base last pos : Nat} {x x' : DecodeM (Nat × α)}

theorem pure {stop : Nat} {a : α} (h : pos ≤ stop) :
    Follows base last pos (pure (stop, a)) (pure (base + stop, a)) := by
  intro stop' a' hyields
  obtain ⟨⟩ := yields_pure_iff.mp hyields
  exact ⟨h, fun _ => Yields.pure⟩

theorem throw {e : DecodeStatus} : Follows base last pos (throw e) x' :=
  fun _ _ h => (not_yields_throw h).elim

/-- What follows may use how the first part ended. -/
theorem bind_yields (hx : Follows base last pos x x') {f f' : Nat × α → DecodeM (Nat × β)}
    (hf : ∀ mid a, pos ≤ mid → Yields .missingRequired x (mid, a) →
      Follows base last mid (f (mid, a)) (f' (base + mid, a))) :
    Follows base last pos (x >>= f) (x' >>= f') := by
  intro stop b hyields
  obtain ⟨⟨mid, a⟩, hmid, hstop⟩ := yields_bind_iff.mp hyields
  obtain ⟨hle, hx'⟩ := hx mid a hmid
  obtain ⟨hle', hf'⟩ := hf mid a hle hmid stop b hstop
  refine ⟨Nat.le_trans hle hle', fun hlast => yields_bind_iff.mpr ⟨_, hx' ?_, hf' hlast⟩⟩
  exact Nat.le_trans hle' hlast

theorem bind (hx : Follows base last pos x x') {f f' : Nat × α → DecodeM (Nat × β)}
    (hf : ∀ mid a, pos ≤ mid → Follows base last mid (f (mid, a)) (f' (base + mid, a))) :
    Follows base last pos (x >>= f) (x' >>= f') :=
  hx.bind_yields fun mid a hle _ => hf mid a hle

/-- A part that does not read the input. -/
theorem bind_same {y : DecodeM α} {f f' : α → DecodeM (Nat × β)}
    (hf : ∀ a, Follows base last pos (f a) (f' a)) : Follows base last pos (y >>= f) (y >>= f') := by
  intro stop b hyields
  obtain ⟨a, ha, hstop⟩ := yields_bind_iff.mp hyields
  obtain ⟨hle, hf'⟩ := hf a stop b hstop
  exact ⟨hle, fun hlast => yields_bind_iff.mpr ⟨a, ha, hf' hlast⟩⟩

/-- A value of `size` bytes that is read from its own bytes. -/
theorem read {size : Nat} {a a' : α} (hsame : pos + size ≤ last → a' = a) :
    Follows base last pos (Pure.pure (pos + size, a)) (Pure.pure (base + pos + size, a')) := by
  intro stop b hyields
  obtain ⟨⟩ := yields_pure_iff.mp hyields
  refine ⟨Nat.le_add_right pos size, fun hlast => ?_⟩
  rw [hsame hlast, Nat.add_assoc]
  exact Yields.pure

theorem read_checked {size : Nat} {y y' : DecodeM Unit} {a a' : α}
    (hsame : pos + size ≤ last → y' = y ∧ a' = a) :
    Follows base last pos (y >>= fun _ => Pure.pure (pos + size, a))
      (y' >>= fun _ => Pure.pure (base + pos + size, a')) := by
  intro stop b hyields
  obtain ⟨u, hy, hpure⟩ := yields_bind_iff.mp hyields
  obtain ⟨⟩ := yields_pure_iff.mp hpure
  refine ⟨Nat.le_add_right pos size, fun hlast => ?_⟩
  obtain ⟨rfl, rfl⟩ := hsame hlast
  rw [← Nat.add_assoc]
  exact yields_bind_iff.mpr ⟨u, hy, Yields.pure⟩

/-- A part that only finds the end of a value. -/
theorem bind_end {y y' : DecodeM Nat} (hy : ∀ mid, Yields .missingRequired y mid →
      pos ≤ mid ∧ (mid ≤ last → Yields .missingRequired y' (base + mid)))
    {f f' : Nat → DecodeM (Nat × β)}
    (hf : ∀ mid, pos ≤ mid → Follows base last mid (f mid) (f' (base + mid))) :
    Follows base last pos (y >>= f) (y' >>= f') := by
  intro stop b hyields
  obtain ⟨mid, hmid, hstop⟩ := yields_bind_iff.mp hyields
  obtain ⟨hle, hy'⟩ := hy mid hmid
  obtain ⟨hle', hf'⟩ := hf mid hle stop b hstop
  refine ⟨Nat.le_trans hle hle', fun hlast => yields_bind_iff.mpr ⟨_, hy' ?_, hf' hlast⟩⟩
  exact Nat.le_trans hle' hlast

/-- What comes after `size` bytes may use them. -/
theorem after {size : Nat} {x'' : DecodeM (Nat × α)} (hx : Follows base last (pos + size) x x'')
    (hsame : pos + size ≤ last → x' = x'') : Follows base last pos x x' := by
  intro stop a hyields
  obtain ⟨hle, hx'⟩ := hx stop a hyields
  refine ⟨Nat.le_trans (Nat.le_add_right _ _) hle, fun hlast => ?_⟩
  rw [hsame (Nat.le_trans hle hlast)]
  exact hx' hlast

/-- A part that fails at the limit. -/
theorem of_more {limit limit' : Nat} (hlimit : base + limit ≤ limit') {e : DecodeStatus}
    {y' : DecodeM (Nat × α)} (hx : pos < limit → Follows base last pos x x') :
    Follows base last pos (Decoder.isDone limit pos >>= fun done => if done then MonadExcept.throw e else x)
      (Decoder.isDone limit' (base + pos) >>= fun done => if done then y' else x') := by
  intro stop a hyields
  obtain ⟨done, hdone, hyields⟩ := yields_bind_iff.mp hyields
  have hpos := Decoder.isDone_spec limit pos done hdone.1
  cases done with
  | true => exact (not_yields_throw hyields).elim
  | false =>
    have hmore : pos < limit := hpos
    obtain ⟨hle, hx'⟩ := hx hmore stop a hyields
    refine ⟨hle, fun hlast => yields_bind_iff.mpr ⟨false, ?_, hx' hlast⟩⟩
    have hdone' : Decoder.isDone limit' (base + pos) = Pure.pure false := if_pos (by omega)
    exact hdone' ▸ Yields.pure

end Follows

section Congr

variable {mem : Nat → UInt8} (mem' : Nat → UInt8) {n : Nat}

/-- A varint is read from its own bytes. -/
theorem longVarint_congr {fuel i : Nat} {val v : UInt64} (h : longVarint mem fuel i val = some (n, v)) :
    i < n ∧ ((∀ j < n, mem' j = mem j) → longVarint mem' fuel i val = some (n, v)) := by
  induction fuel generalizing i val with
  | zero => exact nomatch h
  | succ fuel ih =>
    rw [longVarint] at h
    by_cases hend : mem i &&& 128 = 0
    · rw [if_pos hend] at h
      cases h
      refine ⟨Nat.lt_succ_self i, fun hmem => ?_⟩
      rw [longVarint, hmem i (Nat.lt_succ_self i), if_pos hend]
    · rw [if_neg hend] at h
      obtain ⟨hlt, hcongr⟩ := ih h
      refine ⟨Nat.lt_of_succ_lt hlt, fun hmem => ?_⟩
      rw [longVarint, hmem i (Nat.lt_of_succ_lt hlt), if_neg hend]
      exact hcongr hmem

theorem decodeVarint_congr {v : UInt64} (h : Decoder.decodeVarint mem = some (n, v)) :
    0 < n ∧ ((∀ j < n, mem' j = mem j) → Decoder.decodeVarint mem' = some (n, v)) := by
  rw [Decoder.decodeVarint] at h
  by_cases hend : mem 0 &&& 128 = 0
  · rw [if_pos hend] at h
    cases h
    refine ⟨Nat.one_pos, fun hmem => ?_⟩
    rw [Decoder.decodeVarint, hmem 0 Nat.one_pos, if_pos hend]
  · rw [if_neg hend] at h
    obtain ⟨hlt, hcongr⟩ := longVarint_congr mem' h
    have hpos : 0 < n := by omega
    refine ⟨hpos, fun hmem => ?_⟩
    rw [Decoder.decodeVarint, hmem 0 hpos, if_neg hend]
    exact hcongr hmem

theorem decodeTag_congr {tag : UInt32} (h : Decoder.decodeTag mem = some (n, tag)) :
    0 < n ∧ ((∀ j < n, mem' j = mem j) → Decoder.decodeTag mem' = some (n, tag)) := by
  rw [Decoder.decodeTag] at h
  by_cases hend : mem 0 &&& 128 = 0
  · rw [if_pos hend] at h
    cases h
    refine ⟨Nat.one_pos, fun hmem => ?_⟩
    rw [Decoder.decodeTag, hmem 0 Nat.one_pos, if_pos hend]
  · rw [if_neg hend] at h
    split at h
    next => exact nomatch h
    next k val hlong =>
      obtain ⟨hlt, hcongr⟩ := longVarint_congr mem' hlong
      split at h
      next => exact nomatch h
      next hok =>
        cases h
        have hpos : 0 < n := by omega
        refine ⟨hpos, fun hmem => ?_⟩
        have hlong' : Decoder.decodeLongVarint mem' (mem 0).toUInt64 = some (n, val) := hcongr hmem
        rw [Decoder.decodeTag, hmem 0 hpos, if_neg hend, hlong']
        exact if_neg hok

theorem littleEndian_congr (k i : Nat) (h : ∀ j < k, mem' (i + j) = mem (i + j)) :
    Decoder.littleEndian mem' k i = Decoder.littleEndian mem k i := by
  induction k generalizing i with
  | zero => rfl
  | succ k ih =>
    have hrest : ∀ j < k, mem' (i + 1 + j) = mem (i + 1 + j) := by
      intro j hj
      have := h (j + 1) (Nat.succ_lt_succ hj)
      rwa [Nat.add_comm j 1, ← Nat.add_assoc] at this
    rw [Decoder.littleEndian, Decoder.littleEndian, ih (i + 1) hrest]
    rw [show mem' i = mem i from h 0 (Nat.succ_pos k)]

end Congr

namespace Decoder

/-- The parser of the messages one level below. -/
abbrev Recurse := Nat → Nat → Option TableRef → Message → DecodeM (Nat × Message × Option Nat)

/-- The decoder with another input. -/
abbrev moved (d : Decoder) (buf : List UInt8) (r : Recurse) : Decoder := { d with buf := buf, recurse := r }

theorem checkEnum_moved (d : Decoder) (buf : List UInt8) (r : Recurse) (sub : MiniTableSub)
    (val : UInt64) : (d.moved buf r).checkEnum sub val = d.checkEnum sub val := rfl

/-- The input of `d` is a part of `buf`, from `base` on. The messages one level below follow; a group may
have a later limit, as it ends with its tag. -/
structure Shifted (d : Decoder) (base : Nat) (buf : List UInt8) (r : Recurse) : Prop where
  part : ∃ pre post, buf = pre ++ d.buf ++ post ∧ pre.length = base
  sub : ∀ limit pos layout msg, Follows base d.buf.length pos (d.recurse limit pos layout msg)
    (r (base + limit) (base + pos) layout msg)
  group : ∀ limit limit' pos layout msg, base + limit ≤ limit' → ∀ stop m number,
    Yields .missingRequired (d.recurse limit pos layout msg) (stop, m, some number) →
    pos ≤ stop ∧ (stop ≤ d.buf.length →
      Yields .missingRequired (r limit' (base + pos) layout msg) (base + stop, m, some number))

namespace Shifted

variable {d : Decoder} {base : Nat} {buf : List UInt8} {r : Recurse} (h : d.Shifted base buf r)
include h

theorem bytesFrom_eq {pos i : Nat} (hi : pos + i < d.buf.length) :
    bytesFrom buf (base + pos) i = bytesFrom d.buf pos i := by
  obtain ⟨pre, post, rfl, rfl⟩ := h.part
  unfold bytesFrom
  simp only [List.getD_eq_getElem?_getD]
  rw [List.append_assoc, List.getElem?_append_right (by omega), List.getElem?_append_left (by omega)]
  congr 2
  omega

theorem slice_eq {pos size : Nat} (hsize : pos + size ≤ d.buf.length) :
    (d.moved buf r).slice (base + pos) size = d.slice pos size := by
  obtain ⟨pre, post, rfl, rfl⟩ := h.part
  unfold slice
  rw [List.append_assoc, List.drop_append, List.drop_eq_nil_of_le (by omega), List.nil_append,
    show pre.length + pos - pre.length = pos by omega, List.drop_append_of_le_length (by omega),
    List.take_append_of_le_length (by simp; omega)]

theorem decodeVarintAt (pos : Nat) : Follows base d.buf.length pos (d.decodeVarintAt pos)
    ((d.moved buf r).decodeVarintAt (base + pos)) := by
  intro stop v hyields
  unfold Decoder.decodeVarintAt at hyields ⊢
  split at hyields
  next n val hn =>
    obtain ⟨⟩ := yields_pure_iff.mp hyields
    obtain ⟨-, hcongr⟩ := decodeVarint_congr ((d.moved buf r).mem (base + pos)) hn
    refine ⟨Nat.le_add_right pos n, fun hlast => ?_⟩
    rw [hcongr fun j hj => h.bytesFrom_eq (by omega), ← Nat.add_assoc]
    exact Yields.pure
  next => exact (not_yields_throw hyields).elim

theorem decodeTagAt (pos : Nat) : Follows base d.buf.length pos (d.decodeTagAt pos)
    ((d.moved buf r).decodeTagAt (base + pos)) := by
  intro stop v hyields
  unfold Decoder.decodeTagAt at hyields ⊢
  split at hyields
  next n tag hn =>
    obtain ⟨⟩ := yields_pure_iff.mp hyields
    obtain ⟨-, hcongr⟩ := decodeTag_congr ((d.moved buf r).mem (base + pos)) hn
    refine ⟨Nat.le_add_right pos n, fun hlast => ?_⟩
    rw [hcongr fun j hj => h.bytesFrom_eq (by omega), ← Nat.add_assoc]
    exact Yields.pure
  next => exact (not_yields_throw hyields).elim

theorem decodeSizeAt {limit limit' : Nat} (hlimit : base + limit ≤ limit') (pos : Nat) :
    Follows base d.buf.length pos (d.decodeSizeAt limit pos)
      ((d.moved buf r).decodeSizeAt limit' (base + pos)) := by
  intro stop size hyields
  unfold Decoder.decodeSizeAt at hyields ⊢
  split at hyields
  next n size' hn =>
    obtain ⟨⟩ := yields_pure_iff.mp hyields
    unfold decodeSize at hn
    split at hn
    next => cases hn
    next k val hvarint =>
      split at hn
      next => cases hn
      next hok =>
        cases hn
        obtain ⟨-, hcongr⟩ := decodeVarint_congr ((d.moved buf r).mem (base + pos)) hvarint
        refine ⟨Nat.le_add_right pos n, fun hlast => ?_⟩
        unfold decodeSize
        rw [hcongr fun j hj => h.bytesFrom_eq (by omega)]
        have hok' : ¬(val.toNat ≥ int32Max ∨
            ¬decide (base + pos + n + val.toNat ≤ limit') = true) := by
          simp only [decide_eq_true_eq] at hok ⊢
          omega
        rw [← Nat.add_assoc]
        simp only [if_neg hok']
        exact Yields.pure
  next => exact (not_yields_throw hyields).elim

omit h in
theorem isDone_add (limit pos : Nat) : isDone (base + limit) (base + pos) = isDone limit pos := by
  unfold isDone
  simp only [Nat.add_lt_add_iff_left, Nat.add_left_cancel_iff]

theorem decodeSubMessage (sub : MiniTableSub) (size pos : Nat) (msg : Message) :
    Follows base d.buf.length pos (d.decodeSubMessage sub size pos msg)
      ((d.moved buf r).decodeSubMessage sub size (base + pos) msg) := by
  unfold Decoder.decodeSubMessage
  rw [Nat.add_assoc]
  refine Follows.bind (h.sub _ _ _ _) fun mid a hle => ?_
  dsimp only
  split
  · exact Follows.pure (Nat.le_refl mid)
  · exact Follows.throw

theorem decodeGroup {limit limit' : Nat} (hlimit : base + limit ≤ limit') (layout : Option TableRef)
    (number pos : Nat) (msg : Message) :
    Follows base d.buf.length pos (d.decodeGroup layout number limit pos msg)
      ((d.moved buf r).decodeGroup layout number limit' (base + pos) msg) := by
  refine Follows.of_more hlimit fun _ => ?_
  intro stop m hyields
  obtain ⟨⟨mid, m', g⟩, hrec, hyields⟩ := yields_bind_iff.mp hyields
  dsimp only at hyields
  split at hyields
  next hg =>
    obtain ⟨⟩ := yields_pure_iff.mp hyields
    subst hg
    obtain ⟨hle, hrec'⟩ := h.group limit limit' pos layout msg hlimit _ _ _ hrec
    refine ⟨hle, fun hlast => yields_bind_iff.mpr ⟨_, hrec' hlast, ?_⟩⟩
    dsimp only
    rw [if_pos rfl]
    exact Yields.pure
  next => exact (not_yields_throw hyields).elim

theorem decodeUnknownGroup {limit limit' : Nat} (hlimit : base + limit ≤ limit') (number pos : Nat)
    {stop : Nat} (hyields : Yields .missingRequired (d.decodeUnknownGroup number limit pos) stop) :
    pos ≤ stop ∧ (stop ≤ d.buf.length →
      Yields .missingRequired ((d.moved buf r).decodeUnknownGroup number limit' (base + pos))
        (base + stop)) := by
  obtain ⟨⟨mid, m⟩, hmid, hyields⟩ := yields_bind_iff.mp hyields
  obtain ⟨⟩ := yields_pure_iff.mp hyields
  obtain ⟨hle, hmid'⟩ := h.decodeGroup hlimit none number pos Message.new stop m hmid
  exact ⟨hle, fun hlast => yields_bind_iff.mpr ⟨_, hmid' hlast, Yields.pure⟩⟩

theorem decodeSubField {limit limit' : Nat} (hlimit : base + limit ≤ limit') (sub : MiniTableSub)
    (field : MiniTableField) (size pos : Nat) (msg : Message) :
    Follows base d.buf.length pos (d.decodeSubField sub field size limit pos msg)
      ((d.moved buf r).decodeSubField sub field size limit' (base + pos) msg) := by
  unfold Decoder.decodeSubField
  split
  · exact h.decodeGroup hlimit _ _ _ _
  · exact h.decodeSubMessage _ _ _ _

theorem decodePacked (add : UInt64 → Message × List Slot → Message × List Slot) (limit fuel pos : Nat)
    (acc : Message × List Slot) :
    Follows base d.buf.length pos (d.decodePacked add limit fuel pos acc)
      ((d.moved buf r).decodePacked add (base + limit) fuel (base + pos) acc) := by
  induction fuel generalizing pos acc with
  | zero => exact Follows.throw
  | succ fuel ih =>
    unfold Decoder.decodePacked
    rw [isDone_add]
    refine Follows.bind_same fun done => ?_
    split
    · exact Follows.pure (Nat.le_refl pos)
    · exact Follows.bind (h.decodeVarintAt pos) fun mid v hle => ih mid (add v acc)

theorem fixedElems_eq {lg2 pos count size : Nat} (hsize : size = count * 2 ^ lg2)
    (hlast : pos + size ≤ d.buf.length) :
    (d.moved buf r).fixedElems lg2 (base + pos) count = d.fixedElems lg2 pos count := by
  unfold fixedElems
  refine List.map_congr_left fun i hi => ?_
  rw [littleEndian_congr]
  intro j hj
  have hi' := List.mem_range.mp hi
  refine h.bytesFrom_eq ?_
  have : (i + 1) * 2 ^ lg2 ≤ count * 2 ^ lg2 := Nat.mul_le_mul_right _ hi'
  rw [Nat.succ_mul] at this
  omega

theorem decodeToArray {limit limit' : Nat} (hlimit : base + limit ≤ limit') (sub : MiniTableSub)
    (field : MiniTableField) (op : DecodeOp) (val : UInt64) (pos : Nat) (msg : Message) (slot : Slot) :
    Follows base d.buf.length pos (d.decodeToArray sub field op val limit pos msg slot)
      ((d.moved buf r).decodeToArray sub field op val limit' (base + pos) msg slot) := by
  cases op with
  | string =>
    refine Follows.read_checked fun hlast => ?_
    rw [h.slice_eq hlast]
    exact ⟨rfl, rfl⟩
  | bytes =>
    refine Follows.read fun hlast => ?_
    rw [h.slice_eq hlast]
  | subMessage =>
    refine Follows.bind_same fun isEmpty => ?_
    exact Follows.bind (h.decodeSubField hlimit _ _ _ _ _) fun mid a _ => Follows.pure (Nat.le_refl mid)
  | fixPck lg2 =>
    dsimp only [Decoder.decodeToArray]
    split
    · exact Follows.throw
    next hmod =>
      refine Follows.read fun hlast => ?_
      have hsize : val.toNat = val.toNat / 2 ^ lg2 * 2 ^ lg2 :=
        (Nat.div_mul_cancel (Nat.dvd_of_mod_eq_zero (not_not.mp hmod))).symm
      rw [h.fixedElems_eq hsize hlast]
  | varPck lg2 =>
    dsimp only [Decoder.decodeToArray]
    rw [Nat.add_assoc]
    exact Follows.bind (h.decodePacked _ _ _ _ _) fun mid a _ => Follows.pure (Nat.le_refl mid)
  | enum =>
    dsimp only [Decoder.decodeToArray]
    rw [checkEnum_moved d buf r]
    split
    · exact Follows.pure (Nat.le_refl pos)
    · exact Follows.pure (Nat.le_refl pos)
  | packedEnum =>
    dsimp only [Decoder.decodeToArray]
    rw [Nat.add_assoc]
    exact Follows.bind (h.decodePacked _ _ _ _ _) fun mid a _ => Follows.pure (Nat.le_refl mid)
  | _ => exact Follows.pure (Nat.le_refl pos)

theorem decodeToMap (sub : MiniTableSub) (field : MiniTableField) (size pos : Nat) (msg : Message)
    (slot : Slot) :
    Follows base d.buf.length pos (d.decodeToMap sub field size pos msg slot)
      ((d.moved buf r).decodeToMap sub field size (base + pos) msg slot) := by
  unfold Decoder.decodeToMap
  dsimp only
  split
  · refine Follows.bind_same fun value => ?_
    refine Follows.bind (h.decodeSubMessage _ _ _ _) fun mid ent _ => ?_
    dsimp only
    split
    · split
      · exact Follows.throw
      · exact Follows.pure (Nat.le_refl mid)
    · exact Follows.pure (Nat.le_refl mid)
  · exact Follows.throw

theorem storeValue {limit limit' : Nat} (hlimit : base + limit ≤ limit') (sub : MiniTableSub)
    (field : MiniTableField) (op : DecodeOp) (val : UInt64) (pos : Nat) (slot : Slot) :
    Follows base d.buf.length pos (d.storeValue sub field op val limit pos slot)
      ((d.moved buf r).storeValue sub field op val limit' (base + pos) slot) := by
  cases op with
  | subMessage =>
    refine Follows.bind_same fun a => ?_
    exact Follows.bind (h.decodeSubField hlimit _ _ _ _ _) fun mid m _ => Follows.pure (Nat.le_refl mid)
  | string =>
    refine Follows.read_checked fun hlast => ?_
    rw [h.slice_eq hlast]
    exact ⟨rfl, rfl⟩
  | bytes =>
    refine Follows.read fun hlast => ?_
    rw [h.slice_eq hlast]
  | _ => exact Follows.pure (Nat.le_refl pos)

theorem decodeToSlot {limit limit' : Nat} (hlimit : base + limit ≤ limit') (sub : MiniTableSub)
    (field : MiniTableField) (op : DecodeOp) (val : UInt64) (pos : Nat) (msg : Message) (slot : Slot) :
    Follows base d.buf.length pos (d.decodeToSlot sub field op val limit pos msg slot)
      ((d.moved buf r).decodeToSlot sub field op val limit' (base + pos) msg slot) := by
  unfold Decoder.decodeToSlot
  split
  · exact h.decodeToArray hlimit _ _ _ _ _ _ _
  · split
    · exact h.decodeToMap _ _ _ _ _ _
    · unfold decodeToSubMessage
      rw [checkEnum_moved d buf r]
      split
      · exact Follows.pure (Nat.le_refl pos)
      · refine Follows.bind (h.storeValue hlimit _ _ _ _ _ _) fun mid a _ => ?_
        exact Follows.pure (Nat.le_refl mid)

theorem decodeKnownField {limit limit' : Nat} (hlimit : base + limit ≤ limit') (layout : TableRef)
    (found : FoundField) (op : DecodeOp) (val : UInt64) (pos : Nat) (msg : Message) :
    Follows base d.buf.length pos (d.decodeKnownField layout found op val limit pos msg)
      ((d.moved buf r).decodeKnownField layout found op val limit' (base + pos) msg) := by
  cases found with
  | field f =>
    exact Follows.bind (h.decodeToSlot hlimit _ _ _ _ _ _ _) fun mid a _ => Follows.pure (Nat.le_refl mid)
  | extension id =>
    exact Follows.bind (h.decodeToSlot hlimit _ _ _ _ _ _ _) fun mid a _ => Follows.pure (Nat.le_refl mid)
  | _ => exact Follows.pure (Nat.le_refl pos)

theorem decodeWireValue {limit limit' : Nat} (hlimit : base + limit ≤ limit')
    (layout : Option TableRef) (found : FoundField) (w : Option WireType) (pos : Nat) :
    Follows base d.buf.length pos (d.decodeWireValue layout found w limit pos)
      ((d.moved buf r).decodeWireValue layout found w limit' (base + pos)) := by
  have hfixed : ∀ n, pos + n ≤ d.buf.length →
      littleEndian ((d.moved buf r).mem (base + pos)) n 0 = littleEndian (d.mem pos) n 0 := by
    intro n hn
    exact littleEndian_congr _ n 0 fun j hj => h.bytesFrom_eq (by omega)
  unfold Decoder.decodeWireValue
  dsimp only
  split
  · refine Follows.bind (h.decodeVarintAt pos) fun mid v _ => ?_
    dsimp only
    split
    · exact Follows.pure (Nat.le_refl mid)
    · exact Follows.pure (Nat.le_refl mid)
  · refine Follows.read fun hlast => ?_
    rw [hfixed 4 hlast]
  · refine Follows.read fun hlast => ?_
    rw [hfixed 8 hlast]
  · exact Follows.bind (h.decodeSizeAt hlimit pos) fun mid v _ => Follows.pure (Nat.le_refl mid)
  · exact Follows.pure (Nat.le_refl pos)
  · exact Follows.throw

theorem varintAt {len pos stop val : Nat} (hv : VarintAt d.buf len pos stop val)
    (hlast : stop ≤ d.buf.length) : VarintAt buf len (base + pos) (base + stop) val :=
  hv.moved fun _ _ => h.bytesFrom_eq (by omega)

theorem headAt {w : WireType} {pos stop val : Nat} (hv : HeadAt d.buf w pos stop val)
    (hlast : stop ≤ d.buf.length) : HeadAt buf w (base + pos) (base + stop) val := by
  unfold HeadAt at hv ⊢
  cases w with
  | varint => exact h.varintAt hv hlast
  | delimited => exact h.varintAt hv hlast
  | endGroup => exact hv
  | _ =>
    dsimp only at hv ⊢
    omega

theorem unknownFieldEnd {limit limit' : Nat} (hlimit : base + limit ≤ limit') (number : Nat)
    (w : WireType) (v : UInt64) (pos : Nat) {stop : Nat}
    (hyields : Yields .missingRequired (d.unknownFieldEnd number w v limit pos) stop) :
    pos ≤ stop ∧ (stop ≤ d.buf.length →
      Yields .missingRequired ((d.moved buf r).unknownFieldEnd number w v limit' (base + pos))
        (base + stop)) := by
  unfold Decoder.unknownFieldEnd at hyields ⊢
  cases w with
  | startGroup => exact h.decodeUnknownGroup hlimit number pos hyields
  | delimited =>
    rw [if_neg (by decide), if_pos rfl] at hyields ⊢
    obtain ⟨⟩ := yields_pure_iff.mp hyields
    exact ⟨Nat.le_add_right _ _, fun _ => yields_pure_iff.mpr (Nat.add_assoc _ _ _)⟩
  | _ =>
    rw [if_neg (by decide), if_neg (by decide)] at hyields ⊢
    obtain ⟨⟩ := yields_pure_iff.mp hyields
    exact ⟨Nat.le_refl _, fun _ => Yields.pure⟩

/-- An unknown field is copied from the same bytes. -/
theorem decodeUnknownField {limit limit' : Nat} (hlimit : base + limit ≤ limit') {w : WireType}
    {tagStart start pos val number : Nat} {v : UInt64} (htag : TagAt d.buf tagStart start number w)
    (hhead : HeadAt d.buf w start pos val) (hstart : start ≤ pos) (layout : Option TableRef)
    (msg : Message) :
    Follows base d.buf.length pos (d.decodeUnknownField layout number w v limit pos msg)
      ((d.moved buf r).decodeUnknownField layout number w v limit' (base + pos) msg) := by
  unfold Decoder.decodeUnknownField
  split
  · exact Follows.throw
  next hnumber =>
    have hpositive := Nat.pos_of_ne_zero hnumber
    refine Follows.bind_end (fun mid hmid => h.unknownFieldEnd hlimit number w v pos hmid)
      fun mid hle => ?_
    split
    · intro stop a hyields
      obtain ⟨⟩ := yields_pure_iff.mp hyields
      refine ⟨Nat.le_refl mid, fun hlast => ?_⟩
      have hbefore := htag.1.lt
      have htag' : TagAt buf (base + tagStart) (base + start) number w :=
        ⟨h.varintAt htag.1 (by omega), htag.2⟩
      have hhead' := h.headAt hhead (by omega)
      simp only [fieldStart_eq htag hpositive hhead, fieldStart_eq htag' hpositive hhead']
      rw [show base + mid - (base + tagStart) = mid - tagStart by omega, h.slice_eq (by omega)]
      exact Yields.pure
    · exact Follows.pure (Nat.le_refl mid)

theorem skipField {limit limit' : Nat} (hlimit : base + limit ≤ limit') (tag : UInt32) (pos : Nat)
    {stop : Nat} (hyields : Yields .missingRequired (d.skipField tag limit pos) stop) :
    pos ≤ stop ∧ (stop ≤ d.buf.length →
      Yields .missingRequired ((d.moved buf r).skipField tag limit' (base + pos)) (base + stop)) := by
  unfold Decoder.skipField at hyields ⊢
  split at hyields
  · obtain ⟨⟨mid, v⟩, hmid, hpure⟩ := yields_bind_iff.mp hyields
    obtain ⟨⟩ := yields_pure_iff.mp hpure
    obtain ⟨hle, hmid'⟩ := h.decodeVarintAt pos _ v hmid
    exact ⟨hle, fun hlast => yields_bind_iff.mpr ⟨_, hmid' hlast, Yields.pure⟩⟩
  · obtain ⟨⟩ := yields_pure_iff.mp hyields
    exact ⟨Nat.le_add_right _ _, fun _ => yields_pure_iff.mpr (Nat.add_assoc _ _ _)⟩
  · obtain ⟨⟩ := yields_pure_iff.mp hyields
    exact ⟨Nat.le_add_right _ _, fun _ => yields_pure_iff.mpr (Nat.add_assoc _ _ _)⟩
  · obtain ⟨⟨mid, size⟩, hmid, hpure⟩ := yields_bind_iff.mp hyields
    obtain ⟨⟩ := yields_pure_iff.mp hpure
    obtain ⟨hle, hmid'⟩ := h.decodeSizeAt hlimit pos mid size hmid
    refine ⟨Nat.le_trans hle (Nat.le_add_right _ _), fun hlast => ?_⟩
    exact yields_bind_iff.mpr ⟨_, hmid' (Nat.le_trans (Nat.le_add_right _ _) hlast),
      yields_pure_iff.mpr (Nat.add_assoc _ _ _)⟩
  · exact h.decodeUnknownGroup hlimit _ pos hyields
  · exact (not_yields_throw hyields).elim

theorem decodeMessageSetItem {limit limit' : Nat} (hlimit : base + limit ≤ limit') (t : TableRef)
    (fuel fuel' pos : Nat) (hfuel : limit' - (base + pos) < fuel') (typeId : Option UInt32)
    (payload : Option (List UInt8)) (msg : Message) :
    Follows base d.buf.length pos (d.decodeMessageSetItem t limit fuel pos typeId payload msg)
      ((d.moved buf r).decodeMessageSetItem t limit' fuel' (base + pos) typeId payload msg) := by
  induction fuel generalizing fuel' pos typeId payload msg with
  | zero => exact Follows.throw
  | succ fuel ih =>
    cases fuel' with
    | zero => exact absurd hfuel (Nat.not_lt_zero _)
    | succ fuel' =>
    refine Follows.of_more hlimit fun hmore => ?_
    refine Follows.bind_yields (h.decodeTagAt pos) fun start tag _ htag => ?_
    -- the tag has a byte, so the rest of the loop has fuel left
    have hstart : pos < start := (d.decodeTagAt_spec pos _ htag.1).lt
    have hrest : ∀ mid, start ≤ mid → limit' - (base + mid) < fuel' := by omega
    dsimp only
    split
    · exact Follows.pure (Nat.le_refl start)
    · split
      · refine Follows.bind (h.decodeVarintAt start) fun mid tmp hle => ?_
        dsimp only
        split
        · exact ih _ _ (hrest mid hle) _ _ _
        · exact ih _ _ (hrest mid hle) _ _ _
        · exact Follows.bind_same fun msg => ih _ _ (hrest mid hle) _ _ _
      · split
        · refine Follows.bind (h.decodeSizeAt hlimit start) fun mid size hle => ?_
          have hle' : start ≤ mid + size := Nat.le_trans hle (Nat.le_add_right _ _)
          dsimp only
          split
          · refine Follows.after (ih _ _ (hrest _ hle') _ _ _) fun _ => ?_
            rw [Nat.add_assoc]
          · refine Follows.after (ih _ _ (hrest _ hle') _ _ _) fun hlast => ?_
            rw [h.slice_eq hlast, Nat.add_assoc]
          · refine Follows.after (Follows.bind_same fun msg => ih _ _ (hrest _ hle') _ _ _)
              fun hlast => ?_
            rw [h.slice_eq hlast, Nat.add_assoc]
            rfl
        · refine Follows.bind_end (fun mid hmid => h.skipField hlimit tag start hmid) fun mid hle => ?_
          exact ih _ _ (hrest mid hle) _ _ _

theorem decodeValue {limit limit' : Nat} (hlimit : base + limit ≤ limit') {tag : UInt32} {w : WireType}
    (hw : WireType.ofTag tag = some w) {tagStart start pos val : Nat} {v : UInt64}
    (htag : TagAt d.buf tagStart start (tag.toNat / 8) w) (hhead : HeadAt d.buf w start pos val)
    (hstart : start ≤ pos) (layout : Option TableRef) (found : FoundField) (op : DecodeOp)
    (msg : Message) :
    Follows base d.buf.length pos (d.decodeValue layout found tag op v limit pos msg)
      ((d.moved buf r).decodeValue layout found tag op v limit' (base + pos) msg) := by
  unfold Decoder.decodeValue
  rw [hw]
  split
  next hwire =>
    cases hwire
    exact h.decodeUnknownField hlimit htag hhead hstart _ msg
  · refine Follows.bind_same fun _ => ?_
    exact h.decodeMessageSetItem hlimit _ _ _ pos (Nat.lt_succ_self _) _ _ _
  · exact h.decodeKnownField hlimit _ _ _ _ _ _
  · exact Follows.pure (Nat.le_refl pos)

/-- The field that is found does not depend on where the search starts, so neither does its message. -/
theorem decodeField {limit limit' : Nat} (hlimit : base + limit ≤ limit') {tag : UInt32} {w : WireType}
    (hw : WireType.ofTag tag = some w) {tagStart pos : Nat}
    (htag : TagAt d.buf tagStart pos (tag.toNat / 8) w) (layout : Option TableRef) (last last' : Nat)
    (msg : Message) {stop l : Nat} {m : Message}
    (hyields : Yields .missingRequired (d.decodeField layout tag limit pos last msg) (stop, l, m)) :
    pos ≤ stop ∧ (stop ≤ d.buf.length → ∃ l',
      Yields .missingRequired ((d.moved buf r).decodeField layout tag limit' (base + pos) last' msg)
        (base + stop, l', m)) := by
  have hfound : (findField d.env layout (tag.toNat / 8) last').1 =
      (findField d.env layout (tag.toNat / 8) last).1 := by
    cases layout with
    | none => rfl
    | some table => rw [findField_fst, findField_fst]
  obtain ⟨⟨mid, v, op⟩, hwire, hyields⟩ := yields_bind_iff.mp hyields
  obtain ⟨⟨stop', m'⟩, hvalue, hyields⟩ := yields_bind_iff.mp hyields
  obtain ⟨⟩ := yields_pure_iff.mp hyields
  obtain ⟨hle, hwire'⟩ := h.decodeWireValue hlimit _ _ _ pos mid (v, op) hwire
  obtain ⟨val, hhead, -⟩ := d.decodeWireValue_spec _ _ w limit pos _ (hw ▸ hwire.1)
  obtain ⟨hle', hvalue'⟩ := h.decodeValue hlimit hw htag hhead hle _ _ op msg stop m hvalue
  refine ⟨Nat.le_trans hle hle', fun hlast => ?_⟩
  refine ⟨(findField d.env layout (tag.toNat / 8) last').2,
    yields_bind_iff.mpr ⟨(base + mid, v, op), ?_, ?_⟩⟩
  · rw [hfound]
    exact hwire' (Nat.le_trans hle' hlast)
  · refine yields_bind_iff.mpr ⟨(base + stop, m), ?_, Yields.pure⟩
    rw [hfound]
    exact hvalue' hlast

end Shifted

/-- One turn of the loop. -/
theorem yields_decodeFields_succ {d : Decoder} {layout : Option TableRef} {limit fuel pos last : Nat}
    {msg : Message} {b : Nat × Message × Option Nat} :
    Yields .missingRequired (d.decodeFields layout limit (fuel + 1) pos last msg) b ↔
      (pos = limit ∧ (d.checkRequired layout msg).marked .missingRequired = false ∧ b = (pos, msg, none)) ∨
      (pos < limit ∧ ∃ start tag, Yields .missingRequired (d.decodeTagAt pos) (start, tag) ∧
        ((WireType.ofTag tag = some .endGroup ∧ b = (start, msg, some (tag.toNat / 8))) ∨
          (WireType.ofTag tag ≠ some .endGroup ∧ ∃ mid l m,
            Yields .missingRequired (d.decodeField layout tag limit start last msg) (mid, l, m) ∧
            Yields .missingRequired (d.decodeFields layout limit fuel mid l m) b))) := by
  constructor
  · intro hyields
    obtain ⟨done, hdone, hyields⟩ := yields_bind_iff.mp hyields
    have hpos := isDone_spec limit pos done hdone.1
    cases done with
    | true =>
      obtain ⟨u, hcheck, hpure⟩ := yields_bind_iff.mp hyields
      exact .inl ⟨hpos, hcheck.2, (yields_pure_iff.mp hpure).symm⟩
    | false =>
      obtain ⟨⟨start, tag⟩, htag, hyields⟩ := yields_bind_iff.mp hyields
      refine .inr ⟨hpos, start, tag, htag, ?_⟩
      dsimp only at hyields
      split at hyields
      next hend => exact .inl ⟨hend, (yields_pure_iff.mp hyields).symm⟩
      next hend =>
        obtain ⟨⟨mid, l, m⟩, hfield, hrest⟩ := yields_bind_iff.mp hyields
        exact .inr ⟨hend, mid, l, m, hfield, hrest⟩
  · rintro (⟨rfl, hcheck, rfl⟩ | ⟨hpos, start, tag, htag, hrest⟩)
    · have hdone : isDone pos pos = Pure.pure true := by
        rw [isDone, if_neg (Nat.lt_irrefl pos), if_pos rfl]
      refine yields_bind_iff.mpr ⟨true, hdone ▸ Yields.pure, ?_⟩
      refine yields_bind_iff.mpr ⟨(), ⟨?_, hcheck⟩, Yields.pure⟩
      unfold checkRequired
      dsimp only
      split <;> rfl
    · have hdone : isDone limit pos = Pure.pure false := if_pos hpos
      refine yields_bind_iff.mpr ⟨false, hdone ▸ Yields.pure, ?_⟩
      refine yields_bind_iff.mpr ⟨_, htag, ?_⟩
      dsimp only
      obtain ⟨hend, rfl⟩ | ⟨hend, mid, l, m, hfield, hfields⟩ := hrest
      · rw [if_pos hend]
        exact Yields.pure
      · rw [if_neg hend]
        exact yields_bind_iff.mpr ⟨_, hfield, hfields⟩

/-- A loop that does not end with the tag of a group ends at its limit, and has checked the required
fields there. -/
theorem end_of_yields {d : Decoder} {layout : Option TableRef} {limit fuel pos last stop : Nat}
    {msg m : Message}
    (hyields : Yields .missingRequired (d.decodeFields layout limit fuel pos last msg) (stop, m, none)) :
    stop = limit ∧ (d.checkRequired layout m).marked .missingRequired = false := by
  induction fuel generalizing pos last msg with
  | zero => exact (not_yields_throw hyields).elim
  | succ fuel ih =>
    obtain ⟨hpos, hcheck, hb⟩ | ⟨-, start, tag, -, ⟨-, hb⟩ | ⟨-, mid, l, m', -, hrest⟩⟩ :=
      yields_decodeFields_succ.mp hyields
    · cases hb
      exact ⟨hpos, hcheck⟩
    · exact nomatch hb
    · exact ih hrest

namespace Shifted

variable {d : Decoder} {base : Nat} {buf : List UInt8} {r : Recurse} (h : d.Shifted base buf r)
include h

/-- **The loop over a part.** If it ends with the tag of a group, so does the other loop; if it ends at
its limit, the other loop goes on from there with the same message. -/
theorem decodeFields (limit' fuel' : Nat) {limit fuel pos : Nat} (hlimit : base + limit ≤ limit')
    (hfuel : limit' - (base + pos) < fuel') (layout : Option TableRef) (last last' : Nat)
    {msg m : Message} {stop : Nat} {g : Option Nat}
    (hyields : Yields .missingRequired (d.decodeFields layout limit fuel pos last msg) (stop, m, g)) :
    pos ≤ stop ∧ (stop ≤ d.buf.length →
      (∀ number, g = some number → Yields .missingRequired
        ((d.moved buf r).decodeFields layout limit' fuel' (base + pos) last' msg)
          (base + stop, m, some number)) ∧
      (g = none → stop = limit ∧ ∃ fuel'' l'', limit' - (base + stop) < fuel'' ∧ ∀ b,
        Yields .missingRequired ((d.moved buf r).decodeFields layout limit' fuel'' (base + stop) l'' m) b →
        Yields .missingRequired
          ((d.moved buf r).decodeFields layout limit' fuel' (base + pos) last' msg) b)) := by
  induction fuel generalizing fuel' pos last last' msg with
  | zero => exact (not_yields_throw hyields).elim
  | succ fuel ih =>
    obtain ⟨rfl, hcheck, hb⟩ | ⟨hpos, start, tag, htag, hrest⟩ := yields_decodeFields_succ.mp hyields
    · cases hb
      refine ⟨Nat.le_refl _, fun _ => ⟨fun number hg => (nomatch hg), fun _ => ⟨rfl, ?_⟩⟩⟩
      exact ⟨fuel', last', hfuel, fun b hb => hb⟩
    · obtain ⟨fuel', rfl⟩ : ∃ k, fuel' = k + 1 := ⟨fuel' - 1, by omega⟩
      have hstart : pos < start := (d.decodeTagAt_spec pos _ htag.1).lt
      obtain ⟨-, htag'⟩ := h.decodeTagAt pos start tag htag
      obtain ⟨hend, hb⟩ | ⟨hend, mid, l, m', hfield, hfields⟩ := hrest
      · cases hb
        refine ⟨Nat.le_of_lt hstart, fun hlast => ⟨fun number hg => ?_, fun hg => nomatch hg⟩⟩
        cases hg
        exact yields_decodeFields_succ.mpr (.inr ⟨by omega, _, tag, htag' hlast, .inl ⟨hend, rfl⟩⟩)
      · cases hw : WireType.ofTag tag with
        | none =>
          -- a wire type that does not exist is refused
          obtain ⟨a, hwire, -⟩ := yields_bind_iff.mp hfield
          rw [hw] at hwire
          exact (not_yields_throw hwire).elim
        | some w =>
          have hat := tagAt_of_varintAt (d.decodeTagAt_spec pos _ htag.1) hw
          have hmid := fun last' => h.decodeField hlimit hw hat layout last last' msg hfield
          have hle : start ≤ mid := (hmid 0).1
          have hle' : mid ≤ stop := (ih _ (Nat.lt_succ_self _) l 0 hfields).1
          refine ⟨by omega, fun hlast => ?_⟩
          obtain ⟨l', hfield'⟩ := (hmid last').2 (Nat.le_trans hle' hlast)
          obtain ⟨hgroup, hdone⟩ := (ih fuel' (by omega) l l' hfields).2 hlast
          have hturn : ∀ b, Yields .missingRequired
              ((d.moved buf r).decodeFields layout limit' fuel' (base + mid) l' m') b →
              Yields .missingRequired
                ((d.moved buf r).decodeFields layout limit' (fuel' + 1) (base + pos) last' msg) b := by
            intro b hb
            exact yields_decodeFields_succ.mpr (.inr ⟨by omega, _, tag,
              htag' (by omega), .inr ⟨hend, _, l', m', hfield', hb⟩⟩)
          refine ⟨fun number hg => hturn _ (hgroup number hg), fun hg => ?_⟩
          obtain ⟨hstop, fuel'', l'', hfuel'', hgo⟩ := hdone hg
          exact ⟨hstop, fuel'', l'', hfuel'', fun b hb => hturn b (hgo b hb)⟩

end Shifted

/-- The messages below follow at every depth. -/
theorem shifted_withDepth (d : Decoder) {base : Nat} {buf : List UInt8}
    (hpart : ∃ pre post, buf = pre ++ d.buf ++ post ∧ pre.length = base) (r : Recurse) (depth : Nat) :
    (d.withDepth depth).Shifted base buf ((d.moved buf r).recurseSubMessage depth) := by
  induction depth with
  | zero =>
    refine ⟨hpart, fun _ _ _ _ => Follows.throw, ?_⟩
    intro _ _ _ _ _ _ _ _ _ hyields
    exact (not_yields_throw hyields).elim
  | succ depth ih =>
    refine ⟨hpart, fun limit pos layout msg => ?_, fun limit limit' pos layout msg hlimit => ?_⟩
    · rintro stop ⟨m, g⟩ hyields
      obtain ⟨hle, hgo⟩ := ih.decodeFields _ _ (Nat.le_refl _) (Nat.lt_succ_self _) layout 0 0
        (yields_level_iff.mp hyields)
      refine ⟨hle, fun hlast => yields_level_iff.mpr ?_⟩
      obtain ⟨hgroup, hdone⟩ := hgo hlast
      cases g with
      | some number => exact hgroup number rfl
      | none =>
        obtain ⟨rfl, fuel, l, hfuel, hrest⟩ := hdone rfl
        obtain ⟨fuel, rfl⟩ : ∃ k, fuel = k + 1 := ⟨fuel - 1, by omega⟩
        -- at its limit the other message ends too, with the same check of its required fields
        have hcheck : ((d.withDepth depth).checkRequired layout m).marked .missingRequired = false :=
          (end_of_yields (yields_level_iff.mp hyields)).2
        exact hrest _ (yields_decodeFields_succ.mpr (.inl ⟨rfl, hcheck, rfl⟩))
    · intro stop m number hyields
      obtain ⟨hle, hgo⟩ := ih.decodeFields _ _ hlimit (Nat.lt_succ_self _) layout 0 0
        (yields_level_iff.mp hyields)
      exact ⟨hle, fun hlast => yields_level_iff.mpr ((hgo hlast).1 number rfl)⟩

/-- What `_hpb_Decoder_DecodeTop` accepts. -/
theorem decodeTop_eq_ok {d : Decoder} {table : TableRef} {msg m : Message} :
    (d.decodeTop table msg).result = .ok m ↔ ∃ stop, Yields .missingRequired
      (d.decodeMessage d.buf.length 0 (some table) msg) (stop, m, none) := by
  unfold decodeTop
  dsimp only
  constructor
  · intro hok
    obtain ⟨⟨stop, m', g⟩, hrun, hok⟩ := result_bind_eq_ok.mp hok
    dsimp only at hok
    split at hok
    next => exact nomatch hok
    next hg =>
      split at hok
      next => exact nomatch hok
      next hmark =>
        cases hok
        obtain rfl : g = none := not_not.mp hg
        exact ⟨stop, hrun, eq_false_of_ne_true hmark⟩
  · rintro ⟨stop, hrun, hmark⟩
    refine result_bind_eq_ok.mpr ⟨_, hrun, ?_⟩
    dsimp only
    rw [if_neg (not_not.mpr rfl), if_neg (by rw [hmark]; decide)]
    rfl

end Decoder

/-- **Merging is concatenating.** If one input is accepted and then another one into the message that it
gave, their concatenation is accepted, and gives the same message. -/
theorem decode_append {env : DecodeEnv} {opts : DecodeOptions} {table : TableRef} {a b : List UInt8}
    {m m₁ m₂ : Message} (h₁ : (decode env opts a table m).result = .ok m₁)
    (h₂ : (decode env opts b table m₁).result = .ok m₂) :
    (decode env opts (a ++ b) table m).result = .ok m₂ := by
  obtain ⟨stop₁, hrun₁⟩ := Decoder.decodeTop_eq_ok.mp h₁
  obtain ⟨stop₂, hrun₂⟩ := Decoder.decodeTop_eq_ok.mp h₂
  have hshift₁ : (Decoder.startFrom env opts opts.depthLimit a).Shifted 0 (a ++ b)
      (Decoder.startFrom env opts opts.depthLimit (a ++ b)).recurse :=
    Decoder.shifted_withDepth _ ⟨[], b, rfl, rfl⟩ _ _
  have hshift₂ : (Decoder.startFrom env opts opts.depthLimit b).Shifted a.length (a ++ b)
      (Decoder.startFrom env opts opts.depthLimit (a ++ b)).recurse :=
    Decoder.shifted_withDepth _ ⟨a, [], (List.append_nil _).symm, rfl⟩ _ _
  have hlen : (a ++ b).length = a.length + b.length := List.length_append
  have hbuf : ∀ buf, (Decoder.startFrom env opts opts.depthLimit buf).buf.length = buf.length :=
    fun _ => rfl
  obtain ⟨hend₁, -⟩ := Decoder.end_of_yields hrun₁
  obtain ⟨hend₂, hcheck⟩ := Decoder.end_of_yields hrun₂
  rw [hbuf] at hend₁ hend₂
  subst hend₁ hend₂
  -- the first input ends at the second, which ends at the end
  obtain ⟨-, hgo₁⟩ := hshift₁.decodeFields (a ++ b).length ((a ++ b).length - 0 + 1)
    (by rw [hbuf]; omega) (by omega) (some table) 0 0 hrun₁
  obtain ⟨-, fuel, l, hfuel, hrest₁⟩ := (hgo₁ (Nat.le_refl _)).2 rfl
  obtain ⟨-, hgo₂⟩ := hshift₂.decodeFields (a ++ b).length fuel (by rw [hbuf]; omega) (by omega)
    (some table) 0 l hrun₂
  obtain ⟨-, fuel', l', hfuel', hrest₂⟩ := (hgo₂ (Nat.le_refl _)).2 rfl
  obtain ⟨fuel', rfl⟩ : ∃ k, fuel' = k + 1 := ⟨fuel' - 1, by omega⟩
  refine Decoder.decodeTop_eq_ok.mpr ⟨a.length + b.length, hrest₁ _ ?_⟩
  rw [Nat.zero_add]
  exact hrest₂ _ (Decoder.yields_decodeFields_succ.mpr (.inl ⟨hlen.symm, hcheck, rfl⟩))

/-- Two unknown fields. -/
theorem decode_append_unknown :
    (decode groupEnv ⟨false, false, 0⟩ ([8, 5] ++ [8, 6]) (.table 0) Message.new).result =
      .ok ((Message.new.addUnknown [8, 5]).addUnknown [8, 6]) :=
  have h₁ : (decode groupEnv ⟨false, false, 0⟩ [8, 5] (.table 0) Message.new).result =
      .ok (Message.new.addUnknown [8, 5]) := rfl
  decode_append h₁ rfl

end Hpb
