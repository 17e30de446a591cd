import Hpb.Message.Defs

/-!
# Iteration over the fields of a message (`hpb_Message_Next`)

One `size_t` is the cursor of an iteration: it starts at `-1`, counts up through the indexes of the fields
and then through the extensions, from the oldest one to the newest, which is the first in memory.

* `next`: one call; `nexts`: the calls of a loop that goes on until one returns `false`.
* `nexts_eq`: what a loop yields.
* `NextRight`: a loop yields the fields that are set, and then the extensions.
* `nextRight_iff`: when that is so.

A field without presence is read as its default if that is not zero, whatever the message holds. A
definition has such a default where a field of a proto3 message is of a proto2 enum whose first number is
not 0.
-/

namespace Hpb

open Reflection

section

variable {α β : Type} {g h : α → Option β} {l : List α} (hle : ∀ x ∈ l, (h x).isSome → (g x).isSome)
include hle

theorem length_filterMap_le_of_isSome : (l.filterMap h).length ≤ (l.filterMap g).length := by
  induction l with
  | nil => exact le_rfl
  | cons x l ih =>
    have ih := ih fun y hy => hle y (List.mem_cons_of_mem x hy)
    have hx := hle x List.mem_cons_self
    cases hh : h x with
    | none =>
      rw [List.filterMap_cons_none hh]
      exact ih.trans ((List.sublist_cons_self x l).filterMap g).length_le
    | some y =>
      obtain ⟨z, hz⟩ := Option.isSome_iff_exists.mp (hx (by rw [hh, Option.isSome_some]))
      rw [List.filterMap_cons_some hh, List.filterMap_cons_some hz]
      exact Nat.succ_le_succ ih

/-- Two choices from a list, the one of at least what the other takes, are equal element by element if
their results are. -/
theorem filterMap_eq_filterMap_iff : l.filterMap g = l.filterMap h ↔ ∀ x ∈ l, g x = h x := by
  refine ⟨fun heq => ?_, fun heq => List.filterMap_congr heq⟩
  induction l with
  | nil => exact List.forall_mem_nil _
  | cons x l ih =>
    have htail : ∀ y ∈ l, (h y).isSome → (g y).isSome := fun y hy => hle y (List.mem_cons_of_mem x hy)
    have hx := hle x List.mem_cons_self
    cases hg : g x with
    | none =>
      have hh : h x = none := by
        rw [hg] at hx
        exact Option.not_isSome_iff_eq_none.mp fun hs => nomatch hx hs
      rw [List.filterMap_cons_none hg, List.filterMap_cons_none hh] at heq
      exact List.forall_mem_cons.mpr ⟨hg.trans hh.symm, ih htail heq⟩
    | some z =>
      rw [List.filterMap_cons_some hg] at heq
      cases hh : h x with
      | none =>
        -- the one result is longer
        rw [List.filterMap_cons_none hh] at heq
        have hlen := length_filterMap_le_of_isSome htail
        rw [← heq, List.length_cons] at hlen
        omega
      | some y =>
        rw [List.filterMap_cons_some hh, List.cons.injEq] at heq
        exact List.forall_mem_cons.mpr ⟨by rw [hg, hh, heq.1], ih htail heq.2⟩

end

namespace Message

variable (fields : List LinkedField) (extPool : Option (Nat → LinkedField)) (m : Message)

/-- `kHpb_Message_Begin`. -/
def begin : UInt64 := 0 - 1

/-- The field is skipped: it is unset or empty. -/
def skips (f : LinkedField) (val : Slot) : Bool :=
  if f.mini.presence ≠ 0 then !m.hasField f.mini
  else if f.mini.fieldMode = FieldMode.map then val.entries.isEmpty
  else if f.mini.fieldMode = FieldMode.array then val.elems.isEmpty
  else if f.mini.fieldMode = FieldMode.scalar then !val.nonZero f.mini.rep
  else false

/-- The loop over the normal fields: the first one that is set, if there is one, and the cursor. -/
def nextField (i : UInt64) : Option (LinkedField × Slot) × UInt64 :=
  if h : i + 1 < .ofNat fields.length then
    match fields[(i + 1).toNat]? with
    | some f =>
      let val := m.getFieldByDef f
      if m.skips f val then nextField (i + 1) else (some (f, val), i + 1)
    | none => (none, i + 1) -- the index is below the count
  else (none, i + 1)
termination_by (UInt64.ofNat fields.length).toNat - (i + 1).toNat
decreasing_by
  have hlt := UInt64.lt_iff_toNat_lt.mp h
  have hsucc : (i + 1 + 1).toNat = (i + 1).toNat + 1 := by
    rw [UInt64.toNat_add, UInt64.toNat_one]
    have := (UInt64.ofNat fields.length).toNat_lt
    omega
  omega

/-- `hpb_Message_Next`, of a message whose definition has these fields. -/
def next (iter : UInt64) : Option (LinkedField × Slot) × UInt64 :=
  match nextField fields m iter with
  | (some y, i) => (some y, i)
  | (none, i) =>
    match extPool with
    | some pool =>
      let count := UInt64.ofNat m.exts.length
      let passed := i - .ofNat fields.length
      if passed < count then
        match m.exts[(count - 1 - passed).toNat]? with
        | some (id, data) => (some (pool id, data), i)
        | none => (none, i) -- the index is below the count
      else (none, i)
    | none => (none, i)

/-- What the calls of `hpb_Message_Next` yield until one returns `false`, if that one is among the first
calls. -/
def nexts : Nat → UInt64 → Option (List (LinkedField × Slot))
  | 0, _ => none
  | calls + 1, iter =>
    match next fields extPool m iter with
    | (some y, i) => (nexts calls i).map (y :: ·)
    | (none, _) => some []

/-- What is yielded for a field. -/
def yield (f : LinkedField) : Option (LinkedField × Slot) :=
  if m.skips f (m.getFieldByDef f) then none else some (f, m.getFieldByDef f)

/-- What is yielded for the extensions. -/
def yieldExts : List (LinkedField × Slot) :=
  match extPool with
  | some pool => m.exts.reverse.map fun e => (pool e.1, e.2)
  | none => []

variable {fields extPool m}

theorem toNat_ofNat {j : Nat} (h : j < 2 ^ 64) : (UInt64.ofNat j).toNat = j :=
  UInt64.toNat_ofNat_of_lt' h

/-- The cursor before an index. -/
theorem toNat_cursor {j : Nat} (h : j < 2 ^ 64) : (UInt64.ofNat j - 1 + 1).toNat = j := by
  rw [UInt64.sub_add_cancel, toNat_ofNat h]

theorem ofNat_lt_ofNat {j k : Nat} (hj : j < 2 ^ 64) (hk : k < 2 ^ 64) :
    UInt64.ofNat j < UInt64.ofNat k ↔ j < k := by
  rw [UInt64.lt_iff_toNat_lt, toNat_ofNat hj, toNat_ofNat hk]

/-- The number of extensions that were passed. -/
theorem ofNat_passed (n p : Nat) : UInt64.ofNat (n + p) - .ofNat n = .ofNat p := by
  rw [UInt64.ofNat_add, UInt64.add_comm, UInt64.add_sub_cancel]

/-- The index counts backwards. -/
theorem toNat_backwards {count p : Nat} (hp : p < count) (hcount : count < 2 ^ 64) :
    (UInt64.ofNat count - 1 - .ofNat p).toNat = count - 1 - p := by
  have hone : (1 : UInt64).toNat = 1 := rfl
  have hpred : (UInt64.ofNat count - 1).toNat = count - 1 := by
    rw [UInt64.toNat_sub_of_le _ _ (UInt64.le_iff_toNat_le.mpr (by rw [toNat_ofNat hcount]; omega)),
      toNat_ofNat hcount, hone]
  rw [UInt64.toNat_sub_of_le _ _ (UInt64.le_iff_toNat_le.mpr ?_), hpred, toNat_ofNat (by omega)]
  rw [hpred, toNat_ofNat (by omega)]
  omega

section

variable (hcount : fields.length < 2 ^ 31)
include hcount

theorem nextField_cons {j : Nat} {f : LinkedField} (hf : fields[j]? = some f) :
    nextField fields m (.ofNat j - 1) =
      if m.skips f (m.getFieldByDef f) then nextField fields m (.ofNat j)
      else (some (f, m.getFieldByDef f), .ofNat j) := by
  have hj : j < fields.length := (List.getElem?_eq_some_iff.mp hf).1
  have hlt : UInt64.ofNat j - 1 + 1 < .ofNat fields.length := by
    rw [UInt64.sub_add_cancel]
    exact (ofNat_lt_ofNat (by omega) (by omega)).mpr hj
  rw [nextField, dif_pos hlt, toNat_cursor (by omega), hf]
  simp only [UInt64.sub_add_cancel]

theorem nextField_end {j : Nat} (hj : fields.length ≤ j) (hlt : j < 2 ^ 64) :
    nextField fields m (.ofNat j - 1) = (none, .ofNat j) := by
  have hge : ¬UInt64.ofNat j - 1 + 1 < .ofNat fields.length := by
    rw [UInt64.sub_add_cancel, ofNat_lt_ofNat hlt (by omega)]
    omega
  rw [nextField, dif_neg hge, UInt64.sub_add_cancel]

theorem next_show {j : Nat} {f : LinkedField} (hf : fields[j]? = some f)
    (hshow : ¬m.skips f (m.getFieldByDef f) = true) :
    next fields extPool m (.ofNat j - 1) = (some (f, m.getFieldByDef f), .ofNat j) := by
  rw [next, nextField_cons hcount hf, if_neg hshow]

theorem nexts_skip {j : Nat} {f : LinkedField} (hf : fields[j]? = some f)
    (hskip : m.skips f (m.getFieldByDef f) = true) {calls : Nat} :
    nexts fields extPool m calls (.ofNat j - 1) = nexts fields extPool m calls (.ofNat j) := by
  have hnext : next fields extPool m (.ofNat j - 1) = next fields extPool m (.ofNat j) := by
    rw [next, nextField_cons hcount hf, if_pos hskip, ← next]
  cases calls with
  | zero => rfl
  | succ calls => rw [nexts, hnext, ← nexts]

variable (hexts : m.exts.length < 2 ^ 32)
include hexts

/-- The call that yields an extension. -/
theorem next_ext {pool : Nat → LinkedField} {p : Nat} {e : Nat × Slot}
    (he : m.exts.reverse[p]? = some e) :
    next fields (some pool) m (.ofNat (fields.length + p) - 1) =
      (some (pool e.1, e.2), .ofNat (fields.length + p)) := by
  have hp : p < m.exts.length := by
    rw [← List.length_reverse]
    exact (List.getElem?_eq_some_iff.mp he).1
  rw [List.getElem?_reverse hp] at he
  rw [next, nextField_end hcount (by omega) (by omega)]
  simp only [ofNat_passed]
  rw [if_pos ((ofNat_lt_ofNat (by omega) (by omega)).mpr hp), toNat_backwards hp (by omega), he]

/-- The call after the last extension. -/
theorem next_end {p : Nat} (hp : extPool.isSome = true → p = m.exts.length)
    (hlt : p ≤ m.exts.length) :
    next fields extPool m (.ofNat (fields.length + p) - 1) = (none, .ofNat (fields.length + p)) := by
  rw [next, nextField_end hcount (by omega) (by omega)]
  cases extPool with
  | none => rfl
  | some pool =>
    obtain rfl := hp rfl
    simp only [ofNat_passed]
    rw [if_neg (by rw [ofNat_lt_ofNat (by omega) (by omega)]; omega)]

/-- The calls after the fields. -/
theorem nexts_exts {calls p : Nat} (hp : p ≤ m.exts.length) (hcalls : m.exts.length - p < calls) :
    nexts fields extPool m calls (.ofNat (fields.length + p) - 1) =
      some ((yieldExts extPool m).drop p) := by
  induction calls generalizing p with
  | zero => omega
  | succ calls ih =>
    rw [nexts]
    cases extPool with
    | none =>
      have hend : next fields none m (.ofNat (fields.length + p) - 1) =
          (none, .ofNat (fields.length + p)) :=
        next_end hcount hexts (fun h => absurd h Bool.false_ne_true) hp
      rw [hend, yieldExts, List.drop_nil]
    | some pool =>
      cases hget : m.exts.reverse[p]? with
      | none =>
        have hlen := List.getElem?_eq_none_iff.mp hget
        rw [List.length_reverse] at hlen
        rw [next_end hcount hexts (fun _ => by omega) hp, yieldExts,
          List.drop_eq_nil_of_le (by rw [List.length_map, List.length_reverse]; exact hlen)]
      | some e =>
        obtain ⟨hlt, rfl⟩ := List.getElem?_eq_some_iff.mp hget
        have hcursor : UInt64.ofNat (fields.length + p) = .ofNat (fields.length + (p + 1)) - 1 := by
          rw [← Nat.add_assoc, UInt64.ofNat_add (fields.length + p) 1]
          exact (UInt64.add_sub_cancel _ _).symm
        have hlen : p < m.exts.length := by rwa [List.length_reverse] at hlt
        rw [next_ext hcount hexts hget]
        simp only
        rw [hcursor, ih (by omega) (by omega), Option.map_some, yieldExts, ← List.map_drop,
          ← List.map_drop, List.drop_eq_getElem_cons hlt, List.map_cons]

/-- The calls from a field on. -/
theorem nexts_fields {j : Nat} (hj : j ≤ fields.length) {calls : Nat}
    (hcalls : fields.length - j + m.exts.length < calls) :
    nexts fields extPool m calls (.ofNat j - 1) =
      some ((fields.drop j).filterMap (yield m) ++ yieldExts extPool m) := by
  induction hk : fields.length - j generalizing j calls with
  | zero =>
    obtain rfl : j = fields.length := by omega
    rw [List.drop_length, List.filterMap_nil, List.nil_append]
    exact nexts_exts hcount hexts (Nat.zero_le _) (by omega)
  | succ k ih =>
    have hlt : j < fields.length := by omega
    have hcursor : UInt64.ofNat j = .ofNat (j + 1) - 1 := by
      rw [UInt64.ofNat_add j 1]
      exact (UInt64.add_sub_cancel _ _).symm
    have hf := List.getElem?_eq_getElem hlt
    rw [List.drop_eq_getElem_cons hlt]
    by_cases hskip : m.skips fields[j] (m.getFieldByDef fields[j]) = true
    · rw [List.filterMap_cons_none (by rw [yield, if_pos hskip]), nexts_skip hcount hf hskip, hcursor]
      exact ih (by omega) (by omega) (by omega)
    · obtain ⟨calls, rfl⟩ : ∃ c, calls = c + 1 := ⟨calls - 1, by omega⟩
      rw [List.filterMap_cons_some (by rw [yield, if_neg hskip]), nexts, next_show hcount hf hskip]
      simp only
      rw [hcursor, ih (by omega) (by omega) (by omega)]
      rfl

/-- **What a loop yields**: the fields that are not skipped, and then the extensions. -/
theorem nexts_eq {calls : Nat} (hcalls : fields.length + m.exts.length < calls) :
    nexts fields extPool m calls begin =
      some (fields.filterMap (yield m) ++ yieldExts extPool m) :=
  nexts_fields hcount hexts (Nat.zero_le _) hcalls

end

/-! ### What is set -/

/-- A field that is set, with its value. -/
def presentField (m : Message) (f : LinkedField) : Option (LinkedField × Slot) :=
  if m.present f.mini then some (f, m.data f.mini.offset) else none

/-- A loop yields each field that is set once, in the order of the definition and with its value, then each
extension once, the oldest one first, and nothing else. Without a pool it yields no extension. -/
structure NextRight (fields : List LinkedField) (m : Message) : Prop where
  pool : ∀ pool : Nat → LinkedField, ∀ calls > fields.length + m.exts.length,
    nexts fields (some pool) m calls begin =
      some (fields.filterMap m.presentField ++ m.exts.reverse.map fun e => (pool e.1, e.2))
  null : ∀ calls > fields.length + m.exts.length,
    nexts fields none m calls begin = some (fields.filterMap m.presentField)

/-- A field without presence whose default is not zero holds its default, unless the bit 0 of the message,
which is not a has-bit, is set. -/
def DefaultsHeld (fields : List LinkedField) (m : Message) : Prop :=
  ∀ f ∈ fields, f.mini.presence = 0 → f.defn.default.nonZero f.mini.rep = true →
    m.hasbits 0 = true ∨ m.data f.mini.offset = f.defn.default

variable {f : LinkedField}

theorem getFieldByDef_hasField (hhas : m.hasField f.mini = true) :
    m.getFieldByDef f = m.data f.mini.offset := by
  rw [getFieldByDef, getField, hhas, Bool.not_true, Bool.and_false]
  rfl

theorem getFieldByDef_implicit (hp : f.mini.presence = 0) : m.getFieldByDef f =
    if f.defn.default.nonZero f.mini.rep = true ∧ m.hasbits 0 = false then f.defn.default
    else m.data f.mini.offset := by
  have hhas : m.hasField f.mini = m.hasbits 0 := by
    rw [hasField, hp]
    rfl
  rw [getFieldByDef, getField, hhas, hp]
  cases f.defn.default.nonZero f.mini.rep <;> cases m.hasbits 0 <;> rfl

/-- A default that is not zero is one of a field that is not repeated. -/
theorem fieldMode_of_default (h : f.defn.default.nonZero f.mini.rep = true) :
    f.mini.fieldMode = FieldMode.scalar := by
  have hno : f.mini.isRepeatedOrMap ≠ true := by
    intro hrep
    rw [FieldDef.default_repeated f.defn (f.repeated_eq.trans hrep), Slot.nonZero_zero] at h
    cases h
  rw [MiniTableField.isRepeatedOrMap_eq] at hno
  obtain hmode | hmode | hmode := f.mode
  · exact absurd (by rw [hmode]; rfl) hno
  · exact absurd (by rw [hmode]; rfl) hno
  · exact hmode

/-- A field that is read as what it holds is skipped if it is not set. -/
theorem skips_data (m : Message) (f : LinkedField) :
    m.skips f (m.data f.mini.offset) = !m.present f.mini := by
  rw [skips, present]
  obtain hmode | hmode | hmode := f.mode <;> rw [hmode] <;> split <;>
    simp [FieldMode.map, FieldMode.array, FieldMode.scalar]

/-- What is yielded for a field that is read as what it holds. -/
theorem yield_eq_of_data (h : m.getFieldByDef f = m.data f.mini.offset) :
    yield m f = m.presentField f := by
  rw [yield, presentField, h, skips_data]
  cases m.present f.mini <;> rfl

/-- A field that is read as its default is yielded with it. -/
theorem yield_eq_of_default (hp : f.mini.presence = 0)
    (hdefault : f.defn.default.nonZero f.mini.rep = true) (hbit : m.hasbits 0 = false) :
    yield m f = some (f, f.defn.default) := by
  have hskips : m.skips f f.defn.default = false := by
    rw [skips, if_neg (not_not_intro hp), fieldMode_of_default hdefault, if_neg (by decide),
      if_neg (by decide), if_pos rfl, hdefault, Bool.not_true]
  have hval : m.getFieldByDef f = f.defn.default := by
    rw [getFieldByDef_implicit hp]
    exact if_pos ⟨hdefault, hbit⟩
  rw [yield, hval, hskips]
  exact if_neg Bool.false_ne_true

/-- A field that is set is not skipped. -/
theorem yield_isSome (h : (m.presentField f).isSome) : (yield m f).isSome := by
  by_cases hp : f.mini.presence = 0
  · by_cases hdefault : f.defn.default.nonZero f.mini.rep = true ∧ m.hasbits 0 = false
    · rw [yield_eq_of_default hp hdefault.1 hdefault.2, Option.isSome_some]
    · rwa [yield_eq_of_data (by rw [getFieldByDef_implicit hp, if_neg hdefault])]
  · have hhas : m.hasField f.mini = true := by
      by_contra hno
      rw [presentField, present, if_pos hp, if_neg hno] at h
      exact nomatch h
    rwa [yield_eq_of_data (getFieldByDef_hasField hhas)]

/-- What is yielded for a field is right unless the field is read as its default by mistake. -/
theorem yield_eq_iff : yield m f = m.presentField f ↔ (f.mini.presence = 0 →
    f.defn.default.nonZero f.mini.rep = true →
      m.hasbits 0 = true ∨ m.data f.mini.offset = f.defn.default) := by
  by_cases hp : f.mini.presence = 0
  · by_cases hdefault : f.defn.default.nonZero f.mini.rep = true ∧ m.hasbits 0 = false
    · obtain ⟨hzero, hbit⟩ := hdefault
      have hpresent : m.present f.mini = (m.data f.mini.offset).nonZero f.mini.rep := by
        have hmap : FieldMode.scalar ≠ FieldMode.map := by decide
        have harray : FieldMode.scalar ≠ FieldMode.array := by decide
        rw [present, if_neg (not_not_intro hp), fieldMode_of_default hzero, if_neg hmap, if_neg harray]
      rw [yield_eq_of_default hp hzero hbit, presentField, hpresent]
      constructor
      · intro h _ _
        split at h
        · exact .inr (Prod.mk.inj (Option.some.inj h)).2.symm
        · cases h
      · intro h
        obtain h | h := h hp hzero
        · cases hbit.symm.trans h
        · rw [h, if_pos hzero]
    · refine iff_of_true (yield_eq_of_data (by rw [getFieldByDef_implicit hp, if_neg hdefault])) ?_
      intro _ hzero
      refine .inl ?_
      by_contra hbit
      exact hdefault ⟨hzero, Bool.eq_false_of_not_eq_true hbit⟩
  · refine iff_of_true ?_ fun h => absurd h hp
    by_cases hhas : m.hasField f.mini = true
    · exact yield_eq_of_data (getFieldByDef_hasField hhas)
    · rw [yield, skips, if_pos hp, presentField, present, if_pos hp, if_neg hhas,
        Bool.eq_false_of_not_eq_true hhas]
      rfl

/-- A field of messages is yielded if it is set, with what it holds. -/
theorem yield_eq_of_messageSubDef (m : Message) (h : f.defn.messageSubDef.isSome) :
    yield m f = m.presentField f := by
  have hsub : f.defn.isSubMessage = true := by
    rw [FieldDef.messageSubDef] at h
    cases hs : f.defn.isSubMessage with
    | true => rfl
    | false =>
      rw [hs] at h
      cases hd : f.defn.sub <;> rw [hd] at h <;> cases h
  refine yield_eq_iff.mpr fun _ hnon => ?_
  rw [FieldDef.default_subMessage f.defn hsub, Slot.nonZero_zero] at hnon
  cases hnon

theorem yield_messageSubDef (m : Message) (h : f.defn.messageSubDef.isSome) :
    (yield m f).isSome = m.present f.mini := by
  rw [yield_eq_of_messageSubDef m h, presentField]
  cases m.present f.mini <;> rfl

theorem nextRight_iff_filterMap (D : MessageDefs) (p : DefPtr) (m : Message)
    (hexts : m.exts.length < 2 ^ 32) : NextRight (D.fields p) m ↔
      (D.fields p).filterMap (yield m) = (D.fields p).filterMap m.presentField := by
  constructor
  · intro h
    have hnull := h.null _ (Nat.lt_succ_self _)
    rw [nexts_eq (D.count_lt p) hexts (Nat.lt_succ_self _), yieldExts, List.append_nil] at hnull
    exact Option.some.inj hnull
  · intro h
    refine ⟨fun pool calls hcalls => ?_, fun calls hcalls => ?_⟩
    · rw [nexts_eq (D.count_lt p) hexts hcalls, h]
      rfl
    · rw [nexts_eq (D.count_lt p) hexts hcalls, h, yieldExts, List.append_nil]

/-- `E e = 1;` in a proto3 message, where `E` is `enum E { A = 1; }` of a proto2 file. -/
def closedEnumField : LinkedField where
  defn :=
    { address := 0, fullName := [77, 46, 101], jsonName := [101], hasJsonName := false, number := 1
      index := 0, layoutIndex := 0, label := .optional, type := some .enum, isExtension := false
      isPacked := false, isProto3Optional := false, hasPresence := false, hasDefault := false
      defaultval := .sint 1, options := ⟨none⟩, oneof := none, msgdef := some ⟨.msg, 1, [77]⟩
      sub := .enumdef ⟨.enum, 0, [69]⟩ }
  mini := ⟨1, 0, 0, 0, .enum, FieldMode.scalar ||| 64⟩
  repeated_eq := by decide
  mode := by decide
  sub := by decide

/-- `message M { E e = 1; }`. -/
def closedEnumDefs : MessageDefs where
  fields := fun p => if p = ⟨.msg, 1, [77]⟩ then [closedEnumField] else []
  isMapEntry := fun _ => false
  extension := fun _ => closedEnumField
  count_lt := fun p => by split <;> decide
  apart := fun p => by
    split
    · exact List.pairwise_singleton _ _
    · exact List.Pairwise.nil
  map_iff := fun p f hf => by
    split at hf
    · obtain rfl := List.mem_singleton.mp hf
      decide
    · exact nomatch hf
  entry := fun _ h => nomatch h

end Message

end Hpb
