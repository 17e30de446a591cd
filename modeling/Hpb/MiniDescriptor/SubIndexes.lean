import Hpb.MiniDescriptor.LayoutKeeps
import Hpb.MiniTable.Field

/-!
# The sub-tables of a built mini table

The parser numbers the sub-messages and the closed enums in the order of the fields, and
`hpb_MtDecoder_AllocateSubs` puts the enums after the messages. The rest of the layout does not touch what
the sub-tables depend on in a field (`SubKey`).

* `Numbered`: the numbers that the parser gives.
* `SubsInOrder`: the numbers in a table, with its unlinked `subs`.
* `build_subsInOrder`: every table that `build` accepts has them, while its counts do not wrap.
-/

namespace Hpb

/-- What the sub-tables depend on in a field. -/
structure SubKey where
  type : FieldType
  index : Nat
  alternate : Bool
  deriving DecidableEq, Repr

def MiniTableField.subKey (f : MiniTableField) : SubKey := ⟨f.descriptortype, f.submsgIndex, f.isAlternate⟩

@[simp] theorem MiniTableField.subKey_presence (f : MiniTableField) (presence : Int) :
    ({ f with presence } : MiniTableField).subKey = f.subKey := rfl

namespace SubKey

def isMessage (k : SubKey) : Bool := k.type == .message || k.type == .group

def isClosedEnum (k : SubKey) : Bool := k.type == .enum

/-- The number that the parser gives to a field after others. -/
def number (before : List SubKey) (k : SubKey) : Nat :=
  if k.isMessage then before.countP isMessage % 2 ^ 16
  else if k.isClosedEnum then before.countP isClosedEnum % 2 ^ 16
  else noSub

end SubKey

/-- No field is of both kinds. -/
theorem SubKey.not_closed_of_message {k : SubKey} (h : k.isMessage = true) : k.isClosedEnum = false := by
  revert h
  unfold SubKey.isMessage SubKey.isClosedEnum
  cases k.type <;> decide

theorem countP_kinds_le (ks : List SubKey) :
    ks.countP SubKey.isMessage + ks.countP SubKey.isClosedEnum ≤ ks.length := by
  induction ks with
  | nil => simp
  | cons k ks ih =>
    have hexcl := @SubKey.not_closed_of_message k
    rw [List.countP_cons, List.countP_cons, List.length_cons]
    split_ifs <;> first | omega | simp_all

/-- Each field has the number that the parser gives it. -/
def Numbered (ks : List SubKey) : Prop :=
  ∀ (i : Nat) (k : SubKey), ks[i]? = some k → k.index = k.number (ks.take i)

theorem Numbered.append {ks : List SubKey} {k : SubKey} (h : Numbered ks) (hk : k.index = k.number ks) :
    Numbered (ks ++ [k]) := by
  intro i k' hi
  obtain hlt | heq | hgt := Nat.lt_trichotomy i ks.length
  · rw [List.getElem?_append_left hlt] at hi
    rw [List.take_append_of_le_length (Nat.le_of_lt hlt)]
    exact h i k' hi
  · subst heq
    rw [List.getElem?_concat_length] at hi
    cases hi
    rw [List.take_left]
    exact hk
  · have hnone : (ks ++ [k])[i]? = none := List.getElem?_eq_none (by simp; omega)
    rw [hnone] at hi
    cases hi

namespace SubCounts

/-- The number of the next field, from the counts. -/
def number (c : SubCounts) (k : SubKey) : Nat :=
  if k.isMessage then c.submsgCount else if k.isClosedEnum then c.subenumCount else noSub

/-- The counts with one more field. -/
def next (c : SubCounts) (k : SubKey) : SubCounts :=
  if k.isMessage then { c with submsgCount := (c.submsgCount + 1) % 2 ^ 16 }
  else if k.isClosedEnum then { c with subenumCount := (c.subenumCount + 1) % 2 ^ 16 }
  else c

end SubCounts

namespace MtDecoder

/-- The counts are those of the fields. -/
structure Counts (c : SubCounts) (ks : List SubKey) : Prop where
  messages : c.submsgCount = ks.countP SubKey.isMessage % 2 ^ 16
  enums : c.subenumCount = ks.countP SubKey.isClosedEnum % 2 ^ 16

theorem Counts.number {c : SubCounts} {ks : List SubKey} (h : Counts c ks) (k : SubKey) :
    c.number k = k.number ks := by
  unfold SubCounts.number SubKey.number
  rw [h.messages, h.enums]

theorem Counts.next {c : SubCounts} {ks : List SubKey} (h : Counts c ks) (k : SubKey) :
    Counts (c.next k) (ks ++ [k]) := by
  have hexcl := @SubKey.not_closed_of_message k
  constructor <;>
  · rw [List.countP_append, List.countP_singleton]
    unfold SubCounts.next
    cases hm : k.isMessage <;> cases he : k.isClosedEnum <;> simp_all [h.messages, h.enums]

/-- The numbers of the sub-tables while the message is parsed. -/
structure SubInv (d : MtDecoder) : Prop where
  table : d.extension = false
  count : d.fieldCount = d.fields.length % 2 ^ 16
  numbered : Numbered (d.fields.map (·.subKey))
  counts : Counts d.subCounts (d.fields.map (·.subKey))

section

variable {d d' : MtDecoder}

/-- The invariant is one of the keys. -/
theorem SubInv.congr (h : d.SubInv) (hk : d'.fields.map (·.subKey) = d.fields.map (·.subKey))
    (hc : d'.fieldCount = d.fieldCount) (hs : d'.subCounts = d.subCounts)
    (he : d'.extension = d.extension) : d'.SubInv := by
  have hlen : d'.fields.length = d.fields.length := by
    simpa using congrArg List.length hk
  refine ⟨he.trans h.table, ?_, ?_, ?_⟩
  · rw [hc, hlen, h.count]
  · rw [hk]
    exact h.numbered
  · rw [hs, hk]
    exact h.counts

theorem setTypeAndSub_key (f : MiniTableField) (type : FieldType) (subs : SubCounts) (mods : UInt32)
    (isProto3Enum : Bool) :
    (setTypeAndSub f type subs mods isProto3Enum).1.subKey.index =
        subs.number (setTypeAndSub f type subs mods isProto3Enum).1.subKey ∧
      (setTypeAndSub f type subs mods isProto3Enum).2 =
        subs.next (setTypeAndSub f type subs mods isProto3Enum).1.subKey := by
  unfold setTypeAndSub SubCounts.number SubCounts.next SubKey.isMessage SubKey.isClosedEnum
  dsimp only [MiniTableField.subKey]
  split_ifs <;> grind

/-- A new field takes the next number. -/
theorem setField_key {p : Platform} {ch : UInt8} {number : Nat} {mods : UInt32} {subs : SubCounts}
    {r : MiniTableField × SubCounts} (h : setField p ch number mods subs = .ok r) :
    r.1.subKey.index = subs.number r.1.subKey ∧ r.2 = subs.next r.1.subKey := by
  obtain ⟨⟨mode, offset, type⟩, -, h⟩ := Except.bind_eq_ok.mp h
  dsimp only at h
  split at h
  · cases h
  split at h
  · cases h
  · cases h
    exact setTypeAndSub_key ..

/-- Modifiers do not change the key. -/
theorem modifyField_key {mods : UInt32} {f g : MiniTableField} (h : modifyField mods f = .ok g) :
    g.subKey = f.subKey := by
  obtain ⟨f₁, hf₁, h⟩ := Except.bind_eq_ok.mp h
  have hkey : f₁.subKey = f.subKey := by
    unfold flipPacked at hf₁
    split_ifs at hf₁ <;> cases hf₁
    · have hmode : (f.mode ^^^ LabelFlags.isPacked) &&& LabelFlags.isAlternate =
          f.mode &&& LabelFlags.isAlternate := by
        apply UInt8.toBitVec_inj.mp
        ext i hi
        simp only [UInt8.toBitVec_and, UInt8.toBitVec_xor, BitVec.getElem_and, BitVec.getElem_xor]
        have hbits : (LabelFlags.isPacked.toBitVec[i] && LabelFlags.isAlternate.toBitVec[i]) = false := by
          revert i
          decide
        revert hbits
        cases LabelFlags.isPacked.toBitVec[i] <;> cases LabelFlags.isAlternate.toBitVec[i] <;> simp
      simp [MiniTableField.subKey, MiniTableField.isAlternate, hmode]
    · rfl
  dsimp only at h
  split_ifs at h <;> cases h <;> exact hkey

theorem pushOneof_subInv {item : LayoutItem} {members : List Nat} (h : d.SubInv)
    (hr : d.pushOneof item members = .ok d') : d'.SubInv := by
  unfold pushOneof at hr
  split at hr <;> cases hr
  exact h.congr rfl rfl rfl rfl

theorem decodeOneofs_subInv {item : LayoutItem} {members : List Nat} {skip : Nat} {data : List UInt8}
    (h : d.SubInv) (hr : d.decodeOneofs item members skip data = .ok d') : d'.SubInv := by
  induction data generalizing d item members skip with
  | nil =>
    rw [decodeOneofs] at hr
    exact pushOneof_subInv h hr
  | cons ch rest ih =>
    cases skip with
    | succ skip =>
      rw [decodeOneofs] at hr
      exact ih h hr
    | zero =>
      rw [decodeOneofs] at hr
      split_ifs at hr
      · exact ih h hr
      · obtain ⟨d₁, h₁, hr⟩ := Except.bind_eq_ok.mp hr
        exact ih (pushOneof_subInv h h₁) hr
      · obtain ⟨⟨skip, number⟩, -, hr⟩ := Except.bind_eq_ok.mp hr
        obtain ⟨⟨d₁, item₁, members₁⟩, h₁, hr⟩ := Except.bind_eq_ok.mp hr
        obtain ⟨i, f, hf, -, rfl, -, -⟩ := addToOneof_eq_ok h₁
        refine ih ?_ hr
        exact h.congr (map_set_eq hf rfl) rfl rfl rfl

theorem applyModifier_subInv {l l' : Locals} {mod : UInt32} (h : d.SubInv)
    (hr : d.applyModifier l mod = .ok (d', l')) : d'.SubInv := by
  unfold applyModifier at hr
  split at hr
  next f hf =>
    obtain ⟨g, hg, hr⟩ := Except.bind_eq_ok.mp hr
    cases hr
    refine h.congr ?_ rfl rfl rfl
    conv_rhs => rw [← List.dropLast_append_getLast? f hf]
    rw [List.map_append, List.map_append, List.map_singleton, List.map_singleton, modifyField_key hg]
  next =>
    split at hr
    · cases hr
    · cases hr
      exact h

theorem endParse_subInv {l : Locals} (h : d.SubInv) : (d.endParse l).SubInv := by
  unfold endParse
  split_ifs
  · exact h.congr rfl rfl rfl rfl
  · exact h

/-- **The parser numbers the sub-tables in the order of the fields.** -/
theorem parse_subInv {l : Locals} {skip : Nat} {data rest : List UInt8} (h : d.SubInv)
    (hr : d.parse l skip data = .ok (d', rest)) : d'.SubInv := by
  induction data generalizing d l skip with
  | nil =>
    rw [parse] at hr
    cases hr
    exact endParse_subInv h
  | cons ch data ih =>
    cases skip with
    | succ skip =>
      rw [parse] at hr
      exact ih h hr
    | zero =>
      rw [parse] at hr
      split at hr
      · -- a field
        rw [if_neg (by simp [h.table])] at hr
        obtain ⟨⟨f, subs⟩, hf, hr⟩ := Except.bind_eq_ok.mp hr
        obtain ⟨hindex, hsubs⟩ := setField_key hf
        dsimp only at hindex hsubs hr
        refine ih ?_ hr
        refine ⟨h.table, ?_, ?_, ?_⟩
        · simp [h.count]
        · rw [List.map_append]
          exact h.numbered.append (by rw [hindex, h.counts.number])
        · rw [List.map_append, hsubs]
          exact h.counts.next _
      split at hr
      · -- a modifier
        obtain ⟨⟨skip, mod⟩, -, hr⟩ := Except.bind_eq_ok.mp hr
        obtain ⟨⟨d₁, l₁⟩, hm, hr⟩ := Except.bind_eq_ok.mp hr
        refine ih ?_ hr
        exact (applyModifier_subInv h hm).congr rfl rfl rfl rfl
      split at hr
      · -- the oneofs
        rw [if_neg (by simp [h.table])] at hr
        obtain ⟨d₁, ho, hr⟩ := Except.bind_eq_ok.mp hr
        cases hr
        exact endParse_subInv (decodeOneofs_subInv h ho)
      split at hr
      · -- a skip
        obtain ⟨⟨skip, n⟩, -, hr⟩ := Except.bind_eq_ok.mp hr
        refine ih ?_ hr
        split_ifs
        · exact h.congr rfl rfl rfl rfl
        · exact h
      · cases hr

theorem parseMessage_subInv {p : Platform} {data : List UInt8} (hr : parseMessage p data = .ok d) :
    d.SubInv := by
  obtain ⟨⟨d', rest⟩, hr, hd⟩ := Except.bind_eq_ok.mp hr
  cases hd
  exact parse_subInv ⟨rfl, rfl, fun i k hk => by simp [start] at hk, ⟨rfl, rfl⟩⟩ hr

/-! ### The layout keeps the keys -/

theorem keeps_subKey : LayoutKeeps MiniTableField.subKey := fun _ _ _ => rfl

theorem assignHasbits_keys {fields : List MiniTableField} {requiredCount size : Nat}
    (h : d.assignHasbits = .ok (fields, requiredCount, size)) :
    fields.map (·.subKey) = d.fields.map (·.subKey) :=
  assignHasbits_map keeps_subKey h

theorem layout_keys {fields : List MiniTableField} {requiredCount size : Nat}
    (h : d.layout = .ok (fields, requiredCount, size)) :
    fields.map (·.subKey) = d.allocateSubs.fields.map (·.subKey) :=
  layout_map keeps_subKey h

/-! ### The numbers in the table -/

/-- `hpb_MtDecoder_AllocateSubs` for one field, after `messages` sub-messages. -/
def shiftEnum (messages : Nat) (k : SubKey) : SubKey :=
  if k.isClosedEnum then { k with index := (k.index + messages) % 2 ^ 16 } else k

theorem shiftEnum_isMessage (messages : Nat) (k : SubKey) :
    (shiftEnum messages k).isMessage = k.isMessage := by
  unfold shiftEnum
  split <;> rfl

theorem shiftEnum_isClosedEnum (messages : Nat) (k : SubKey) :
    (shiftEnum messages k).isClosedEnum = k.isClosedEnum := by
  unfold shiftEnum
  split <;> rfl

theorem countP_isMessage_shift (messages : Nat) (ks : List SubKey) :
    (ks.map (shiftEnum messages)).countP SubKey.isMessage = ks.countP SubKey.isMessage := by
  rw [List.countP_map]
  exact congrArg (List.countP · ks) (funext (shiftEnum_isMessage messages))

theorem countP_isClosedEnum_shift (messages : Nat) (ks : List SubKey) :
    (ks.map (shiftEnum messages)).countP SubKey.isClosedEnum = ks.countP SubKey.isClosedEnum := by
  rw [List.countP_map]
  exact congrArg (List.countP · ks) (funext (shiftEnum_isClosedEnum messages))

theorem allocateSubs_keys (h : d.SubInv) (hn : d.fields.length < 2 ^ 16) :
    d.allocateSubs.fields.map (·.subKey) =
      (d.fields.map (·.subKey)).map (shiftEnum d.subCounts.submsgCount) := by
  unfold allocateSubs
  split
  next h0 =>
    -- without enums there is nothing to shift
    have hnone : (d.fields.map (·.subKey)).countP SubKey.isClosedEnum = 0 := by
      have hle := List.countP_le_length (p := SubKey.isClosedEnum) (l := d.fields.map (·.subKey))
      rw [List.length_map] at hle
      have henums := h.counts.enums
      rw [h0, Nat.mod_eq_of_lt (by omega)] at henums
      exact henums.symm
    rw [List.countP_eq_zero] at hnone
    conv_lhs => rw [← List.map_id (d.fields.map (·.subKey))]
    refine List.map_congr_left fun k hk => ?_
    rw [shiftEnum, if_neg (hnone k hk), id]
  next =>
    have hcount : d.fieldCount = d.fields.length := by rw [h.count, Nat.mod_eq_of_lt hn]
    dsimp only
    rw [hcount, List.take_length, List.drop_length, List.append_nil, List.map_map, List.map_map]
    refine List.map_congr_left fun f _ => ?_
    dsimp only [Function.comp_apply]
    by_cases hf : f.descriptortype = .enum
    · rw [if_pos hf, shiftEnum, if_pos (by simp [SubKey.isClosedEnum, MiniTableField.subKey, hf])]
      rfl
    · rw [if_neg hf, shiftEnum, if_neg (by simp [SubKey.isClosedEnum, MiniTableField.subKey, hf])]

theorem allocateSubs_length (d : MtDecoder) : d.allocateSubs.fields.length = d.fields.length := by
  unfold allocateSubs
  split
  · rfl
  · simp only [List.length_append, List.length_map, List.length_take, List.length_drop]
    omega

end

end MtDecoder

/-- The place of a field's sub-table in `subs`: first the message fields, then the closed enums. -/
def SubKey.slot (ks : List SubKey) (i : Nat) (k : SubKey) : Nat :=
  if k.isMessage then (ks.take i).countP isMessage
  else if k.isClosedEnum then ks.countP isMessage + (ks.take i).countP isClosedEnum
  else noSub

namespace MiniTable

/-- What the sub-tables depend on. -/
def subKeys (t : MiniTable) : List SubKey := t.fields.map (·.subKey)

/-- The sub-tables of a table before it is linked, in the order of the fields. -/
structure SubsInOrder (t : MiniTable) : Prop where
  count : t.fieldCount = t.fields.length
  bound : t.fields.length < 2 ^ 16
  subs : t.subs = List.replicate (t.subKeys.countP SubKey.isMessage) .emptyMessage ++
    List.replicate (t.subKeys.countP SubKey.isClosedEnum) .nullEnum
  index : ∀ (i : Nat) (k : SubKey), t.subKeys[i]? = some k → k.index = k.slot t.subKeys i

end MiniTable

namespace MtDecoder

/-- The numbers after `hpb_MtDecoder_AllocateSubs`. -/
theorem Numbered.slot {ks : List SubKey} (h : Numbered ks) (hn : ks.length < 2 ^ 16) {i : Nat} {k : SubKey}
    (hk : (ks.map (shiftEnum (ks.countP SubKey.isMessage)))[i]? = some k) :
    k.index = k.slot (ks.map (shiftEnum (ks.countP SubKey.isMessage))) i := by
  have hlt : ∀ n (q : SubKey → Bool), (ks.take n).countP q ≤ ks.countP q ∧ ks.countP q ≤ ks.length :=
    fun n q => ⟨(List.take_sublist n ks).countP_le, List.countP_le_length⟩
  have hsum := countP_kinds_le ks
  rw [List.getElem?_map] at hk
  obtain ⟨k₀, hk₀, rfl⟩ := Option.map_eq_some_iff.mp hk
  have hindex := h i k₀ hk₀
  rw [SubKey.slot, shiftEnum_isMessage, shiftEnum_isClosedEnum, ← List.map_take,
    countP_isMessage_shift, countP_isMessage_shift, countP_isClosedEnum_shift]
  have hmi := hlt i SubKey.isMessage
  have hei := hlt i SubKey.isClosedEnum
  rw [SubKey.number] at hindex
  split_ifs at hindex ⊢ with h₁ h₂
  · have hc := SubKey.not_closed_of_message h₁
    rw [shiftEnum, if_neg (by simp [hc]), hindex]
    omega
  · rw [shiftEnum, if_pos h₂]
    dsimp only
    rw [hindex]
    omega
  · rw [shiftEnum, if_neg h₂, hindex]

theorem SubInv.subsInOrder {d : MtDecoder} {t : MiniTable} (h : d.SubInv)
    (hk : t.subKeys = d.allocateSubs.fields.map (·.subKey)) (hs : t.subs = d.subs)
    (hc : t.fieldCount = d.fieldCount) (hn : t.fields.length < 2 ^ 16) : t.SubsInOrder := by
  have hlen : t.fields.length = d.fields.length := by
    have := congrArg List.length hk
    simpa [MiniTable.subKeys, allocateSubs_length] using this
  have hd : d.fields.length < 2 ^ 16 := hlen ▸ hn
  have hcount : ∀ q : SubKey → Bool, (d.fields.map (·.subKey)).countP q < 2 ^ 16 := by
    intro q
    have := List.countP_le_length (p := q) (l := d.fields.map (·.subKey))
    rw [List.length_map] at this
    omega
  have hmsgs : d.subCounts.submsgCount = (d.fields.map (·.subKey)).countP SubKey.isMessage := by
    rw [h.counts.messages, Nat.mod_eq_of_lt (hcount _)]
  have henums : d.subCounts.subenumCount = (d.fields.map (·.subKey)).countP SubKey.isClosedEnum := by
    rw [h.counts.enums, Nat.mod_eq_of_lt (hcount _)]
  rw [allocateSubs_keys h hd, hmsgs] at hk
  refine ⟨?_, hn, ?_, fun i k hi => ?_⟩
  · rw [hc, hlen, h.count, Nat.mod_eq_of_lt hd]
  · rw [hs, subs, hmsgs, henums, hk, countP_isMessage_shift, countP_isClosedEnum_shift]
  · rw [hk] at hi ⊢
    exact Numbered.slot h.numbered (by simpa using hd) hi

/-- **The sub-tables of a table that `build` accepts are in the order of its fields.** -/
theorem build_subsInOrder {p : Platform} {desc : List UInt8} {t : MiniTable} (hb : build p desc = .ok t)
    (hn : t.fields.length < 2 ^ 16) : t.SubsInOrder := by
  have hempty : ∀ ext, (emptyTable ext).SubsInOrder := fun ext =>
    ⟨rfl, Nat.two_pow_pos 16, rfl, fun i k hk => by simp [emptyTable, MiniTable.subKeys] at hk⟩
  unfold build at hb
  split at hb
  · cases hb
    exact hempty _
  · obtain ⟨d, hd, hb⟩ := Except.bind_eq_ok.mp hb
    have h := parseMessage_subInv hd
    obtain ⟨⟨fields, required, bytes⟩, hh, hb⟩ := Except.bind_eq_ok.mp hb
    dsimp only at hb
    split at hb
    · cases hb
    split at hb
    next key val rest =>
      split at hb
      · cases hb
      obtain ⟨_, -, hb⟩ := Except.bind_eq_ok.mp hb
      obtain ⟨_, -, hb⟩ := Except.bind_eq_ok.mp hb
      cases hb
      refine h.subsInOrder ?_ ?_ ?_ hn
      · rw [← assignHasbits_keys hh]
        rfl
      · unfold subs allocateSubs
        split <;> rfl
      · unfold allocateSubs
        split <;> rfl
    next => cases hb
  · obtain ⟨d, hd, hb⟩ := Except.bind_eq_ok.mp hb
    obtain ⟨⟨fields, required, bytes⟩, hl, hb⟩ := Except.bind_eq_ok.mp hb
    cases hb
    exact (parseMessage_subInv hd).subsInOrder (layout_keys hl) rfl rfl hn
  · split at hb
    · cases hb
    · cases hb
      exact hempty _
  · cases hb

end MtDecoder

end Hpb
