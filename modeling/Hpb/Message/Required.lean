import Mathlib.Logic.Relation
import Hpb.Message.Message

/-!
# Required fields (`hpb/util/required_fields.c`)

The messages that are nested in a message, as `hpb_Message_Next` shows them, and those of them that have
an unset required field.

* `Message.Child`, `Message.Tree`: the messages in the tree of a message.
* `Message.Complete`: the first has-bits of the message, those of its required fields, are set.
* `hasUnsetRequired_iff`: what `hpb_util_HasUnsetRequired` returns.
-/

namespace Hpb

/-- How a message is held by the one above it. -/
inductive Held where
  | message | group | value
  deriving DecidableEq, Repr

/-- How a field that is not a map holds its messages. -/
def MiniTableField.held (f : MiniTableField) : Held :=
  if f.descriptortype = .group then .group else .message

/-- A field holds a message of a table. A null pointer stands for a message with nothing set. -/
inductive Slot.Holds (S : Schema) (sub : MiniTableSub) (f : MiniTableField) :
    Slot → Held → TableRef → Message → Prop where
  | null (hsub : f.isSubMessage) : Holds S sub f .zero f.held sub.tableRef Message.new
  | msg (hsub : f.isSubMessage) (isEmpty : Bool) (m : Message) :
      Holds S sub f (.msg isEmpty m) f.held sub.tableRef m
  | elem (hsub : f.isSubMessage) {isEmpty : Bool} {m : Message} {xs : List Slot}
      (hmem : Slot.msg isEmpty m ∈ xs) : Holds S sub f (.arr xs) f.held sub.tableRef m
  | value (hf : f.isSubMessage) {key val : MiniTableField} {rest : List MiniTableField}
      (hentry : (S.table sub.tableRef).fields = key :: val :: rest) (hsub : val.isSubMessage)
      {k : MapKey} {isEmpty : Bool} {m : Message} {es : List (MapKey × Slot)}
      (hmem : (k, Slot.msg isEmpty m) ∈ es) :
      Holds S sub f (.map es) .value ((S.table sub.tableRef).sub val).tableRef m

namespace Message

/-- `hpb_Message_HasField` for a field that is not an extension. -/
def hasField (m : Message) (f : MiniTableField) : Bool :=
  if f.presence < 0 then m.oneofCase (-f.presence - 1).toNat == f.number
  else m.hasbits f.presence.toNat

/-- The field is not skipped by `hpb_Message_Next`. -/
def shows (m : Message) (f : MiniTableField) : Bool :=
  if f.presence ≠ 0 then m.hasField f
  else match m.data f.offset with
    | .zero | .arr [] | .map [] => false
    | _ => true

/-- A message that a field or an extension of the message holds. -/
inductive Child (S : Schema) (t : TableRef) (m : Message) : Held → TableRef → Message → Prop where
  | field {f : MiniTableField} {k : Held} {t' : TableRef} {m' : Message}
      (hf : f ∈ (S.table t).fields) (hshow : m.shows f)
      (h : Slot.Holds S ((S.table t).sub f) f (m.data f.offset) k t' m') : Child S t m k t' m'
  | ext {id : Nat} {s : Slot} {k : Held} {t' : TableRef} {m' : Message} (hmem : (id, s) ∈ m.exts)
      (h : Slot.Holds S (S.exts id).sub (S.exts id).field s k t' m') : Child S t m k t' m'

/-- The messages in the tree of a message, each with its table. -/
def Tree (S : Schema) : TableRef × Message → TableRef × Message → Prop :=
  Relation.ReflTransGen fun a b => ∃ k, Child S a.1 a.2 k b.1 b.2

/-- The required fields of a message are set. -/
def Complete (S : Schema) (t : TableRef) (m : Message) : Prop :=
  ∀ i < (S.table t).requiredCount, m.hasbits (i + 1) = true

end Message

/-- The definitions from which the tables were built. The has-bits of a table's required fields are its
first ones. -/
structure RequiredLabels (S : Schema) where
  /-- `hpb_FieldDef_Label(f) == kHpb_Label_Required`. -/
  required : TableRef → MiniTableField → Bool
  presence_le : ∀ t, ∀ f ∈ (S.table t).fields, required t f →
    0 < f.presence ∧ f.presence ≤ (S.table t).requiredCount
  covers : ∀ t, ∀ i < (S.table t).requiredCount,
    ∃ f ∈ (S.table t).fields, required t f ∧ f.presence = (i + 1 : Nat)

section

variable {S : Schema} (labels : RequiredLabels S)

/-- `hpb_util_FindUnsetInMessage`. -/
def findUnsetInMessage (t : TableRef) (m : Message) : Bool :=
  (S.table t).fields.any fun f => labels.required t f && !m.hasField f

mutual

/-- The part of `hpb_util_FindUnsetRequiredInternal` for one field that `hpb_Message_Next` shows. -/
def findUnsetInField (sub : MiniTableSub) (f : MiniTableField) : Slot → Bool
  | .zero => f.isSubMessage && findUnsetInMessage labels sub.tableRef Message.new
  | .msg _ m => f.isSubMessage && findUnsetRequired sub.tableRef m
  | .arr xs => f.isSubMessage && findUnsetInElems sub.tableRef xs
  | .map es =>
    match (S.table sub.tableRef).fields with
    | _ :: val :: _ =>
      f.isSubMessage && val.isSubMessage &&
        findUnsetInEntries ((S.table sub.tableRef).sub val).tableRef es
    | _ => false
  | _ => false

/-- `hpb_util_FindUnsetRequiredInternal`. -/
def findUnsetRequired (t : TableRef) : Message → Bool
  | ⟨hasbits, oneofCase, data, unknown, exts⟩ =>
    let m : Message := ⟨hasbits, oneofCase, data, unknown, exts⟩
    findUnsetInMessage labels t m ||
      ((S.table t).fields.any fun f =>
        m.shows f && findUnsetInField ((S.table t).sub f) f (data f.offset)) ||
      findUnsetInExts exts

/-- The elements of an array. -/
def findUnsetInElems (t : TableRef) : List Slot → Bool
  | [] => false
  | .msg _ m :: xs => findUnsetRequired t m || findUnsetInElems t xs
  | _ :: xs => findUnsetInElems t xs

/-- The values of a map. -/
def findUnsetInEntries (t : TableRef) : List (MapKey × Slot) → Bool
  | [] => false
  | (_, .msg _ m) :: es => findUnsetRequired t m || findUnsetInEntries t es
  | _ :: es => findUnsetInEntries t es

/-- The extensions of a message. -/
def findUnsetInExts : List (Nat × Slot) → Bool
  | [] => false
  | (id, s) :: exts => findUnsetInField (S.exts id).sub (S.exts id).field s || findUnsetInExts exts

end

/-- `hpb_util_HasUnsetRequired`. -/
def hasUnsetRequired (t : TableRef) (m : Message) : Bool := findUnsetRequired labels t m

/-! ### What is found -/

variable {labels}

theorem findUnsetInMessage_iff {t : TableRef} {m : Message} :
    findUnsetInMessage labels t m = true ↔ ¬m.Complete S t := by
  have hfield : ∀ f : MiniTableField, ∀ i : Nat, f.presence = (i + 1 : Nat) →
      m.hasField f = m.hasbits (i + 1) := by
    intro f i hp
    rw [Message.hasField, hp, if_neg (by omega)]
    rfl
  constructor
  · intro h hcomplete
    obtain ⟨f, hf, hunset⟩ := List.any_eq_true.mp h
    obtain ⟨hreq, hhas⟩ := Bool.and_eq_true_iff.mp hunset
    obtain ⟨hpos, hle⟩ := labels.presence_le t f hf hreq
    obtain ⟨i, hi⟩ : ∃ i : Nat, f.presence = (i + 1 : Nat) := ⟨(f.presence - 1).toNat, by omega⟩
    rw [hfield f i hi, hcomplete i (by omega)] at hhas
    exact nomatch hhas
  · intro h
    obtain ⟨i, hi, hunset⟩ : ∃ i < (S.table t).requiredCount, ¬m.hasbits (i + 1) = true := by
      simpa [Message.Complete] using h
    obtain ⟨f, hf, hreq, hp⟩ := labels.covers t i hi
    refine List.any_eq_true.mpr ⟨f, hf, ?_⟩
    simp [hreq, hfield f i hp, hunset]

/-- Some message in the tree has an unset required field. -/
def Message.Unset (S : Schema) (t : TableRef) (m : Message) : Prop :=
  ∃ t' m', Message.Tree S (t, m) (t', m') ∧ ¬m'.Complete S t'

theorem Message.Unset.of_child {t t' : TableRef} {m m' : Message} {k : Held}
    (hchild : m.Child S t k t' m') (h : m'.Unset S t') : m.Unset S t := by
  obtain ⟨t₁, m₁, htree, hunset⟩ := h
  exact ⟨t₁, m₁, .head ⟨k, hchild⟩ htree, hunset⟩

theorem findUnsetRequired_eq (t : TableRef) (m : Message) :
    findUnsetRequired labels t m = (findUnsetInMessage labels t m ||
      ((S.table t).fields.any fun f =>
        m.shows f && findUnsetInField labels ((S.table t).sub f) f (m.data f.offset)) ||
      findUnsetInExts labels m.exts) := by
  cases m
  rw [findUnsetRequired]

/-- A message that was found in a field. -/
def Slot.HoldsUnset (S : Schema) (sub : MiniTableSub) (f : MiniTableField) (s : Slot) : Prop :=
  ∃ k t' m', Slot.Holds S sub f s k t' m' ∧ m'.Unset S t'

mutual

theorem Slot.holdsUnset_of_find (sub : MiniTableSub) (f : MiniTableField) :
    ∀ s : Slot, findUnsetInField labels sub f s = true → s.HoldsUnset S sub f
  | .zero, h => by
    rw [findUnsetInField] at h
    obtain ⟨hsub, h⟩ := Bool.and_eq_true_iff.mp h
    exact ⟨_, _, _, .null hsub, _, _, .refl, findUnsetInMessage_iff.mp h⟩
  | .scalar _, h => nomatch h
  | .str _, h => nomatch h
  | .msg e m, h => by
    rw [findUnsetInField] at h
    obtain ⟨hsub, h⟩ := Bool.and_eq_true_iff.mp h
    exact ⟨_, _, _, .msg hsub e m, unset_of_find _ m h⟩
  | .arr xs, h => by
    rw [findUnsetInField] at h
    obtain ⟨hsub, h⟩ := Bool.and_eq_true_iff.mp h
    obtain ⟨e, m, hmem, hm⟩ := unset_of_findInElems _ xs h
    exact ⟨_, _, _, .elem hsub hmem, hm⟩
  | .map es, h => by
    rw [findUnsetInField] at h
    split at h
    next key val rest hentry =>
      obtain ⟨hsub, h⟩ := Bool.and_eq_true_iff.mp h
      obtain ⟨hf, hval⟩ := Bool.and_eq_true_iff.mp hsub
      obtain ⟨k, e, m, hmem, hm⟩ := unset_of_findInEntries _ es h
      exact ⟨_, _, _, .value hf hentry hval hmem, hm⟩
    next => exact nomatch h

theorem unset_of_find (t : TableRef) : ∀ m : Message, findUnsetRequired labels t m = true → m.Unset S t
  | ⟨hasbits, oneofCase, data, unknown, exts⟩, h => by
    rw [findUnsetRequired] at h
    obtain h | h := Bool.or_eq_true_iff.mp h
    · obtain h | h := Bool.or_eq_true_iff.mp h
      · exact ⟨t, _, .refl, findUnsetInMessage_iff.mp h⟩
      · obtain ⟨f, hf, h⟩ := List.any_eq_true.mp h
        obtain ⟨hshow, h⟩ := Bool.and_eq_true_iff.mp h
        obtain ⟨k, t', m', hholds, hm⟩ := Slot.holdsUnset_of_find _ f (data f.offset) h
        exact .of_child (.field hf hshow hholds) hm
    · obtain ⟨id, s, hmem, k, t', m', hholds, hm⟩ := unset_of_findInExts exts h
      exact .of_child (.ext hmem hholds) hm

theorem unset_of_findInElems (t : TableRef) : ∀ xs : List Slot, findUnsetInElems labels t xs = true →
    ∃ e m, Slot.msg e m ∈ xs ∧ Message.Unset S t m
  | [], h => nomatch h
  | x :: xs, h => by
    cases x with
    | msg e m =>
      rw [findUnsetInElems] at h
      obtain h | h := Bool.or_eq_true_iff.mp h
      · exact ⟨e, m, List.mem_cons_self, unset_of_find t m h⟩
      · obtain ⟨e', m', hmem, hm⟩ := unset_of_findInElems t xs h
        exact ⟨e', m', List.mem_cons_of_mem _ hmem, hm⟩
    | _ =>
      obtain ⟨e', m', hmem, hm⟩ := unset_of_findInElems t xs h
      exact ⟨e', m', List.mem_cons_of_mem _ hmem, hm⟩

theorem unset_of_findInEntries (t : TableRef) :
    ∀ es : List (MapKey × Slot), findUnsetInEntries labels t es = true →
      ∃ k e m, (k, Slot.msg e m) ∈ es ∧ Message.Unset S t m
  | [], h => nomatch h
  | (k, x) :: es, h => by
    cases x with
    | msg e m =>
      rw [findUnsetInEntries] at h
      obtain h | h := Bool.or_eq_true_iff.mp h
      · exact ⟨k, e, m, List.mem_cons_self, unset_of_find t m h⟩
      · obtain ⟨k', e', m', hmem, hm⟩ := unset_of_findInEntries t es h
        exact ⟨k', e', m', List.mem_cons_of_mem _ hmem, hm⟩
    | _ =>
      obtain ⟨k', e', m', hmem, hm⟩ := unset_of_findInEntries t es h
      exact ⟨k', e', m', List.mem_cons_of_mem _ hmem, hm⟩

theorem unset_of_findInExts : ∀ exts : List (Nat × Slot), findUnsetInExts labels exts = true →
    ∃ id s, (id, s) ∈ exts ∧ s.HoldsUnset S (S.exts id).sub (S.exts id).field
  | [], h => nomatch h
  | (id, s) :: exts, h => by
    rw [findUnsetInExts] at h
    obtain h | h := Bool.or_eq_true_iff.mp h
    · exact ⟨id, s, List.mem_cons_self, Slot.holdsUnset_of_find _ _ s h⟩
    · obtain ⟨id', s', hmem, hs⟩ := unset_of_findInExts exts h
      exact ⟨id', s', List.mem_cons_of_mem _ hmem, hs⟩

end

theorem findUnsetInElems_of_mem {t : TableRef} {xs : List Slot} {e : Bool} {m : Message}
    (hmem : Slot.msg e m ∈ xs) (h : findUnsetRequired labels t m = true) :
    findUnsetInElems labels t xs = true := by
  induction xs with
  | nil => exact nomatch hmem
  | cons x xs ih =>
    obtain rfl | htail := List.mem_cons.mp hmem
    · rw [findUnsetInElems, h, Bool.true_or]
    · cases x <;> simp [findUnsetInElems, ih htail]

theorem findUnsetInEntries_of_mem {t : TableRef} {es : List (MapKey × Slot)} {k : MapKey} {e : Bool}
    {m : Message} (hmem : (k, Slot.msg e m) ∈ es) (h : findUnsetRequired labels t m = true) :
    findUnsetInEntries labels t es = true := by
  induction es with
  | nil => exact nomatch hmem
  | cons x es ih =>
    obtain rfl | htail := List.mem_cons.mp hmem
    · rw [findUnsetInEntries, h, Bool.true_or]
    · obtain ⟨k', x⟩ := x
      cases x <;> simp [findUnsetInEntries, ih htail]

theorem findUnsetInExts_of_mem {exts : List (Nat × Slot)} {id : Nat} {s : Slot} (hmem : (id, s) ∈ exts)
    (h : findUnsetInField labels (S.exts id).sub (S.exts id).field s = true) :
    findUnsetInExts labels exts = true := by
  induction exts with
  | nil => exact nomatch hmem
  | cons x exts ih =>
    obtain rfl | htail := List.mem_cons.mp hmem
    · rw [findUnsetInExts, h, Bool.true_or]
    · obtain ⟨id', s'⟩ := x
      rw [findUnsetInExts, ih htail, Bool.or_true]

/-- A message with nothing set shows no field. -/
theorem Message.shows_new {f : MiniTableField} (hnumber : 0 < f.number) :
    Message.new.shows f = false := by
  rw [Message.shows]
  split
  · rw [Message.hasField]
    split
    · exact beq_false_of_ne (Nat.ne_of_lt hnumber)
    · rfl
  · rfl

section

variable (hnumber : ∀ t, ∀ f ∈ (S.table t).fields, 0 < f.number)
include hnumber

theorem Slot.find_of_holds {sub : MiniTableSub} {f : MiniTableField} {s : Slot} {k : Held}
    {t' : TableRef} {m' : Message} (hholds : Slot.Holds S sub f s k t' m')
    (h : findUnsetRequired labels t' m' = true) : findUnsetInField labels sub f s = true := by
  cases hholds with
  | null hsub =>
    have hnew : findUnsetInMessage labels sub.tableRef Message.new = true := by
      rw [findUnsetRequired_eq] at h
      obtain h | h := Bool.or_eq_true_iff.mp h
      · obtain h | h := Bool.or_eq_true_iff.mp h
        · exact h
        · obtain ⟨g, hg, h⟩ := List.any_eq_true.mp h
          rw [Message.shows_new (hnumber _ g hg)] at h
          exact nomatch h
      · exact nomatch h
    rw [findUnsetInField, hsub, hnew, Bool.and_self]
  | msg hsub e m => rw [findUnsetInField, hsub, h, Bool.and_self]
  | elem hsub hmem => rw [findUnsetInField, hsub, findUnsetInElems_of_mem hmem h, Bool.and_self]
  | value hf hentry hsub hmem =>
    rw [findUnsetInField]
    simp only [hentry, hf, hsub, findUnsetInEntries_of_mem hmem h, Bool.and_self]

theorem find_of_child {t t' : TableRef} {m m' : Message} {k : Held} (hchild : m.Child S t k t' m')
    (h : findUnsetRequired labels t' m' = true) : findUnsetRequired labels t m = true := by
  rw [findUnsetRequired_eq]
  cases hchild with
  | field hf hshow hholds =>
    have hany : ((S.table t).fields.any fun f =>
        m.shows f && findUnsetInField labels ((S.table t).sub f) f (m.data f.offset)) = true :=
      List.any_eq_true.mpr ⟨_, hf, by rw [hshow, Slot.find_of_holds hnumber hholds h, Bool.and_self]⟩
    rw [hany, Bool.or_true, Bool.true_or]
  | ext hmem hholds =>
    rw [findUnsetInExts_of_mem hmem (Slot.find_of_holds hnumber hholds h), Bool.or_true]

/-- **`hpb_util_HasUnsetRequired` finds whether some message in the tree has an unset required field.** -/
theorem hasUnsetRequired_iff {t : TableRef} {m : Message} :
    hasUnsetRequired labels t m = true ↔ m.Unset S t := by
  constructor
  · exact unset_of_find t m
  · rintro ⟨t', m', htree, hunset⟩
    suffices ∀ a, Message.Tree S a (t', m') → findUnsetRequired labels a.1 a.2 = true from
      this (t, m) htree
    intro a ha
    induction ha using Relation.ReflTransGen.head_induction_on with
    | refl =>
      rw [findUnsetRequired_eq, findUnsetInMessage_iff.mpr hunset, Bool.true_or, Bool.true_or]
    | head hstep _ ih =>
      obtain ⟨k, hchild⟩ := hstep
      exact find_of_child hnumber hchild ih

end

end

end Hpb
