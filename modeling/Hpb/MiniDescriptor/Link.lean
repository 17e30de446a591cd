import Hpb.Lib.DisjointWrites
import Hpb.MiniDescriptor.SubIndexes

/-!
# Linking (`hpb/mini_descriptor/link.c`)

A table that was built has no sub-tables yet. `getSubList` lists the fields that want one and `link`
takes the sub-tables in that order, the tables of the messages first and then the enums.

* `linkFields_spec`: what the loop over the fields leaves in `subs`.
* `link_iff`: the fields get their sub-tables exactly if no field is an open enum, for which there is an
  entry in the list but no place in the table, and each table fits its field.
-/

namespace Hpb

namespace MiniTable

/-- The table is that of a map entry. -/
def isMapEntry (t : MiniTable) : Bool := t.ext &&& ExtMode.isMapEntry != 0

/-- `kHpb_FieldMode_Map` in the place of the mode. -/
def setModeMap (f : MiniTableField) : MiniTableField := { f with mode := f.mode &&& ~~~3 ||| FieldMode.map }

/-- `hpb_MiniTable_SetSubMessage`, for the field at an index. -/
def setSubMessage (tables : Nat → MiniTable) (t : MiniTable) (i sub : Nat) : Option MiniTable :=
  match t.fields[i]? with
  | none => none
  | some f =>
    let subs := t.subs.set f.submsgIndex (.submsg sub)
    match f.descriptortype with
    | .message =>
      if (tables sub).isMapEntry then
        if t.isMapEntry then none else some { t with fields := t.fields.set i (setModeMap f), subs }
      else some { t with subs }
    | .group => if (tables sub).isMapEntry then none else some { t with subs }
    | _ => none

/-- `hpb_MiniTable_SetSubEnum`. -/
def setSubEnum (t : MiniTable) (i sub : Nat) : Option MiniTable :=
  match t.fields[i]? with
  | none => none
  | some f => some { t with subs := t.subs.set f.submsgIndex (.subenum sub) }

/-- The indexes of the fields of a kind. -/
def fieldsOf (want : MiniTableField → Bool) (t : MiniTable) : List Nat :=
  (List.range t.fieldCount).filter fun i => (t.fields[i]?).any want

/-- The first part of the list of `hpb_MiniTable_GetSubList`. -/
def messageFields : MiniTable → List Nat := fieldsOf fun f => f.cType = .message

/-- The second part. -/
def enumFields : MiniTable → List Nat := fieldsOf fun f => f.cType = .enum

/-- `hpb_MiniTable_GetSubList`: the fields and the two counts. -/
def getSubList (t : MiniTable) : List Nat × Nat :=
  (t.messageFields ++ t.enumFields, t.messageFields.length <<< 16 ||| t.enumFields.length)

/-- A loop of `hpb_MiniTable_Link`: the fields of a kind take the next of `subs`, which may be null. -/
def linkFields (want : MiniTableField → Bool) (set : MiniTable → Nat → Nat → Option MiniTable) :
    List Nat → MiniTable → List (Option Nat) → Bool × MiniTable
  | [], t, _ => (true, t)
  | i :: is, t, subs =>
    if (t.fields[i]?).any want then
      match subs with
      | [] => (false, t)
      | none :: subs => linkFields want set is t subs
      | some sub :: subs =>
        match set t i sub with
        | none => (false, t)
        | some t => linkFields want set is t subs
    else linkFields want set is t subs

/-- `hpb_MiniTable_Link`. -/
def link (tables : Nat → MiniTable) (t : MiniTable) (subTables subEnums : List (Option Nat)) :
    Bool × MiniTable :=
  let (ok, t) := linkFields (fun f => f.cType = .message) (setSubMessage tables)
    (List.range t.fieldCount) t subTables
  if ok then linkFields (·.isClosedEnum) setSubEnum (List.range t.fieldCount) t subEnums else (false, t)

/-- Linking succeeds, and each field that `getSubList` lists has the entry that was given for it. -/
structure Links (tables : Nat → MiniTable) (t : MiniTable) (subTables subEnums : List (Option Nat)) :
    Prop where
  ok : (t.link tables subTables subEnums).1 = true
  message : ∀ (k i : Nat) (f : MiniTableField), t.messageFields[k]? = some i →
    (t.link tables subTables subEnums).2.fields[i]? = some f →
    (t.link tables subTables subEnums).2.getSubMessageTable f = subTables[k]?
  enum : ∀ (k i : Nat) (f : MiniTableField), t.enumFields[k]? = some i →
    (t.link tables subTables subEnums).2.fields[i]? = some f →
    (t.link tables subTables subEnums).2.getSubEnumTable f = subEnums[k]?

/-- Two tables that differ only in their sub-tables and in which fields are maps. -/
structure SameKeys (t t' : MiniTable) : Prop where
  keys : t'.subKeys = t.subKeys
  ext : t'.ext = t.ext
  count : t'.fieldCount = t.fieldCount

namespace SameKeys

variable {t t' t'' : MiniTable}

theorem refl (t : MiniTable) : SameKeys t t := ⟨rfl, rfl, rfl⟩

theorem trans (h : SameKeys t t') (h' : SameKeys t' t'') : SameKeys t t'' :=
  ⟨h'.keys.trans h.keys, h'.ext.trans h.ext, h'.count.trans h.count⟩

theorem subKey_eq (h : SameKeys t t') {i : Nat} {f' : MiniTableField} (hf : t'.fields[i]? = some f') :
    t.subKeys[i]? = some f'.subKey := by
  rw [← h.keys, subKeys, List.getElem?_map, hf, Option.map_some]

theorem fields (h : SameKeys t t') {i : Nat} {k : SubKey} (hk : t.subKeys[i]? = some k) :
    ∃ f f' : MiniTableField, t.fields[i]? = some f ∧ t'.fields[i]? = some f' ∧ f.subKey = k ∧
      f'.subKey = k := by
  obtain ⟨f, hf, hfk⟩ : ∃ f : MiniTableField, t.fields[i]? = some f ∧ f.subKey = k := by
    simpa [subKeys] using hk
  rw [← h.keys] at hk
  obtain ⟨f', hf', hfk'⟩ : ∃ f : MiniTableField, t'.fields[i]? = some f ∧ f.subKey = k := by
    simpa [subKeys] using hk
  exact ⟨f, f', hf, hf', hfk, hfk'⟩

/-- A predicate on the keys. -/
theorem any_eq (h : SameKeys t t') {want : MiniTableField → Bool} {wantKey : SubKey → Bool}
    (hw : ∀ f, want f = wantKey f.subKey) (i : Nat) :
    (t'.fields[i]?).any want = (t.subKeys[i]?).any wantKey := by
  rw [← h.keys, subKeys, List.getElem?_map, Option.any_map]
  cases t'.fields[i]? with
  | none => rfl
  | some f => exact hw f

end SameKeys

/-- The fields of a kind that the list has. -/
def wanted (wantKey : SubKey → Bool) (ks : List SubKey) (is : List Nat) : List Nat :=
  is.filter fun i => (ks[i]?).any wantKey

/-- One write of the loop. -/
def writeSub (ks : List SubKey) (mk : Nat → MiniTableSub) (subs : List MiniTableSub) :
    Nat × Option Nat → List MiniTableSub
  | (_, none) => subs
  | (i, some sub) => subs.set ((ks[i]?).elim noSub (·.index)) (mk sub)

/-- How one field is linked: it fails unless the sub-table fits, and writes at the field's place. -/
structure SetsSub (t : MiniTable) (wantKey : SubKey → Bool)
    (set : MiniTable → Nat → Nat → Option MiniTable) (fits : Nat → Nat → Prop)
    (mk : Nat → MiniTableSub) : Prop where
  ok : ∀ t', SameKeys t t' → ∀ i k, t.subKeys[i]? = some k → wantKey k = true → ∀ sub, fits i sub →
    ∃ t'', set t' i sub = some t'' ∧ SameKeys t' t'' ∧ t''.subs = t'.subs.set k.index (mk sub)
  fail : ∀ t', SameKeys t t' → ∀ i k, t.subKeys[i]? = some k → wantKey k = true → ∀ sub, ¬fits i sub →
    set t' i sub = none

/-- **What a loop leaves in the sub-tables.** -/
theorem linkFields_spec {t : MiniTable} {want : MiniTableField → Bool} {wantKey : SubKey → Bool}
    {set : MiniTable → Nat → Nat → Option MiniTable} {fits : Nat → Nat → Prop} {mk : Nat → MiniTableSub}
    (hw : ∀ f, want f = wantKey f.subKey) (hset : SetsSub t wantKey set fits mk) (is : List Nat)
    {t' : MiniTable} (ht : SameKeys t t') {subs : List (Option Nat)}
    (hlen : (wanted wantKey t.subKeys is).length ≤ subs.length) :
    ((linkFields want set is t' subs).1 = true ↔
      ∀ p ∈ (wanted wantKey t.subKeys is).zip subs, ∀ sub, p.2 = some sub → fits p.1 sub) ∧
    ((linkFields want set is t' subs).1 = true →
      SameKeys t (linkFields want set is t' subs).2 ∧
      (linkFields want set is t' subs).2.subs =
        ((wanted wantKey t.subKeys is).zip subs).foldl (writeSub t.subKeys mk) t'.subs) := by
  induction is generalizing t' subs with
  | nil => exact ⟨by simp [linkFields, wanted], fun _ => ⟨ht, by simp [linkFields, wanted]⟩⟩
  | cons i is ih =>
    have hany := ht.any_eq hw i
    unfold linkFields
    rw [hany]
    by_cases hi : (t.subKeys[i]?).any wantKey = true
    · have hcons : wanted wantKey t.subKeys (i :: is) = i :: wanted wantKey t.subKeys is := by
        unfold wanted
        rw [List.filter_cons, if_pos hi]
      rw [if_pos hi, hcons]
      rw [hcons, List.length_cons] at hlen
      obtain ⟨k, hk, hwk⟩ : ∃ k, t.subKeys[i]? = some k ∧ wantKey k = true := by
        simpa [Option.any_eq_true] using hi
      match subs with
      | [] => exact absurd hlen (by simp)
      | none :: subs =>
        obtain ⟨ih₁, ih₂⟩ := ih ht (Nat.le_of_succ_le_succ hlen)
        refine ⟨ih₁.trans ?_, ih₂⟩
        simp
      | some sub :: subs =>
        by_cases hfit : fits i sub
        · obtain ⟨t'', hs, hsame, hsubs⟩ := hset.ok t' ht i k hk hwk sub hfit
          obtain ⟨ih₁, ih₂⟩ := ih (ht.trans hsame) (Nat.le_of_succ_le_succ hlen)
          simp only [hs]
          refine ⟨ih₁.trans ?_, fun h => ⟨(ih₂ h).1, ?_⟩⟩
          · simp [hfit]
          · rw [(ih₂ h).2, hsubs, List.zip_cons_cons, List.foldl_cons, writeSub, hk, Option.elim_some]
        · simp only [hset.fail t' ht i k hk hwk sub hfit]
          simp [hfit]
    · have hcons : wanted wantKey t.subKeys (i :: is) = wanted wantKey t.subKeys is := by
        unfold wanted
        rw [List.filter_cons, if_neg hi]
      rw [if_neg hi, hcons]
      rw [hcons] at hlen
      exact ih ht hlen

/-- The place that a field writes to. -/
def place (ks : List SubKey) (i : Nat) : Nat := (ks[i]?).elim noSub (·.index)

/-- **Reading the sub-tables back**, if the fields have places of their own. -/
theorem foldl_writeSub {ks : List SubKey} {mk : Nat → MiniTableSub} {is : List Nat}
    {entries : List (Option Nat)} (hlen : is.length ≤ entries.length)
    (hd : is.Pairwise fun i j => place ks i ≠ place ks j) (subs : List MiniTableSub) :
    (∀ p ∈ is.zip entries, ((is.zip entries).foldl (writeSub ks mk) subs)[place ks p.1]? =
      (subs[place ks p.1]?).map fun x => p.2.elim x mk) ∧
    ∀ j, (∀ i ∈ is, j ≠ place ks i) → ((is.zip entries).foldl (writeSub ks mk) subs)[j]? = subs[j]? := by
  have hmap : (is.zip entries).map Prod.fst = is := List.map_fst_zip hlen
  rw [← hmap, List.pairwise_map] at hd
  have hstep : ∀ (fs : List MiniTableSub) (p : Nat × Option Nat), True →
      WritesAt [place ks p.1] (fun x => p.2.elim x mk) fs (writeSub ks mk fs p) := by
    rintro fs ⟨i, entry⟩ - j
    cases entry with
    | none => simp [writeSub]
    | some sub =>
      change (fs.set (place ks i) (mk sub))[j]? = _
      rw [List.getElem?_set]
      by_cases hj : place ks i = j
      · subst hj
        cases hfs : fs[place ks i]? with
        | none => simpa using hfs
        | some x => simpa using (List.getElem?_eq_some_iff.mp hfs).1
      · simp [hj, Ne.symm hj]
  have hdisjoint : (is.zip entries).Pairwise fun a b =>
      List.Disjoint [place ks a.1] [place ks b.1] := hd.imp fun h => by simpa using Ne.symm h
  obtain ⟨hin, hout⟩ := @foldl_writesAt _ _ _ _ _ (fun _ _ => True) hstep (fun _ _ _ _ _ => trivial) _
    hdisjoint subs fun _ _ => trivial
  refine ⟨fun p hp => hin p hp _ (List.mem_singleton_self _), fun j hj => hout j fun p hp hmem => ?_⟩
  exact hj p.1 (List.of_mem_zip hp).1 (List.mem_singleton.mp hmem)

end MiniTable

/-- Later fields of a kind have more of it before them. -/
theorem countP_take_lt {α : Type} {p : α → Bool} {l : List α} {i j : Nat} {x : α} (hx : l[i]? = some x)
    (hp : p x = true) (hij : i < j) : (l.take i).countP p < (l.take j).countP p := by
  have hsucc : (l.take (i + 1)).countP p = (l.take i).countP p + 1 := by
    rw [List.take_add_one, hx, List.countP_append]
    simp [hp]
  have hle : (l.take (i + 1)).countP p ≤ (l.take j).countP p := by
    rw [show l.take (i + 1) = (l.take j).take (i + 1) by rw [List.take_take, Nat.min_eq_left hij]]
    exact (List.take_sublist _ _).countP_le
  omega

namespace MiniTable

section

variable {t : MiniTable}

theorem SubsInOrder.place_message (h : t.SubsInOrder) {i : Nat} {k : SubKey} (hk : t.subKeys[i]? = some k)
    (hm : k.isMessage = true) : place t.subKeys i = (t.subKeys.take i).countP SubKey.isMessage := by
  rw [place, hk, Option.elim_some, h.index i k hk, SubKey.slot, if_pos hm]

theorem SubsInOrder.place_closed (h : t.SubsInOrder) {i : Nat} {k : SubKey} (hk : t.subKeys[i]? = some k)
    (hc : k.isClosedEnum = true) : place t.subKeys i =
      t.subKeys.countP SubKey.isMessage + (t.subKeys.take i).countP SubKey.isClosedEnum := by
  have hm : ¬k.isMessage = true := by
    revert hc
    unfold SubKey.isMessage SubKey.isClosedEnum
    cases k.type <;> decide
  rw [place, hk, Option.elim_some, h.index i k hk, SubKey.slot, if_neg hm, if_pos hc]

/-- The places of the message fields come first. -/
theorem SubsInOrder.place_message_lt (h : t.SubsInOrder) {i : Nat} {k : SubKey}
    (hk : t.subKeys[i]? = some k) (hm : k.isMessage = true) :
    place t.subKeys i < t.subKeys.countP SubKey.isMessage := by
  have hi : i < t.subKeys.length := (List.getElem?_eq_some_iff.mp hk).1
  have hlt := countP_take_lt hk hm hi
  rwa [List.take_length, ← h.place_message hk hm] at hlt

theorem SubsInOrder.place_closed_lt (h : t.SubsInOrder) {i : Nat} {k : SubKey}
    (hk : t.subKeys[i]? = some k) (hc : k.isClosedEnum = true) : place t.subKeys i <
      t.subKeys.countP SubKey.isMessage + t.subKeys.countP SubKey.isClosedEnum := by
  have hi : i < t.subKeys.length := (List.getElem?_eq_some_iff.mp hk).1
  have hlt := countP_take_lt hk hc hi
  rw [List.take_length] at hlt
  rw [h.place_closed hk hc]
  omega

/-- The fields of a kind, in the loops. -/
theorem mem_wanted {wantKey : SubKey → Bool} {ks : List SubKey} {is : List Nat} {i : Nat}
    (h : i ∈ wanted wantKey ks is) : ∃ k, ks[i]? = some k ∧ wantKey k = true := by
  have := (List.mem_filter.mp h).2
  simpa [Option.any_eq_true] using this

theorem pairwise_wanted {wantKey : SubKey → Bool} {ks : List SubKey} (n : Nat)
    (hlt : ∀ i j k k', ks[i]? = some k → ks[j]? = some k' → wantKey k = true → wantKey k' = true → i < j →
      place ks i < place ks j) :
    (wanted wantKey ks (List.range n)).Pairwise fun i j => place ks i ≠ place ks j := by
  have hrange : (wanted wantKey ks (List.range n)).Pairwise (· < ·) :=
    (List.pairwise_lt_range (n := n)).filter _
  refine hrange.imp_of_mem fun {i j} hi hj hij => ?_
  obtain ⟨k, hk, hwk⟩ := mem_wanted hi
  obtain ⟨k', hk', hwk'⟩ := mem_wanted hj
  exact Nat.ne_of_lt (hlt i j k k' hk hk' hwk hwk' hij)

/-- A table fits a message field. -/
def FitsMessage (tables : Nat → MiniTable) (t : MiniTable) (i sub : Nat) : Prop :=
  ∀ f, t.fields[i]? = some f → (tables sub).isMapEntry = true →
    f.descriptortype = .message ∧ t.isMapEntry = false

theorem setModeMap_subKey (f : MiniTableField) : (setModeMap f).subKey = f.subKey := by
  have hmode : (f.mode &&& ~~~3 ||| FieldMode.map) &&& LabelFlags.isAlternate =
      f.mode &&& LabelFlags.isAlternate := by
    have h₀ : FieldMode.map = 0 := rfl
    have h₁ : ~~~3 &&& LabelFlags.isAlternate = LabelFlags.isAlternate := by decide
    rw [h₀, UInt8.or_zero, UInt8.and_assoc, h₁]
  simp [setModeMap, MiniTableField.subKey, MiniTableField.isAlternate, hmode]

theorem setSubMessage_setsSub (tables : Nat → MiniTable) (t : MiniTable) :
    SetsSub t SubKey.isMessage (setSubMessage tables) (FitsMessage tables t) .submsg := by
  constructor
  · intro t' hsame i k hk hm sub hfit
    obtain ⟨f, f', hf, hf', rfl, hkey⟩ := hsame.fields hk
    have htype : f'.descriptortype = f.descriptortype := congrArg SubKey.type hkey
    have hindex : f'.submsgIndex = f.submsgIndex := congrArg SubKey.index hkey
    have hmap : t'.isMapEntry = t.isMapEntry := by rw [isMapEntry, hsame.ext, isMapEntry]
    unfold setSubMessage
    rw [hf']
    dsimp only
    rw [htype, hindex]
    by_cases hsub : (tables sub).isMapEntry = true
    · obtain ⟨hmsg, hentry⟩ := hfit f hf hsub
      rw [hmsg]
      simp only [hsub, if_true, hmap, hentry]
      exact ⟨_, rfl, ⟨MtDecoder.map_set_eq hf' (setModeMap_subKey f'), rfl, rfl⟩, rfl⟩
    · have hkind : f.descriptortype = .message ∨ f.descriptortype = .group := by
        simpa [SubKey.isMessage, MiniTableField.subKey] using hm
      obtain h | h := hkind <;> rw [h] <;> simp only [if_neg hsub] <;>
        exact ⟨_, rfl, ⟨rfl, rfl, rfl⟩, rfl⟩
  · intro t' hsame i k hk hm sub hfit
    obtain ⟨f, f', hf, hf', rfl, hkey⟩ := hsame.fields hk
    have htype : f'.descriptortype = f.descriptortype := congrArg SubKey.type hkey
    have hmap : t'.isMapEntry = t.isMapEntry := by rw [isMapEntry, hsame.ext, isMapEntry]
    unfold FitsMessage at hfit
    push Not at hfit
    obtain ⟨g, hg, hsub, hbad⟩ := hfit
    obtain rfl := Option.some.inj (hf.symm.trans hg)
    unfold setSubMessage
    rw [hf']
    dsimp only
    rw [htype]
    have hkind : f.descriptortype = .message ∨ f.descriptortype = .group := by
      simpa [SubKey.isMessage, MiniTableField.subKey] using hm
    obtain h | h := hkind
    · have hentry : t.isMapEntry = true := by simpa using hbad h
      rw [h]
      simp only [hsub, if_true, hmap, hentry]
    · rw [h]
      simp only [hsub, if_true]

theorem setSubEnum_setsSub (t : MiniTable) :
    SetsSub t SubKey.isClosedEnum setSubEnum (fun _ _ => True) .subenum := by
  refine ⟨fun t' hsame i k hk _ sub _ => ?_, fun t' _ i k _ _ sub hfit => absurd trivial hfit⟩
  obtain ⟨_, f, -, hf, -, rfl⟩ := hsame.fields hk
  refine ⟨{ t' with subs := t'.subs.set f.submsgIndex (.subenum sub) }, ?_, ⟨rfl, rfl, rfl⟩, rfl⟩
  simp only [setSubEnum, hf]

theorem messageFields_eq (t : MiniTable) :
    t.messageFields = wanted SubKey.isMessage t.subKeys (List.range t.fieldCount) := by
  unfold messageFields fieldsOf wanted
  refine List.filter_congr fun i _ => (SameKeys.refl t).any_eq (fun f => ?_) i
  rw [Bool.eq_iff_iff, decide_eq_true_eq, f.cType_message_iff]
  rfl

/-- The sub-tables after `link`, and when it succeeds. -/
theorem link_spec (tables : Nat → MiniTable) {subTables subEnums : List (Option Nat)}
    (hm : t.messageFields.length ≤ subTables.length)
    (he : (wanted SubKey.isClosedEnum t.subKeys (List.range t.fieldCount)).length ≤ subEnums.length) :
    ((t.link tables subTables subEnums).1 = true ↔
      ∀ p ∈ t.messageFields.zip subTables, ∀ sub, p.2 = some sub → FitsMessage tables t p.1 sub) ∧
    ((t.link tables subTables subEnums).1 = true →
      SameKeys t (t.link tables subTables subEnums).2 ∧
      (t.link tables subTables subEnums).2.subs =
        ((wanted SubKey.isClosedEnum t.subKeys (List.range t.fieldCount)).zip subEnums).foldl
          (writeSub t.subKeys .subenum)
          ((t.messageFields.zip subTables).foldl (writeSub t.subKeys .submsg) t.subs)) := by
  rw [messageFields_eq] at hm ⊢
  have hwant : ∀ f : MiniTableField, decide (f.cType = .message) = f.subKey.isMessage := fun f => by
    rw [Bool.eq_iff_iff, decide_eq_true_eq, f.cType_message_iff]
    rfl
  obtain ⟨hok, hsubs⟩ := linkFields_spec hwant (setSubMessage_setsSub tables t) _ (.refl t) hm
  unfold link
  generalize linkFields (fun f => decide (f.cType = .message)) (setSubMessage tables)
    (List.range t.fieldCount) t subTables = r at hok hsubs ⊢
  obtain ⟨ok, t₁⟩ := r
  dsimp only at hok hsubs ⊢
  cases ok with
  | false => simpa using hok
  | true =>
    obtain ⟨hsame, hsubs₁⟩ := hsubs rfl
    have hclosed : ∀ f : MiniTableField, f.isClosedEnum = f.subKey.isClosedEnum := fun _ => rfl
    obtain ⟨hok', hsubs'⟩ := linkFields_spec hclosed (setSubEnum_setsSub t) _ hsame he
    have hall : (linkFields (·.isClosedEnum) setSubEnum (List.range t.fieldCount) t₁ subEnums).1 = true :=
      hok'.mpr fun _ _ _ _ => trivial
    rw [if_pos rfl, hsame.count]
    refine ⟨⟨fun _ => hok.mp rfl, fun _ => hall⟩, fun _ => ⟨(hsubs' hall).1, ?_⟩⟩
    rw [(hsubs' hall).2, hsubs₁]

theorem mem_enumFields_iff {i : Nat} {f : MiniTableField} (hc : t.fieldCount = t.fields.length)
    (hf : t.fields[i]? = some f) : i ∈ t.enumFields ↔ f.isClosedEnum ∨ f.isOpenEnum := by
  have hi : i < t.fields.length := (List.getElem?_eq_some_iff.mp hf).1
  unfold enumFields fieldsOf
  rw [List.mem_filter, List.mem_range, hc, hf, Option.any_some, decide_eq_true_eq, f.cType_enum_iff]
  exact and_iff_right hi

theorem enumFields_eq (hc : t.fieldCount = t.fields.length) (ho : ∀ f ∈ t.fields, f.isOpenEnum = false) :
    t.enumFields = wanted SubKey.isClosedEnum t.subKeys (List.range t.fieldCount) := by
  have hwant : ∀ i ∈ List.range t.fieldCount,
      (t.fields[i]?).any (fun f => decide (f.cType = .enum)) = (t.fields[i]?).any (·.isClosedEnum) := by
    intro i hi
    rw [List.mem_range, hc] at hi
    rw [List.getElem?_eq_getElem hi, Option.any_some, Option.any_some, Bool.eq_iff_iff, decide_eq_true_eq,
      MiniTableField.cType_enum_iff, ho _ (List.getElem_mem hi)]
    simp
  unfold enumFields fieldsOf wanted
  rw [List.filter_congr hwant]
  refine List.filter_congr fun i _ => (SameKeys.refl t).any_eq (fun f => ?_) i
  rfl

/-- Every closed enum is listed. -/
theorem closed_length_le (t : MiniTable) :
    (wanted SubKey.isClosedEnum t.subKeys (List.range t.fieldCount)).length ≤ t.enumFields.length := by
  unfold wanted enumFields fieldsOf
  rw [← List.countP_eq_length_filter, ← List.countP_eq_length_filter]
  refine List.countP_mono_left fun i _ hi => ?_
  rw [← (SameKeys.refl t).any_eq (fun f => rfl : ∀ f, MiniTableField.isClosedEnum f = _)] at hi
  cases hf : t.fields[i]? with
  | none =>
    rw [hf] at hi
    cases hi
  | some f =>
    rw [hf, Option.any_some] at hi
    rw [Option.any_some, decide_eq_true_eq, f.cType_enum_iff]
    exact .inl hi

section

variable (h : t.SubsInOrder)
include h

theorem SubsInOrder.pairwise_message :
    t.messageFields.Pairwise fun i j => place t.subKeys i ≠ place t.subKeys j := by
  rw [messageFields_eq]
  refine pairwise_wanted _ fun i j k k' hk hk' hwk hwk' hij => ?_
  rw [h.place_message hk hwk, h.place_message hk' hwk']
  exact countP_take_lt hk hwk hij

theorem SubsInOrder.pairwise_closed : (wanted SubKey.isClosedEnum t.subKeys
    (List.range t.fieldCount)).Pairwise fun i j => place t.subKeys i ≠ place t.subKeys j := by
  refine pairwise_wanted _ fun i j k k' hk hk' hwk hwk' hij => ?_
  rw [h.place_closed hk hwk, h.place_closed hk' hwk']
  exact Nat.add_lt_add_left (countP_take_lt hk hwk hij) _

/-- The sub-tables after both loops. -/
def linkedSubs (t : MiniTable) (subTables subEnums : List (Option Nat)) : List MiniTableSub :=
  ((wanted SubKey.isClosedEnum t.subKeys (List.range t.fieldCount)).zip subEnums).foldl
    (writeSub t.subKeys .subenum)
    ((t.messageFields.zip subTables).foldl (writeSub t.subKeys .submsg) t.subs)

variable {subTables subEnums : List (Option Nat)} (hm : t.messageFields.length ≤ subTables.length)
    (he : (wanted SubKey.isClosedEnum t.subKeys (List.range t.fieldCount)).length ≤ subEnums.length)
include hm he

/-- What was given for a message field is in its place. -/
theorem SubsInOrder.linkedSubs_message {i : Nat} {entry : Option Nat}
    (hp : (i, entry) ∈ t.messageFields.zip subTables) :
    (t.linkedSubs subTables subEnums)[place t.subKeys i]? = some (entry.elim .emptyMessage .submsg) := by
  obtain ⟨hread, -⟩ := @foldl_writeSub _ MiniTableSub.submsg _ _ hm h.pairwise_message t.subs
  obtain ⟨-, hkeep⟩ := @foldl_writeSub _ MiniTableSub.subenum _ _ he h.pairwise_closed
    ((t.messageFields.zip subTables).foldl (writeSub t.subKeys .submsg) t.subs)
  have hi := (List.of_mem_zip hp).1
  rw [messageFields_eq] at hi
  obtain ⟨k, hk, hmsg⟩ := mem_wanted hi
  have hlt := h.place_message_lt hk hmsg
  rw [linkedSubs, hkeep _ fun j hj => ?_, hread _ hp, h.subs,
    List.getElem?_append_left (by simpa using hlt), List.getElem?_replicate, if_pos hlt]
  · rfl
  · -- the enums come after the messages
    obtain ⟨k', hk', hclosed⟩ := mem_wanted hj
    rw [h.place_closed hk' hclosed]
    omega

/-- What was given for a closed enum is in its place. -/
theorem SubsInOrder.linkedSubs_closed {i : Nat} {entry : Option Nat}
    (hp : (i, entry) ∈ (wanted SubKey.isClosedEnum t.subKeys (List.range t.fieldCount)).zip subEnums) :
    (t.linkedSubs subTables subEnums)[place t.subKeys i]? = some (entry.elim .nullEnum .subenum) := by
  obtain ⟨-, hkeep⟩ := @foldl_writeSub _ MiniTableSub.submsg _ _ hm h.pairwise_message t.subs
  obtain ⟨hread, -⟩ := @foldl_writeSub _ MiniTableSub.subenum _ _ he h.pairwise_closed
    ((t.messageFields.zip subTables).foldl (writeSub t.subKeys .submsg) t.subs)
  obtain ⟨k, hk, hclosed⟩ := mem_wanted (List.of_mem_zip hp).1
  have hge := h.place_closed hk hclosed
  have hlt := h.place_closed_lt hk hclosed
  rw [linkedSubs, hread _ hp, hkeep _ fun j hj => ?_, h.subs,
    List.getElem?_append_right (by simp; omega), List.getElem?_replicate, if_pos (by simp; omega)]
  · rfl
  · rw [messageFields_eq] at hj
    obtain ⟨k', hk', hmsg⟩ := mem_wanted hj
    have hlt' := h.place_message_lt hk' hmsg
    change place t.subKeys i ≠ _
    omega

/-- There is no place for an open enum. -/
theorem SubsInOrder.linkedSubs_noSub : (t.linkedSubs subTables subEnums)[noSub]? = none := by
  obtain ⟨-, hkeep⟩ := @foldl_writeSub _ MiniTableSub.submsg _ _ hm h.pairwise_message t.subs
  obtain ⟨-, hkeep'⟩ := @foldl_writeSub _ MiniTableSub.subenum _ _ he h.pairwise_closed
    ((t.messageFields.zip subTables).foldl (writeSub t.subKeys .submsg) t.subs)
  have hsum : t.subKeys.countP SubKey.isMessage + t.subKeys.countP SubKey.isClosedEnum ≤ noSub := by
    have hle := countP_kinds_le t.subKeys
    have hbound := h.bound
    rw [subKeys, List.length_map] at hle
    unfold noSub
    rw [subKeys]
    omega
  rw [linkedSubs, hkeep' _ fun j hj => ?_, hkeep _ fun j hj => ?_, h.subs, List.getElem?_eq_none]
  · simpa using hsum
  · rw [messageFields_eq] at hj
    obtain ⟨k, hk, hmsg⟩ := mem_wanted hj
    have := h.place_message_lt hk hmsg
    omega
  · obtain ⟨k, hk, hclosed⟩ := mem_wanted hj
    have := h.place_closed_lt hk hclosed
    omega

end

/-- **When linking gives every field its own sub-table**: no field is an open enum, and the tables fit
their fields. -/
theorem SubsInOrder.links_iff (h : t.SubsInOrder) (tables : Nat → MiniTable)
    {subTables subEnums : List (Option Nat)} (hm : subTables.length = t.messageFields.length)
    (he : subEnums.length = t.enumFields.length) :
    t.Links tables subTables subEnums ↔ (∀ f ∈ t.fields, f.isOpenEnum = false) ∧
      ∀ p ∈ t.messageFields.zip subTables, ∀ sub, p.2 = some sub → FitsMessage tables t p.1 sub := by
  have hm' := Nat.le_of_eq hm.symm
  have he' : (wanted SubKey.isClosedEnum t.subKeys (List.range t.fieldCount)).length ≤ subEnums.length :=
    he ▸ t.closed_length_le
  obtain ⟨hok, hsubs⟩ := link_spec tables hm' he'
  have hplace : ∀ {i : Nat} {f : MiniTableField}, (t.link tables subTables subEnums).1 = true →
      (t.link tables subTables subEnums).2.fields[i]? = some f → f.submsgIndex = place t.subKeys i := by
    intro i f hlink hf
    rw [place, (hsubs hlink).1.subKey_eq hf]
    rfl
  constructor
  · intro hl
    obtain ⟨hsame, hfinal⟩ := hsubs hl.ok
    refine ⟨fun f hf => ?_, hok.mp hl.ok⟩
    by_contra hopen
    obtain ⟨i, hi⟩ := List.getElem?_of_mem hf
    have hopen : f.isOpenEnum = true := by simpa using hopen
    obtain ⟨k, hk⟩ := List.getElem?_of_mem ((mem_enumFields_iff h.count hi).mpr (.inr hopen))
    have hkey : t.subKeys[i]? = some f.subKey := (SameKeys.refl t).subKey_eq hi
    obtain ⟨_, f', -, hf', -, hfk⟩ := hsame.fields hkey
    -- the list has an entry, but the read is outside of `subs`
    have hread := hl.enum k i f' hk hf'
    have hindex : f'.submsgIndex = noSub := by
      have hint : f.descriptortype = .int32 := by
        simpa [MiniTableField.isOpenEnum] using (Bool.and_eq_true_iff.mp hopen).2
      rw [show f'.submsgIndex = f.subKey.index from congrArg SubKey.index hfk, h.index i _ hkey,
        SubKey.slot, if_neg, if_neg] <;>
      simp [SubKey.isMessage, SubKey.isClosedEnum, MiniTableField.subKey, hint]
    have hnone := h.linkedSubs_noSub hm' he'
    rw [getSubEnumTable, hindex, hfinal] at hread
    rw [linkedSubs] at hnone
    rw [hnone] at hread
    have hk' : k < subEnums.length := by
      rw [he]
      exact (List.getElem?_eq_some_iff.mp hk).1
    rw [List.getElem?_eq_getElem hk'] at hread
    cases hread
  · rintro ⟨hopen, hfit⟩
    have hlink := hok.mpr hfit
    obtain ⟨hsame, hfinal⟩ := hsubs hlink
    refine ⟨hlink, fun k i f hk hf => ?_, fun k i f hk hf => ?_⟩
    · have hlt : k < subTables.length := by
        rw [hm]
        exact (List.getElem?_eq_some_iff.mp hk).1
      have hp : (i, subTables[k]) ∈ t.messageFields.zip subTables := by
        refine List.mem_of_getElem? (i := k) ?_
        rw [List.getElem?_zip_eq_some]
        exact ⟨hk, List.getElem?_eq_getElem hlt⟩
      have hread := h.linkedSubs_message hm' he' hp
      rw [linkedSubs, ← hfinal, ← hplace hlink hf] at hread
      rw [getSubMessageTable, hread, List.getElem?_eq_getElem hlt]
      cases subTables[k] <;> rfl
    · rw [enumFields_eq h.count hopen] at hk
      have hlt : k < subEnums.length := Nat.lt_of_lt_of_le (List.getElem?_eq_some_iff.mp hk).1 he'
      have hp : (i, subEnums[k]) ∈
          (wanted SubKey.isClosedEnum t.subKeys (List.range t.fieldCount)).zip subEnums := by
        refine List.mem_of_getElem? (i := k) ?_
        rw [List.getElem?_zip_eq_some]
        exact ⟨hk, List.getElem?_eq_getElem hlt⟩
      have hread := h.linkedSubs_closed hm' he' hp
      rw [linkedSubs, ← hfinal, ← hplace hlink hf] at hread
      rw [getSubEnumTable, hread, List.getElem?_eq_getElem hlt]
      cases subEnums[k] <;> rfl

end

end MiniTable

namespace MtDecoder

/-- **When a built table links to the sub-tables that `getSubList` asks for**, if the counts of its fields
do not wrap: there is no open enum among the fields, and a map entry is given only for a message field of a
table that is not a map entry. -/
theorem build_links_iff {p : Platform} {desc : List UInt8} {t : MiniTable} (hb : build p desc = .ok t)
    (hn : t.fields.length < 2 ^ 16) (tables : Nat → MiniTable) {subTables subEnums : List (Option Nat)}
    (hm : subTables.length = t.messageFields.length) (he : subEnums.length = t.enumFields.length) :
    t.Links tables subTables subEnums ↔ (∀ f ∈ t.fields, f.isOpenEnum = false) ∧
      ∀ e ∈ t.messageFields.zip subTables, ∀ sub, e.2 = some sub → ∀ f, t.fields[e.1]? = some f →
        (tables sub).isMapEntry = true → f.descriptortype = .message ∧ t.isMapEntry = false :=
  (build_subsInOrder hb hn).links_iff tables hm he

/-- The layout of two fields that are parsed in the order of their items. -/
theorem layout_pair {d : MtDecoder} {f g : MiniTableField} {a b : LayoutItem} {n k : Nat}
    (hh : d.allocateSubs.assignHasbits = .ok ([f, g], n, k))
    (hi : d.allocateSubs.vec ++ fieldItems [f, g] d.allocateSubs.fieldCount = [a, b])
    (hab : packedKey a ≤ packedKey b) :
    d.layout = (do
      let (fields, size) ← assignOffsets d.allocateSubs.platform k [a, b] [f, g]
      return (fields, n, size)) := by
  have hsort : sortLayoutItems { d.allocateSubs with fields := [f, g] } = [a, b] := by
    unfold sortLayoutItems
    dsimp only
    rw [hi]
    exact List.mergeSort_of_pairwise (by simpa using hab)
  unfold layout
  simp only [hh, bind, Except.bind]
  rw [hsort]

/-- An enum field and a message field, parsed. -/
def enumThenMessage : MtDecoder where
  platform := .bits64
  extension := false
  fields := [⟨1, 1, 0, 0, .enum, 66⟩, ⟨2, 1, 0, 0, .message, 194⟩]
  fieldCount := 2
  denseBelow := 2
  ext := 0
  subCounts := ⟨1, 1⟩
  vec := []
  oneofs := []

/-- Their table. -/
def enumMessageTable : MiniTable where
  subs := [.emptyMessage, .nullEnum]
  fields := [⟨1, 4, 1, 1, .enum, 66⟩, ⟨2, 8, 2, 0, .message, 194⟩]
  size := 16
  fieldCount := 2
  ext := 0
  denseBelow := 2
  tableMask := 255
  requiredCount := 0

theorem build_enumMessageTable : build .bits64 [36, 52, 51] = .ok enumMessageTable := by
  have hp : parseMessage .bits64 [52, 51] = .ok enumThenMessage := by decide
  have hl := layout_pair (d := enumThenMessage) (f := ⟨1, 1, 1, 1, .enum, 66⟩)
    (g := ⟨2, 1, 2, 0, .message, 194⟩) (a := ⟨0, 0, .fourByte, .field⟩) (b := ⟨1, 0, .eightByte, .field⟩)
    (n := 0) (k := 1) (by decide) (by decide) (by decide)
  change (parseMessage .bits64 [52, 51] >>= messageTable) = _
  rw [hp]
  change (enumThenMessage.layout >>= _) = _
  rw [hl]
  rfl

theorem build_links_iff_enumMessageTable :
    enumMessageTable.Links (fun _ => MiniTable.mk [] [] 0 0 0 0 255 0) [some 7] [some 9] :=
  (build_links_iff build_enumMessageTable (by decide) _ (by decide) (by decide)).mpr
    ⟨by decide, fun _ _ _ _ _ _ h => absurd h (by decide)⟩

/-- An open enum before a closed one, parsed. -/
def openThenClosed : MtDecoder where
  platform := .bits64
  extension := false
  fields := [⟨1, 1, 0, noSub, .int32, 82⟩, ⟨2, 1, 0, 0, .enum, 66⟩]
  fieldCount := 2
  denseBelow := 2
  ext := 0
  subCounts := ⟨0, 1⟩
  vec := []
  oneofs := []

/-- Their table. -/
def openClosedTable : MiniTable where
  subs := [.nullEnum]
  fields := [⟨1, 4, 1, noSub, .int32, 82⟩, ⟨2, 8, 2, 0, .enum, 66⟩]
  size := 16
  fieldCount := 2
  ext := 0
  denseBelow := 2
  tableMask := 255
  requiredCount := 0

theorem build_openClosedTable : build .bits64 [36, 46, 52] = .ok openClosedTable := by
  have hp : parseMessage .bits64 [46, 52] = .ok openThenClosed := by decide
  have hl := layout_pair (d := openThenClosed) (f := ⟨1, 1, 1, noSub, .int32, 82⟩)
    (g := ⟨2, 1, 2, 0, .enum, 66⟩) (a := ⟨0, 0, .fourByte, .field⟩) (b := ⟨1, 0, .fourByte, .field⟩)
    (n := 0) (k := 1) (by decide) (by decide) (by decide)
  change (parseMessage .bits64 [46, 52] >>= messageTable) = _
  rw [hp]
  change (openThenClosed.layout >>= _) = _
  rw [hl]
  rfl

/-- The closed enum gets the entry that was given for the open one. -/
theorem not_links_openClosed : build .bits64 [36, 46, 52] = .ok openClosedTable ∧
    openClosedTable.getSubList = ([0, 1], 2) ∧
    (openClosedTable.link (fun _ => MiniTable.mk [] [] 0 0 0 0 255 0) [] [some 7, some 9]).2.subs =
      [.subenum 7] ∧
    ¬openClosedTable.Links (fun _ => MiniTable.mk [] [] 0 0 0 0 255 0) [] [some 7, some 9] := by
  refine ⟨build_openClosedTable, by decide, by decide, fun h => ?_⟩
  have hread := h.enum 1 1 ⟨2, 8, 2, 0, .enum, 66⟩ (by decide) (by decide)
  exact absurd hread (by decide)

end MtDecoder

end Hpb
