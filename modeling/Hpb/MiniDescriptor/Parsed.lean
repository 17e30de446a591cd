import Mathlib.Data.List.Pairwise
import Mathlib.Data.List.Perm.Basic
import Mathlib.Order.Basic
import Hpb.Lib.Except
import Hpb.Lib.LinkedPath
import Hpb.MiniDescriptor.Decode

/-!
# What the parser of mini descriptors leaves behind

After `parse` every field has a presence class in `offset`, or is a member of exactly one oneof and
holds the link to the next member there. `Oneofs` says this of the oneofs seen so far, `OneofItems`
what the layout items say about them, and `Parsed` puts them together.

* `Oneofs.add`: what `addToOneof` does,
* `OneofInv`: the invariant of `decodeOneofs`,
* `parse_ends`: parsing ends with the fields, or with the oneofs after them,
* `parseMessage_linked`: a parsed message with less than `2 ^ 16` fields is `Parsed` if no link wraps, that is, if no
  member of a oneof that another one is linked to is behind the 65532 first fields,
* `parseMessage_parsed`: so is one with at most 65532 fields.
-/

namespace Hpb

/-- What the layout reads of a field: `offset` and the representation. -/
def shape (fields : List MiniTableField) (i : Nat) : Option (Nat × FieldRep) :=
  (fields[i]?).map fun f => (f.offset, f.rep)

theorem shape_set_self {fields : List MiniTableField} {i : Nat} {f : MiniTableField}
    (h : i < fields.length) : shape (fields.set i f) i = some (f.offset, f.rep) := by
  simp [shape, h]

theorem shape_set_ne {fields : List MiniTableField} {i j : Nat} {f : MiniTableField} (h : j ≠ i) :
    shape (fields.set i f) j = shape fields j := by
  simp [shape, List.getElem?_set_ne (Ne.symm h)]

theorem shape_eq_some {fields : List MiniTableField} {i : Nat} {x : Nat × FieldRep} :
    shape fields i = some x ↔ ∃ f, fields[i]? = some f ∧ f.offset = x.1 ∧ f.rep = x.2 := by
  simp [shape, Option.map_eq_some_iff, Prod.ext_iff]

/-- The member of a oneof that `link` leads to. -/
def linkTarget (link : Nat) : Option Nat :=
  if link = indexSentinel then none else some (link - oneofBase)

/-- The member after `i`. -/
def nextMember (s : Nat → Option (Nat × FieldRep)) (i : Nat) : Option Nat :=
  (s i).bind fun x => linkTarget x.1

/-- The fields that have the shapes `s` are linked into the oneofs `gs`. -/
structure Oneofs (s : Nat → Option (Nat × FieldRep)) (gs : List (List Nat)) : Prop where
  nodup : gs.flatten.Nodup
  path : ∀ l ∈ gs, LinkedPath (nextMember s) l.head? l none
  member : ∀ l ∈ gs, ∀ i ∈ l, ∃ x, s i = some x ∧ oneofBase ≤ x.1
  other : ∀ i x, (∀ l ∈ gs, i ∉ l) → s i = some x → x.1 < oneofBase

namespace Oneofs

variable {s s' : Nat → Option (Nat × FieldRep)} {gs gs' : List (List Nat)} {l l' : List Nat} {i : Nat}

theorem mem_iff (h : Oneofs s gs) {x : Nat × FieldRep} (hx : s i = some x) :
    (∃ l ∈ gs, i ∈ l) ↔ oneofBase ≤ x.1 := by
  constructor
  · rintro ⟨l, hl, hi⟩
    obtain ⟨y, hy, hb⟩ := h.member l hl i hi
    rw [hx] at hy
    cases hy
    exact hb
  · intro hb
    by_contra hn
    push Not at hn
    exact absurd (h.other i x hn hx) (by omega)

/-- No field is in two oneofs. -/
theorem unique (h : Oneofs s gs) (hl : l ∈ gs) (hl' : l' ∈ gs) (hi : i ∈ l) (hi' : i ∈ l') :
    l = l' := by
  by_contra hne
  have : Std.Symm (List.Disjoint (α := Nat)) := ⟨fun _ _ hd _ ha hb => hd hb ha⟩
  exact (List.nodup_flatten.mp h.nodup).2.forall hl hl' hne hi hi'

theorem perm (h : Oneofs s gs) (hp : gs.Perm gs') : Oneofs s gs' where
  nodup := hp.flatten.nodup_iff.mp h.nodup
  path l hl := h.path l (hp.mem_iff.mpr hl)
  member l hl := h.member l (hp.mem_iff.mpr hl)
  other i x hi := h.other i x fun l hl => hi l (hp.mem_iff.mp hl)

/-- An empty oneof may be added or left out. -/
theorem cons_nil_iff : Oneofs s ([] :: gs) ↔ Oneofs s gs := by
  constructor
  · intro h
    exact ⟨h.nodup, fun l hl => h.path l (List.mem_cons_of_mem _ hl),
      fun l hl => h.member l (List.mem_cons_of_mem _ hl), fun i x hi => h.other i x (by simpa using hi)⟩
  · intro h
    refine ⟨h.nodup, fun l hl => ?_, fun l hl => ?_, fun i x hi => h.other i x (by simpa using hi)⟩
    · obtain rfl | hl := List.mem_cons.mp hl
      · exact rfl
      · exact h.path l hl
    · obtain rfl | hl := List.mem_cons.mp hl
      · simp
      · exact h.member l hl

/-- A field that is in no oneof joins the first one, at its head. -/
theorem add {x : Nat × FieldRep} {rep : FieldRep} {link : Nat} (h : Oneofs s (l :: gs))
    (hi : s i = some x) (hx : x.1 < oneofBase) (hs : s' i = some (link, rep))
    (hlink : oneofBase ≤ link) (hhead : linkTarget link = l.head?)
    (hother : ∀ j, j ≠ i → s' j = s j) : Oneofs s' ((i :: l) :: gs) := by
  have hni : ∀ m ∈ l :: gs, i ∉ m := fun m hm him =>
    absurd ((h.mem_iff hi).mp ⟨m, hm, him⟩) (by omega)
  have hnext : ∀ m ∈ l :: gs, ∀ a ∈ m, nextMember s a = nextMember s' a := by
    intro m hm a ha
    have hne : a ≠ i := fun he => hni m hm (he ▸ ha)
    simp only [nextMember, hother a hne]
  have hmember : ∀ m ∈ l :: gs, ∀ a ∈ m, ∃ y, s' a = some y ∧ oneofBase ≤ y.1 := by
    intro m hm a ha
    have hne : a ≠ i := fun he => hni m hm (he ▸ ha)
    rw [hother a hne]
    exact h.member m hm a ha
  refine ⟨?_, fun m hm => ?_, fun m hm a ha => ?_, fun j y hj hy => ?_⟩
  · change (i :: (l ++ gs.flatten)).Nodup
    refine List.nodup_cons.mpr ⟨fun hmem => ?_, h.nodup⟩
    obtain ⟨m, hm, him⟩ := List.mem_flatten.mp (show i ∈ (l :: gs).flatten from hmem)
    exact hni m hm him
  · obtain rfl | hm := List.mem_cons.mp hm
    · refine ⟨rfl, ?_⟩
      have : nextMember s' i = l.head? := by simp [nextMember, hs, hhead]
      rw [this]
      exact (h.path l List.mem_cons_self).congr (hnext l List.mem_cons_self)
    · have hm' := List.mem_cons_of_mem l hm
      exact (h.path m hm').congr (hnext m hm')
  · obtain rfl | hm := List.mem_cons.mp hm
    · obtain rfl | ha := List.mem_cons.mp ha
      · exact ⟨_, hs, hlink⟩
      · exact hmember l List.mem_cons_self a ha
    · exact hmember m (List.mem_cons_of_mem l hm) a ha
  · have hne : j ≠ i := fun he => hj (i :: l) List.mem_cons_self (he ▸ List.mem_cons_self)
    rw [hother j hne] at hy
    refine h.other j y (fun m hm hjm => ?_) hy
    obtain rfl | hm := List.mem_cons.mp hm
    · exact hj (i :: m) List.mem_cons_self (List.mem_cons_of_mem _ hjm)
    · exact hj m (List.mem_cons_of_mem _ hm) hjm

end Oneofs

/-- What tells the layout items of a message apart. -/
def LayoutItem.key (it : LayoutItem) : LayoutItemType × Nat := (it.type, it.fieldIndex)

/-- The items `vec` are the data slots and the case words of the oneofs `gs`. -/
structure OneofItems (p : Platform) (s : Nat → Option (Nat × FieldRep)) (gs : List (List Nat))
    (vec : List LayoutItem) : Prop where
  nodup : (vec.map LayoutItem.key).Nodup
  source : ∀ it ∈ vec, it.type ≠ .field ∧ ∃ l ∈ gs, l.head? = some it.fieldIndex
  caseItem : ∀ l ∈ gs, ∃ it ∈ vec, l.head? = some it.fieldIndex ∧ it.type = .oneofCase ∧
    it.rep = .fourByte
  slotItem : ∀ l ∈ gs, ∃ it ∈ vec, l.head? = some it.fieldIndex ∧ it.type = .oneofField ∧
    ∀ i ∈ l, ∀ x, s i = some x → sizeOfRep x.2 p ≤ sizeOfRep it.rep p

namespace OneofItems

variable {p : Platform} {s s' : Nat → Option (Nat × FieldRep)} {gs : List (List Nat)}
  {vec : List LayoutItem}

theorem congr (h : OneofItems p s gs vec) (hs : ∀ l ∈ gs, ∀ i ∈ l, (s' i) = s i) :
    OneofItems p s' gs vec where
  nodup := h.nodup
  source := h.source
  caseItem := h.caseItem
  slotItem l hl := by
    obtain ⟨it, hit, hhead, htype, hsize⟩ := h.slotItem l hl
    refine ⟨it, hit, hhead, htype, fun i hi x hx => hsize i hi x ?_⟩
    rw [← hs l hl i hi]
    exact hx

/-- The two items of one more oneof. -/
theorem push {l : List Nat} {i : Nat} {rep : FieldRep} (h : OneofItems p s gs vec)
    (hd : ∀ m ∈ gs, i ∉ m) (hi : l.head? = some i)
    (hrep : ∀ j ∈ l, ∀ x, s j = some x → sizeOfRep x.2 p ≤ sizeOfRep rep p) (o : Nat) :
    OneofItems p s (gs ++ [l])
      (vec ++ [⟨i, o, rep, .oneofField⟩] ++ [⟨i, o, .fourByte, .oneofCase⟩]) := by
  have hnew : ∀ it ∈ vec, it.fieldIndex ≠ i := by
    intro it hit he
    obtain ⟨-, m, hm, hhead⟩ := h.source it hit
    exact hd m hm (he ▸ List.mem_of_head? hhead)
  refine ⟨?_, fun it hit => ?_, fun m hm => ?_, fun m hm => ?_⟩
  · have hkeys : ∀ ty, (ty, i) ∉ vec.map LayoutItem.key := by
      intro ty hmem
      obtain ⟨it, hit, hk⟩ := List.mem_map.mp hmem
      exact hnew it hit (congrArg Prod.snd hk)
    simp only [List.map_append, List.map_cons, List.map_nil, List.append_assoc, List.cons_append,
      List.nil_append]
    refine List.nodup_append.mpr ⟨h.nodup, by simp [LayoutItem.key], ?_⟩
    rintro a ha b hb rfl
    simp only [LayoutItem.key, List.mem_cons, List.not_mem_nil, or_false] at hb
    obtain rfl | rfl := hb
    · exact hkeys _ ha
    · exact hkeys _ ha
  · simp only [List.append_assoc, List.cons_append, List.nil_append, List.mem_append, List.mem_cons,
      List.not_mem_nil, or_false] at hit
    obtain hit | rfl | rfl := hit
    · obtain ⟨hty, m, hm, hhead⟩ := h.source it hit
      exact ⟨hty, m, List.mem_append_left _ hm, hhead⟩
    · exact ⟨by simp, l, by simp, hi⟩
    · exact ⟨by simp, l, by simp, hi⟩
  · obtain hm | hm := List.mem_append.mp hm
    · obtain ⟨it, hit, hit'⟩ := h.caseItem m hm
      exact ⟨it, by simp [hit], hit'⟩
    · obtain rfl := List.mem_singleton.mp hm
      exact ⟨⟨i, o, .fourByte, .oneofCase⟩, by simp, hi, rfl, rfl⟩
  · obtain hm | hm := List.mem_append.mp hm
    · obtain ⟨it, hit, hit'⟩ := h.slotItem m hm
      exact ⟨it, by simp [hit], hit'⟩
    · obtain rfl := List.mem_singleton.mp hm
      exact ⟨⟨i, o, rep, .oneofField⟩, by simp, hi, rfl, hrep⟩

end OneofItems

namespace MtDecoder

/-- A parsed message. -/
structure Parsed (d : MtDecoder) : Prop where
  count : d.fieldCount = d.fields.length
  nonempty : ∀ l ∈ d.oneofs, l ≠ []
  oneofs : Oneofs (shape d.fields) d.oneofs
  items : OneofItems d.platform (shape d.fields) d.oneofs d.vec

/-- The link to the first of `members`, in 16 bits. -/
def linkTo (members : List Nat) : Nat :=
  match members with
  | [] => indexSentinel
  | i :: _ => (i + oneofBase) % 2 ^ 16

/-- The invariant of `decodeOneofs`, in the middle of a oneof with the members `members`. -/
structure OneofInv (d : MtDecoder) (item : LayoutItem) (members : List Nat) : Prop where
  bound : d.fields.length < 2 ^ 16
  count : d.fieldCount = d.fields.length
  nonempty : ∀ l ∈ d.oneofs, l ≠ []
  oneofs : Oneofs (shape d.fields) (members :: d.oneofs)
  items : OneofItems d.platform (shape d.fields) d.oneofs d.vec
  index : item.fieldIndex = linkTo members
  rep : ∀ i ∈ members, ∀ x, shape d.fields i = some x →
    sizeOfRep x.2 d.platform ≤ sizeOfRep item.rep d.platform

section

variable {d d' : MtDecoder} {item item' : LayoutItem} {members members' : List Nat}

theorem linkTarget_of_lt {i : Nat} (h : i < 65532) :
    linkTarget ((i + oneofBase) % 2 ^ 16) = some i := by
  have hmod : (i + oneofBase) % 2 ^ 16 = i + oneofBase := by
    unfold oneofBase
    omega
  have hne : i + oneofBase ≠ indexSentinel := by
    unfold oneofBase indexSentinel
    omega
  rw [hmod, linkTarget, if_neg hne, Nat.add_sub_cancel]

/-- A link to a field that is not too far behind leads there. -/
theorem linkTo_spec (h : ∀ i ∈ members.head?, i < 65532) :
    oneofBase ≤ linkTo members ∧ linkTarget (linkTo members) = members.head? := by
  cases members with
  | nil => exact ⟨by decide, rfl⟩
  | cons i members =>
    have hi : i < 65532 := h i rfl
    refine ⟨?_, linkTarget_of_lt hi⟩
    rw [linkTo, Nat.mod_eq_of_lt (by unfold oneofBase; omega)]
    exact Nat.le_add_left _ _

/-- What `addToOneof` does. -/
theorem addToOneof_eq_ok {number : Nat}
    (hr : d.addToOneof number item members = .ok (d', item', members')) :
    ∃ i f, d.fields[i]? = some f ∧ f.offset = hasbitPresence ∧
      d' = { d with fields := d.fields.set i { f with offset := item.fieldIndex } } ∧
      item' = { item with
        rep := if sizeOfRep f.rep d.platform > sizeOfRep item.rep d.platform then f.rep else item.rep
        fieldIndex := (i + oneofBase) % 2 ^ 16 } ∧
      members' = i :: members := by
  unfold addToOneof at hr
  split at hr
  · cases hr
  rename_i i _
  split at hr
  · cases hr
  rename_i f hf
  by_cases hoff : f.offset = hasbitPresence
  · rw [if_neg (not_not.mpr hoff)] at hr
    cases hr
    exact ⟨i, f, hf, hoff, rfl, rfl, rfl⟩
  · rw [if_pos hoff] at hr
    cases hr

theorem addToOneof_inv {number : Nat} (h : OneofInv d item members) (hlink : ∀ i ∈ members.head?, i < 65532)
    (hr : d.addToOneof number item members = .ok (d', item', members')) :
    OneofInv d' item' members' := by
  obtain ⟨i, f, hf, hoff, rfl, rfl, rfl⟩ := addToOneof_eq_ok hr
  have hlt : i < d.fields.length := (List.getElem?_eq_some_iff.mp hf).1
  obtain ⟨hbase, htarget⟩ := linkTo_spec hlink
  rw [← h.index] at hbase htarget
  have hi : shape d.fields i = some (f.offset, f.rep) := by simp [shape, hf]
  have hclass : f.offset < oneofBase := by simp [hoff, hasbitPresence, oneofBase]
  have hni : ∀ m ∈ members :: d.oneofs, i ∉ m := fun m hm him =>
    absurd ((h.oneofs.mem_iff hi).mp ⟨m, hm, him⟩) (by simpa using hclass)
  have hsame : ∀ j, j ≠ i →
      shape (d.fields.set i { f with offset := item.fieldIndex }) j = shape d.fields j :=
    fun j hj => shape_set_ne hj
  refine ⟨by simpa using h.bound, by simpa using h.count, h.nonempty, ?_, ?_, rfl, ?_⟩
  · exact h.oneofs.add hi hclass (shape_set_self hlt) hbase htarget hsame
  · refine h.items.congr fun l hl j hj => hsame j fun he => ?_
    exact hni l (List.mem_cons_of_mem _ hl) (he ▸ hj)
  · -- the slot grows to the new member's size, or is large enough
    intro j hj x hx
    change sizeOfRep x.2 d.platform ≤ sizeOfRep (ite _ _ _) d.platform
    obtain rfl | hj := List.mem_cons.mp hj
    · rw [shape_set_self hlt] at hx
      cases hx
      change sizeOfRep f.rep d.platform ≤ _
      split_ifs with hgt
      · exact Nat.le_refl _
      · exact Nat.le_of_not_gt hgt
    · have hne : j ≠ i := fun he => hni members List.mem_cons_self (he ▸ hj)
      have hle := h.rep j hj x (hsame j hne ▸ hx)
      split_ifs with hgt
      · exact Nat.le_trans hle (Nat.le_of_lt hgt)
      · exact hle

theorem pushOneof_inv (h : OneofInv d item members) (hr : d.pushOneof item members = .ok d') :
    d'.Parsed ∧ OneofInv d' { item with fieldIndex := indexSentinel } [] := by
  unfold pushOneof at hr
  by_cases hne : item.fieldIndex = indexSentinel
  · rw [if_pos hne] at hr
    cases hr
  rw [if_neg hne] at hr
  cases hr
  obtain ⟨i, hhead, hindex⟩ : ∃ i, members.head? = some i ∧ item.fieldIndex = (i + oneofBase) % 2 ^ 16 := by
    have hindex := h.index
    cases members with
    | nil => exact absurd hindex hne
    | cons i members => exact ⟨i, rfl, hindex⟩
  have hmem : i ∈ members := List.mem_of_head? hhead
  have hi : (item.fieldIndex + (2 ^ 16 - oneofBase)) % 2 ^ 16 = i := by
    obtain ⟨x, hx, -⟩ := h.oneofs.member members List.mem_cons_self i hmem
    obtain ⟨f, hf, -⟩ := shape_eq_some.mp hx
    have hlt := (List.getElem?_eq_some_iff.mp hf).1
    have hbound := h.bound
    unfold oneofBase at *
    omega
  have hdisj : ∀ m ∈ d.oneofs, i ∉ m := by
    intro m hm him
    have hd := (List.nodup_append.mp (show (members ++ d.oneofs.flatten).Nodup from
      h.oneofs.nodup)).2.2
    exact hd i hmem i (List.mem_flatten.mpr ⟨m, hm, him⟩) rfl
  have hnonempty : ∀ l ∈ d.oneofs ++ [members], l ≠ [] := by
    intro l hl
    obtain hl | hl := List.mem_append.mp hl
    · exact h.nonempty l hl
    · rw [List.mem_singleton.mp hl]
      exact List.ne_nil_of_mem hmem
  have honeofs : Oneofs (shape d.fields) (d.oneofs ++ [members]) :=
    h.oneofs.perm (List.perm_append_singleton _ _).symm
  have hitems := h.items.push hdisj hhead h.rep item.offset
  rw [← hi] at hitems
  refine ⟨⟨h.count, hnonempty, honeofs, hitems⟩, ?_⟩
  exact ⟨h.bound, h.count, hnonempty, Oneofs.cons_nil_iff.mpr honeofs, hitems, rfl, by simp⟩

theorem pushOneof_oneofs (hr : d.pushOneof item members = .ok d') :
    d'.fields = d.fields ∧ d'.oneofs = d.oneofs ++ [members] := by
  unfold pushOneof at hr
  split at hr <;> cases hr
  exact ⟨rfl, rfl⟩

/-- The oneof that is read ends up behind the ones before, with more members in front. -/
theorem decodeOneofs_oneofs {skip : Nat} {data : List UInt8} (hr : d.decodeOneofs item members skip data = .ok d') :
    ∃ front gs, d'.oneofs = d.oneofs ++ (front ++ members) :: gs := by
  induction data generalizing d item members skip with
  | nil =>
    rw [decodeOneofs] at hr
    exact ⟨[], [], (pushOneof_oneofs hr).2⟩
  | cons ch rest ih =>
    cases skip with
    | succ skip =>
      rw [decodeOneofs] at hr
      exact ih hr
    | zero =>
      rw [decodeOneofs] at hr
      split_ifs at hr
      · exact ih hr
      · obtain ⟨d₁, h₁, hr⟩ := Except.bind_eq_ok.mp hr
        obtain ⟨front, gs, hgs⟩ := ih hr
        refine ⟨[], (front ++ []) :: gs, ?_⟩
        rw [hgs, (pushOneof_oneofs h₁).2, List.append_assoc]
        rfl
      · obtain ⟨⟨skip, number⟩, -, hr⟩ := Except.bind_eq_ok.mp hr
        obtain ⟨⟨d₁, item₁, members₁⟩, h₁, hr⟩ := Except.bind_eq_ok.mp hr
        obtain ⟨i, f, -, -, rfl, -, rfl⟩ := addToOneof_eq_ok h₁
        obtain ⟨front, gs, hgs⟩ := ih hr
        exact ⟨front ++ [i], gs, by rw [hgs, List.append_assoc, List.singleton_append]⟩

/-- No member that another one is linked to is behind the first 65532 fields. -/
def LinksFit (d : MtDecoder) : Prop := ∀ l ∈ d.oneofs, ∀ i ∈ l.tail, i < 65532

theorem decodeOneofs_parsed {skip : Nat} {data : List UInt8} (h : OneofInv d item members)
    (hr : d.decodeOneofs item members skip data = .ok d') (hfit : d'.LinksFit) : d'.Parsed := by
  induction data generalizing d item members skip with
  | nil =>
    rw [decodeOneofs] at hr
    exact (pushOneof_inv h hr).1
  | cons ch rest ih =>
    cases skip with
    | succ skip =>
      rw [decodeOneofs] at hr
      exact ih h hr
    | zero =>
      rw [decodeOneofs] at hr
      split_ifs at hr with hsep hend
      · exact ih h hr
      · obtain ⟨d₁, h₁, hr⟩ := Except.bind_eq_ok.mp hr
        exact ih (pushOneof_inv h h₁).2 hr
      · obtain ⟨⟨skip, number⟩, -, hr⟩ := Except.bind_eq_ok.mp hr
        obtain ⟨⟨d₁, item₁, members₁⟩, h₁, hr⟩ := Except.bind_eq_ok.mp hr
        refine ih (addToOneof_inv h (fun j hj => ?_) h₁) hr
        -- the first member so far becomes one that is linked to
        obtain ⟨i, f, -, -, -, -, rfl⟩ := addToOneof_eq_ok h₁
        obtain ⟨front, gs, hgs⟩ := decodeOneofs_oneofs hr
        refine hfit (front ++ i :: members) (hgs ▸ List.mem_append_right _ List.mem_cons_self) j ?_
        rw [List.append_cons, List.tail_append_of_ne_nil (by simp)]
        exact List.mem_append_right _ (List.mem_of_head? hj)

/-- A field that was just parsed is in no oneof. -/
theorem setField_offset {platform : Platform} {ch : UInt8} {number : Nat} {mods : UInt32}
    {subs : SubCounts} {r : MiniTableField × SubCounts}
    (h : setField platform ch number mods subs = .ok r) : r.1.offset < oneofBase := by
  obtain ⟨⟨mode, offset, type⟩, hm, h⟩ := Except.bind_eq_ok.mp h
  have hoffset : offset < oneofBase := by
    unfold modeOfChar at hm
    dsimp only at hm
    split_ifs at hm <;> cases hm <;> decide
  dsimp only at h
  split at h
  · cases h
  split at h
  · cases h
  · cases h
    unfold setTypeAndSub
    dsimp only
    split_ifs <;> exact hoffset

theorem modifyField_offset {mods : UInt32} {f f' : MiniTableField} (hf : f.offset < oneofBase)
    (h : modifyField mods f = .ok f') : f'.offset < oneofBase := by
  obtain ⟨g, hg, h⟩ := Except.bind_eq_ok.mp h
  have hgo : g.offset = f.offset := by
    unfold flipPacked at hg
    split_ifs at hg <;> cases hg <;> rfl
  dsimp only at h
  split_ifs at h <;> cases h
  · exact Nat.zero_lt_succ _
  · exact Nat.lt_succ_self _
  · rw [hgo]
    exact hf

/-- The invariant of `parse`, before the oneofs. -/
structure FieldInv (p : Platform) (d : MtDecoder) : Prop where
  platform : d.platform = p
  table : d.extension = false
  count : d.fieldCount = d.fields.length % 2 ^ 16
  offset : ∀ f ∈ d.fields, f.offset < oneofBase
  vec : d.vec = []
  oneofs : d.oneofs = []

theorem FieldInv.oneofInv {p : Platform} (h : FieldInv p d) (hb : d.fields.length < 2 ^ 16) :
    OneofInv d ⟨indexSentinel, 0, .oneByte, .oneofCase⟩ [] := by
  refine ⟨hb, ?_, by simp [h.oneofs], ?_, ?_, rfl, by simp⟩
  · rw [h.count]
    exact Nat.mod_eq_of_lt (by omega)
  · rw [h.oneofs, Oneofs.cons_nil_iff]
    refine ⟨by simp, by simp, by simp, fun i x _ hx => ?_⟩
    obtain ⟨f, hf, ho, -⟩ := shape_eq_some.mp hx
    rw [← ho]
    exact h.offset f (List.mem_of_getElem? hf)
  · rw [h.oneofs, h.vec]
    exact ⟨by simp, by simp, by simp, by simp⟩

theorem FieldInv.parsed {p : Platform} (h : FieldInv p d) (hb : d.fields.length < 2 ^ 16) : d.Parsed := by
  have ho := h.oneofInv hb
  exact ⟨ho.count, ho.nonempty, Oneofs.cons_nil_iff.mp ho.oneofs, ho.items⟩

theorem applyModifier_inv {p : Platform} {l l' : Locals} {mod : UInt32} (h : FieldInv p d)
    (hr : d.applyModifier l mod = .ok (d', l')) : FieldInv p d' := by
  unfold applyModifier at hr
  split at hr
  · rename_i f hf
    obtain ⟨g, hg, hr⟩ := Except.bind_eq_ok.mp hr
    cases hr
    have hlast := List.dropLast_append_getLast? f hf
    have hlen : (d.fields.dropLast ++ [g]).length = d.fields.length := by
      conv_rhs => rw [← hlast]
      simp
    refine ⟨h.platform, h.table, ?_, fun x hx => ?_, h.vec, h.oneofs⟩
    · change d.fieldCount = _
      rw [hlen]
      exact h.count
    · obtain hx | hx := List.mem_append.mp hx
      · exact h.offset x ((List.dropLast_sublist _).subset hx)
      · rw [List.mem_singleton.mp hx]
        exact modifyField_offset (h.offset f (List.mem_of_getLast? hf)) hg
  · split at hr
    · cases hr
    · cases hr
      exact h

@[simp] theorem endParse_platform (d : MtDecoder) (l : Locals) :
    (d.endParse l).platform = d.platform := by
  unfold endParse
  split_ifs <;> rfl

@[simp] theorem endParse_fields (d : MtDecoder) (l : Locals) : (d.endParse l).fields = d.fields := by
  unfold endParse
  split_ifs <;> rfl

@[simp] theorem endParse_oneofs (d : MtDecoder) (l : Locals) : (d.endParse l).oneofs = d.oneofs := by
  unfold endParse
  split_ifs <;> rfl

theorem endParse_parsed {l : Locals} (h : d.Parsed) : (d.endParse l).Parsed := by
  unfold endParse
  split_ifs
  · exact ⟨h.count, h.nonempty, h.oneofs, h.items⟩
  · exact h

/-- The oneofs add no field. -/
theorem decodeOneofs_frame {skip : Nat} {data : List UInt8}
    (hr : d.decodeOneofs item members skip data = .ok d') :
    d'.fields.length = d.fields.length ∧ d'.platform = d.platform := by
  have hpush : ∀ {d d' : MtDecoder} {item : LayoutItem} {members : List Nat},
      d.pushOneof item members = .ok d' → d'.fields = d.fields ∧ d'.platform = d.platform := by
    intro d d' item members h
    unfold pushOneof at h
    split at h <;> cases h
    exact ⟨rfl, rfl⟩
  induction data generalizing d item members skip with
  | nil =>
    rw [decodeOneofs] at hr
    exact ⟨congrArg List.length (hpush hr).1, (hpush hr).2⟩
  | cons ch rest ih =>
    cases skip with
    | succ skip =>
      rw [decodeOneofs] at hr
      exact ih hr
    | zero =>
      rw [decodeOneofs] at hr
      split_ifs at hr
      · exact ih hr
      · obtain ⟨d₁, h₁, hr⟩ := Except.bind_eq_ok.mp hr
        obtain ⟨hlen, hplat⟩ := ih hr
        exact ⟨by rw [hlen, (hpush h₁).1], by rw [hplat, (hpush h₁).2]⟩
      · obtain ⟨⟨skip, number⟩, -, hr⟩ := Except.bind_eq_ok.mp hr
        obtain ⟨⟨d₁, item₁, members₁⟩, h₁, hr⟩ := Except.bind_eq_ok.mp hr
        obtain ⟨i, f, -, -, rfl, -, -⟩ := addToOneof_eq_ok h₁
        obtain ⟨hlen, hplat⟩ := ih hr
        exact ⟨by simpa using hlen, hplat⟩

/-- **Parsing ends with the fields, or with the oneofs after them.** -/
theorem parse_ends {p : Platform} {l : Locals} {skip : Nat} {data rest : List UInt8} (h : FieldInv p d)
    (hr : d.parse l skip data = .ok (d', rest)) : ∃ d₁ d₂ l₁, FieldInv p d₁ ∧ d' = d₂.endParse l₁ ∧
      (d₂ = d₁ ∨ ∃ data, d₁.decodeOneofs ⟨indexSentinel, 0, .oneByte, .oneofCase⟩ [] 0 data = .ok d₂) := by
  induction data generalizing d l skip with
  | nil =>
    rw [parse] at hr
    cases hr
    exact ⟨d, d, l, h, rfl, .inl rfl⟩
  | cons ch data ih =>
    cases skip with
    | succ skip =>
      rw [parse] at hr
      exact ih h hr
    | zero =>
      rw [parse] at hr
      split at hr
      · -- a field
        rw [if_neg (by simp [h.table])] at hr
        obtain ⟨⟨f, subs⟩, hf, hr⟩ := Except.bind_eq_ok.mp hr
        dsimp only at hr
        refine ih ?_ hr
        refine ⟨h.platform, h.table, ?_, fun g hg => ?_, h.vec, h.oneofs⟩
        · simp [h.count]
        · obtain hg | hg := List.mem_append.mp hg
          · exact h.offset g hg
          · rw [List.mem_singleton.mp hg]
            exact setField_offset hf
      split at hr
      · -- a modifier
        obtain ⟨⟨skip, mod⟩, -, hr⟩ := Except.bind_eq_ok.mp hr
        obtain ⟨⟨d₁, l₁⟩, hm, hr⟩ := Except.bind_eq_ok.mp hr
        have h₁ := applyModifier_inv h hm
        dsimp only at hr
        refine ih ?_ hr
        exact ⟨h₁.platform, h₁.table, h₁.count, h₁.offset, h₁.vec, h₁.oneofs⟩
      split at hr
      · -- the oneofs
        rw [if_neg (by simp [h.table])] at hr
        obtain ⟨d₁, ho, hr⟩ := Except.bind_eq_ok.mp hr
        cases hr
        exact ⟨d, d₁, l, h, rfl, .inr ⟨data, ho⟩⟩
      split at hr
      · -- a skip
        obtain ⟨⟨skip, n⟩, -, hr⟩ := Except.bind_eq_ok.mp hr
        refine ih ?_ hr
        split_ifs
        · exact ⟨h.platform, h.table, h.count, h.offset, h.vec, h.oneofs⟩
        · exact h
      · cases hr

theorem start_inv (p : Platform) : FieldInv p (start p) := ⟨rfl, rfl, rfl, by simp [start], rfl, rfl⟩

/-- **A parsed message has its fields in oneofs as the layout expects**, if no count and no link wraps. -/
theorem parseMessage_linked {p : Platform} {data : List UInt8} (hr : parseMessage p data = .ok d)
    (hb : d.fields.length < 2 ^ 16) (hfit : d.LinksFit) : d.Parsed ∧ d.platform = p := by
  obtain ⟨⟨d', rest⟩, hr, hd⟩ := Except.bind_eq_ok.mp hr
  cases hd
  obtain ⟨d₁, d₂, l, h, rfl, rfl | ⟨data, ho⟩⟩ := parse_ends (start_inv p) hr
  · rw [endParse_fields] at hb
    exact ⟨endParse_parsed (h.parsed hb), by rw [endParse_platform, h.platform]⟩
  · rw [endParse_fields] at hb
    have hfit₂ : d₂.LinksFit := fun m hm => hfit m (by rwa [endParse_oneofs])
    obtain ⟨hlen, hplat⟩ := decodeOneofs_frame ho
    refine ⟨endParse_parsed (decodeOneofs_parsed (h.oneofInv (hlen ▸ hb)) ho hfit₂), ?_⟩
    rw [endParse_platform, hplat, h.platform]

/-- The members of oneofs are fields. -/
def MembersIn (d : MtDecoder) (members : List Nat) : Prop :=
  (∀ i ∈ members, i < d.fields.length) ∧ ∀ l ∈ d.oneofs, ∀ i ∈ l, i < d.fields.length

theorem pushOneof_membersIn (h : d.MembersIn members) (hr : d.pushOneof item members = .ok d') : d'.MembersIn [] := by
  obtain ⟨hfields, honeofs⟩ := pushOneof_oneofs hr
  refine ⟨by simp, fun l hl => ?_⟩
  rw [honeofs] at hl
  rw [hfields]
  obtain hl | hl := List.mem_append.mp hl
  · exact h.2 l hl
  · rw [List.mem_singleton.mp hl]
    exact h.1

theorem decodeOneofs_membersIn {skip : Nat} {data : List UInt8} (h : d.MembersIn members)
    (hr : d.decodeOneofs item members skip data = .ok d') : d'.MembersIn [] := by
  induction data generalizing d item members skip with
  | nil =>
    rw [decodeOneofs] at hr
    exact pushOneof_membersIn h hr
  | cons ch rest ih =>
    cases skip with
    | succ skip =>
      rw [decodeOneofs] at hr
      exact ih h hr
    | zero =>
      rw [decodeOneofs] at hr
      split_ifs at hr
      · exact ih h hr
      · obtain ⟨d₁, h₁, hr⟩ := Except.bind_eq_ok.mp hr
        exact ih (pushOneof_membersIn h h₁) hr
      · obtain ⟨⟨skip, number⟩, -, hr⟩ := Except.bind_eq_ok.mp hr
        obtain ⟨⟨d₁, item₁, members₁⟩, h₁, hr⟩ := Except.bind_eq_ok.mp hr
        obtain ⟨i, f, hf, -, rfl, -, rfl⟩ := addToOneof_eq_ok h₁
        have hlen : (d.fields.set i { f with offset := item.fieldIndex }).length = d.fields.length := List.length_set
        refine ih ⟨List.forall_mem_cons.mpr ⟨?_, fun j hj => ?_⟩, fun l hl j hj => ?_⟩ hr
        · exact Nat.lt_of_lt_of_eq (List.getElem?_eq_some_iff.mp hf).1 hlen.symm
        · exact Nat.lt_of_lt_of_eq (h.1 j hj) hlen.symm
        · exact Nat.lt_of_lt_of_eq (h.2 l hl j hj) hlen.symm

theorem parseMessage_membersIn {p : Platform} {data : List UInt8} (hr : parseMessage p data = .ok d) :
    ∀ l ∈ d.oneofs, ∀ i ∈ l, i < d.fields.length := by
  obtain ⟨⟨d', rest⟩, hr, hd⟩ := Except.bind_eq_ok.mp hr
  cases hd
  obtain ⟨d₁, d₂, l, h, rfl, hends⟩ := parse_ends (start_inv p) hr
  rw [endParse_fields, endParse_oneofs]
  have hstart : d₁.MembersIn [] := ⟨by simp, by simp [h.oneofs]⟩
  obtain rfl | ⟨data, ho⟩ := hends
  · exact hstart.2
  · exact (decodeOneofs_membersIn hstart ho).2

/-- **A parsed message with at most 65532 fields has them in oneofs as the layout expects.** -/
theorem parseMessage_parsed {p : Platform} {data : List UInt8} (hr : parseMessage p data = .ok d)
    (hb : d.fields.length ≤ 65532) : d.Parsed ∧ d.platform = p := by
  refine parseMessage_linked hr (by omega) fun l hl i hi => ?_
  exact Nat.lt_of_lt_of_le (parseMessage_membersIn hr l hl i (List.mem_of_mem_tail hi)) hb

end

end MtDecoder

end Hpb
