import Hpb.MiniDescriptor.CompareFields
import Hpb.MiniDescriptor.LayoutSound

/-!
# The fields of a message are aligned

An item is placed at a multiple of its own alignment, so a field in no oneof is aligned. The slot of a oneof has the
representation of the first member of the largest size, in this oneof or one before it (`DecodeOneofs` does not reset
it). On the 32-bit platform a string view is as large as an eight-byte field, but is aligned to 4 only.

* `place_offset`: where an item is placed,
* `SlotReps`: the invariant of `decodeOneofs` on the representations of the slots,
* `slot_offset`: the slots of string views lie one behind the other, from `viewsStart` on,
* `build_aligned_iff`: a table is aligned unless an eight-byte field is in such a slot, and these start at 4 modulo 8.
-/

namespace Hpb

/-- Every field is at a multiple of the alignment of its own representation, and the size is a multiple of 8. -/
structure MiniTable.Aligned (p : Platform) (t : MiniTable) : Prop where
  offset : ∀ f ∈ t.fields, f.offset % alignOfRep f.rep p = 0
  size : t.size % 8 = 0

theorem alignUp_mod (size align : Nat) : alignUp size align % align = 0 := Nat.mul_mod_left _ _

namespace MtDecoder

/-! ### Where an item is placed -/

section Space

variable {p : Platform} {size size' : Nat} {items items' : List LayoutItem} {it : LayoutItem}

/-- An item is placed behind the ones before it. -/
theorem place_offset (h : place p size items = .ok (items', size')) (hit : it ∈ items') :
    ∃ before it₀ after, items = before ++ it₀ :: after ∧ it.what = it₀.what ∧
      it.offset = alignUp (endOfItems p size before) (alignOfRep it₀.rep p) := by
  induction items generalizing size items' with
  | nil =>
    cases h
    exact absurd hit List.not_mem_nil
  | cons it₁ items ih =>
    rw [place] at h
    dsimp only at h
    split at h
    · cases h
    obtain ⟨⟨placed, n⟩, hp, h⟩ := Except.bind_eq_ok.mp h
    cases h
    obtain rfl | hit := List.mem_cons.mp hit
    · exact ⟨[], it₁, items, rfl, rfl, rfl⟩
    · obtain ⟨before, it₀, after, hitems, hwhat, hoffset⟩ := ih hp hit
      exact ⟨it₁ :: before, it₀, after, by rw [hitems, List.cons_append], hwhat, hoffset⟩

theorem place_aligned (h : place p size items = .ok (items', size')) (hit : it ∈ items') :
    it.offset % alignOfRep it.rep p = 0 := by
  obtain ⟨before, it₀, after, -, hwhat, hoffset⟩ := place_offset h hit
  rw [hoffset, show it.rep = it₀.rep from congrArg Prod.snd hwhat]
  exact alignUp_mod _ _

theorem endOfItems_append (p : Platform) (size : Nat) (items items' : List LayoutItem) :
    endOfItems p size (items ++ items') = endOfItems p (endOfItems p size items) items' := by
  induction items generalizing size with
  | nil => rfl
  | cons it items ih => exact ih _

/-- String views follow each other without a gap on the 32-bit platform. -/
theorem endOfItems_views (h : ∀ it ∈ items, it.rep = .stringView) :
    alignUp (endOfItems .bits32 size items) 4 % 8 = alignUp size 4 % 8 := by
  induction items generalizing size with
  | nil => rfl
  | cons it items ih =>
    have hrep := h it List.mem_cons_self
    change alignUp (endOfItems .bits32 (alignUp size (alignOfRep it.rep .bits32) + sizeOfRep it.rep .bits32) items) 4 % 8 = _
    rw [ih fun it hit => h it (List.mem_cons_of_mem _ hit), hrep]
    simp only [alignUp, alignOfRep, sizeOfRep]
    omega

end Space

/-- An item in front of the string views of oneofs. -/
def isSmall (it : LayoutItem) : Bool := upperBits it ≤ 3

/-- A list that is ordered by whether `c` holds has the elements with `c` first. -/
theorem eq_filter_append {α : Type} {c : α → Bool} {l : List α} (h : l.Pairwise fun a b => c b → c a) :
    l = l.filter c ++ l.filter (!c ·) := by
  induction l with
  | nil => rfl
  | cons a l ih =>
    obtain ⟨ha, hl⟩ := List.pairwise_cons.mp h
    cases hc : c a with
    | true =>
      rw [List.filter_cons_of_pos hc, List.filter_cons_of_neg (by simp [hc]), List.cons_append, ← ih hl]
    | false =>
      have hnone : l.filter c = [] := by
        rw [List.filter_eq_nil_iff]
        intro b hb hcb
        rw [ha b hb hcb] at hc
        cases hc
      have hall : l.filter (!c ·) = l := by
        conv_rhs => rw [ih hl, hnone, List.nil_append]
      rw [List.filter_cons_of_neg (by simp [hc]), List.filter_cons_of_pos (by simp [hc]), hnone, hall, List.nil_append]

/-! ### The slots of oneofs -/

/-- On the 32-bit platform no representation is larger. -/
def isLarge (r : FieldRep) : Bool := sizeOfRep r .bits32 == 8

/-- The representations of the members of a oneof, in the order in which the descriptor lists them. -/
def repsOf (fields : List MiniTableField) (members : List Nat) : List FieldRep :=
  members.reverse.filterMap fun i => (fields[i]?).map MiniTableField.rep

/-- The representations of the members of all oneofs. -/
def memberReps (d : MtDecoder) : List FieldRep := d.oneofs.flatMap (repsOf d.fields)

section Slots

variable {d d' : MtDecoder} {item item' : LayoutItem} {members members' : List Nat}

/-- The invariant of `decodeOneofs`: from the first large member on, all slots have its representation. -/
structure SlotReps (d : MtDecoder) (item : LayoutItem) (members : List Nat) : Prop where
  platform : d.platform = .bits32
  item : (d.memberReps ++ repsOf d.fields members).find? isLarge = if isLarge item.rep then some item.rep else none
  vec : ∀ it ∈ d.vec, it.type = .oneofField → isLarge it.rep →
    (d.memberReps ++ repsOf d.fields members).find? isLarge = some it.rep

theorem pushOneof_slotReps (h : SlotReps d item members) (hr : d.pushOneof item members = .ok d') :
    SlotReps d' { item with fieldIndex := indexSentinel } [] := by
  have hitem := h.item
  unfold pushOneof at hr
  split at hr <;> cases hr
  have hreps : ∀ fields : List MiniTableField, (d.oneofs ++ [members]).flatMap (repsOf fields) ++ repsOf fields [] =
      d.oneofs.flatMap (repsOf fields) ++ repsOf fields members := by
    intro fields
    simp [repsOf, List.flatMap_append]
  refine ⟨h.platform, (congrArg (List.find? isLarge) (hreps d.fields)).trans hitem, ?_⟩
  intro it hit hty hlarge
  refine (congrArg (List.find? isLarge) (hreps d.fields)).trans ?_
  simp only [pushItem, List.mem_append, List.mem_singleton] at hit
  obtain (hit | rfl) | rfl := hit
  · exact h.vec it hit hty hlarge
  · rw [if_pos hlarge] at hitem
    exact hitem
  · cases hty

theorem addToOneof_slotReps {number : Nat} (h : SlotReps d item members)
    (hr : d.addToOneof number item members = .ok (d', item', members')) : SlotReps d' item' members' := by
  obtain ⟨i, f, hf, -, rfl, rfl, rfl⟩ := addToOneof_eq_ok hr
  have hlt := (List.getElem?_eq_some_iff.mp hf).1
  have hreps : ∀ j : Nat, ((d.fields.set i { f with offset := item.fieldIndex })[j]?).map MiniTableField.rep =
      (d.fields[j]?).map MiniTableField.rep := by
    intro j
    obtain rfl | hj := eq_or_ne i j
    · rw [List.getElem?_set_self hlt, hf]
      rfl
    · rw [List.getElem?_set_ne hj]
  have hmembers : ∀ l : List Nat, repsOf (d.fields.set i { f with offset := item.fieldIndex }) l = repsOf d.fields l := by
    intro l
    simp only [repsOf, hreps]
  have hall : ∀ ls : List (List Nat), ls.flatMap (repsOf (d.fields.set i { f with offset := item.fieldIndex })) =
      ls.flatMap (repsOf d.fields) := fun ls => congrArg (ls.flatMap ·) (funext hmembers)
  have hcons : repsOf d.fields (i :: members) = repsOf d.fields members ++ [f.rep] := by
    simp [repsOf, hf]
  have hitem := h.item
  change (d.oneofs.flatMap (repsOf d.fields) ++ repsOf d.fields members).find? isLarge = _ at hitem
  refine ⟨h.platform, ?_, fun it hit hty hlarge => ?_⟩
  · change (d.oneofs.flatMap (repsOf _) ++ repsOf _ (i :: members)).find? isLarge = _
    rw [hall, hmembers, hcons, ← List.append_assoc, List.find?_append, hitem, h.platform]
    cases hir : item.rep <;> cases hfr : f.rep <;> rfl
  · change (d.oneofs.flatMap (repsOf _) ++ repsOf _ (i :: members)).find? isLarge = _
    have hfind := h.vec it hit hty hlarge
    change (d.oneofs.flatMap (repsOf d.fields) ++ repsOf d.fields members).find? isLarge = _ at hfind
    rw [hall, hmembers, hcons, ← List.append_assoc, List.find?_append, hfind]
    rfl

theorem decodeOneofs_slotReps {skip : Nat} {data : List UInt8} (h : SlotReps d item members)
    (hr : d.decodeOneofs item members skip data = .ok d') : ∃ item, SlotReps d' item [] := by
  induction data generalizing d item members skip with
  | nil =>
    rw [decodeOneofs] at hr
    exact ⟨_, pushOneof_slotReps h hr⟩
  | cons ch rest ih =>
    cases skip with
    | succ skip =>
      rw [decodeOneofs] at hr
      exact ih h hr
    | zero =>
      rw [decodeOneofs] at hr
      split_ifs at hr
      · exact ih h hr
      · obtain ⟨d₁, h₁, hr⟩ := Except.bind_eq_ok.mp hr
        exact ih (pushOneof_slotReps h h₁) hr
      · obtain ⟨⟨skip, number⟩, -, hr⟩ := Except.bind_eq_ok.mp hr
        obtain ⟨⟨d₁, item₁, members₁⟩, h₁, hr⟩ := Except.bind_eq_ok.mp hr
        exact ih (addToOneof_slotReps h h₁) hr

/-- A large slot has the representation of the first large member of a oneof. -/
theorem parseMessage_slotReps {data : List UInt8} (hr : parseMessage .bits32 data = .ok d) :
    ∀ it ∈ d.vec, it.type = .oneofField → isLarge it.rep → d.memberReps.find? isLarge = some it.rep := by
  obtain ⟨⟨d', rest⟩, hr, hd⟩ := Except.bind_eq_ok.mp hr
  cases hd
  obtain ⟨d₁, d₂, l, h, rfl, hends⟩ := parse_ends (start_inv .bits32) hr
  have hsame : (d₂.endParse l).vec = d₂.vec ∧ (d₂.endParse l).memberReps = d₂.memberReps := by
    unfold endParse
    split <;> exact ⟨rfl, rfl⟩
  rw [hsame.1, hsame.2]
  obtain rfl | ⟨data, ho⟩ := hends
  · rw [h.vec]
    exact fun it hit => absurd hit List.not_mem_nil
  · have hstart : SlotReps d₁ ⟨indexSentinel, 0, .oneByte, .oneofCase⟩ [] := by
      refine ⟨h.platform, ?_, fun it hit => ?_⟩
      · simp [memberReps, h.oneofs, repsOf, isLarge, sizeOfRep]
      · rw [h.vec] at hit
        exact absurd hit List.not_mem_nil
    obtain ⟨item, hslots⟩ := decodeOneofs_slotReps hstart ho
    intro it hit hty hlarge
    have hfind := hslots.vec it hit hty hlarge
    rwa [show repsOf d₂.fields [] = [] from rfl, List.append_nil] at hfind

end Slots

/-! ### The table -/

section Table

variable {d : MtDecoder} {fs : List MiniTableField} {bytes size : Nat} {items : List LayoutItem}

/-- Where the slots of string views start on the 32-bit platform. -/
def viewsStart (d : MtDecoder) : Nat :=
  alignUp (endOfItems .bits32 (hasbitBytes d.fields) (d.sortLayoutItems.filter isSmall)) 4

/-- **An eight-byte member of a oneof is at 4 modulo 8**: the platform is the 32-bit one, the first large member of a
oneof is a string view, another one is not, and the slots of string views start at 4 modulo 8. -/
structure Misaligned (d : MtDecoder) : Prop where
  platform : d.platform = .bits32
  first : d.memberReps.find? isLarge = some .stringView
  member : .eightByte ∈ d.memberReps
  start : d.viewsStart % 8 ≠ 0

/-- The sorted items are ordered by their upper bits. -/
theorem sortLayoutItems_upperBits (h : ∀ it ∈ d.layoutItems, Unplaced it) :
    d.sortLayoutItems.Pairwise fun a b => upperBits a ≤ upperBits b := by
  obtain ⟨hperm, hsorted⟩ := d.sortLayoutItems_sorted
  refine hsorted.imp_of_mem fun {a b} ha hb hab => ?_
  rw [compareFields_neg, packedKey_lt_iff (h b (hperm.mem_iff.mp hb)).index (h a (hperm.mem_iff.mp ha)).index] at hab
  omega

theorem upperBits_view {it : LayoutItem} (hty : it.type = .oneofField) (hrep : it.rep = .stringView) :
    upperBits it = 5 := by
  simp [upperBits, hty, hrep, FieldRep.bits, LayoutItemType.number]

theorem rep_of_upperBits {it : LayoutItem} (h₁ : 3 < upperBits it) (h₂ : upperBits it ≤ 5) : it.rep = .stringView := by
  unfold upperBits at h₁ h₂
  cases hrep : it.rep <;> cases hty : it.type <;> simp_all [FieldRep.bits, LayoutItemType.number]

/-- **The slots of string views lie one behind the other**, after the small items. -/
theorem slot_offset {before after : List LayoutItem} {it : LayoutItem} (h : ∀ it ∈ d.layoutItems, Unplaced it)
    (hs : d.sortLayoutItems = before ++ it :: after) (hty : it.type = .oneofField) (hrep : it.rep = .stringView) :
    alignUp (endOfItems .bits32 (hasbitBytes d.fields) before) 4 % 8 = d.viewsStart % 8 := by
  have hupper := upperBits_view hty hrep
  have hpair := sortLayoutItems_upperBits h
  rw [hs, List.pairwise_append, List.pairwise_cons] at hpair
  obtain ⟨hbefore, ⟨hafter, -⟩, hcross⟩ := hpair
  have hsplit : before = before.filter isSmall ++ before.filter (!isSmall ·) := by
    refine eq_filter_append (hbefore.imp fun {a b} hab hb => ?_)
    simp only [isSmall, decide_eq_true_eq] at hb ⊢
    omega
  have hsmall : d.sortLayoutItems.filter isSmall = before.filter isSmall := by
    have hnone : (it :: after).filter isSmall = [] := by
      rw [List.filter_eq_nil_iff]
      intro a ha
      simp only [isSmall, decide_eq_true_eq]
      obtain rfl | ha := List.mem_cons.mp ha
      · omega
      · have := hafter a ha
        omega
    rw [hs, List.filter_append, hnone, List.append_nil]
  have hviews : ∀ a ∈ before.filter (!isSmall ·), a.rep = .stringView := by
    intro a ha
    obtain ⟨ha, hlarge⟩ := List.mem_filter.mp ha
    simp only [isSmall, Bool.not_eq_true', decide_eq_false_iff_not] at hlarge
    exact rep_of_upperBits (by omega) (hupper ▸ hcross a ha it List.mem_cons_self)
  unfold viewsStart
  rw [hsmall]
  conv_lhs => rw [hsplit, endOfItems_append]
  exact endOfItems_views hviews

/-- The item that a field is at, if it is in no oneof. -/
theorem Placed.field_offset {i : Nat} {f : MiniTableField} (h : d.Placed fs bytes items size) (hd : d.Parsed)
    (hf : d.fields[i]? = some f) (hi : ∀ l ∈ d.oneofs, i ∉ l) :
    ∃ b ∈ items, b.rep = f.rep ∧ ∃ x, (tableFields fs items)[i]? = some { f with presence := x, offset := b.offset } := by
  have hx : shape d.fields i = some (f.offset, f.rep) := by simp [shape, hf]
  obtain ⟨b, hb, hw⟩ := h.isItems.fieldItem i _ hx hi
  have hm := (h.field_eq hd hf hi).1
  have hk : b.key = unitKey (.field i) := congrArg Prod.fst hw
  rw [unitRange_eq h.isItems hb hk (by simp)] at hm
  exact ⟨b, hb, congrArg Prod.snd hw, _, hm⟩

/-- The slot that a member of a oneof is at. -/
theorem Placed.member_offset {l : List Nat} {i : Nat} {f : MiniTableField} (h : d.Placed fs bytes items size)
    (hd : d.Parsed) (hl : l ∈ d.oneofs) (hi : i ∈ l) (hf : d.fields[i]? = some f) :
    ∃ b ∈ items, b.type = .oneofField ∧ sizeOfRep f.rep d.platform ≤ sizeOfRep b.rep d.platform ∧
      ∃ x, (tableFields fs items)[i]? = some { f with presence := x, offset := b.offset } := by
  obtain ⟨b, hb, k, r, hk, hw, hsize⟩ := h.isItems.slotItem l hl
  have hkey : b.key = unitKey (.oneofSlot l) := by
    rw [unitKey, List.headD_eq_head?_getD, hk]
    exact congrArg Prod.fst hw
  have hm := (h.member_eq hd hl hi hf).1
  rw [unitRange_eq h.isItems hb hkey (by simp)] at hm
  refine ⟨b, hb, congrArg (·.1.1) hw, ?_, _, hm⟩
  rw [show b.rep = r from congrArg Prod.snd hw]
  exact hsize i hi (f.offset, f.rep) (by simp [shape, hf])

/-- A large slot on the 32-bit platform. -/
theorem large_slot {data : List UInt8} {b : LayoutItem} (hp : parseMessage .bits32 data = .ok d)
    (hr : place .bits32 (hasbitBytes d.fields) d.sortLayoutItems = .ok (items, size)) (hb : b ∈ items) (hty : b.type = .oneofField)
    (hlarge : isLarge b.rep) : d.memberReps.find? isLarge = some b.rep ∧
      (b.rep = .stringView → b.offset % 8 = d.viewsStart % 8) := by
  obtain ⟨before, it, after, hs, hwhat, hoffset⟩ := place_offset hr hb
  have hrep : b.rep = it.rep := congrArg Prod.snd hwhat
  have hty' : it.type = .oneofField := (congrArg (·.1.1) hwhat).symm.trans hty
  have hit : it ∈ d.layoutItems := by
    rw [← d.sortLayoutItems_sorted.1.mem_iff, hs]
    exact List.mem_append_right _ List.mem_cons_self
  have hvec : it ∈ d.vec := by
    refine (List.mem_append.mp hit).resolve_right fun hfield => ?_
    obtain ⟨i, f, -, -, -, rfl⟩ := mem_fieldItems.mp hfield
    cases hty'
  refine ⟨?_, fun hview => ?_⟩
  · rw [hrep] at hlarge ⊢
    exact parseMessage_slotReps hp it hvec hty' hlarge
  · rw [hrep] at hview
    rw [hoffset, hview]
    exact slot_offset (parseMessage_unplaced hp) hs hty' hview

/-- A slot is aligned for the members that fit in it, but for an eight-byte field in the slot of a string view. -/
theorem alignOfRep_dvd {r s : FieldRep} {p : Platform} (h : sizeOfRep r p ≤ sizeOfRep s p)
    (hne : ¬(p = .bits32 ∧ r = .eightByte ∧ s = .stringView)) : alignOfRep r p ∣ alignOfRep s p := by
  cases p <;> cases r <;> cases s <;> simp_all [sizeOfRep, alignOfRep]

theorem allocateSubs_rep (hc : d.fieldCount = d.fields.length) (i : Nat) :
    (d.allocateSubs.fields[i]?).map MiniTableField.rep = (d.fields[i]?).map MiniTableField.rep := by
  obtain ⟨g, hg, hsame⟩ := allocateSubs_getElem? hc i
  rw [hg, Option.map_map]
  refine congrArg (Option.map · _) (funext fun f => ?_)
  simp [MiniTableField.rep, hsame f]

theorem mem_memberReps {r : FieldRep} :
    r ∈ d.memberReps ↔ ∃ l ∈ d.oneofs, ∃ i ∈ l, ∃ f, d.fields[i]? = some f ∧ f.rep = r := by
  simp [memberReps, repsOf]

/-- The fields of a layout are aligned if and only if no eight-byte member of a oneof is at 4 modulo 8. -/
theorem layout_aligned_iff {p : Platform} {data : List UInt8} {fields : List MiniTableField} {requiredCount : Nat}
    (hp : parseMessage p data = .ok d) (hn : d.fields.length ≤ 65532) (hl : d.layout = .ok (fields, requiredCount, size)) :
    (∀ f ∈ fields, f.offset % alignOfRep f.rep p = 0) ↔ ¬d.Misaligned := by
  obtain ⟨hd, rfl⟩ := parseMessage_parsed hp hn
  obtain ⟨fs, items, hplaced, rfl, hplace⟩ := hd.layout_items hl
  have hd' := allocateSubs_parsed hd
  constructor
  · rintro haligned ⟨hplat, hfirst, hmember, hstart⟩
    obtain ⟨l, hl, i, hi, f, hf, height⟩ := mem_memberReps.mp hmember
    obtain ⟨f', hf', hr⟩ := Option.map_eq_some_iff.mp ((allocateSubs_rep hd.count i).trans (congrArg _ hf))
    obtain ⟨b, hb, hty, hsize, x, hget⟩ := hplaced.member_offset hd' (allocateSubs_oneofs d ▸ hl) hi hf'
    rw [allocateSubs_platform, hplat, hr, height] at hsize
    have hlarge : isLarge b.rep := by
      cases hb : b.rep <;> simp_all [isLarge, sizeOfRep]
    rw [hplat] at hp hplace
    obtain ⟨hfind, hoffset⟩ := large_slot hp hplace hb hty hlarge
    have hview : b.rep = .stringView := Option.some.inj (hfind.symm.trans hfirst)
    have hmod := haligned _ (List.mem_of_getElem? hget)
    have hsame : ({ f' with presence := x, offset := b.offset } : MiniTableField).rep = .eightByte := hr.trans height
    rw [hsame, hplat] at hmod
    exact hstart ((hoffset hview).symm.trans hmod)
  · intro hno g hg
    obtain ⟨i, hget⟩ := List.mem_iff_getElem?.mp hg
    obtain ⟨f, hf⟩ := hplaced.exists_field hget
    by_cases hmem : ∃ l ∈ d.oneofs, i ∈ l
    · obtain ⟨l, hl, hi⟩ := hmem
      obtain ⟨b, hb, hty, hsize, x, hget'⟩ := hplaced.member_offset hd' (allocateSubs_oneofs d ▸ hl) hi hf
      obtain rfl := Option.some.inj (hget.symm.trans hget')
      rw [allocateSubs_platform] at hsize
      have halign := place_aligned hplace hb
      change b.offset % alignOfRep f.rep d.platform = 0
      by_cases hcase : d.platform = .bits32 ∧ f.rep = .eightByte ∧ b.rep = .stringView
      · obtain ⟨hplat, height, hview⟩ := hcase
        rw [hplat] at hp hplace
        obtain ⟨hfind, hoffset⟩ := large_slot hp hplace hb hty (by rw [hview]; rfl)
        obtain ⟨f', hf', hr⟩ := Option.map_eq_some_iff.mp ((allocateSubs_rep hd.count i).symm.trans (congrArg _ hf))
        have hin : .eightByte ∈ d.memberReps := mem_memberReps.mpr ⟨l, hl, i, hi, f', hf', hr.trans height⟩
        rw [height, hplat]
        change b.offset % 8 = 0
        rw [hoffset hview]
        by_contra hstart
        exact hno ⟨hplat, hview ▸ hfind, hin, hstart⟩
      · exact Nat.mod_eq_zero_of_dvd (Nat.dvd_trans (alignOfRep_dvd hsize hcase) (Nat.dvd_of_mod_eq_zero halign))
    · have hno : ∀ l ∈ d.allocateSubs.oneofs, i ∉ l := by
        rw [allocateSubs_oneofs]
        exact fun l hl hi => hmem ⟨l, hl, hi⟩
      obtain ⟨b, hb, hbr, x, hget'⟩ := hplaced.field_offset hd' hf hno
      obtain rfl := Option.some.inj (hget.symm.trans hget')
      have halign := place_aligned hplace hb
      rwa [hbr] at halign

theorem alignOfRep_dvd_eight (r : FieldRep) (p : Platform) : alignOfRep r p ∣ 8 := by
  cases r <;> cases p <;> decide

theorem emptyTable_aligned (p : Platform) (ext : Nat) : (emptyTable ext).Aligned p :=
  ⟨fun _ hf => absurd hf List.not_mem_nil, rfl⟩

/-- The fields of a map entry are at multiples of 8. -/
theorem mapTable_aligned {t : MiniTable} (hc : d.fieldCount = d.fields.length) (ht : d.mapTable = .ok t) :
    t.Aligned d.platform := by
  obtain ⟨⟨fields, requiredCount, bytes⟩, hh, ht⟩ := Except.bind_eq_ok.mp ht
  have hlen : d.allocateSubs.fields.length = d.fields.length := by
    simpa using congrArg List.length (allocateSubs_offsets hc)
  have hget := (assignHasbits_spec ((allocateSubs_fieldCount d).trans (hc.trans hlen.symm)) hh).1
  dsimp only at ht
  by_cases htwo : d.allocateSubs.fieldCount = 2
  case neg =>
    rw [if_pos htwo] at ht
    cases ht
  rw [if_neg (not_not.mpr htwo)] at ht
  rw [allocateSubs_fieldCount, hc] at htwo
  split at ht
  · rename_i key val rest
    split at ht
    · cases ht
    obtain ⟨-, -, ht⟩ := Except.bind_eq_ok.mp ht
    obtain ⟨-, -, ht⟩ := Except.bind_eq_ok.mp ht
    cases ht
    have hrest : rest = [] := by
      have hnone := hget 2
      rw [show d.allocateSubs.fields[2]? = none from List.getElem?_eq_none (by omega)] at hnone
      simpa using hnone
    subst hrest
    rw [allocateSubs_platform]
    cases hplat : d.platform
    all_goals
      refine ⟨fun f hf => ?_, alignUp_mod _ _⟩
      have hoffset : 8 ∣ f.offset := by
        simp only [List.mem_cons, List.not_mem_nil, or_false] at hf
        obtain rfl | rfl := hf <;> dsimp only <;> decide
      exact Nat.mod_eq_zero_of_dvd (Nat.dvd_trans (alignOfRep_dvd_eight _ _) hoffset)
  · cases ht

theorem messageTable_aligned_iff {p : Platform} {data : List UInt8} {t : MiniTable} (hp : parseMessage p data = .ok d)
    (hn : d.fields.length ≤ 65532) (ht : d.messageTable = .ok t) : t.Aligned p ↔ ¬d.Misaligned := by
  obtain ⟨⟨fields, requiredCount, size⟩, hl, ht⟩ := Except.bind_eq_ok.mp ht
  cases ht
  rw [← layout_aligned_iff hp hn hl]
  refine ⟨MiniTable.Aligned.offset, fun h => ⟨h, ?_⟩⟩
  change alignUp size 8 % 2 ^ 16 % 8 = 0
  have := alignUp_mod size 8
  omega

end Table

/-- A `string` and an `int64` in a oneof, parsed. -/
def viewOneof : MtDecoder where
  platform := .bits32
  extension := false
  fields := [⟨1, 65535, 0, noSub, .bytes, 146⟩, ⟨2, 3, 0, noSub, .int64, 194⟩]
  fieldCount := 2
  denseBelow := 2
  ext := 0
  subCounts := ⟨0, 0⟩
  vec := [⟨1, 0, .stringView, .oneofField⟩, ⟨1, 0, .fourByte, .oneofCase⟩]
  oneofs := [[1, 0]]

/-- The layout of `viewOneof`: the `int64` is at 4. -/
theorem viewOneof_layout : viewOneof.layout = .ok
    ([⟨1, 4, -1, noSub, .bytes, 146⟩, ⟨2, 4, -1, noSub, .int64, 194⟩], 0, 12) := by
  have hsort : sortLayoutItems viewOneof = [⟨1, 0, .fourByte, .oneofCase⟩, ⟨1, 0, .stringView, .oneofField⟩] := by
    change ((viewOneof.vec ++ fieldItems viewOneof.fields 2).mergeSort _) = _
    rw [show fieldItems viewOneof.fields 2 = [] by decide]
    simp [viewOneof, List.mergeSort, List.MergeSort.Internal.splitInTwo, packedKey, FieldRep.bits]
  change (assignOffsets .bits32 0 (sortLayoutItems viewOneof) viewOneof.fields >>= fun r => .ok (r.1, 0, r.2)) = _
  rw [hsort]
  rfl

theorem build_viewOneof : build .bits32 [36, 49, 43, 94, 33, 124, 35] = viewOneof.messageTable := by
  have hp : parseMessage .bits32 [49, 43, 94, 33, 124, 35] = .ok viewOneof := by decide
  exact build_message (fun v hv => (Option.some.inj hv).symm) hp

end MtDecoder

end Hpb
