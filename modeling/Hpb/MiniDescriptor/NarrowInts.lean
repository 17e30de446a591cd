import Hpb.MiniDescriptor.Alignment
import Hpb.MiniDescriptor.SubIndexes

/-!
# The narrow integers of a table

A table holds the number of its fields in 16 bits and that of the required ones in 8, has-bits and the complements of
the offsets of oneof cases in a signed 16-bit `presence`, and sub-tables by 16-bit indexes. While it is built, the
16-bit `offset` of a member of a oneof is the link to the next one. The counters behind them are wider, and nothing but
the size of the message is checked before they are stored.

* `NarrowRight`: all of them hold what is meant,
* `Narrow`: what must be small for it,
* `place_caseStart`: where the case of a oneof is placed,
* `build_narrowRight_iff`: the integers are right if and only if all this is small.
-/

namespace Hpb

theorem toInt16_eq_iff {x : Int} : toInt16 x = x ↔ -2 ^ 15 ≤ x ∧ x < 2 ^ 15 := by
  unfold toInt16
  omega

namespace MtDecoder

/-- The has-bit that is meant for a field: the required ones come first. -/
def hasbitIndex (fs : List MiniTableField) (i : Nat) (f : MiniTableField) : Nat :=
  if f.offset = requiredPresence then rank isRequired fs i else fs.countP isRequired + rank isOptional fs i

/-- The field gets a has-bit. -/
def HasHasbit (f : MiniTableField) : Prop := f.offset = requiredPresence ∨ f.offset = hasbitPresence

/-- **The narrow integers of the table `t` of the parsed message `d` hold what is meant**: the numbers of fields and of
required ones, has-bits, the links of the oneofs, the complements of the offsets where the cases are placed, and the
indexes of sub-tables. -/
structure NarrowRight (d : MtDecoder) (t : MiniTable) : Prop where
  fieldCount : t.fieldCount = d.fields.length
  requiredCount : t.requiredCount = d.fields.countP isRequired
  requiredMax : d.fields.countP isRequired ≤ 63
  hasbit : ∀ (i : Nat) (f : MiniTableField), d.fields[i]? = some f → HasHasbit f →
    ∃ g : MiniTableField, t.fields[i]? = some g ∧ g.presence = hasbitIndex d.fields i f
  link : ∀ l ∈ d.oneofs, ∀ i ∈ l.tail, linkTarget ((i + oneofBase) % 2 ^ 16) = some i
  oneof : ∀ items size, place d.platform (hasbitBytes d.fields) d.sortLayoutItems = .ok (items, size) →
    ∀ it ∈ items, it.type = .oneofCase → ∀ l ∈ d.oneofs, l.head? = some it.fieldIndex → ∀ i ∈ l,
      ∃ g : MiniTableField, t.fields[i]? = some g ∧ g.presence = -(it.offset : Int) - 1
  subs : t.SubsInOrder

/-- Where the case of the oneof with the first member `i` is to be placed: behind the has-bits and the items that are
sorted before it. -/
def caseStart (d : MtDecoder) (i : Nat) : Nat :=
  alignUp (endOfItems d.platform (hasbitBytes d.fields)
    (d.sortLayoutItems.filter fun it => packedKey it < packedKey ⟨i, 0, .fourByte, .oneofCase⟩)) 4

/-- **What must be small**: the numbers of fields, of required fields and of has-bits, the indexes of the members that
others are linked to, and the bytes before the case of each oneof. -/
structure Narrow (d : MtDecoder) : Prop where
  fields : d.fields.length < 2 ^ 16
  required : d.fields.countP isRequired ≤ 63
  hasbits : hasbitCount d.fields < 2 ^ 15
  links : d.LinksFit
  cases : ∀ l ∈ d.oneofs, ∀ i ∈ l.head?, d.caseStart i < 2 ^ 15

/-! ### Has-bits -/

section Hasbits

variable {fs : List MiniTableField} {i : Nat} {f : MiniTableField}

theorem hasbit_eq (hf : HasHasbit f) : hasbit fs i f = toInt16 (hasbitIndex fs i f) := by
  by_cases hr : f.offset = requiredPresence
  · rw [hasbit, if_pos hr, hasbitIndex, if_pos hr]
  · rw [hasbit, if_neg hr, if_pos (hf.resolve_left hr), hasbitIndex, if_neg hr]

theorem hasbitIndex_le (fs : List MiniTableField) (i : Nat) (f : MiniTableField) :
    hasbitIndex fs i f ≤ hasbitCount fs := by
  have hr := rank_le isRequired fs i
  have ho := rank_le isOptional fs i
  unfold hasbitIndex hasbitCount
  split <;> omega

/-- The last field of a class has the highest rank. -/
theorem exists_last {c : MiniTableField → Bool} (h : 0 < fs.countP c) :
    ∃ (i : Nat) (f : MiniTableField), fs[i]? = some f ∧ c f ∧ rank c fs i = fs.countP c := by
  induction fs with
  | nil => exact absurd h (Nat.lt_irrefl 0)
  | cons f fs ih =>
    by_cases hrest : 0 < fs.countP c
    · obtain ⟨i, g, hg, hc, hrank⟩ := ih hrest
      refine ⟨i + 1, g, hg, hc, ?_⟩
      rw [rank_cons_succ, hrank, List.countP_cons, Nat.add_comm]
    · have hzero : fs.countP c = 0 := Nat.eq_zero_of_not_pos hrest
      have hc : c f := by
        by_contra hc
        rw [List.countP_cons_of_neg hc] at h
        exact hrest h
      refine ⟨0, f, rfl, hc, ?_⟩
      rw [List.countP_cons_of_pos hc, hzero]
      simp [rank, hc]

/-- The last has-bit belongs to a field. -/
theorem exists_lastHasbit (h : 0 < hasbitCount fs) :
    ∃ (i : Nat) (f : MiniTableField), fs[i]? = some f ∧ HasHasbit f ∧ hasbitIndex fs i f = hasbitCount fs := by
  unfold hasbitCount at h ⊢
  by_cases ho : 0 < fs.countP isOptional
  · obtain ⟨i, f, hf, hc, hrank⟩ := exists_last ho
    have hclass : f.offset = hasbitPresence := by simpa [ofClass] using hc
    refine ⟨i, f, hf, .inr hclass, ?_⟩
    rw [hasbitIndex, if_neg (by rw [hclass]; decide), hrank]
  · obtain ⟨i, f, hf, hc, hrank⟩ := exists_last (by omega : 0 < fs.countP isRequired)
    have hclass : f.offset = requiredPresence := by simpa [ofClass] using hc
    refine ⟨i, f, hf, .inl hclass, ?_⟩
    rw [hasbitIndex, if_pos hclass]
    omega

/-- Has-bits are exact in 16 bits if and only if there are less than `2 ^ 15`. -/
theorem hasbits_exact_iff :
    (∀ (i : Nat) (f : MiniTableField), fs[i]? = some f → HasHasbit f → hasbit fs i f = hasbitIndex fs i f) ↔
      hasbitCount fs < 2 ^ 15 := by
  constructor
  · intro h
    by_contra hcount
    obtain ⟨i, f, hf, hclass, hindex⟩ := exists_lastHasbit (by omega : 0 < hasbitCount fs)
    have hexact := h i f hf hclass
    rw [hasbit_eq hclass, toInt16_eq_iff] at hexact
    omega
  · intro hcount i f _ hclass
    have hle := hasbitIndex_le fs i f
    rw [hasbit_eq hclass, toInt16_eq_iff]
    omega

/-- The number of required fields is stored in 8 bits before it is checked. -/
theorem assignHasbits_required {d : MtDecoder} {requiredCount size : Nat} (hc : d.fieldCount = d.fields.length)
    (h : d.allocateSubs.assignHasbits = .ok (fs, requiredCount, size)) :
    requiredCount = d.fields.countP isRequired % 2 ^ 8 ∧ requiredCount ≤ 63 := by
  have hc' : d.allocateSubs.fieldCount = d.allocateSubs.fields.length := by
    rw [allocateSubs_fieldCount, hc, allocateSubs_length]
  rw [← countP_congr_offset (allocateSubs_offsets hc)]
  generalize d.allocateSubs = d₁ at h hc'
  unfold assignHasbits at h
  rw [hc', List.take_length] at h
  simp only [(assignRequired_spec 0 d₁.fields).1, Nat.zero_add] at h
  split at h
  next => cases h
  next hle =>
    cases h
    exact ⟨rfl, Nat.le_of_not_lt hle⟩

theorem layout_required {d : MtDecoder} {requiredCount size : Nat} (hc : d.fieldCount = d.fields.length)
    (h : d.layout = .ok (fs, requiredCount, size)) :
    requiredCount = d.fields.countP isRequired % 2 ^ 8 ∧ requiredCount ≤ 63 := by
  obtain ⟨⟨fs', requiredCount', bytes⟩, hh, h⟩ := Except.bind_eq_ok.mp h
  obtain ⟨⟨fs'', size'⟩, -, h⟩ := Except.bind_eq_ok.mp h
  cases h
  exact assignHasbits_required hc hh

end Hasbits

/-! ### Oneofs -/

/-- A link of 16 bits leads to a field if and only if the field is one of the first 65532. -/
theorem linkTarget_iff {i : Nat} (hi : i < 2 ^ 16) : linkTarget ((i + oneofBase) % 2 ^ 16) = some i ↔ i < 65532 := by
  refine ⟨fun h => ?_, linkTarget_of_lt⟩
  unfold linkTarget at h
  split at h
  next => cases h
  next hne =>
    have hsub := Option.some.inj h
    unfold oneofBase indexSentinel at *
    omega

section Cases

variable {d : MtDecoder} {items : List LayoutItem} {size : Nat} {it : LayoutItem}

theorem upperBits_oneofCase {it : LayoutItem} (hty : it.type = .oneofCase) (hrep : it.rep = .fourByte) :
    upperBits it = 2 := by
  simp [upperBits, hty, hrep, FieldRep.bits, LayoutItemType.number]

/-- No other item has the number of the case of a oneof. -/
theorem eq_of_packedKey {gs : List (List Nat)} {s : Nat → Option (Nat × FieldRep)} {a b : LayoutItem}
    (h : LayoutItems d.platform s gs items) (hu : ∀ it ∈ items, Unplaced it) (ha : a ∈ items) (hb : b ∈ items)
    (hty : a.type = .oneofCase) (hk : packedKey b = packedKey a) : b = a := by
  have hrep := (hu a ha).oneofCase hty
  have hupper : upperBits b = 2 ∧ b.fieldIndex = a.fieldIndex := by
    have hbits := upperBits_oneofCase hty hrep
    have hia := (hu a ha).index
    have hib := (hu b hb).index
    rw [packedKey_eq hia, packedKey_eq hib, hbits] at hk
    omega
  refine h.eq_of_key hb ha (Prod.ext ?_ hupper.2)
  change b.type = a.type
  rw [hty]
  cases hbt : b.type with
  | oneofCase => rfl
  | oneofField =>
    have hodd := hupper.1
    cases hbr : b.rep <;> simp [upperBits, hbt, hbr, FieldRep.bits, LayoutItemType.number] at hodd
  | field =>
    -- the first member of the oneof is in no oneof
    obtain ⟨l, hl, hhead⟩ := h.oneof a ha (by rw [hty]; decide)
    exact absurd (hupper.2 ▸ List.mem_of_head? hhead) (h.field b hb hbt l hl)

/-- **The case of a oneof is placed** behind the has-bits and the items before it. -/
theorem place_caseStart (h : LayoutItems d.platform (shape d.fields) d.oneofs d.sortLayoutItems)
    (hu : ∀ it ∈ d.layoutItems, Unplaced it)
    (hplace : place d.platform (hasbitBytes d.fields) d.sortLayoutItems = .ok (items, size)) (hit : it ∈ items)
    (hty : it.type = .oneofCase) : it.offset = d.caseStart it.fieldIndex := by
  obtain ⟨hperm, hsorted⟩ := d.sortLayoutItems_sorted
  have hu' : ∀ it ∈ d.sortLayoutItems, Unplaced it := fun it hit => hu it (hperm.mem_iff.mp hit)
  obtain ⟨before, it₀, after, hsplit, hwhat, hoffset⟩ := place_offset hplace hit
  have hmem : it₀ ∈ d.sortLayoutItems := hsplit ▸ List.mem_append_right _ List.mem_cons_self
  have hty₀ : it₀.type = .oneofCase := (congrArg (·.1.1) hwhat).symm.trans hty
  have hindex : it.fieldIndex = it₀.fieldIndex := congrArg (·.1.2) hwhat
  have hrep := (hu' it₀ hmem).oneofCase hty₀
  have halign : alignOfRep it₀.rep d.platform = 4 := by
    rw [hrep]
    cases d.platform <;> rfl
  have hkey : packedKey it₀ = packedKey ⟨it.fieldIndex, 0, .fourByte, .oneofCase⟩ := by
    rw [hindex]
    simp [packedKey, hty₀, hrep]
  rw [Sorted, hsplit, List.pairwise_append, List.pairwise_cons] at hsorted
  obtain ⟨-, ⟨hafter, -⟩, hcross⟩ := hsorted
  have hnodup := h.nodup
  rw [hsplit, List.map_append, List.map_cons] at hnodup
  have hbefore : ∀ a ∈ before, packedKey a < packedKey it₀ := by
    intro a ha
    have hle := hcross a ha it₀ List.mem_cons_self
    rw [compareFields_neg] at hle
    refine Nat.lt_of_le_of_ne (Nat.le_of_not_lt hle) fun hk => ?_
    obtain rfl := eq_of_packedKey h hu' hmem (hsplit ▸ List.mem_append_left _ ha) hty₀ hk
    exact (List.nodup_append.mp hnodup).2.2 _ (List.mem_map_of_mem ha) _ List.mem_cons_self rfl
  have hfilter : d.sortLayoutItems.filter (fun a => packedKey a < packedKey it₀) = before := by
    have hnone : (it₀ :: after).filter (fun a => packedKey a < packedKey it₀) = [] := by
      refine List.filter_eq_nil_iff.mpr (List.forall_mem_cons.mpr ⟨by simp, fun a ha => ?_⟩)
      have hnot := hafter a ha
      rw [compareFields_neg] at hnot
      simpa using hnot
    rw [hsplit, List.filter_append, hnone, List.append_nil]
    exact List.filter_eq_self.mpr fun a ha => decide_eq_true (hbefore a ha)
  rw [hoffset, halign, caseStart, ← hkey, hfilter]

end Cases

/-! ### The fields of the table -/

section Table

variable {d : MtDecoder} {p : Platform} {t : MiniTable} {fs : List MiniTableField} {bytes size : Nat}
  {items : List LayoutItem} {i : Nat} {f : MiniTableField}

/-- A field with a has-bit, after the numbers of the enums. -/
theorem exists_allocated (hc : d.fieldCount = d.fields.length) (hf : d.fields[i]? = some f) (hclass : HasHasbit f) :
    ∃ f' : MiniTableField, d.allocateSubs.fields[i]? = some f' ∧ HasHasbit f' ∧
      hasbit d.allocateSubs.fields i f' = toInt16 (hasbitIndex d.fields i f) := by
  obtain ⟨g, hg, hsame⟩ := allocateSubs_getElem? hc i
  have hoffs := allocateSubs_offsets hc
  have hclass' : HasHasbit (g f) := by
    unfold HasHasbit
    rw [(hsame f).1]
    exact hclass
  refine ⟨g f, by rw [hg, hf, Option.map_some], hclass', ?_⟩
  rw [hasbit_eq hclass', hasbitIndex, hasbitIndex, (hsame f).1, rank_congr hoffs, rank_congr hoffs,
    countP_congr_offset hoffs]

/-- The has-bit that the table holds. -/
theorem Placed.presence_field (h : Placed d.allocateSubs fs bytes items size) (hd : d.Parsed)
    (hf : d.fields[i]? = some f) (hclass : HasHasbit f) :
    ∃ g : MiniTableField, (tableFields fs items)[i]? = some g ∧ g.presence = toInt16 (hasbitIndex d.fields i f) := by
  obtain ⟨f', hf', hclass', hbit⟩ := exists_allocated hd.count hf hclass
  have hd' := allocateSubs_parsed hd
  have hno := (hd'.not_mem_iff hf').mpr (.inl hclass')
  exact ⟨_, (h.field_eq hd' hf' hno).1, hbit⟩

/-- The complement that the table holds for the members of a oneof. -/
theorem Placed.presence_member {l : List Nat} {it : LayoutItem} (h : Placed d.allocateSubs fs bytes items size)
    (hd : d.Parsed) (hit : it ∈ items) (hty : it.type = .oneofCase) (hl : l ∈ d.oneofs)
    (hhead : l.head? = some it.fieldIndex) (hi : i ∈ l) :
    ∃ g : MiniTableField, (tableFields fs items)[i]? = some g ∧ g.presence = toInt16 (-(it.offset : Int) - 1) := by
  have hd' := allocateSubs_parsed hd
  have hl' : l ∈ d.allocateSubs.oneofs := allocateSubs_oneofs d ▸ hl
  obtain ⟨x, hx, -⟩ := hd'.oneofs.member l hl' i hi
  obtain ⟨f, hf, -⟩ := shape_eq_some.mp hx
  refine ⟨_, (h.member_eq hd' hl' hi hf).1, ?_⟩
  have hkey : it.key = unitKey (.oneofCase l) := by
    rw [LayoutItem.key, hty, unitKey, List.headD_eq_head?_getD, hhead, Option.getD_some]
  dsimp only
  rw [unitRange_eq h.isItems hit hkey (by simp)]

/-- The table holds `x` for a 16-bit number `x` if and only if it is not wrapped. -/
theorem exists_presence_iff {x : Int} (h : ∃ g : MiniTableField, t.fields[i]? = some g ∧ g.presence = toInt16 x) :
    (∃ g : MiniTableField, t.fields[i]? = some g ∧ g.presence = x) ↔ toInt16 x = x := by
  obtain ⟨g, hg, hpresence⟩ := h
  rw [← hpresence]
  constructor
  · rintro ⟨g', hg', hx⟩
    rwa [Option.some.inj (hg.symm.trans hg')]
  · exact fun hx => ⟨g, hg, hx⟩

/-- From `2 ^ 16` fields on their number is wrapped. -/
theorem not_narrow_of_count (hc : t.fieldCount < 2 ^ 16) (hn : ¬d.fields.length < 2 ^ 16) :
    NarrowRight d t ↔ d.Narrow := by
  refine iff_of_false (fun h => ?_) fun h => hn h.fields
  have hcount := h.fieldCount
  omega

/-- The narrow integers of a message are right if and only if what they count is small. -/
theorem messageTable_narrowRight_iff {data : List UInt8} (hp : parseMessage p data = .ok d)
    (ht : d.messageTable = .ok t) (hcount : t.fieldCount = d.fields.length % 2 ^ 16)
    (hsubs : d.fields.length < 2 ^ 16 → t.SubsInOrder) : NarrowRight d t ↔ d.Narrow := by
  by_cases hn : d.fields.length < 2 ^ 16
  case neg => exact not_narrow_of_count (hcount ▸ Nat.mod_lt _ (Nat.two_pow_pos 16)) hn
  by_cases hfit : d.LinksFit
  case neg =>
    refine iff_of_false (fun h => hfit fun l hl i hi => ?_) fun h => hfit h.links
    have hlt := parseMessage_membersIn hp l hl i (List.mem_of_mem_tail hi)
    exact (linkTarget_iff (Nat.lt_trans hlt hn)).mp (h.link l hl i hi)
  obtain ⟨hd, rfl⟩ := parseMessage_linked hp hn hfit
  obtain ⟨⟨fields, requiredCount, size⟩, hl, ht⟩ := Except.bind_eq_ok.mp ht
  cases ht
  obtain ⟨fs, items, hplaced, rfl, hplace⟩ := hd.layout_items hl
  obtain ⟨hrequired, hmax⟩ := layout_required hd.count hl
  have hitems : LayoutItems d.platform (shape d.fields) d.oneofs d.sortLayoutItems :=
    hd.layoutItems.perm (d.sortLayoutItems_sorted.1.symm.map LayoutItem.what)
  have hcases : ∀ it ∈ items, it.type = .oneofCase → it.offset = d.caseStart it.fieldIndex :=
    fun _ hit hty => place_caseStart hitems (parseMessage_unplaced hp) hplace hit hty
  constructor
  · intro h
    refine ⟨hn, h.requiredMax, hasbits_exact_iff.mp fun i f hf hclass => ?_, hfit, fun l hl i hi => ?_⟩
    · rw [hasbit_eq hclass]
      exact (exists_presence_iff (hplaced.presence_field hd hf hclass)).mp (h.hasbit i f hf hclass)
    · obtain ⟨it, hit, j, hj, hwhat⟩ := hplaced.isItems.caseItem l (allocateSubs_oneofs d ▸ hl)
      obtain rfl : i = j := Option.some.inj (hi.symm.trans hj)
      have hty : it.type = .oneofCase := congrArg (·.1.1) hwhat
      have hindex : it.fieldIndex = i := congrArg (·.1.2) hwhat
      have hhead : l.head? = some it.fieldIndex := hindex.symm ▸ hj
      have hmem : i ∈ l := List.mem_of_head? hj
      have hexact := (exists_presence_iff (hplaced.presence_member hd hit hty hl hhead hmem)).mp
        (h.oneof items size hplace it hit hty l hl hhead i hmem)
      rw [← hindex, ← hcases it hit hty]
      rw [toInt16_eq_iff] at hexact
      omega
  · intro h
    refine ⟨hcount.trans (Nat.mod_eq_of_lt hn), ?_, h.required, fun i f hf hclass => ?_, fun l hl i hi => ?_,
      fun items' size' hplace' it hit hty l hl hhead i hi => ?_, hsubs hn⟩
    · have hsmall := h.required
      change requiredCount = _
      omega
    · rw [exists_presence_iff (hplaced.presence_field hd hf hclass), ← hasbit_eq hclass]
      exact hasbits_exact_iff.mpr h.hasbits i f hf hclass
    · exact linkTarget_of_lt (h.links l hl i hi)
    · obtain ⟨rfl, rfl⟩ := Prod.mk.inj (Except.ok.inj (hplace.symm.trans hplace'))
      rw [exists_presence_iff (hplaced.presence_member hd hit hty hl hhead hi), toInt16_eq_iff, hcases it hit hty]
      have hlt := h.cases l hl _ hhead
      omega

/-- Where a table has few fields and no oneofs, there is nothing that could be wrapped. -/
theorem narrowRight_of_few (hc : t.fieldCount = d.fields.length) (hn : d.fields.length ≤ 2)
    (hr : t.requiredCount = d.fields.countP isRequired % 2 ^ 8) (ho : d.oneofs = [])
    (hbits : ∀ (i : Nat) (f : MiniTableField), d.fields[i]? = some f → HasHasbit f →
      ∃ g : MiniTableField, t.fields[i]? = some g ∧ g.presence = toInt16 (hasbitIndex d.fields i f))
    (hsubs : t.SubsInOrder) : NarrowRight d t ∧ d.Narrow := by
  have hrequired : d.fields.countP isRequired ≤ d.fields.length := List.countP_le_length
  have hoptional : d.fields.countP isOptional ≤ d.fields.length := List.countP_le_length
  have hcount : hasbitCount d.fields < 2 ^ 15 := by
    unfold hasbitCount
    omega
  refine ⟨⟨hc, by omega, by omega, fun i f hf hclass => ?_, by simp [ho], by simp [ho], hsubs⟩,
    ⟨by omega, by omega, hcount, by simp [LinksFit, ho], by simp [ho]⟩⟩
  rw [exists_presence_iff (hbits i f hf hclass), ← hasbit_eq hclass]
  exact hasbits_exact_iff.mpr hcount i f hf hclass

/-- A map entry has two fields, but for a multiple of `2 ^ 16`. -/
theorem mapTable_narrowRight_iff {data : List UInt8} (hp : parseMessage p data = .ok d)
    (ht : d.mapTable = .ok t) (hcount : t.fieldCount = d.fields.length % 2 ^ 16)
    (hsubs : d.fields.length < 2 ^ 16 → t.SubsInOrder) : NarrowRight d t ↔ d.Narrow := by
  by_cases hn : d.fields.length < 2 ^ 16
  case neg => exact not_narrow_of_count (hcount ▸ Nat.mod_lt _ (Nat.two_pow_pos 16)) hn
  have hlen := (parseMessage_numbers hp).count
  rw [Nat.mod_eq_of_lt hn] at hcount hlen
  obtain ⟨⟨fields, requiredCount, bytes⟩, hh, ht⟩ := Except.bind_eq_ok.mp ht
  dsimp only at ht
  by_cases htwo : d.allocateSubs.fieldCount = 2
  case neg =>
    rw [if_pos htwo] at ht
    cases ht
  rw [if_neg (not_not.mpr htwo)] at ht
  rw [allocateSubs_fieldCount, hlen] at htwo
  obtain ⟨hd, rfl⟩ := parseMessage_parsed hp (by omega)
  have hlen' : d.allocateSubs.fieldCount = d.allocateSubs.fields.length := by
    rw [allocateSubs_fieldCount, hlen, allocateSubs_length]
  have hget := (assignHasbits_spec hlen' hh).1
  have hrequired := (assignHasbits_required hlen hh).1
  split at ht
  next key val rest =>
    by_cases hcase : d.allocateSubs.vec.any (·.type = .oneofCase)
    · rw [if_pos hcase] at ht
      cases ht
    rw [if_neg hcase] at ht
    obtain ⟨-, -, ht⟩ := Except.bind_eq_ok.mp ht
    obtain ⟨-, -, ht⟩ := Except.bind_eq_ok.mp ht
    cases ht
    have honeofs : d.oneofs = [] := by
      refine List.eq_nil_iff_forall_not_mem.mpr fun l hl => hcase ?_
      obtain ⟨it, hit, -, hty, -⟩ := hd.items.caseItem l hl
      rw [allocateSubs_vec]
      exact List.any_eq_true.mpr ⟨it, hit, decide_eq_true hty⟩
    have hbits : ∀ (i : Nat) (f : MiniTableField), d.fields[i]? = some f → HasHasbit f → ∀ x y : Nat,
        ∃ g : MiniTableField, ({ key with offset := x } :: { val with offset := y } :: rest)[i]? = some g ∧
          g.presence = toInt16 (hasbitIndex d.fields i f) := by
      intro i f hf hclass x y
      obtain ⟨f', hf', -, hbit⟩ := exists_allocated hlen hf hclass
      rw [← hbit]
      have hi := hget i
      rw [hf', Option.map_some] at hi
      cases i with
      | zero =>
        obtain rfl := Option.some.inj hi
        exact ⟨_, rfl, rfl⟩
      | succ i =>
        cases i with
        | zero =>
          obtain rfl := Option.some.inj hi
          exact ⟨_, rfl, rfl⟩
        | succ i => exact ⟨_, hi, rfl⟩
    obtain ⟨hright, hnarrow⟩ := narrowRight_of_few hcount (Nat.le_of_eq htwo) hrequired honeofs
      (fun i f hf hclass => hbits i f hf hclass _ _) (hsubs hn)
    exact iff_of_true hright hnarrow
  next => cases ht

/-- The table has the fields that were parsed. -/
theorem build_length {desc : List UInt8} (ht : build p desc = .ok t) (hp : parseMessage p desc.tail = .ok d) :
    t.fields.length = d.fields.length := by
  have htable := congrArg List.length (build_numbers ht).numbers
  have hparsed := congrArg List.length (parseMessage_numbers hp).numbers
  rw [List.length_map] at htable hparsed
  rw [htable, hparsed]
  rfl

/-- **The narrow integers of a table that `build` accepts are right** if and only if the descriptor has less than
`2 ^ 16` fields, at most 63 required ones, less than `2 ^ 15` has-bits, no oneof whose members are linked to a field
behind the first 65532, and no case of a oneof behind the first `2 ^ 15` bytes. -/
theorem build_narrowRight_iff {desc : List UInt8} (ht : build p desc = .ok t) :
    ∃ d, parseMessage p desc.tail = .ok d ∧ (NarrowRight d t ↔ d.Narrow) := by
  have hempty : ∀ ext, build p desc = .ok (emptyTable ext) →
      (NarrowRight ((start p).endParse ⟨0, 0, true⟩) (emptyTable ext) ↔ ((start p).endParse ⟨0, 0, true⟩).Narrow) := by
    intro ext ht
    have hbits : ∀ (i : Nat) (f : MiniTableField), (start p).fields[i]? = some f → HasHasbit f →
        ∃ g : MiniTableField, (emptyTable ext).fields[i]? = some g ∧
          g.presence = toInt16 (hasbitIndex (start p).fields i f) := by
      intro i f hf
      cases hf
    have hfew : ((start p).endParse ⟨0, 0, true⟩).fields.length ≤ 2 := Nat.zero_le 2
    obtain ⟨hright, hnarrow⟩ := narrowRight_of_few rfl hfew rfl rfl hbits (build_subsInOrder ht (Nat.two_pow_pos 16))
    exact iff_of_true hright hnarrow
  have hcount := (build_numbers ht).count
  have hsubs := build_subsInOrder ht
  have hlen := fun d => build_length (d := d) ht
  rw [build.eq_def] at ht
  split at ht
  · cases ht
    exact ⟨_, rfl, hempty _ rfl⟩
  next data =>
    obtain ⟨d, hp, ht⟩ := Except.bind_eq_ok.mp ht
    rw [hlen d hp] at hcount hsubs
    exact ⟨d, hp, mapTable_narrowRight_iff hp ht hcount hsubs⟩
  next data =>
    obtain ⟨d, hp, ht⟩ := Except.bind_eq_ok.mp ht
    rw [hlen d hp] at hcount hsubs
    exact ⟨d, hp, messageTable_narrowRight_iff hp ht hcount hsubs⟩
  next data =>
    split at ht
    next => cases ht
    next hnil =>
      cases ht
      obtain rfl := List.eq_nil_of_length_eq_zero (Nat.eq_zero_of_not_pos hnil)
      exact ⟨_, rfl, hempty _ rfl⟩
  next => cases ht

/-- Small items can be placed. -/
theorem place_ok (todo : List LayoutItem) {size : Nat} (h : size + 23 * todo.length ≤ 65535) : ∃ r, place p size todo = .ok r := by
  induction todo generalizing size with
  | nil => exact ⟨_, rfl⟩
  | cons it todo ih =>
    have hone : alignUp size (alignOfRep it.rep p) + sizeOfRep it.rep p ≤ size + 23 := by
      unfold alignUp
      cases it.rep <;> cases p <;> simp only [alignOfRep, sizeOfRep] <;> omega
    rw [List.length_cons] at h
    obtain ⟨⟨placed, size'⟩, hr⟩ := ih (by omega :
      alignUp size (alignOfRep it.rep p) + sizeOfRep it.rep p + 23 * todo.length ≤ 65535)
    rw [place]
    dsimp only
    rw [if_neg (by omega), hr]
    exact ⟨_, rfl⟩

/-- A message without oneofs and with few fields has a table. -/
theorem messageTable_ok (hc : d.fieldCount = d.fields.length) (hv : d.vec = []) (hn : d.fields.length ≤ 2048)
    (hr : d.fields.countP isRequired % 2 ^ 8 ≤ 63) :
    ∃ t, d.messageTable = .ok t ∧ t.requiredCount = d.fields.countP isRequired % 2 ^ 8 := by
  have hc' : d.allocateSubs.fieldCount = d.allocateSubs.fields.length := by
    rw [allocateSubs_fieldCount, hc, allocateSubs_length]
  have hrequired : d.allocateSubs.fields.countP isRequired = d.fields.countP isRequired :=
    countP_congr_offset (allocateSubs_offsets hc) requiredPresence
  obtain ⟨fs, bytes, hh⟩ : ∃ fs bytes,
      d.allocateSubs.assignHasbits = .ok (fs, d.fields.countP isRequired % 2 ^ 8, bytes) := by
    unfold assignHasbits
    rw [hc', List.take_length]
    simp only [(assignRequired_spec 0 d.allocateSubs.fields).1, Nat.zero_add]
    rw [if_neg (by rw [hrequired]; omega), hrequired]
    exact ⟨_, _, rfl⟩
  have hbytes := (assignHasbits_spec hc' hh).2
  have hcount : hasbitCount d.allocateSubs.fields ≤ 2 * d.fields.length := by
    have h₁ : d.allocateSubs.fields.countP isRequired ≤ _ := List.countP_le_length
    have h₂ : d.allocateSubs.fields.countP isOptional ≤ _ := List.countP_le_length
    rw [allocateSubs_length] at h₁ h₂
    unfold hasbitCount
    omega
  have hsmall : bytes ≤ 1024 := by
    rw [hbytes]
    unfold divideRoundUp
    split <;> omega
  have hitems : (sortLayoutItems { d.allocateSubs with fields := fs }).length ≤ d.fields.length := by
    have hperm : (sortLayoutItems { d.allocateSubs with fields := fs }).Perm _ := List.mergeSort_perm _ _
    rw [hperm.length_eq, allocateSubs_vec, hv, List.nil_append, allocateSubs_fieldCount, hc]
    exact Nat.le_trans (List.length_filterMap_le _ _) (Nat.le_of_eq List.length_range)
  have hroom : bytes + 23 * (sortLayoutItems { d.allocateSubs with fields := fs }).length ≤ 65535 := by omega
  obtain ⟨⟨placed, size⟩, hplace⟩ := place_ok (p := d.allocateSubs.platform) _ hroom
  have hlayout : d.layout = .ok (_, d.fields.countP isRequired % 2 ^ 8, _) :=
    Except.bind_eq_ok.mpr ⟨_, hh, Except.bind_eq_ok.mpr ⟨_, Except.bind_eq_ok.mpr ⟨_, hplace, rfl⟩, rfl⟩⟩
  exact ⟨_, Except.bind_eq_ok.mpr ⟨_, hlayout, rfl⟩, rfl⟩

end Table

/-! ### Many required fields -/

/-- A required `bool` field. -/
def requiredBool (number : Nat) : MiniTableField := ⟨number, requiredPresence, 0, noSub, .bool, FieldMode.scalar⟩

theorem setField_bool (number : Nat) (subs : SubCounts) :
    setField .bits64 47 number 0 subs = .ok ({ requiredBool number with offset := hasbitPresence }, subs) := by
  have hmode : (modeOfChar .bits64 47).toOption = some (FieldMode.scalar, hasbitPresence, 13) := by decide
  cases h : modeOfChar .bits64 47 with
  | error e =>
    rw [h] at hmode
    cases hmode
  | ok r =>
    rw [h] at hmode
    cases hmode
    have hsub : setTypeAndSub ⟨number, hasbitPresence, 0, 0, .bool, FieldMode.scalar⟩ .bool subs 0 false =
        ({ requiredBool number with offset := hasbitPresence }, subs) := by
      have hpack : fieldIsPackable ⟨number, hasbitPresence, 0, 0, .bool, FieldMode.scalar⟩ = false := by
        have hbits : (FieldMode.scalar &&& FieldMode.array != 0) = false := by decide
        rw [fieldIsPackable, hbits, Bool.false_and]
      simp [setTypeAndSub, hpack, requiredBool]
    have htype : EncodedType.toType[(13 : Int).toNat]? = some .bool := rfl
    rw [setField, h]
    dsimp only [bind, Except.bind]
    rw [if_neg (by decide), htype]
    exact congrArg Except.ok hsub

theorem parse_requiredBool {d : MtDecoder} (hplatform : d.platform = .bits64) (hext : d.extension = false) {l : Locals}
    (hmod : l.msgModifiers = 0) {rest : List UInt8} (hrest : decodeBase92Varint 76 91 78 rest = .ok (0, 2)) :
    d.parse l 0 (47 :: 78 :: rest) = ({ d with
        fields := d.fields ++ [requiredBool ((l.lastFieldNumber + 1) % 2 ^ 32)],
        fieldCount := (d.fieldCount + 1) % 2 ^ 16 } : MtDecoder).parse
      { l with lastFieldNumber := (l.lastFieldNumber + 1) % 2 ^ 32 } 0 rest := by
  generalize hn : (l.lastFieldNumber + 1) % 2 ^ 32 = number
  have hset : setField d.platform 47 number l.msgModifiers d.subCounts =
      .ok ({ requiredBool number with offset := hasbitPresence }, d.subCounts) := by
    rw [hplatform, hmod, setField_bool]
  have hmodify : modifyField 2 { requiredBool number with offset := hasbitPresence } = .ok (requiredBool number) := rfl
  have hmsg : l.msgModifiers &&& MessageModifier.isExtendable = 0 := by rw [hmod]; rfl
  rw [parse, if_pos (by decide), if_neg (by simp [hext])]
  dsimp only
  rw [hn, hset]
  dsimp only [bind, Except.bind]
  rw [parse, if_neg (by decide), if_pos (by decide), hrest]
  dsimp only [bind, Except.bind]
  rw [applyModifier]
  simp only [List.getLast?_append, List.getLast?_singleton, Option.some_or]
  rw [hmodify]
  dsimp only [bind, Except.bind, pure, Except.pure]
  rw [if_neg (not_not_intro hmsg), List.dropLast_concat]

/-- Several of them. -/
theorem parse_requiredBools (n : Nat) {d : MtDecoder} (hplatform : d.platform = .bits64) (hext : d.extension = false)
    (hcount : d.fieldCount < 2 ^ 16) {l : Locals} (hmod : l.msgModifiers = 0) : ∃ fs l',
      d.parse l 0 (List.replicate n [47, 78]).flatten = .ok (({ d with
        fields := d.fields ++ fs, fieldCount := (d.fieldCount + n) % 2 ^ 16 } : MtDecoder).endParse l', []) ∧
      fs.length = n ∧ fs.countP isRequired = n := by
  induction n generalizing d l with
  | zero =>
    refine ⟨[], l, ?_, rfl, rfl⟩
    rw [List.append_nil, Nat.add_zero, Nat.mod_eq_of_lt hcount]
    exact parse.eq_1 ..
  | succ n ih =>
    have hrest : decodeBase92Varint 76 91 78 (List.replicate n [47, 78]).flatten = .ok (0, 2) := by
      cases n with
      | zero => rfl
      | succ n => rfl
    obtain ⟨fs, l', hrun, hlen, hrequired⟩ := @ih ({ d with
      fields := d.fields ++ [requiredBool ((l.lastFieldNumber + 1) % 2 ^ 32)],
      fieldCount := (d.fieldCount + 1) % 2 ^ 16 } : MtDecoder) hplatform hext (Nat.mod_lt _ (by decide))
      { l with lastFieldNumber := (l.lastFieldNumber + 1) % 2 ^ 32 } hmod
    have hmore : ((d.fieldCount + 1) % 2 ^ 16 + n) % 2 ^ 16 = (d.fieldCount + (n + 1)) % 2 ^ 16 := by omega
    refine ⟨requiredBool ((l.lastFieldNumber + 1) % 2 ^ 32) :: fs, l', ?_, congrArg (· + 1) hlen, ?_⟩
    · rw [List.replicate_succ, List.flatten_cons, List.cons_append, List.cons_append, List.nil_append,
        parse_requiredBool hplatform hext hmod hrest, hrun]
      dsimp only
      rw [hmore, List.append_assoc, List.singleton_append]
    · rw [List.countP_cons_of_pos (show isRequired (requiredBool _) = true from rfl), hrequired]

/-- 256 required `bool` fields. -/
def manyRequired : List UInt8 := (List.replicate 256 [47, 78]).flatten

theorem parseMessage_manyRequired : ∃ d, parseMessage .bits64 manyRequired = .ok d ∧ d.fieldCount = d.fields.length ∧
    d.vec = [] ∧ d.fields.length = 256 ∧ d.fields.countP isRequired = 256 := by
  obtain ⟨fs, l, hrun, hlen, hrequired⟩ := @parse_requiredBools 256 (start .bits64) rfl rfl (by decide) ⟨0, 0, true⟩ rfl
  have hfields : ∀ d : MtDecoder, (d.endParse l).fields = d.fields ∧ (d.endParse l).fieldCount = d.fieldCount ∧
      (d.endParse l).vec = d.vec := by
    intro d
    rw [endParse]
    split <;> exact ⟨rfl, rfl, rfl⟩
  obtain ⟨hf, hc, hv⟩ := hfields { start .bits64 with
    fields := (start .bits64).fields ++ fs, fieldCount := ((start .bits64).fieldCount + 256) % 2 ^ 16 }
  refine ⟨_, Except.bind_eq_ok.mpr ⟨_, hrun, rfl⟩, ?_, hv, ?_, ?_⟩
  · rw [hc, hf]
    exact hlen.symm
  · rw [hf]
    exact hlen
  · rw [hf]
    exact hrequired

/-- 256 required fields: the table says that there are none, and the check for 63 passes. -/
theorem not_build_narrowRight : ∃ d t, parseMessage .bits64 manyRequired = .ok d ∧
    build .bits64 (36 :: manyRequired) = .ok t ∧ d.fields.countP isRequired = 256 ∧ t.requiredCount = 0 ∧
    ¬NarrowRight d t := by
  obtain ⟨d, hp, hcount, hvec, hlen, hrequired⟩ := parseMessage_manyRequired
  obtain ⟨t, ht, hzero⟩ := messageTable_ok hcount hvec (by omega) (by rw [hrequired]; decide)
  have hbuild : build .bits64 (36 :: manyRequired) = .ok t := Except.bind_eq_ok.mpr ⟨d, hp, ht⟩
  rw [hrequired] at hzero
  refine ⟨d, t, hp, hbuild, hrequired, hzero, fun h => ?_⟩
  have hmax := h.requiredMax
  omega

/-- One `int32` and another. -/
theorem build_narrowRight_two : ∃ t, build .bits64 [36, 40, 40] = .ok t ∧
    ∃ d, parseMessage .bits64 [40, 40] = .ok d ∧ (NarrowRight d t ↔ d.Narrow) := by
  have hp : parseMessage .bits64 [40, 40] = .ok (twoInts 2 2) := by decide
  obtain ⟨t, ht, -⟩ := build_twoInts hp
  exact ⟨t, ht, build_narrowRight_iff ht⟩

end MtDecoder

end Hpb
