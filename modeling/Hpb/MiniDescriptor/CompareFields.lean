import Hpb.MiniDescriptor.Layout
import Hpb.MiniDescriptor.Numbers

/-!
# The order of the layout items (`hpb_MtDecoder_CompareFields`)

Its comment says that items are sorted by representation, then by type, then by index. The three are packed into one
number, with one bit for the type, of which there are three: the type `kHpb_LayoutItemType_Field` is put over the
lowest bit of the representation.

* `LayoutItem.Before`: the order of the comment,
* `Clash`: two items that the packed numbers order otherwise,
* `compareFields_documented_iff`: the items of a message are in the order of the comment if and only if no two clash.
-/

namespace Hpb

/-- The number of a `hpb_LayoutItemType`. -/
def LayoutItemType.number : LayoutItemType → Nat
  | .oneofCase => 0
  | .oneofField => 1
  | .field => 2

/-- The order that the comment states. -/
def LayoutItem.Before (a b : LayoutItem) : Prop :=
  a.rep.bits < b.rep.bits ∨ a.rep = b.rep ∧
    (a.type.number < b.type.number ∨ a.type = b.type ∧ a.fieldIndex < b.fieldIndex)

namespace MtDecoder

/-- `hpb_MtDecoder_CompareFields`. -/
def compareFields (a b : LayoutItem) : Int := if packedKey a < packedKey b then -1 else 1

/-- No item is after one that compares greater. -/
def Sorted (items : List LayoutItem) : Prop := items.Pairwise fun a b => ¬compareFields b a < 0

/-- **The comparison is the order of the comment**, there is one way to sort the items, and they are in this order. -/
structure DocumentedOrder (items : List LayoutItem) : Prop where
  order : ∀ a ∈ items, ∀ b ∈ items, compareFields a b < 0 ↔ a.Before b
  total : ∀ a ∈ items, ∀ b ∈ items, a ≠ b → compareFields a b < 0 ∨ compareFields b a < 0
  unique : ∀ l l' : List LayoutItem, l.Perm items → l'.Perm items → Sorted l → Sorted l' → l = l'
  placed : ∀ l : List LayoutItem, l.Perm items → Sorted l → l.Pairwise fun a b => ¬b.Before a

/-- Items that the packed numbers order otherwise: the data of a oneof and a field of the same representation, of 4 or
8 bytes; or items with the same upper bits, the one that comes first with the larger index. -/
@[mk_iff] inductive Clash : LayoutItem → LayoutItem → Prop where
  | fourByte {a b : LayoutItem} (ha : a.type = .oneofField ∧ a.rep = .fourByte) (hb : b.type = .field ∧ b.rep = .fourByte) :
      Clash a b
  | eightByte {a b : LayoutItem} (ha : a.type = .oneofField ∧ a.rep = .eightByte)
      (hb : b.type = .field ∧ b.rep = .eightByte) : Clash a b
  | oneByte {a b : LayoutItem} (ha : a.type = .field ∧ a.rep = .oneByte) (hb : b.type ≠ .oneofField ∧ b.rep = .fourByte)
      (h : b.fieldIndex ≤ a.fieldIndex) : Clash a b
  | oneofCase {a b : LayoutItem} (ha : a.type = .oneofCase) (hb : b.type = .field ∧ b.rep = .fourByte)
      (h : b.fieldIndex ≤ a.fieldIndex) : Clash a b
  | stringView {a b : LayoutItem} (ha : a.type = .field ∧ a.rep = .stringView) (hb : b.type = .field ∧ b.rep = .eightByte)
      (h : b.fieldIndex ≤ a.fieldIndex) : Clash a b

/-- An item before it is placed. -/
structure Unplaced (item : LayoutItem) : Prop where
  offset : item.offset = 0
  index : item.fieldIndex < 2 ^ 16
  oneofCase : item.type = .oneofCase → item.rep = .fourByte

section

variable {a b : LayoutItem} {items : List LayoutItem}

theorem compareFields_neg : compareFields a b < 0 ↔ packedKey a < packedKey b := by
  unfold compareFields
  split <;> simp [*]

/-- The upper bits of the packed number. -/
def upperBits (item : LayoutItem) : Nat := item.rep.bits.toNat <<< 1 ||| item.type.number

theorem packedKey_eq (h : a.fieldIndex < 2 ^ 16) : packedKey a = upperBits a * 2 ^ 16 + a.fieldIndex := by
  rw [← Nat.shiftLeft_eq, Nat.shiftLeft_add_eq_or_of_lt h]
  cases hty : a.type <;> simp [packedKey, upperBits, LayoutItemType.number, hty]

theorem packedKey_lt_iff (ha : a.fieldIndex < 2 ^ 16) (hb : b.fieldIndex < 2 ^ 16) :
    packedKey a < packedKey b ↔ upperBits a < upperBits b ∨ upperBits a = upperBits b ∧ a.fieldIndex < b.fieldIndex := by
  rw [packedKey_eq ha, packedKey_eq hb]
  omega

/-- The clashes are where the packed numbers disagree with the comment. -/
theorem clash_iff_packedKey (ha : Unplaced a) (hb : Unplaced b) :
    Clash a b ↔ a.Before b ∧ ¬packedKey a < packedKey b := by
  rw [packedKey_lt_iff ha.index hb.index, clash_iff]
  have hacase := ha.oneofCase
  have hbcase := hb.oneofCase
  obtain ⟨i, _, ra, ta⟩ := a
  obtain ⟨j, _, rb, tb⟩ := b
  cases ta <;> cases tb <;> cases ra <;> cases rb <;>
    simp_all [LayoutItem.Before, upperBits, LayoutItemType.number, FieldRep.bits]

theorem before_asymm (h : a.Before b) : ¬b.Before a := by
  obtain ⟨i, _, ra, ta⟩ := a
  obtain ⟨j, _, rb, tb⟩ := b
  cases ra <;> cases rb <;> simp_all [LayoutItem.Before, FieldRep.bits]
  all_goals cases ta <;> cases tb <;> simp_all [LayoutItemType.number]
  all_goals omega

/-- The order is total. -/
theorem before_trichotomy (ha : Unplaced a) (hb : Unplaced b) : a.Before b ∨ a = b ∨ b.Before a := by
  have hoffset : a.offset = b.offset := ha.offset.trans hb.offset.symm
  obtain ⟨i, _, ra, ta⟩ := a
  obtain ⟨j, _, rb, tb⟩ := b
  dsimp only at hoffset
  subst hoffset
  obtain hlt | rfl | hlt := Nat.lt_trichotomy i j
  all_goals cases ra <;> cases rb <;> simp_all [LayoutItem.Before, FieldRep.bits]
  all_goals cases ta <;> cases tb <;> simp_all [LayoutItemType.number]

/-- The comparison is the order of the comment if and only if no items clash. -/
theorem order_iff (h : ∀ a ∈ items, Unplaced a) :
    (∀ a ∈ items, ∀ b ∈ items, compareFields a b < 0 ↔ a.Before b) ↔ ∀ a ∈ items, ∀ b ∈ items, ¬Clash a b := by
  constructor
  · intro horder a ha b hb hclash
    obtain ⟨hbefore, hnot⟩ := (clash_iff_packedKey (h a ha) (h b hb)).mp hclash
    exact hnot (compareFields_neg.mp ((horder a ha b hb).mpr hbefore))
  · intro hno a ha b hb
    have hforth : ∀ {a b}, a ∈ items → b ∈ items → a.Before b → packedKey a < packedKey b := by
      intro a b ha hb hbefore
      by_contra hnot
      exact hno a ha b hb ((clash_iff_packedKey (h a ha) (h b hb)).mpr ⟨hbefore, hnot⟩)
    rw [compareFields_neg]
    refine ⟨fun hlt => ?_, hforth ha hb⟩
    obtain hbefore | rfl | hbefore := before_trichotomy (h a ha) (h b hb)
    · exact hbefore
    · exact absurd hlt (Nat.lt_irrefl _)
    · exact absurd (hforth hb ha hbefore) (Nat.lt_asymm hlt)

/-- **Items are in the order of the comment** if and only if no two of them clash. -/
theorem documentedOrder_iff (h : ∀ a ∈ items, Unplaced a) :
    DocumentedOrder items ↔ ∀ a ∈ items, ∀ b ∈ items, ¬Clash a b := by
  rw [← order_iff h]
  refine ⟨DocumentedOrder.order, fun horder => ⟨horder, fun a ha b hb hne => ?_, fun l l' hl hl' hs hs' => ?_,
    fun l hl hs => ?_⟩⟩
  · rw [horder a ha b hb, horder b hb a ha]
    exact (before_trichotomy (h a ha) (h b hb)).imp_right fun hor => hor.resolve_left hne
  · refine List.Perm.eq_of_pairwise (fun a b ha hb hab hba => ?_) hs hs' (hl.trans hl'.symm)
    have ha := hl.mem_iff.mp ha
    have hb := hl'.mem_iff.mp hb
    rw [horder b hb a ha] at hab
    rw [horder a ha b hb] at hba
    exact ((before_trichotomy (h a ha) (h b hb)).resolve_left hba).resolve_right hab
  · refine hs.imp_of_mem fun {a b} ha hb hab => ?_
    rwa [horder b (hl.mem_iff.mp hb) a (hl.mem_iff.mp ha)] at hab

end

/-! ### The items of a message -/

/-- The items that `hpb_MtDecoder_SortLayoutItems` sorts. -/
def layoutItems (d : MtDecoder) : List LayoutItem := d.vec ++ fieldItems d.fields d.fieldCount

/-- The layout sorts them. -/
theorem sortLayoutItems_sorted (d : MtDecoder) : d.sortLayoutItems.Perm d.layoutItems ∧ Sorted d.sortLayoutItems := by
  refine ⟨List.mergeSort_perm _ _, ?_⟩
  have hpair : d.sortLayoutItems.Pairwise fun a b => decide (packedKey a ≤ packedKey b) := List.pairwise_mergeSort
    (fun a b c hab hbc => by simp only [decide_eq_true_eq] at *; omega)
    (fun a b => by simp only [Bool.or_eq_true, decide_eq_true_eq]; omega) d.layoutItems
  refine hpair.imp fun {a b} hab => ?_
  rw [compareFields_neg]
  simpa using hab

section Parsed

variable {d d' : MtDecoder}

/-- The items of the oneofs, and the one that is not pushed yet. -/
structure UnplacedVec (d : MtDecoder) (item : LayoutItem) : Prop where
  vec : ∀ it ∈ d.vec, Unplaced it
  offset : item.offset = 0

theorem pushOneof_unplaced {item : LayoutItem} {members : List Nat} (h : UnplacedVec d item)
    (hr : d.pushOneof item members = .ok d') : ∀ it ∈ d'.vec, Unplaced it := by
  unfold pushOneof at hr
  split at hr <;> cases hr
  have hindex : (item.fieldIndex + (2 ^ 16 - oneofBase)) % 2 ^ 16 < 2 ^ 16 := Nat.mod_lt _ (Nat.two_pow_pos 16)
  simp only [pushItem, List.mem_append, List.mem_singleton]
  rintro it ((hit | rfl) | rfl)
  · exact h.vec it hit
  · exact ⟨h.offset, hindex, fun hty => by cases hty⟩
  · exact ⟨h.offset, hindex, fun _ => rfl⟩

theorem decodeOneofs_unplaced {item : LayoutItem} {members : List Nat} {skip : Nat} {data : List UInt8}
    (h : UnplacedVec d item) (hr : d.decodeOneofs item members skip data = .ok d') : ∀ it ∈ d'.vec, Unplaced it := by
  induction data generalizing d item members skip with
  | nil =>
    rw [decodeOneofs] at hr
    exact pushOneof_unplaced h hr
  | cons ch rest ih =>
    cases skip with
    | succ skip =>
      rw [decodeOneofs] at hr
      exact ih h hr
    | zero =>
      rw [decodeOneofs] at hr
      split_ifs at hr
      · exact ih h hr
      · obtain ⟨d₁, h₁, hr⟩ := Except.bind_eq_ok.mp hr
        have hnext : UnplacedVec d₁ { item with fieldIndex := indexSentinel } := ⟨pushOneof_unplaced h h₁, h.offset⟩
        exact ih hnext hr
      · obtain ⟨⟨skip, number⟩, -, hr⟩ := Except.bind_eq_ok.mp hr
        obtain ⟨⟨d₁, item₁, members₁⟩, h₁, hr⟩ := Except.bind_eq_ok.mp hr
        obtain ⟨i, f, hf, -, rfl, rfl, -⟩ := addToOneof_eq_ok h₁
        dsimp only at hr
        refine ih ?_ hr
        exact ⟨h.vec, h.offset⟩

theorem fieldItems_unplaced {fields : List MiniTableField} {n : Nat} (hn : n < 2 ^ 16) :
    ∀ it ∈ fieldItems fields n, Unplaced it := by
  intro it hit
  obtain ⟨i, f, hi, -, -, rfl⟩ := mem_fieldItems.mp hit
  exact ⟨rfl, Nat.lt_trans hi hn, fun hty => by cases hty⟩

theorem parseMessage_unplaced {p : Platform} {data : List UInt8} (hr : parseMessage p data = .ok d) :
    ∀ it ∈ d.layoutItems, Unplaced it := by
  have hcount : d.fieldCount < 2 ^ 16 := by
    rw [(parseMessage_numbers hr).count]
    exact Nat.mod_lt _ (Nat.two_pow_pos 16)
  obtain ⟨⟨d', rest⟩, hr, hd⟩ := Except.bind_eq_ok.mp hr
  cases hd
  have hvec : ∀ it ∈ d.vec, Unplaced it := by
    obtain ⟨d₁, d₂, l, h, rfl, hends⟩ := parse_ends (start_inv p) hr
    have hstart : ∀ it ∈ d₁.vec, Unplaced it := by
      rw [h.vec]
      exact fun it hit => absurd hit List.not_mem_nil
    have hsame : (d₂.endParse l).vec = d₂.vec := by
      unfold endParse
      split <;> rfl
    rw [hsame]
    obtain rfl | ⟨data, ho⟩ := hends
    · exact hstart
    · exact decodeOneofs_unplaced ⟨hstart, rfl⟩ ho
  intro it hit
  obtain hit | hit := List.mem_append.mp hit
  · exact hvec it hit
  · exact fieldItems_unplaced hcount it hit

/-- **The layout items of a parsed message are in the order of the comment** if and only if no two of them clash. -/
theorem compareFields_documented_iff {p : Platform} {data : List UInt8} (hr : parseMessage p data = .ok d) :
    DocumentedOrder d.layoutItems ↔ ∀ a ∈ d.layoutItems, ∀ b ∈ d.layoutItems, ¬Clash a b :=
  documentedOrder_iff (parseMessage_unplaced hr)

end Parsed

/-- Two `int32` fields. -/
theorem compareFields_documented_ints : ∃ d, parseMessage .bits64 [40, 40] = .ok d ∧ (DocumentedOrder d.layoutItems ↔
    ∀ a ∈ d.layoutItems, ∀ b ∈ d.layoutItems, ¬Clash a b) := by
  have hp : parseMessage .bits64 [40, 40] = .ok (twoInts 2 2) := by decide
  exact ⟨_, hp, compareFields_documented_iff hp⟩

/-- An `int32` field and a `bool` field behind it: the comparison has the larger one first. -/
theorem not_compareFields_documented : ∃ d a b, parseMessage .bits64 [40, 47] = .ok d ∧ a ∈ d.layoutItems ∧
    b ∈ d.layoutItems ∧ a.Before b ∧ compareFields b a < 0 ∧ ¬DocumentedOrder d.layoutItems := by
  have hp : ∃ d, parseMessage .bits64 [40, 47] = .ok d ∧
      d.layoutItems = [⟨0, 0, .fourByte, .field⟩, ⟨1, 0, .oneByte, .field⟩] := ⟨_, rfl, by decide⟩
  obtain ⟨d, hd, hitems⟩ := hp
  have ha : ⟨1, 0, .oneByte, .field⟩ ∈ d.layoutItems := by
    rw [hitems]
    decide
  have hb : ⟨0, 0, .fourByte, .field⟩ ∈ d.layoutItems := by
    rw [hitems]
    decide
  have hbefore : LayoutItem.Before ⟨1, 0, .oneByte, .field⟩ ⟨0, 0, .fourByte, .field⟩ := .inl (by decide)
  exact ⟨d, _, _, hd, ha, hb, hbefore, by decide, fun h => absurd ((h.order _ ha _ hb).mpr hbefore) (by decide)⟩

end MtDecoder

end Hpb
