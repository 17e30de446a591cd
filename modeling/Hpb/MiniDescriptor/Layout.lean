import Hpb.Lib.DisjointWrites
import Hpb.MiniDescriptor.Parsed

/-!
# The layout of a message is sound

The passes of `layout` reuse the same fields for different things. Here they are taken one by one:

* `assignHasbits_spec`: required fields get the has-bits from 1 on, then the optional ones,
* `place_spec`: the placed items lie one behind the other,
* `walkOneof_writesAt`: following the links writes to exactly the members of a oneof,
* `assignCases_spec`, `assignOffsets_spec`: what the two passes over the items write,
* `layout_sound`: no two parts of a message overlap (`LayoutSound`).
-/

namespace Hpb

theorem toInt16_of_bounds {x : Int} (h₁ : -2 ^ 15 ≤ x) (h₂ : x < 2 ^ 15) : toInt16 x = x := by
  unfold toInt16
  omega

theorem le_alignUp (size : Nat) {align : Nat} (h : 0 < align) : size ≤ alignUp size align := by
  have hlt : size + align - 1 < (size + align - 1) / align * align + align := Nat.lt_div_mul_add h
  unfold alignUp
  omega

theorem alignOfRep_pos (r : FieldRep) (p : Platform) : 0 < alignOfRep r p := by
  cases r <;> cases p <;> decide

theorem sizeOfRep_pos (r : FieldRep) (p : Platform) : 0 < sizeOfRep r p := by
  cases r <;> cases p <;> decide

/-- All of an item but its offset. -/
def LayoutItem.what (it : LayoutItem) : (LayoutItemType × Nat) × FieldRep := (it.key, it.rep)

/-- Where the bytes of a placed item end. -/
def LayoutItem.stop (p : Platform) (it : LayoutItem) : Nat := it.offset + sizeOfRep it.rep p

namespace MtDecoder

/-! ### Has-bits -/

section Hasbits

variable {fs : List MiniTableField} {i j : Nat}

/-- The field is in the presence class `k`. -/
def ofClass (k : Nat) (f : MiniTableField) : Bool := f.offset == k

abbrev isRequired : MiniTableField → Bool := ofClass requiredPresence

abbrev isOptional : MiniTableField → Bool := ofClass hasbitPresence

/-- How many of the fields up to the one at `i` are in the class `c`. -/
def rank (c : MiniTableField → Bool) (fs : List MiniTableField) (i : Nat) : Nat :=
  (fs.take (i + 1)).countP c

theorem rank_le (c : MiniTableField → Bool) (fs : List MiniTableField) (i : Nat) :
    rank c fs i ≤ fs.countP c :=
  (List.take_sublist _ _).countP_le

theorem rank_pos {c : MiniTableField → Bool} {f : MiniTableField} (h : fs[i]? = some f)
    (hc : c f = true) : 0 < rank c fs i := by
  refine List.countP_pos_iff.mpr ⟨f, ?_, hc⟩
  exact List.mem_of_getElem? (by rw [List.getElem?_take_of_lt (Nat.lt_succ_self i)]; exact h)

theorem rank_lt {c : MiniTableField → Bool} {f : MiniTableField} (hij : i < j)
    (h : fs[j]? = some f) (hc : c f = true) : rank c fs i < rank c fs j := by
  have hj : rank c fs j = (fs.take j).countP c + 1 := by
    unfold rank
    rw [List.take_add_one, h, List.countP_append]
    simp [hc]
  have hi : rank c fs i ≤ (fs.take j).countP c :=
    (List.IsPrefix.sublist (List.take_prefix_take_left (by omega))).countP_le
  omega

/-- Fields of a class have different ranks. -/
theorem rank_injective {c : MiniTableField → Bool} {f g : MiniTableField} (hf : fs[i]? = some f)
    (hg : fs[j]? = some g) (hcf : c f = true) (hcg : c g = true)
    (h : rank c fs i = rank c fs j) : i = j := by
  obtain hlt | rfl | hlt := Nat.lt_trichotomy i j
  · exact absurd (rank_lt hlt hg hcg) (by omega)
  · rfl
  · exact absurd (rank_lt hlt hf hcf) (by omega)

theorem rank_cons_succ (c : MiniTableField → Bool) (f : MiniTableField) :
    rank c (f :: fs) (i + 1) = (if c f then 1 else 0) + rank c fs i := by
  unfold rank
  rw [List.take_succ_cons, List.countP_cons, Nat.add_comm]

/-- The first pass gives the required fields their has-bits. -/
theorem assignRequired_spec (last : Nat) (fs : List MiniTableField) :
    (assignRequired last fs).2 = last + fs.countP isRequired ∧
      ∀ i : Nat, (assignRequired last fs).1[i]? = (fs[i]?).map fun f : MiniTableField =>
        { f with
          presence := if f.offset = requiredPresence then toInt16 (last + rank isRequired fs i : Nat)
            else if f.offset = noPresence then 0 else f.presence } := by
  induction fs generalizing last with
  | nil => simp [assignRequired]
  | cons f fs ih =>
    rw [assignRequired]
    by_cases h : f.offset = requiredPresence
    · obtain ⟨hn, hget⟩ := ih (last + 1)
      simp only [if_pos h]
      refine ⟨?_, fun i => ?_⟩
      · simp [hn, ofClass, h]
        omega
      · cases i with
        | zero => simp [h, rank, ofClass]
        | succ i =>
          simp only [List.getElem?_cons_succ, hget, rank_cons_succ]
          simp [ofClass, h, Nat.add_assoc]
    · obtain ⟨hn, hget⟩ := ih last
      simp only [if_neg h]
      refine ⟨?_, fun i => ?_⟩
      · simp [hn, ofClass, h]
      · cases i with
        | zero =>
          simp only [List.getElem?_cons_zero, Option.map_some, if_neg h]
          split_ifs <;> rfl
        | succ i =>
          simp only [List.getElem?_cons_succ, hget, rank_cons_succ]
          simp [ofClass, h]

/-- The second pass goes on with the optional fields. -/
theorem assignOptional_spec (last : Nat) (fs : List MiniTableField) :
    (assignOptional last fs).2 = last + fs.countP isOptional ∧
      ∀ i : Nat, (assignOptional last fs).1[i]? = (fs[i]?).map fun f : MiniTableField =>
        { f with
          presence := if f.offset = hasbitPresence then toInt16 (last + rank isOptional fs i : Nat)
            else f.presence } := by
  induction fs generalizing last with
  | nil => simp [assignOptional]
  | cons f fs ih =>
    rw [assignOptional]
    by_cases h : f.offset = hasbitPresence
    · obtain ⟨hn, hget⟩ := ih (last + 1)
      simp only [if_pos h]
      refine ⟨?_, fun i => ?_⟩
      · simp [hn, ofClass, h]
        omega
      · cases i with
        | zero => simp [h, rank, ofClass]
        | succ i =>
          simp only [List.getElem?_cons_succ, hget, rank_cons_succ]
          simp [ofClass, h, Nat.add_assoc]
    · obtain ⟨hn, hget⟩ := ih last
      simp only [if_neg h]
      refine ⟨?_, fun i => ?_⟩
      · simp [hn, ofClass, h]
      · cases i with
        | zero => simp [if_neg h]
        | succ i =>
          simp only [List.getElem?_cons_succ, hget, rank_cons_succ]
          simp [ofClass, h]

/-- Where the has-bit of a field is after both passes; 0 if there is none, and `presence` of a member
of a oneof is not set yet. -/
def hasbit (fs : List MiniTableField) (i : Nat) (f : MiniTableField) : Int :=
  if f.offset = requiredPresence then toInt16 (rank isRequired fs i : Nat)
  else if f.offset = hasbitPresence then
    toInt16 (fs.countP isRequired + rank isOptional fs i : Nat)
  else if f.offset = noPresence then 0 else f.presence

/-- The number of has-bits. -/
def hasbitCount (fs : List MiniTableField) : Nat := fs.countP isRequired + fs.countP isOptional

/-- The bytes of the has-bits. -/
def hasbitBytes (fields : List MiniTableField) : Nat :=
  if hasbitCount fields = 0 then 0 else divideRoundUp (hasbitCount fields + 1) 8 % 2 ^ 16

theorem rank_congr {fs fs' : List MiniTableField} (h : fs'.map (·.offset) = fs.map (·.offset))
    (k i : Nat) : rank (ofClass k) fs' i = rank (ofClass k) fs i := by
  have hr : ∀ l : List MiniTableField,
      rank (ofClass k) l i = ((l.map (·.offset)).take (i + 1)).countP (· == k) := by
    intro l
    rw [← List.map_take, List.countP_map]
    rfl
  rw [hr, hr, h]

theorem countP_congr_offset {fs fs' : List MiniTableField}
    (h : fs'.map (·.offset) = fs.map (·.offset)) (k : Nat) :
    fs'.countP (ofClass k) = fs.countP (ofClass k) := by
  have hr : ∀ l : List MiniTableField,
      l.countP (ofClass k) = (l.map (·.offset)).countP (· == k) := by
    intro l
    rw [List.countP_map]
    rfl
  rw [hr, hr, h]

theorem assignHasbits_spec {d : MtDecoder} {fs : List MiniTableField} {requiredCount size : Nat}
    (hc : d.fieldCount = d.fields.length) (h : d.assignHasbits = .ok (fs, requiredCount, size)) :
    (∀ i : Nat, fs[i]? = (d.fields[i]?).map fun f : MiniTableField =>
        { f with presence := hasbit d.fields i f }) ∧
      size = if hasbitCount d.fields = 0 then 0
        else divideRoundUp (hasbitCount d.fields + 1) 8 % 2 ^ 16 := by
  obtain ⟨hn₁, hget₁⟩ := assignRequired_spec 0 d.fields
  obtain ⟨hn₂, hget₂⟩ := assignOptional_spec (d.fields.countP isRequired) (assignRequired 0 d.fields).1
  have hoff : (assignRequired 0 d.fields).1.map (·.offset) = d.fields.map (·.offset) := by
    apply List.ext_getElem?
    intro i
    simp only [List.getElem?_map, hget₁, Option.map_map]
    rfl
  unfold assignHasbits at h
  rw [hc, List.take_length, List.drop_length] at h
  simp only [List.append_nil, hn₁, Nat.zero_add] at h
  split at h
  · cases h
  cases h
  refine ⟨fun i => ?_, ?_⟩
  · rw [hget₂, hget₁, Option.map_map]
    refine congrArg (fun g => Option.map g _) (funext fun f => ?_)
    simp only [Function.comp_apply, Nat.zero_add, hasbit, rank_congr hoff]
    by_cases hr : f.offset = requiredPresence
    · simp [hr, requiredPresence, hasbitPresence]
    · simp [hr]
  · rw [hn₂, countP_congr_offset hoff]
    rfl

/-- With fewer than `2 ^ 15` has-bits none is wrapped. -/
theorem hasbit_required {fs : List MiniTableField} {f : MiniTableField} {i : Nat}
    (hn : hasbitCount fs < 2 ^ 15) (hf : f.offset = requiredPresence) :
    hasbit fs i f = (rank isRequired fs i : Nat) := by
  have hr := rank_le isRequired fs i
  rw [hasbit, if_pos hf]
  unfold hasbitCount at hn
  exact toInt16_of_bounds (by omega) (by omega)

theorem hasbit_optional {fs : List MiniTableField} {f : MiniTableField} {i : Nat}
    (hn : hasbitCount fs < 2 ^ 15) (hf : f.offset = hasbitPresence) :
    hasbit fs i f = (fs.countP isRequired + rank isOptional fs i : Nat) := by
  have hr := rank_le isOptional fs i
  rw [hasbit, if_neg (by rw [hf]; decide), if_pos hf]
  unfold hasbitCount at hn
  exact toInt16_of_bounds (by omega) (by omega)

/-- Has-bits are numbered from 1, the required ones first. -/
theorem hasbit_bounds {fs : List MiniTableField} {f : MiniTableField} {i : Nat}
    (hn : hasbitCount fs < 2 ^ 15) (hf : fs[i]? = some f)
    (hc : f.offset = requiredPresence ∨ f.offset = hasbitPresence) :
    0 < hasbit fs i f ∧ hasbit fs i f ≤ hasbitCount fs ∧
      (f.offset = requiredPresence ↔ hasbit fs i f ≤ fs.countP isRequired) := by
  unfold hasbitCount at hn ⊢
  obtain hc | hc := hc
  · have hpos := rank_pos (c := isRequired) hf (by simp [ofClass, hc])
    have hle := rank_le isRequired fs i
    rw [hasbit_required hn hc]
    refine ⟨by omega, by omega, ?_⟩
    simp only [hc, true_iff]
    omega
  · have hpos := rank_pos (c := isOptional) hf (by simp [ofClass, hc])
    have hle := rank_le isOptional fs i
    rw [hasbit_optional hn hc]
    refine ⟨by omega, by omega, ?_⟩
    constructor
    · intro hr
      exact absurd (hr.symm.trans hc) (by decide)
    · intro hle
      omega

/-- Different fields have different has-bits. -/
theorem hasbit_injective {fs : List MiniTableField} {f g : MiniTableField} {i j : Nat}
    (hn : hasbitCount fs < 2 ^ 15) (hf : fs[i]? = some f) (hg : fs[j]? = some g)
    (hcf : f.offset = requiredPresence ∨ f.offset = hasbitPresence)
    (hcg : g.offset = requiredPresence ∨ g.offset = hasbitPresence)
    (h : hasbit fs i f = hasbit fs j g) : i = j := by
  have hbf := hasbit_bounds hn hf hcf
  have hbg := hasbit_bounds hn hg hcg
  have hsame : f.offset = requiredPresence ↔ g.offset = requiredPresence := by
    rw [hbf.2.2, hbg.2.2, h]
  by_cases hr : f.offset = requiredPresence
  · have hr' := hsame.mp hr
    rw [hasbit_required hn hr, hasbit_required hn hr'] at h
    exact rank_injective (c := isRequired) hf hg (by simp [ofClass, hr]) (by simp [ofClass, hr'])
      (by omega)
  · have ho := hcf.resolve_left hr
    have ho' := hcg.resolve_left fun hr' => hr (hsame.mpr hr')
    rw [hasbit_optional hn ho, hasbit_optional hn ho'] at h
    exact rank_injective (c := isOptional) hf hg (by simp [ofClass, ho]) (by simp [ofClass, ho'])
      (by omega)

end Hasbits

/-! ### Placing the items -/

section Place

variable {p : Platform} {size size' : Nat} {items items' : List LayoutItem}

/-- Placed items lie one behind the other, after the has-bits. -/
theorem place_spec (h : place p size items = .ok (items', size')) :
    items'.map LayoutItem.what = items.map LayoutItem.what ∧ size + items.length ≤ size' ∧
      items'.Pairwise (fun a b => LayoutItem.stop p a ≤ b.offset) ∧
      ∀ a ∈ items', size ≤ a.offset ∧ LayoutItem.stop p a ≤ size' := by
  induction items generalizing size items' with
  | nil =>
    cases h
    simp
  | cons it items ih =>
    rw [place] at h
    dsimp only at h
    split at h
    · cases h
    obtain ⟨⟨placed, n⟩, hp, h⟩ := Except.bind_eq_ok.mp h
    cases h
    obtain ⟨hwhat, hlen, hpair, hbound⟩ := ih hp
    have halign := le_alignUp size (alignOfRep_pos it.rep p)
    have hpos := sizeOfRep_pos it.rep p
    refine ⟨?_, ?_, ?_, ?_⟩
    · rw [List.map_cons, List.map_cons, hwhat]
      rfl
    · rw [List.length_cons]
      omega
    · exact List.pairwise_cons.mpr ⟨fun b hb => (hbound b hb).1, hpair⟩
    · intro a ha
      obtain rfl | ha := List.mem_cons.mp ha
      · refine ⟨halign, ?_⟩
        simp only [LayoutItem.stop]
        omega
      · have := hbound a ha
        omega

/-- Where a message ends that has `size` bytes before the items. -/
def endOfItems (p : Platform) (size : Nat) : List LayoutItem → Nat
  | [] => size
  | item :: items =>
    endOfItems p (alignUp size (alignOfRep item.rep p) + sizeOfRep item.rep p) items

end Place

/-! ### Following the links -/

section Walk

variable {fs fs' : List MiniTableField} {l : List Nat} {i j : Nat}
  {write : MiniTableField → MiniTableField}

/-- `l` is a oneof whose links are in place. -/
def Linked (fs : List MiniTableField) (l : List Nat) : Prop :=
  LinkedPath (nextMember (shape fs)) l.head? l none ∧ ∀ i ∈ l, i < fs.length

theorem Linked.congr (h : Linked fs l) (hs : ∀ j ∈ l, fs'[j]? = fs[j]?) : Linked fs' l := by
  refine ⟨h.1.congr fun a ha => ?_, fun i hi => ?_⟩
  · simp only [nextMember, shape, hs a ha]
  · have := hs i hi
    rw [List.getElem?_eq_getElem (h.2 i hi)] at this
    exact (List.getElem?_eq_some_iff.mp this).1

theorem Linked.length_le (h : Linked fs l) : l.length ≤ fs.length := by
  have hsub : l ⊆ List.range fs.length := fun i hi => List.mem_range.mpr (h.2 i hi)
  have := (List.subperm_of_subset h.1.nodup hsub).length_le
  rwa [List.length_range] at this

theorem walkOneof_writesAt {fuel : Nat} (h : Linked fs l) (hi : l.head? = some i)
    (hfuel : l.length ≤ fuel) : WritesAt l write fs (walkOneof write fuel i fs) := by
  induction l generalizing fuel i fs with
  | nil => cases hi
  | cons a l ih =>
    cases hi
    cases fuel with
    | zero => exact absurd hfuel (by simp)
    | succ fuel =>
      obtain ⟨⟨-, hpath⟩, hlt⟩ := h
      have hnodup := List.nodup_cons.mp (LinkedPath.nodup (show LinkedPath _ (some a) (a :: l) none from
        ⟨rfl, hpath⟩))
      obtain ⟨f, ha⟩ : ∃ f, fs[a]? = some f :=
        ⟨_, List.getElem?_eq_getElem (hlt a List.mem_cons_self)⟩
      have hnext : nextMember (shape fs) a = linkTarget f.offset := by
        simp [nextMember, shape, ha]
      rw [hnext] at hpath
      rw [walkOneof, ha]
      dsimp only
      by_cases hend : f.offset = indexSentinel
      · rw [if_pos hend]
        rw [linkTarget, if_pos hend] at hpath
        have hnil : l = [] := LinkedPath.unique hpath rfl
        subst hnil
        exact WritesAt.set ha
      · rw [if_neg hend]
        rw [linkTarget, if_neg hend] at hpath
        obtain ⟨b, l, rfl⟩ : ∃ b l', l = b :: l' := by
          cases l with
          | nil => cases hpath
          | cons b l => exact ⟨b, l, rfl⟩
        have hb : f.offset - oneofBase = b := Option.some.inj hpath.1
        rw [hb]
        have hrest : Linked fs (b :: l) := by
          rw [hb] at hpath
          exact ⟨hpath, fun i hi => hlt i (List.mem_cons_of_mem _ hi)⟩
        refine WritesAt.cons ha hnodup.1 (ih (hrest.congr fun j hj => ?_) rfl (by simpa using hfuel))
        refine List.getElem?_set_ne ?_
        rintro rfl
        exact hnodup.1 hj

theorem walkOneof_length (write : MiniTableField → MiniTableField) (fuel i : Nat)
    (fs : List MiniTableField) : (walkOneof write fuel i fs).length = fs.length := by
  induction fuel generalizing i fs with
  | zero => rfl
  | succ fuel ih =>
    rw [walkOneof]
    split
    · rfl
    · dsimp only
      split
      · simp
      · simp [ih]

/-- The links take it to every member. -/
theorem walkOneof_spec (h : Linked fs l) (hi : l.head? = some i) :
    WritesAt l write fs (walkOneof write fs.length i fs) :=
  walkOneof_writesAt h hi h.length_le

end Walk

/-! ### The items and the fields they stand for -/

/-- `items` are the layout items of the fields with the shapes `s` and the oneofs `gs`. -/
structure LayoutItems (p : Platform) (s : Nat → Option (Nat × FieldRep)) (gs : List (List Nat))
    (items : List LayoutItem) : Prop where
  nodup : (items.map LayoutItem.key).Nodup
  field : ∀ it ∈ items, it.type = .field → ∀ l ∈ gs, it.fieldIndex ∉ l
  oneof : ∀ it ∈ items, it.type ≠ .field → ∃ l ∈ gs, l.head? = some it.fieldIndex
  fieldItem : ∀ i x, s i = some x → (∀ l ∈ gs, i ∉ l) → ∃ it ∈ items, it.what = ((.field, i), x.2)
  caseItem : ∀ l ∈ gs, ∃ it ∈ items, ∃ i, l.head? = some i ∧
    it.what = ((.oneofCase, i), .fourByte)
  slotItem : ∀ l ∈ gs, ∃ it ∈ items, ∃ i r, l.head? = some i ∧ it.what = ((.oneofField, i), r) ∧
    ∀ j ∈ l, ∀ x, s j = some x → sizeOfRep x.2 p ≤ sizeOfRep r p

namespace LayoutItems

variable {p : Platform} {s : Nat → Option (Nat × FieldRep)} {gs : List (List Nat)}
  {items items' : List LayoutItem} {a b : LayoutItem}

/-- The items may be reordered, and given offsets. -/
theorem perm (h : LayoutItems p s gs items)
    (hp : (items.map LayoutItem.what).Perm (items'.map LayoutItem.what)) :
    LayoutItems p s gs items' := by
  have hkeys : ∀ l : List LayoutItem, l.map LayoutItem.key = (l.map LayoutItem.what).map Prod.fst := by
    intro l
    simp [LayoutItem.what]
  have hback : ∀ it' ∈ items', ∃ it ∈ items, it.what = it'.what := by
    intro it' hit'
    exact List.mem_map.mp (hp.mem_iff.mpr (List.mem_map_of_mem hit'))
  have hforth : ∀ it ∈ items, ∃ it' ∈ items', it'.what = it.what := by
    intro it hit
    exact List.mem_map.mp (hp.mem_iff.mp (List.mem_map_of_mem hit))
  have htype : ∀ {a b : LayoutItem}, a.what = b.what → a.type = b.type :=
    fun hab => congrArg (·.1.1) hab
  have hindex : ∀ {a b : LayoutItem}, a.what = b.what → a.fieldIndex = b.fieldIndex :=
    fun hab => congrArg (·.1.2) hab
  refine ⟨?_, fun it' hit' hty => ?_, fun it' hit' hty => ?_, fun i x hx hi => ?_, fun l hl => ?_,
    fun l hl => ?_⟩
  · rw [hkeys]
    exact (hp.map Prod.fst).nodup_iff.mp (hkeys items ▸ h.nodup)
  · obtain ⟨it, hit, hw⟩ := hback it' hit'
    rw [← hindex hw]
    exact h.field it hit (htype hw ▸ hty)
  · obtain ⟨it, hit, hw⟩ := hback it' hit'
    rw [← hindex hw]
    exact h.oneof it hit (htype hw ▸ hty)
  · obtain ⟨it, hit, hw⟩ := h.fieldItem i x hx hi
    obtain ⟨it', hit', hw'⟩ := hforth it hit
    exact ⟨it', hit', hw'.trans hw⟩
  · obtain ⟨it, hit, i, hi, hw⟩ := h.caseItem l hl
    obtain ⟨it', hit', hw'⟩ := hforth it hit
    exact ⟨it', hit', i, hi, hw'.trans hw⟩
  · obtain ⟨it, hit, i, r, hi, hw, hr⟩ := h.slotItem l hl
    obtain ⟨it', hit', hw'⟩ := hforth it hit
    exact ⟨it', hit', i, r, hi, hw'.trans hw, hr⟩

theorem eq_of_key (h : LayoutItems p s gs items) (ha : a ∈ items) (hb : b ∈ items)
    (hk : a.key = b.key) : a = b :=
  List.inj_on_of_nodup_map h.nodup ha hb hk

end LayoutItems

theorem mem_fieldItems {fs : List MiniTableField} {n : Nat} {it : LayoutItem} :
    it ∈ fieldItems fs n ↔ ∃ i f, i < n ∧ fs[i]? = some f ∧ f.offset < oneofBase ∧
      it = ⟨i, 0, f.rep, .field⟩ := by
  unfold fieldItems
  rw [List.mem_filterMap]
  constructor
  · rintro ⟨i, hi, hit⟩
    split at hit
    · rename_i f hf
      split at hit
      · cases hit
      · rename_i ho
        exact ⟨i, f, List.mem_range.mp hi, hf, Nat.lt_of_not_ge ho, (Option.some.inj hit).symm⟩
    · cases hit
  · rintro ⟨i, f, hi, hf, ho, rfl⟩
    refine ⟨i, List.mem_range.mpr hi, ?_⟩
    rw [hf]
    dsimp only
    rw [if_neg (Nat.not_le_of_lt ho)]

theorem fieldItems_key_nodup (fs : List MiniTableField) (n : Nat) :
    ((fieldItems fs n).map LayoutItem.key).Nodup := by
  unfold fieldItems
  rw [List.map_filterMap]
  refine List.Nodup.filterMap ?_ List.nodup_range
  intro i i' k hk hk'
  obtain ⟨it, hit, rfl⟩ := Option.map_eq_some_iff.mp hk
  obtain ⟨it', hit', hkey⟩ := Option.map_eq_some_iff.mp hk'
  split at hit
  · split at hit
    · cases hit
    · cases hit
      split at hit'
      · split at hit'
        · cases hit'
        · cases hit'
          exact (congrArg Prod.snd hkey).symm
      · cases hit'
  · cases hit

/-- The items that are sorted and placed. -/
theorem Parsed.layoutItems {d : MtDecoder} (h : d.Parsed) :
    LayoutItems d.platform (shape d.fields) d.oneofs (d.vec ++ fieldItems d.fields d.fieldCount) := by
  have hfield : ∀ it ∈ fieldItems d.fields d.fieldCount, ∀ l ∈ d.oneofs, it.fieldIndex ∉ l := by
    intro it hit l hl hmem
    obtain ⟨i, f, -, hf, ho, rfl⟩ := mem_fieldItems.mp hit
    have hx : shape d.fields i = some (f.offset, f.rep) := by simp [shape, hf]
    exact absurd ((h.oneofs.mem_iff hx).mp ⟨l, hl, hmem⟩) (Nat.not_le_of_lt ho)
  refine ⟨?_, fun it hit hty => ?_, fun it hit hty => ?_, fun i x hx hi => ?_, fun l hl => ?_,
    fun l hl => ?_⟩
  · rw [List.map_append]
    refine List.nodup_append.mpr ⟨h.items.nodup, fieldItems_key_nodup _ _, ?_⟩
    rintro a ha b hb rfl
    obtain ⟨it, hit, rfl⟩ := List.mem_map.mp ha
    obtain ⟨it', hit', hk⟩ := List.mem_map.mp hb
    obtain ⟨i, f, -, -, -, rfl⟩ := mem_fieldItems.mp hit'
    exact (h.items.source it hit).1 (congrArg Prod.fst hk).symm
  · obtain hit | hit := List.mem_append.mp hit
    · exact absurd hty (h.items.source it hit).1
    · exact hfield it hit
  · obtain hit | hit := List.mem_append.mp hit
    · exact (h.items.source it hit).2
    · obtain ⟨i, f, -, -, -, rfl⟩ := mem_fieldItems.mp hit
      exact absurd rfl hty
  · obtain ⟨f, hf, ho, hr⟩ := shape_eq_some.mp hx
    have hlt : i < d.fieldCount := by
      rw [h.count]
      exact (List.getElem?_eq_some_iff.mp hf).1
    have hbase : f.offset < oneofBase := ho ▸ h.oneofs.other i x hi hx
    refine ⟨_, List.mem_append_right _ (mem_fieldItems.mpr ⟨i, f, hlt, hf, hbase, rfl⟩), ?_⟩
    rw [← hr]
    rfl
  · obtain ⟨it, hit, hhead, hty, hrep⟩ := h.items.caseItem l hl
    refine ⟨it, List.mem_append_left _ hit, it.fieldIndex, hhead, ?_⟩
    rw [← hty, ← hrep]
    rfl
  · obtain ⟨it, hit, hhead, hty, hrep⟩ := h.items.slotItem l hl
    refine ⟨it, List.mem_append_left _ hit, it.fieldIndex, it.rep, hhead, ?_, hrep⟩
    rw [← hty]
    rfl

/-! ### The two passes over the items -/

section Passes

variable {p : Platform} {s : Nat → Option (Nat × FieldRep)} {gs : List (List Nat)}
  {fs : List MiniTableField} {items : List LayoutItem} {it : LayoutItem} {l : List Nat} {i j : Nat}

/-- The oneof whose first member is `i`. -/
def group (gs : List (List Nat)) (i : Nat) : List Nat :=
  (gs.find? fun l => l.head? = some i).getD []

theorem group_eq (ho : Oneofs s gs) (hl : l ∈ gs) (hi : l.head? = some i) : group gs i = l := by
  obtain ⟨l', hl'⟩ : ∃ l', gs.find? (fun l => l.head? = some i) = some l' := by
    rw [← Option.isSome_iff_exists, List.find?_isSome]
    exact ⟨l, hl, by simpa using hi⟩
  have hhead : l'.head? = some i := by simpa using List.find?_some hl'
  rw [group, hl', Option.getD_some]
  exact ho.unique (List.mem_of_find?_eq_some hl') hl (List.mem_of_head? hhead) (List.mem_of_head? hi)

/-- The fields that the first pass writes to for an item. -/
def caseMembers (gs : List (List Nat)) (it : LayoutItem) : List Nat :=
  match it.type with
  | .oneofCase => group gs it.fieldIndex
  | _ => []

/-- The fields that the second pass writes to for an item. -/
def dataMembers (gs : List (List Nat)) (it : LayoutItem) : List Nat :=
  match it.type with
  | .oneofField => group gs it.fieldIndex
  | .field => [it.fieldIndex]
  | .oneofCase => []

/-- The oneof of an item of the type `ty` is linked. -/
def Ready (ty : LayoutItemType) (gs : List (List Nat)) (fs : List MiniTableField) (it : LayoutItem) :
    Prop :=
  it.type = ty →
    (group gs it.fieldIndex).head? = some it.fieldIndex ∧ Linked fs (group gs it.fieldIndex)

theorem assignCase_writesAt (h : Ready .oneofCase gs fs it) :
    WritesAt (caseMembers gs it)
      (fun f => { f with presence := toInt16 (-(it.offset : Int) - 1) }) fs (assignCase fs it) := by
  unfold caseMembers assignCase
  cases hty : it.type with
  | oneofCase => exact walkOneof_spec (h hty).2 (h hty).1
  | oneofField => exact WritesAt.refl
  | field => exact WritesAt.refl

theorem assignOffset_writesAt (h : Ready .oneofField gs fs it) :
    WritesAt (dataMembers gs it) (fun f => { f with offset := it.offset }) fs
      (assignOffset fs it) := by
  unfold dataMembers assignOffset
  cases hty : it.type with
  | oneofCase => exact WritesAt.refl
  | oneofField => exact walkOneof_spec (h hty).2 (h hty).1
  | field =>
    cases hf : fs[it.fieldIndex]? with
    | some f => exact WritesAt.set hf
    | none =>
      intro j
      by_cases hj : j = it.fieldIndex
      · subst hj
        simp [hf]
      · simp [hj]

theorem Oneofs.linked (ho : Oneofs (shape fs) gs) (hl : l ∈ gs) : Linked fs l := by
  refine ⟨ho.path l hl, fun i hi => ?_⟩
  obtain ⟨x, hx, -⟩ := ho.member l hl i hi
  obtain ⟨f, hf, -⟩ := shape_eq_some.mp hx
  exact (List.getElem?_eq_some_iff.mp hf).1

theorem assignCase_length (fs : List MiniTableField) (it : LayoutItem) :
    (assignCase fs it).length = fs.length := by
  unfold assignCase
  split
  · exact walkOneof_length _ _ _ _
  · rfl

theorem assignOffset_length (fs : List MiniTableField) (it : LayoutItem) :
    (assignOffset fs it).length = fs.length := by
  unfold assignOffset
  split
  · exact walkOneof_length _ _ _ _
  · split
    · simp
    · rfl
  · rfl

theorem foldl_length {step : List MiniTableField → LayoutItem → List MiniTableField}
    (h : ∀ fs it, (step fs it).length = fs.length) (items : List LayoutItem)
    (fs : List MiniTableField) : (items.foldl step fs).length = fs.length := by
  induction items generalizing fs with
  | nil => rfl
  | cons it items ih => rw [List.foldl_cons, ih, h]

namespace LayoutItems

theorem ready {ty : LayoutItemType} (h : LayoutItems p s gs items) (ho : Oneofs (shape fs) gs)
    (hne : ty ≠ .field) (hit : it ∈ items) : Ready ty gs fs it := by
  intro hty
  obtain ⟨l, hl, hhead⟩ := h.oneof it hit (hty ▸ hne)
  rw [group_eq ho hl hhead]
  exact ⟨hhead, Oneofs.linked ho hl⟩

/-- Two items of the same kind belong to different oneofs. -/
theorem group_disjoint {a b : LayoutItem} (h : LayoutItems p s gs items) (ho : Oneofs s gs)
    (ha : a ∈ items) (hb : b ∈ items) (hta : a.type ≠ .field) (hty : a.type = b.type)
    (hne : a.key ≠ b.key) : List.Disjoint (group gs a.fieldIndex) (group gs b.fieldIndex) := by
  obtain ⟨l, hl, hhead⟩ := h.oneof a ha hta
  obtain ⟨l', hl', hhead'⟩ := h.oneof b hb (hty ▸ hta)
  rw [group_eq ho hl hhead, group_eq ho hl' hhead']
  intro i hi hi'
  have : l = l' := ho.unique hl hl' hi hi'
  subst this
  rw [hhead] at hhead'
  exact hne (Prod.ext hty (Option.some.inj hhead'))

theorem pairwise_key (h : LayoutItems p s gs items) :
    items.Pairwise fun a b => a.key ≠ b.key := by
  have := h.nodup
  rwa [List.Nodup, List.pairwise_map] at this

theorem caseMembers_pairwise (h : LayoutItems p s gs items) (ho : Oneofs s gs) :
    items.Pairwise fun a b => List.Disjoint (caseMembers gs a) (caseMembers gs b) := by
  refine h.pairwise_key.imp_of_mem fun {a b} ha hb hne => ?_
  unfold caseMembers
  split
  · split
    · rename_i hta _ htb
      exact h.group_disjoint ho ha hb (by rw [hta]; decide) (hta.trans htb.symm) hne
    · exact List.disjoint_nil_right _
  · exact List.disjoint_nil_left _

theorem dataMembers_pairwise (h : LayoutItems p s gs items) (ho : Oneofs s gs) :
    items.Pairwise fun a b => List.Disjoint (dataMembers gs a) (dataMembers gs b) := by
  refine h.pairwise_key.imp_of_mem fun {a b} ha hb hne => ?_
  have hcross : ∀ {a b : LayoutItem}, a ∈ items → b ∈ items → a.type = .oneofField →
      b.type = .field → b.fieldIndex ∉ group gs a.fieldIndex := by
    intro a b ha hb hta htb hmem
    obtain ⟨l, hl, hhead⟩ := h.oneof a ha (by rw [hta]; decide)
    rw [group_eq ho hl hhead] at hmem
    exact h.field b hb htb l hl hmem
  unfold dataMembers
  cases hta : a.type with
  | oneofCase => exact List.disjoint_nil_left _
  | oneofField =>
    cases htb : b.type with
    | oneofCase => exact List.disjoint_nil_right _
    | oneofField => exact h.group_disjoint ho ha hb (by rw [hta]; decide) (hta.trans htb.symm) hne
    | field => exact List.disjoint_singleton.mpr (hcross ha hb hta htb)
  | field =>
    cases htb : b.type with
    | oneofCase => exact List.disjoint_nil_right _
    | oneofField => exact List.singleton_disjoint.mpr (hcross hb ha htb hta)
    | field =>
      refine List.disjoint_singleton.mpr fun hmem => hne ?_
      exact Prod.ext (hta.trans htb.symm) (List.mem_singleton.mp hmem).symm

end LayoutItems

theorem Ready.congr {ty : LayoutItemType} {fs' : List MiniTableField} (h : Ready ty gs fs it)
    (hs : it.type = ty → ∀ j ∈ group gs it.fieldIndex, fs'[j]? = fs[j]?) : Ready ty gs fs' it :=
  fun hty => ⟨(h hty).1, (h hty).2.congr (hs hty)⟩

/-- The first pass writes the offset of a oneof's case to its members and to no other field. -/
theorem assignCases_spec (h : LayoutItems p (shape fs) gs items) (ho : Oneofs (shape fs) gs) :
    (∀ it ∈ items, it.type = .oneofCase → ∀ l ∈ gs, l.head? = some it.fieldIndex → ∀ j ∈ l,
      (items.foldl assignCase fs)[j]? = (fs[j]?).map fun f : MiniTableField =>
        { f with presence := toInt16 (-(it.offset : Int) - 1) }) ∧
      ∀ j : Nat, (∀ l ∈ gs, j ∉ l) → (items.foldl assignCase fs)[j]? = fs[j]? := by
  obtain ⟨hw, hother⟩ := foldl_writesAt (fun fs it hr => assignCase_writesAt hr)
    (fun fs fs' it hr hs => hr.congr fun hty j hj => hs j (by simpa [caseMembers, hty] using hj))
    (h.caseMembers_pairwise ho) fun it hit => h.ready ho (by decide) hit
  refine ⟨fun it hit hty l hl hhead j hj => hw it hit j ?_, fun j hj => hother j fun it hit hmem => ?_⟩
  · unfold caseMembers
    rw [hty]
    exact (group_eq ho hl hhead).symm ▸ hj
  · unfold caseMembers at hmem
    split at hmem
    · rename_i hty
      obtain ⟨l, hl, hhead⟩ := h.oneof it hit (by rw [hty]; decide)
      rw [group_eq ho hl hhead] at hmem
      exact hj l hl hmem
    · exact List.not_mem_nil hmem

/-- The second pass writes the offset of the data: to the members of a oneof, or to a single field. -/
theorem assignData_spec (h : LayoutItems p (shape fs) gs items) (ho : Oneofs (shape fs) gs) :
    (∀ it ∈ items, it.type = .oneofField → ∀ l ∈ gs, l.head? = some it.fieldIndex → ∀ j ∈ l,
      (items.foldl assignOffset fs)[j]? = (fs[j]?).map fun f : MiniTableField =>
        { f with offset := it.offset }) ∧
      ∀ it ∈ items, it.type = .field →
        (items.foldl assignOffset fs)[it.fieldIndex]? = (fs[it.fieldIndex]?).map
          fun f : MiniTableField => { f with offset := it.offset } := by
  obtain ⟨hw, -⟩ := foldl_writesAt (fun fs it hr => assignOffset_writesAt hr)
    (fun fs fs' it hr hs => hr.congr fun hty j hj => hs j (by simpa [dataMembers, hty] using hj))
    (h.dataMembers_pairwise ho) fun it hit => h.ready ho (by decide) hit
  refine ⟨fun it hit hty l hl hhead j hj => hw it hit j ?_, fun it hit hty => hw it hit _ ?_⟩
  · unfold dataMembers
    rw [hty]
    exact (group_eq ho hl hhead).symm ▸ hj
  · unfold dataMembers
    rw [hty]
    exact List.mem_singleton_self _

end Passes

end MtDecoder

end Hpb
