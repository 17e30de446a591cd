import Hpb.MiniDescriptor.LayoutSound
import Hpb.MiniDescriptor.MessageParse

/-!
# The table of a described message

The mini descriptor of a message description builds a table that says the same
(`build_encodeMessage`), unless the description asks for more than a table can hold: 64 required
fields (`not_build_64_required`), or too many bytes.

* `MtDecoder.layoutSize`: the bytes that a message takes, were there no limit.
* `layout_eq_ok`: the layout does not fail below the limits.
* `Reads.describes`: the table has what was parsed.
-/

namespace Hpb

namespace MtDecoder

/-- The bytes that the parts of a parsed message take, were there no limit. -/
def layoutSize (d : MtDecoder) : Nat :=
  endOfItems d.platform (hasbitBytes d.fields) d.sortLayoutItems

section

variable {p : Platform} {d : MtDecoder}

theorem le_endOfItems (size : Nat) (items : List LayoutItem) : size ≤ endOfItems p size items := by
  induction items generalizing size with
  | nil => exact Nat.le_refl _
  | cons item items ih =>
    rw [endOfItems]
    have := le_alignUp size (alignOfRep_pos item.rep p)
    exact Nat.le_trans (by omega) (ih _)

theorem place_eq_ok {size : Nat} {items : List LayoutItem} (h : endOfItems p size items ≤ 65535) :
    ∃ items', place p size items = .ok (items', endOfItems p size items) := by
  induction items generalizing size with
  | nil => exact ⟨[], rfl⟩
  | cons item items ih =>
    rw [endOfItems] at h ⊢
    obtain ⟨items', hp⟩ := ih h
    have hle := Nat.le_trans (le_endOfItems _ items) h
    rw [place]
    dsimp only
    rw [if_neg (Nat.not_lt.mpr hle), hp]
    exact ⟨_, rfl⟩

theorem assignHasbits_eq_ok (hc : d.fieldCount = d.fields.length)
    (hr : d.fields.countP isRequired ≤ 63) :
    ∃ fs, d.assignHasbits = .ok (fs, d.fields.countP isRequired, hasbitBytes d.fields) := by
  obtain ⟨hn, -⟩ := assignRequired_spec 0 d.fields
  rw [Nat.zero_add] at hn
  have hmod : d.fields.countP isRequired % 2 ^ 8 = d.fields.countP isRequired :=
    Nat.mod_eq_of_lt (by omega)
  have hex : ∃ fs bytes, d.assignHasbits = .ok (fs, d.fields.countP isRequired, bytes) := by
    unfold assignHasbits
    rw [hc, List.take_length]
    simp only [hn, hmod, if_neg (Nat.not_lt.mpr hr)]
    exact ⟨_, _, rfl⟩
  obtain ⟨fs, bytes, hh⟩ := hex
  obtain rfl := (assignHasbits_spec hc hh).2
  exact ⟨fs, hh⟩

/-- The layout does not fail below the limits. -/
theorem layout_eq_ok (h : d.Parsed) (hr : d.fields.countP isRequired ≤ 63)
    (hs : d.layoutSize ≤ 65535) :
    ∃ fields, d.layout = .ok (fields, d.fields.countP isRequired, d.layoutSize) := by
  have hoffs := allocateSubs_offsets h.count
  have h₁ := allocateSubs_parsed h
  have hreq := countP_congr_offset hoffs requiredPresence
  have hbytes : hasbitBytes d.allocateSubs.fields = hasbitBytes d.fields := by
    unfold hasbitBytes hasbitCount
    rw [hreq, countP_congr_offset hoffs hasbitPresence]
  obtain ⟨fs, hh⟩ := assignHasbits_eq_ok h₁.count (by rw [hreq]; exact hr)
  rw [hreq, hbytes] at hh
  have hshape : shape fs = shape d.fields := by
    rw [shape_of_hasbits (assignHasbits_spec h₁.count hh).1, allocateSubs_shape h.count]
  obtain ⟨items, hp⟩ := place_eq_ok hs
  refine ⟨items.foldl assignOffset (items.foldl assignCase fs), ?_⟩
  unfold layout assignOffsets
  simp only [hh, bind, Except.bind]
  rw [sortLayoutItems_allocateSubs hshape, allocateSubs_platform, hp]
  rfl

/-- The numbers of the enums come after those of the messages. -/
theorem allocateSubs_field (hc : d.fieldCount = d.fields.length) {i : Nat} {f : MiniTableField}
    (hf : d.fields[i]? = some f) :
    d.allocateSubs.fields[i]? = some { f with
      submsgIndex := if d.subCounts.subenumCount ≠ 0 ∧ f.descriptortype = .enum then
        (f.submsgIndex + d.subCounts.submsgCount) % 2 ^ 16 else f.submsgIndex } := by
  unfold allocateSubs
  by_cases h0 : d.subCounts.subenumCount = 0
  · rw [if_pos h0, if_neg (fun h => h.1 h0)]
    exact hf
  · rw [if_neg h0, hc, List.take_length, List.drop_length, List.append_nil, List.getElem?_map, hf]
    simp only [Option.map_some, Option.some.injEq]
    by_cases ht : f.descriptortype = .enum
    · rw [if_pos ht, if_pos ⟨h0, ht⟩]
    · rw [if_neg ht, if_neg (fun h => ht h.2)]

/-- The layout changes only `offset`, `presence` and the numbers of the enums. -/
theorem layout_field {fields : List MiniTableField} {requiredCount size i : Nat}
    {f g : MiniTableField} (h : d.Parsed) (hl : d.layout = .ok (fields, requiredCount, size))
    (hf : d.fields[i]? = some f) (hg : fields[i]? = some g) :
    ∃ offset presence, g = { f with
      offset, presence
      submsgIndex := if d.subCounts.subenumCount ≠ 0 ∧ f.descriptortype = .enum then
        (f.submsgIndex + d.subCounts.submsgCount) % 2 ^ 16 else f.submsgIndex } := by
  obtain ⟨fs, bytes, items, hplaced, rfl, -⟩ := layout_placed h hl
  have h₁ := allocateSubs_parsed h
  have hf₁ := allocateSubs_field h.count hf
  by_cases hi : ∃ l ∈ d.allocateSubs.oneofs, i ∈ l
  · obtain ⟨l, hl, hi⟩ := hi
    have hm := (hplaced.member_eq h₁ hl hi hf₁).1
    exact ⟨_, _, Option.some.inj (hg.symm.trans hm)⟩
  · push Not at hi
    have hm := (hplaced.field_eq h₁ hf₁ hi).1
    exact ⟨_, _, Option.some.inj (hg.symm.trans hm)⟩

/-- A field without presence has no has-bit. -/
theorem layout_noPresence {fields : List MiniTableField} {requiredCount size i : Nat}
    {f g : MiniTableField} (h : d.Parsed) (hl : d.layout = .ok (fields, requiredCount, size))
    (hf : d.fields[i]? = some f) (hg : fields[i]? = some g) (hn : f.offset = noPresence) :
    g.presence = 0 := by
  obtain ⟨fs, bytes, items, hplaced, rfl, -⟩ := layout_placed h hl
  have h₁ := allocateSubs_parsed h
  have hf₁ := allocateSubs_field h.count hf
  have hm := (hplaced.field_eq h₁ hf₁ ((h₁.not_mem_iff hf₁).mpr (Or.inr hn))).1
  rw [Option.some.inj (hg.symm.trans hm)]
  exact hasbit_noPresence hn

end

/-- Related lists have related elements. -/
theorem exists_mem_iff_of_forall₂ {α β : Type} {R : α → β → Prop} {as : List α} {bs : List β}
    (h : List.Forall₂ R as bs) {P : α → Prop} {Q : β → Prop}
    (hPQ : ∀ a b, R a b → (P a ↔ Q b)) : (∃ a ∈ as, P a) ↔ ∃ b ∈ bs, Q b := by
  induction h with
  | nil => simp
  | cons hab _ ih => simp [hPQ _ _ hab, ih]

section

variable {p : Platform} {m : MessageSpec} {d : MtDecoder} {i j : Nat} {s s' : FieldSpec}

/-- The numbers tell the fields apart. -/
theorem index_injective (hv : m.Valid) (hi : m.fields[i]? = some s) (hj : m.fields[j]? = some s')
    (h : s.number = s'.number) : i = j := by
  obtain ⟨hilt, rfl⟩ := List.getElem?_eq_some_iff.mp hi
  obtain ⟨hjlt, rfl⟩ := List.getElem?_eq_some_iff.mp hj
  have hasc := List.pairwise_iff_getElem.mp hv.ascending
  obtain hlt | heq | hgt := Nat.lt_trichotomy i j
  · exact absurd h (Nat.ne_of_lt (hasc i j hilt hjlt hlt))
  · exact heq
  · exact absurd h (Nat.ne_of_gt (hasc j i hjlt hilt hgt))

/-- The members of a oneof are the fields with its numbers. -/
theorem Matches.mem_iff {o l : List Nat} (hv : m.Valid)
    (h : Matches (toFields p m.modifiers [] m.fields) o l) (hs : m.fields[i]? = some s) :
    s.number ∈ o ↔ i ∈ l := by
  have hnum : ∀ k : Nat, ((toFields p m.modifiers [] m.fields)[k]?).map (·.number) =
      (m.fields[k]?).map (·.number) := by
    intro k
    rw [toFields_getElem?, Option.map_map]
    rfl
  unfold Matches at h
  simp only [hnum] at h
  constructor
  · intro hmem
    have : some s.number ∈ o.map some := List.mem_map_of_mem hmem
    rw [← h, List.mem_map] at this
    obtain ⟨k, hk, hkn⟩ := this
    obtain ⟨s', hs', hn⟩ := Option.map_eq_some_iff.mp hkn
    rw [index_injective hv hs hs' hn.symm]
    exact List.mem_reverse.mp hk
  · intro hmem
    have : (m.fields[i]?).map (·.number) ∈ o.map some := by
      rw [← h]
      exact List.mem_map_of_mem (List.mem_reverse.mpr hmem)
    rw [hs, Option.map_some, List.mem_map] at this
    obtain ⟨n, hn, he⟩ := this
    cases he
    exact hn

theorem Reads.mem_oneof_iff (hv : m.Valid) (h : Reads p m d) (hs : m.fields[i]? = some s) :
    (∃ o ∈ m.oneofs, s.number ∈ o) ↔ ∃ l ∈ d.oneofs, i ∈ l :=
  exists_mem_iff_of_forall₂ h.oneofs fun _ _ hm => hm.mem_iff hv hs

theorem Reads.same_oneof_iff (hv : m.Valid) (h : Reads p m d) (hs : m.fields[i]? = some s)
    (hs' : m.fields[j]? = some s') :
    (∃ o ∈ m.oneofs, s.number ∈ o ∧ s'.number ∈ o) ↔ ∃ l ∈ d.oneofs, i ∈ l ∧ j ∈ l :=
  exists_mem_iff_of_forall₂ h.oneofs fun _ _ hm => and_congr (hm.mem_iff hv hs) (hm.mem_iff hv hs')

/-- What the parser leaves in `offset` is the presence class. -/
theorem Reads.offset (hv : m.Valid) (h : Reads p m d) (hd : d.Parsed) (hs : m.fields[i]? = some s) :
    ∃ f, d.fields[i]? = some f ∧
      (∃ offset, f = { s.toField p m.modifiers (m.fields.take i) with offset }) ∧
      (m.presenceClass s = .implicit ↔ f.offset = noPresence) ∧
      (m.presenceClass s = .required ↔ f.offset = requiredPresence) ∧
      (m.presenceClass s = .hasbit ↔ f.offset = hasbitPresence) ∧
      (m.presenceClass s = .oneof ↔ ∃ l ∈ d.oneofs, i ∈ l) := by
  obtain ⟨offset, hf, hoff⟩ := h.field i s hs
  refine ⟨_, hf, ⟨offset, rfl⟩, ?_⟩
  have hmem := h.mem_oneof_iff hv hs
  have hnot := hd.not_mem_iff hf
  have hplain : (∃ o ∈ m.oneofs, s.number ∈ o) → s.IsPlain := by
    rintro ⟨o, ho, hn⟩
    obtain ⟨s', hs', hn', hp⟩ := hv.member o ho s.number hn
    obtain ⟨j, hj⟩ := List.getElem?_of_mem hs'
    obtain rfl := index_injective hv hs hj hn'.symm
    rw [hs] at hj
    cases hj
    exact hp
  have hflat : s.number ∈ m.oneofs.flatten ↔ ∃ o ∈ m.oneofs, s.number ∈ o := List.mem_flatten
  rw [hflat] at hoff
  dsimp only at hnot ⊢
  by_cases ho : ∃ o ∈ m.oneofs, s.number ∈ o
  · obtain ⟨h₁, h₂, h₃⟩ := hplain ho
    have hclass : m.presenceClass s = .oneof := by
      simp [MessageSpec.presenceClass, h₁, h₂, h₃, ho]
    have hmem' := hmem.mp ho
    have hne : ¬((offset = requiredPresence ∨ offset = hasbitPresence) ∨ offset = noPresence) := by
      rw [← hnot]
      push Not
      exact hmem'
    push Not at hne
    simp [hclass, hmem', hne.1.1, hne.1.2, hne.2]
  · have hmem' : ¬∃ l ∈ d.oneofs, i ∈ l := fun hl => ho (hmem.mpr hl)
    rw [hoff ho]
    simp only [hmem', iff_false]
    unfold MessageSpec.presenceClass FieldSpec.parsedClass
    rw [if_neg ho]
    by_cases hi : s.mod.isRepeated = true ∨ s.mod.isProto3Singular = true
    · simp [hi, noPresence, requiredPresence, hasbitPresence]
    · by_cases hq : s.mod.isRequired = true
      · simp [hi, hq, noPresence, requiredPresence, hasbitPresence]
      · simp [hi, hq, noPresence, requiredPresence, hasbitPresence]

theorem presenceClass_required (hv : s.Valid) :
    m.presenceClass s = .required ↔ s.mod.isRequired := by
  have hreq := hv.notRequired
  unfold MessageSpec.presenceClass
  split_ifs with h₁ h₂ <;> simp_all

theorem Reads.countP_isRequired (hv : m.Valid) (h : Reads p m d) (hd : d.Parsed) :
    d.fields.countP isRequired = m.fields.countP (·.mod.isRequired) := by
  have hmap : d.fields.map isRequired = m.fields.map (·.mod.isRequired) := by
    apply List.ext_getElem?
    intro i
    rw [List.getElem?_map, List.getElem?_map]
    cases hs : m.fields[i]? with
    | none =>
      have hi := List.getElem?_eq_none_iff.mp hs
      rw [List.getElem?_eq_none (by rw [h.length]; exact hi)]
      rfl
    | some s =>
      obtain ⟨f, hf, -, -, hreq, -⟩ := h.offset hv hd hs
      rw [presenceClass_required (hv.field s (List.mem_of_getElem? hs))] at hreq
      rw [hf, Option.map_some, Option.map_some, Option.some.injEq, Bool.eq_iff_iff, hreq]
      exact beq_iff_eq
  have hcount : ∀ {α : Type} (q : α → Bool) (l : List α), l.countP q = (l.map q).countP id := by
    intro α q l
    rw [List.countP_map]
    rfl
  rw [hcount, hmap, ← hcount]

/-! ### Sub-tables -/

/-- The fields with a sub-table of the same kind come in the order of their indexes. -/
theorem countP_take_lt {q : FieldSpec → Bool} (hij : i < j) (hs : m.fields[i]? = some s)
    (hq : q s) : (m.fields.take i).countP q < (m.fields.take j).countP q := by
  obtain ⟨hi, rfl⟩ := List.getElem?_eq_some_iff.mp hs
  have hle : (m.fields.take (i + 1)).countP q ≤ (m.fields.take j).countP q :=
    (List.take_sublist_take_left hij).countP_le
  rw [List.take_succ_eq_append_getElem hi, List.countP_append, List.countP_singleton, if_pos hq] at hle
  omega

/-- The index of a field's sub-table. -/
def subTable (m : MessageSpec) (i : Nat) (s : FieldSpec) : Nat :=
  match s.sub with
  | some .nullEnum => s.subIndex (m.fields.take i) + (subCountsOf m.fields).submsgCount
  | _ => s.subIndex (m.fields.take i)

theorem subCountsOf_add (fields : List FieldSpec) :
    (subCountsOf fields).submsgCount + (subCountsOf fields).subenumCount =
      fields.countP (·.sub.isSome) := by
  unfold subCountsOf
  induction fields with
  | nil => rfl
  | cons s fields ih =>
    have hone : (if s.sub = some .emptyMessage then 1 else 0) +
        (if s.sub = some .nullEnum then 1 else 0) = if s.sub.isSome then 1 else 0 := by
      unfold FieldSpec.sub
      split_ifs <;> simp_all
    simp only [List.countP_cons, decide_eq_true_eq] at ih ⊢
    omega

theorem countP_take_lt_countP {q : FieldSpec → Bool} (hs : m.fields[i]? = some s) (hq : q s) :
    (m.fields.take i).countP q < m.fields.countP q := by
  have h := countP_take_lt (List.getElem?_eq_some_iff.mp hs).1 hs hq
  rwa [List.take_length] at h

theorem sub_eq_or (s : FieldSpec) :
    s.sub = some .emptyMessage ∨ s.sub = some .nullEnum ∨ s.sub = none := by
  unfold FieldSpec.sub
  split_ifs <;> simp

/-- The indexes of messages are below those of enums. -/
theorem subTable_eq (hs : m.fields[i]? = some s) :
    (s.sub = some .emptyMessage → subTable m i s = (m.fields.take i).countP (·.sub = s.sub) ∧
      subTable m i s < (subCountsOf m.fields).submsgCount) ∧
    (s.sub = some .nullEnum → subTable m i s = (m.fields.take i).countP (·.sub = s.sub) +
        (subCountsOf m.fields).submsgCount ∧
      subTable m i s < m.fields.countP (·.sub.isSome)) ∧
    (s.sub = none → subTable m i s = noSub) := by
  have hadd := subCountsOf_add m.fields
  refine ⟨fun hsub => ?_, fun hsub => ?_, fun hsub => ?_⟩
  · have hlt := countP_take_lt_countP (q := (·.sub = some .emptyMessage)) hs (by simpa using hsub)
    have heq : subTable m i s = (m.fields.take i).countP (·.sub = s.sub) := by
      simp [subTable, FieldSpec.subIndex, hsub]
    rw [heq, hsub]
    exact ⟨rfl, hlt⟩
  · have hlt := countP_take_lt_countP (q := (·.sub = some .nullEnum)) hs (by simpa using hsub)
    have heq : subTable m i s = (m.fields.take i).countP (·.sub = s.sub) +
        (subCountsOf m.fields).submsgCount := by
      simp [subTable, FieldSpec.subIndex, hsub]
    rw [heq, hsub]
    change _ < (subCountsOf m.fields).subenumCount at hlt
    exact ⟨rfl, by omega⟩
  · simp [subTable, FieldSpec.subIndex, hsub]

theorem Reads.subs_getElem? (h : Reads p m d) (hs : m.fields[i]? = some s) {sub : MiniTableSub}
    (hsub : s.sub = some sub) : d.subs[subTable m i s]? = some sub := by
  obtain ⟨hmsg, henum, -⟩ := subTable_eq hs
  have hadd := subCountsOf_add m.fields
  unfold subs
  rw [h.subCounts]
  obtain hk | hk | hk := sub_eq_or s
  · have hlt := (hmsg hk).2
    rw [List.getElem?_append_left (by simpa using hlt), List.getElem?_replicate, if_pos hlt,
      ← hk, hsub]
  · obtain ⟨heq, hlt⟩ := henum hk
    rw [List.getElem?_append_right (by simp; omega), List.getElem?_replicate, List.length_replicate,
      if_pos (by omega), ← hk, hsub]
  · rw [hsub] at hk
    cases hk

theorem subTable_injective (hs : m.fields[i]? = some s) (hs' : m.fields[j]? = some s')
    (hsub : s.sub.isSome) (hsub' : s'.sub.isSome) (h : subTable m i s = subTable m j s') : i = j := by
  have hsame : ∀ {i j : Nat} {s s' : FieldSpec}, m.fields[i]? = some s → s.sub = s'.sub → i < j →
      (m.fields.take i).countP (·.sub = s.sub) ≠ (m.fields.take j).countP (·.sub = s'.sub) := by
    intro i j s s' hs heq hij
    rw [← heq]
    exact Nat.ne_of_lt (countP_take_lt hij hs (by simp))
  have hkind : s.sub = s'.sub → i = j := by
    intro heq
    have hrank : (m.fields.take i).countP (·.sub = s.sub) =
        (m.fields.take j).countP (·.sub = s'.sub) := by
      obtain hk | hk | hk := sub_eq_or s
      · rw [← ((subTable_eq hs).1 hk).1, ← ((subTable_eq hs').1 (heq ▸ hk)).1, h]
      · have h₁ := ((subTable_eq hs).2.1 hk).1
        have h₂ := ((subTable_eq hs').2.1 (heq ▸ hk)).1
        omega
      · rw [hk] at hsub
        cases hsub
    obtain hlt | he | hgt := Nat.lt_trichotomy i j
    · exact absurd hrank (hsame hs heq hlt)
    · exact he
    · exact absurd hrank.symm (hsame hs' heq.symm hgt)
  obtain hk | hk | hk := sub_eq_or s
  · obtain hk' | hk' | hk' := sub_eq_or s'
    · exact hkind (hk.trans hk'.symm)
    · have h₁ := ((subTable_eq hs).1 hk).2
      have h₂ := ((subTable_eq hs').2.1 hk').1
      omega
    · rw [hk'] at hsub'
      cases hsub'
  · obtain hk' | hk' | hk' := sub_eq_or s'
    · have h₁ := ((subTable_eq hs).2.1 hk).1
      have h₂ := ((subTable_eq hs').1 hk').2
      omega
    · exact hkind (hk.trans hk'.symm)
    · rw [hk'] at hsub'
      cases hsub'
  · rw [hk] at hsub
    cases hsub

/-- The layout moves the indexes of the enums behind those of the messages. -/
theorem Reads.submsgIndex (hv : m.Valid) (hb : m.fields.length ≤ 2 ^ 15) (h : Reads p m d)
    (hs : m.fields[i]? = some s) :
    (if d.subCounts.subenumCount ≠ 0 ∧ s.descriptortype m.modifiers = .enum then
      (s.subIndex (m.fields.take i) + d.subCounts.submsgCount) % 2 ^ 16
      else s.subIndex (m.fields.take i)) = subTable m i s := by
  have hsub := FieldSpec.sub_eq (m := m.modifiers) (hv.field s (List.mem_of_getElem? hs))
  obtain ⟨-, henum, -⟩ := subTable_eq hs
  have hle : m.fields.countP (·.sub.isSome) ≤ m.fields.length := List.countP_le_length
  have hadd := subCountsOf_add m.fields
  rw [h.subCounts]
  by_cases ht : s.descriptortype m.modifiers = .enum
  · have hk : s.sub = some .nullEnum := by simp [hsub, ht]
    obtain ⟨heq, hlt⟩ := henum hk
    have hidx : s.subIndex (m.fields.take i) = (m.fields.take i).countP (·.sub = s.sub) := by
      simp [FieldSpec.subIndex, hk]
    rw [if_pos ⟨by omega, ht⟩, hidx, heq, Nat.mod_eq_of_lt (by omega)]
  · have hk : s.sub ≠ some .nullEnum := by
      rw [hsub]
      split_ifs <;> simp
    rw [if_neg (fun hc => ht hc.2), subTable]
    split
    · contradiction
    · rfl

/-! ### The table -/

/-- The members of the same oneof are told by `presence`. -/
theorem LayoutSound.presence_eq_iff_same {t : MiniTable} {range : StorageUnit → ByteRange}
    (h : LayoutSound p d t range) (hd : d.Parsed) {f g : MiniTableField} {l l' : List Nat}
    (hl : l ∈ d.oneofs) (hl' : l' ∈ d.oneofs) (hi : i ∈ l) (hj : j ∈ l') (hf : t.fields[i]? = some f)
    (hg : t.fields[j]? = some g) : f.presence = g.presence ↔ ∃ l ∈ d.oneofs, i ∈ l ∧ j ∈ l := by
  rw [h.presence_eq_iff hl hl' hi hj hf hg]
  constructor
  · rintro rfl
    exact ⟨l, hl, hi, hj⟩
  · rintro ⟨k, hk, hik, hjk⟩
    rw [hd.oneofs.unique hl hk hi hik, hd.oneofs.unique hl' hk hj hjk]

/-- The presence class in the table. -/
theorem Reads.presenceClass {t : MiniTable} {range : StorageUnit → ByteRange}
    {fields : List MiniTableField} {requiredCount size : Nat} {g : MiniTableField} (hv : m.Valid)
    (h : Reads p m d) (hd : d.Parsed) (hl : d.layout = .ok (fields, requiredCount, size))
    (hfields : t.fields = fields) (hreq : t.requiredCount = d.fields.countP isRequired)
    (hsound : LayoutSound d.platform d t range) (hs : m.fields[i]? = some s)
    (hg : t.fields[i]? = some g) : t.presenceClass g = m.presenceClass s := by
  obtain ⟨f, hf, -, himp, hrq, hhb, hone⟩ := h.offset hv hd hs
  have hfirst : f.offset = requiredPresence ∨ f.offset = hasbitPresence → 0 < g.presence := by
    intro hc
    obtain ⟨g', hg', hpos⟩ := hsound.hasbit i f hf hc
    rw [hg] at hg'
    cases hg'
    exact hpos
  unfold MiniTable.presenceClass
  cases hc : m.presenceClass s with
  | implicit =>
    have h0 := layout_noPresence hd hl hf (hfields ▸ hg) (himp.mp hc)
    rw [if_pos h0]
  | required =>
    have hpos := hfirst (Or.inl (hrq.mp hc))
    have hle := (hsound.requiredLowest i f g hf hg hpos).mp (hrq.mp hc)
    rw [if_neg (by omega), if_neg (by omega), if_pos (by omega)]
  | hasbit =>
    have hpos := hfirst (Or.inr (hhb.mp hc))
    have hle := hsound.requiredLowest i f g hf hg hpos
    rw [hhb.mp hc] at hle
    rw [if_neg (by omega), if_neg (by omega), if_neg]
    rw [hreq, ← hle]
    decide
  | oneof =>
    obtain ⟨l, hl, hi⟩ := hone.mp hc
    obtain ⟨g', hg', hneg, -⟩ := hsound.member l hl i hi
    rw [hg] at hg'
    cases hg'
    rw [if_neg (by omega), if_pos (by omega)]

theorem Reads.describes {t : MiniTable} {fields : List MiniTableField} {size : Nat} (hv : m.Valid)
    (hb : m.fields.length ≤ 2 ^ 15) (h : Reads p m d) (hd : d.Parsed)
    (hl : d.layout = .ok (fields, d.fields.countP isRequired, size)) (hsize : size < 2 ^ 15)
    (ht : d.messageTable = .ok t) : m.Describes t := by
  obtain ⟨hfields, hsz, hsubs, hcount, hext, hreq⟩ : t.fields = fields ∧
      t.size = alignUp size 8 % 2 ^ 16 ∧ t.subs = d.subs ∧ t.fieldCount = d.fieldCount ∧
      t.ext = d.ext ∧ t.requiredCount = d.fields.countP isRequired := by
    rw [messageTable, hl] at ht
    cases ht
    exact ⟨rfl, rfl, rfl, rfl, rfl, rfl⟩
  obtain ⟨range, hsound⟩ := hd.layoutSound hl hsize hfields hsz
  have hframe : ∀ (i : Nat) (s : FieldSpec) (g : MiniTableField), m.fields[i]? = some s →
      t.fields[i]? = some g → ∃ offset presence, g =
        { s.toField p m.modifiers (m.fields.take i) with
          offset, presence, submsgIndex := subTable m i s } := by
    intro i s g hs hg
    obtain ⟨f, hf, ⟨o, rfl⟩, -⟩ := h.offset hv hd hs
    obtain ⟨offset, presence, rfl⟩ := layout_field hd hl hf (hfields ▸ hg)
    refine ⟨offset, presence, ?_⟩
    rw [← h.submsgIndex hv hb hs]
    rfl
  constructor
  case count => exact hcount.trans h.count
  case length => exact hsound.length.trans h.length
  case field =>
    intro i s g hs hg
    obtain ⟨offset, presence, hgeq⟩ := hframe i s g hs hg
    have hclass := h.presenceClass hv hd hl hfields hreq hsound hs hg
    subst hgeq
    refine ⟨rfl, rfl, modeBits_and_isAlternate _ _ _ _, modeBits_fieldMode _ _ _ _,
      modeBits_and_isPacked _ _ _ _, hclass, fun sub hsub => ?_, fun hsub => ?_⟩
    · exact hsubs ▸ h.subs_getElem? hs hsub
    · exact (subTable_eq hs).2.2 hsub
  case required => exact hreq.trans (h.countP_isRequired hv hd)
  case oneof =>
    intro i j s s' f f' hs hs' hf hf' hc hc'
    obtain ⟨-, -, -, -, -, -, hone⟩ := h.offset hv hd hs
    obtain ⟨-, -, -, -, -, -, hone'⟩ := h.offset hv hd hs'
    obtain ⟨l, hl, hi⟩ := hone.mp hc
    obtain ⟨l', hl', hj⟩ := hone'.mp hc'
    rw [h.same_oneof_iff hv hs hs']
    exact hsound.presence_eq_iff_same hd hl hl' hi hj hf hf'
  case hasbitInjective => exact hsound.hasbitInjective
  case subInjective =>
    intro i j s s' f f' hs hs' hf hf' hsub hsub' heq
    obtain ⟨o, q, rfl⟩ := hframe i s f hs hf
    obtain ⟨o', q', rfl⟩ := hframe j s' f' hs' hf'
    exact subTable_injective hs hs' hsub hsub' heq
  case subCount =>
    rw [hsubs, subs, List.length_append, List.length_replicate, List.length_replicate, h.subCounts,
      subCountsOf_add]
  case extendable => exact hext.trans h.ext

end

/-- **A described message is encoded, and the table built from it says what was described**, if it has
at most 63 required fields, `2 ^ 15` fields and less than `2 ^ 15` bytes. -/
theorem build_encodeMessage (p : Platform) (m : MessageSpec) (hv : m.Valid)
    (hb : m.fields.length ≤ 2 ^ 15) :
    ∃ desc d, encodeMessage m = some desc ∧ parseMessage p desc.tail = .ok d ∧
      (m.fields.countP (·.mod.isRequired) ≤ 63 → d.layoutSize < 2 ^ 15 →
        ∃ t, build p desc = .ok t ∧ m.Describes t) := by
  obtain ⟨desc, d, henc, hparse, hreads⟩ := parseMessage_encodeMessage p hv hb
  refine ⟨36 :: desc, d, henc, hparse, fun hreq hsize => ?_⟩
  obtain ⟨hd, -⟩ := parseMessage_parsed hparse (by rw [hreads.length]; omega)
  rw [← hreads.countP_isRequired hv hd] at hreq
  obtain ⟨fields, hl⟩ := layout_eq_ok hd hreq (by omega)
  obtain ⟨t, ht⟩ : ∃ t, d.messageTable = .ok t := by
    rw [messageTable, hl]
    exact ⟨_, rfl⟩
  refine ⟨t, ?_, hreads.describes hv hb hd hl hsize ht⟩
  rw [build_message (by simp) hparse, ht]

/-- Two `bool`s in a oneof and a required `int32`. -/
def boolOneofSpec : MessageSpec where
  modifiers := ⟨false, false, false⟩
  fields := [⟨1, .bool, ⟨false, false, false, false, false⟩⟩,
    ⟨2, .bool, ⟨false, false, false, false, false⟩⟩, ⟨3, .int32, ⟨false, false, false, false, true⟩⟩]
  oneofs := [[1, 2]]

theorem boolOneof_layoutSize : boolOneof.layoutSize = 12 := by
  have hsort : boolOneof.sortLayoutItems = boolOneof.vec ++ [⟨2, 0, .fourByte, .field⟩] := by
    change (boolOneof.vec ++ fieldItems boolOneof.fields 3).mergeSort _ = _
    rw [show fieldItems boolOneof.fields 3 = [⟨2, 0, .fourByte, .field⟩] by decide]
    exact List.mergeSort_of_pairwise (by decide)
  rw [layoutSize, hsort]
  decide

theorem build_encodeMessage_bool_oneof : boolOneofSpec.Valid ∧
    ∃ t, build .bits64 [36, 47, 47, 40, 78, 94, 33, 124, 35] = .ok t ∧ boolOneofSpec.Describes t := by
  have hv : boolOneofSpec.Valid := by
    refine ⟨fun s hs => ?_, by decide, by decide, by decide, by decide, by decide⟩
    simp only [boolOneofSpec, List.mem_cons, List.not_mem_nil, or_false] at hs
    obtain rfl | rfl | rfl := hs
    · exact ⟨by decide, by decide, by decide⟩
    · exact ⟨by decide, by decide, by decide⟩
    · exact ⟨by decide, by decide, by decide⟩
  refine ⟨hv, ?_⟩
  obtain ⟨desc, d, henc, hparse, h⟩ := build_encodeMessage .bits64 boolOneofSpec hv (by decide)
  obtain rfl : [36, 47, 47, 40, 78, 94, 33, 124, 35] = desc := by
    rw [show encodeMessage boolOneofSpec = some [36, 47, 47, 40, 78, 94, 33, 124, 35] by decide] at henc
    exact Option.some.inj henc
  obtain rfl : boolOneof = d := by
    have hd : parseMessage .bits64 [47, 47, 40, 78, 94, 33, 124, 35] = .ok boolOneof := by decide
    exact Except.ok.inj (hd.symm.trans hparse)
  exact h (by decide) (by rw [boolOneof_layoutSize]; decide)

/-- A message with `n` required fields. -/
def requiredSpec (n : Nat) : MessageSpec where
  modifiers := ⟨false, false, false⟩
  fields := (List.range n).map fun i => ⟨i + 1, .int32, ⟨false, false, false, false, true⟩⟩
  oneofs := []

theorem not_build_64_required : (requiredSpec 64).Valid ∧ ∃ desc,
    encodeMessage (requiredSpec 64) = some desc ∧
      build .bits64 desc = .error "Error building mini table: Too many required fields" := by
  refine ⟨⟨fun s hs => ?_, by decide, by decide, by decide, by decide, by decide⟩,
    (encodeMessage (requiredSpec 64)).getD [], by decide +kernel, by decide +kernel⟩
  obtain ⟨i, -, rfl⟩ := List.mem_map.mp hs
  exact ⟨by simp, by simp, by simp⟩

end MtDecoder

end Hpb
