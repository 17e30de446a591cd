import Hpb.MiniDescriptor.Layout

/-!
# No two parts of a message overlap

`LayoutSound` says what the layout of a message is for: each part of the message (`StorageUnit`) has
its own bytes, a oneof shares one case and one slot among its members, and has-bits are numbered
without gaps, the required ones first. `build_layout_sound` proves it of every descriptor that
`build` accepts as a message.
-/

namespace Hpb

/-- Some bytes of a message. -/
structure ByteRange where
  start : Nat
  size : Nat
  deriving DecidableEq, Repr

namespace ByteRange

def stop (r : ByteRange) : Nat := r.start + r.size

/-- No byte is in both. -/
def Disjoint (r r' : ByteRange) : Prop := r.stop ≤ r'.start ∨ r'.stop ≤ r.start

theorem Disjoint.symm {r r' : ByteRange} (h : r.Disjoint r') : r'.Disjoint r := Or.symm h

end ByteRange

/-- The parts of a message: the has-bits, the fields by their indexes, and the case word and the data
of the oneofs by their members. -/
inductive StorageUnit where
  | hasbits
  | field (i : Nat)
  | oneofCase (members : List Nat)
  | oneofSlot (members : List Nat)
  deriving DecidableEq, Repr

namespace MtDecoder

/-- The parts that a message of the descriptor has. -/
def Stores (d : MtDecoder) : StorageUnit → Prop
  | .hasbits => True
  | .field i => i < d.fields.length ∧ ∀ l ∈ d.oneofs, i ∉ l
  | .oneofCase l => l ∈ d.oneofs
  | .oneofSlot l => l ∈ d.oneofs

/-- The table `t` lays out the parsed fields and oneofs `d`, with the parts at `range`. -/
structure LayoutSound (p : Platform) (d : MtDecoder) (t : MiniTable)
    (range : StorageUnit → ByteRange) : Prop where
  length : t.fields.length = d.fields.length
  hasbits : (range .hasbits).start = 0
  field : ∀ (i : Nat) (f : MiniTableField), t.fields[i]? = some f → (∀ l ∈ d.oneofs, i ∉ l) →
    0 ≤ f.presence ∧ range (.field i) = ⟨f.offset, sizeOfRep f.rep p⟩
  member : ∀ l ∈ d.oneofs, ∀ i ∈ l, ∃ f : MiniTableField, t.fields[i]? = some f ∧
    f.presence = -((range (.oneofCase l)).start : Int) - 1 ∧
    f.offset = (range (.oneofSlot l)).start ∧ sizeOfRep f.rep p ≤ (range (.oneofSlot l)).size
  caseSize : ∀ l ∈ d.oneofs, (range (.oneofCase l)).size = 4
  disjoint : ∀ u v, d.Stores u → d.Stores v → u ≠ v → (range u).Disjoint (range v)
  inside : ∀ u, d.Stores u → (range u).stop ≤ t.size
  hasbit : ∀ (i : Nat) (f : MiniTableField), d.fields[i]? = some f →
    f.offset = requiredPresence ∨ f.offset = hasbitPresence →
    ∃ g : MiniTableField, t.fields[i]? = some g ∧ 0 < g.presence
  hasbitInside : ∀ (i : Nat) (g : MiniTableField), t.fields[i]? = some g → 0 < g.presence →
    g.presence / 8 < (range .hasbits).size
  hasbitInjective : ∀ (i j : Nat) (f g : MiniTableField), t.fields[i]? = some f →
    t.fields[j]? = some g → 0 < f.presence → f.presence = g.presence → i = j
  requiredLowest : ∀ (i : Nat) (f g : MiniTableField), d.fields[i]? = some f →
    t.fields[i]? = some g → 0 < g.presence →
    (f.offset = requiredPresence ↔ g.presence ≤ d.fields.countP isRequired)

section

variable {d : MtDecoder} {p : Platform}

/-! ### The numbers of the enums change nothing -/

@[simp] theorem allocateSubs_fieldCount (d : MtDecoder) : d.allocateSubs.fieldCount = d.fieldCount := by
  unfold allocateSubs
  split <;> rfl

@[simp] theorem allocateSubs_oneofs (d : MtDecoder) : d.allocateSubs.oneofs = d.oneofs := by
  unfold allocateSubs
  split <;> rfl

@[simp] theorem allocateSubs_vec (d : MtDecoder) : d.allocateSubs.vec = d.vec := by
  unfold allocateSubs
  split <;> rfl

@[simp] theorem allocateSubs_platform (d : MtDecoder) : d.allocateSubs.platform = d.platform := by
  unfold allocateSubs
  split <;> rfl

theorem allocateSubs_getElem? (hc : d.fieldCount = d.fields.length) (i : Nat) :
    ∃ g : MiniTableField → MiniTableField, d.allocateSubs.fields[i]? = (d.fields[i]?).map g ∧
      ∀ f, (g f).offset = f.offset ∧ (g f).mode = f.mode := by
  unfold allocateSubs
  split
  · exact ⟨id, by simp, fun f => ⟨rfl, rfl⟩⟩
  · refine ⟨fun f => if f.descriptortype = .enum then
      { f with submsgIndex := (f.submsgIndex + d.subCounts.submsgCount) % 2 ^ 16 } else f, ?_,
      fun f => ?_⟩
    · simp [hc]
    · dsimp only
      split <;> exact ⟨rfl, rfl⟩

theorem allocateSubs_shape (hc : d.fieldCount = d.fields.length) :
    shape d.allocateSubs.fields = shape d.fields := by
  funext i
  obtain ⟨g, hg, hsame⟩ := allocateSubs_getElem? hc i
  unfold shape
  rw [hg, Option.map_map]
  refine congrArg (fun g => Option.map g _) (funext fun f => ?_)
  simp [MiniTableField.rep, hsame f]

theorem allocateSubs_offsets (hc : d.fieldCount = d.fields.length) :
    d.allocateSubs.fields.map (·.offset) = d.fields.map (·.offset) := by
  apply List.ext_getElem?
  intro i
  have := congrArg (Option.map Prod.fst) (congrFun (allocateSubs_shape hc) i)
  simpa [shape, Function.comp_def] using this

theorem allocateSubs_parsed (h : d.Parsed) : d.allocateSubs.Parsed := by
  have hs := allocateSubs_shape h.count
  have hlen : d.allocateSubs.fields.length = d.fields.length := by
    simpa using congrArg List.length (allocateSubs_offsets h.count)
  refine ⟨by rw [allocateSubs_fieldCount, h.count, hlen], ?_, ?_, ?_⟩
  · rw [allocateSubs_oneofs]
    exact h.nonempty
  · rw [allocateSubs_oneofs, hs]
    exact h.oneofs
  · rw [allocateSubs_oneofs, hs, allocateSubs_vec, allocateSubs_platform]
    exact h.items

/-! ### Placed items -/

theorem hasbitCount_le_fieldItems (fs : List MiniTableField) :
    hasbitCount fs ≤ (fieldItems fs fs.length).length := by
  have hlen : (fieldItems fs fs.length).length =
      (fs.map some).countP fun f : Option MiniTableField => f.any (·.offset < oneofBase) := by
    have hrange : (List.range fs.length).map (fun i => fs[i]?) = fs.map some := by
      apply List.ext_getElem?
      intro i
      by_cases hi : i < fs.length
      · simp [hi]
      · simp [hi]
    rw [← hrange, List.countP_map]
    unfold fieldItems
    rw [List.length_filterMap_eq_countP]
    refine List.countP_congr fun i _ => ?_
    dsimp only [Function.comp_apply]
    cases hf : fs[i]? with
    | none => simp
    | some f =>
      dsimp only
      by_cases ho : f.offset ≥ oneofBase
      · simp [ho]
      · simp [ho, Nat.lt_of_not_ge ho]
  rw [hlen, List.countP_map]
  unfold hasbitCount
  clear hlen
  induction fs with
  | nil => simp
  | cons f fs ih =>
    have hone : (if isRequired f = true then 1 else 0) + (if isOptional f = true then 1 else 0) ≤
        if f.offset < oneofBase then 1 else 0 := by
      unfold isRequired isOptional ofClass requiredPresence hasbitPresence oneofBase
      by_cases h₂ : f.offset = 2
      · simp [h₂]
      · by_cases h₁ : f.offset = 1
        · simp [h₁]
        · simp [h₁, h₂]
    simp only [List.countP_cons, Function.comp_apply, Option.any_some, decide_eq_true_eq]
    omega

theorem fieldItems_congr {fs fs' : List MiniTableField} (h : shape fs = shape fs') (n : Nat) :
    fieldItems fs n = fieldItems fs' n := by
  unfold fieldItems
  refine congrArg (fun g => List.filterMap g (List.range n)) (funext fun i => ?_)
  have hi := congrFun h i
  unfold shape at hi
  cases hf : fs[i]? with
  | none =>
    rw [hf] at hi
    cases hf' : fs'[i]? with
    | none => rfl
    | some f' =>
      rw [hf'] at hi
      cases hi
  | some f =>
    rw [hf] at hi
    cases hf' : fs'[i]? with
    | none =>
      rw [hf'] at hi
      cases hi
    | some f' =>
      rw [hf'] at hi
      simp only [Option.map_some, Option.some.injEq, Prod.mk.injEq] at hi
      dsimp only
      rw [hi.1, hi.2]

/-- The items are sorted by what the passes before leave as it is. -/
theorem sortLayoutItems_allocateSubs {fs : List MiniTableField} (h : shape fs = shape d.fields) :
    sortLayoutItems { d.allocateSubs with fields := fs } = d.sortLayoutItems := by
  unfold sortLayoutItems
  rw [allocateSubs_vec, allocateSubs_fieldCount, fieldItems_congr h]

/-- What the passes before the offsets are assigned leave: the fields `fs` with has-bits in `bytes`
bytes, and the placed items, in a message of `size` bytes. -/
structure Placed (d : MtDecoder) (fs : List MiniTableField) (bytes : Nat) (items : List LayoutItem)
    (size : Nat) : Prop where
  hasbits : ∀ i : Nat, fs[i]? = (d.fields[i]?).map fun f : MiniTableField =>
    { f with presence := hasbit d.fields i f }
  hasbitBytes : bytes = if hasbitCount d.fields = 0 then 0
    else divideRoundUp (hasbitCount d.fields + 1) 8 % 2 ^ 16
  isItems : LayoutItems d.platform (shape d.fields) d.oneofs items
  room : bytes + hasbitCount d.fields ≤ size
  order : items.Pairwise fun a b => LayoutItem.stop d.platform a ≤ b.offset
  bound : ∀ a ∈ items, bytes ≤ a.offset ∧ LayoutItem.stop d.platform a ≤ size

theorem shape_of_hasbits {fs : List MiniTableField}
    (h : ∀ i : Nat, fs[i]? = (d.fields[i]?).map fun f : MiniTableField =>
      { f with presence := hasbit d.fields i f }) : shape fs = shape d.fields := by
  funext i
  simp only [shape, h i, Option.map_map]
  rfl

theorem layout_placed {fields : List MiniTableField} {requiredCount size : Nat} (h : d.Parsed)
    (hl : d.layout = .ok (fields, requiredCount, size)) :
    ∃ fs bytes items, Placed d.allocateSubs fs bytes items size ∧
      fields = items.foldl assignOffset (items.foldl assignCase fs) ∧
      place d.allocateSubs.platform bytes (sortLayoutItems { d.allocateSubs with fields := fs }) = .ok (items, size) := by
  have h₁ := allocateSubs_parsed h
  unfold layout at hl
  generalize d.allocateSubs = d₁ at h₁ hl
  obtain ⟨⟨fs, rc, bytes⟩, hh, hl⟩ := Except.bind_eq_ok.mp hl
  obtain ⟨⟨fs', size'⟩, ha, hl⟩ := Except.bind_eq_ok.mp hl
  cases hl
  obtain ⟨⟨items, size'⟩, hp, ha⟩ := Except.bind_eq_ok.mp ha
  cases ha
  obtain ⟨hget, hbytes⟩ := assignHasbits_spec h₁.count hh
  obtain ⟨hwhat, hroom, horder, hbound⟩ := place_spec hp
  have hshape := shape_of_hasbits hget
  have hoff : fs.map (·.offset) = d₁.fields.map (·.offset) := by
    apply List.ext_getElem?
    intro i
    simp only [List.getElem?_map, hget, Option.map_map]
    rfl
  have hlen : fs.length = d₁.fields.length := by
    simpa using congrArg List.length hoff
  have hparsed : Parsed { d₁ with fields := fs } := by
    refine ⟨h₁.count.trans hlen.symm, h₁.nonempty, ?_, ?_⟩
    · change Oneofs (shape fs) d₁.oneofs
      rw [hshape]
      exact h₁.oneofs
    · change OneofItems d₁.platform (shape fs) d₁.oneofs d₁.vec
      rw [hshape]
      exact h₁.items
  have hsorted : (sortLayoutItems { d₁ with fields := fs }).Perm
      (d₁.vec ++ fieldItems fs d₁.fieldCount) := List.mergeSort_perm _ _
  have hitems := hparsed.layoutItems
  change LayoutItems d₁.platform (shape fs) d₁.oneofs (d₁.vec ++ fieldItems fs d₁.fieldCount)
    at hitems
  rw [hshape] at hitems
  refine ⟨fs, bytes, items, ⟨hget, hbytes, hitems.perm ?_, ?_, horder, hbound⟩, rfl, hp⟩
  · rw [hwhat]
    exact (hsorted.map LayoutItem.what).symm
  · have hcount : hasbitCount d₁.fields ≤ (fieldItems fs d₁.fieldCount).length := by
      have hsame : hasbitCount fs = hasbitCount d₁.fields := by
        unfold hasbitCount
        rw [countP_congr_offset hoff, countP_congr_offset hoff]
      rw [← hsame, h₁.count, ← hlen]
      exact hasbitCount_le_fieldItems fs
    have hlength := hsorted.length_eq
    rw [List.length_append] at hlength
    omega

/-! ### Where the parts are -/

/-- What tells the item of a part apart. -/
def unitKey : StorageUnit → LayoutItemType × Nat
  | .hasbits => (.field, 0)
  | .field i => (.field, i)
  | .oneofCase l => (.oneofCase, l.headD 0)
  | .oneofSlot l => (.oneofField, l.headD 0)

/-- The bytes of a part: the has-bits come first, the others are where their items are placed. -/
def unitRange (p : Platform) (bytes : Nat) (items : List LayoutItem) : StorageUnit → ByteRange
  | .hasbits => ⟨0, bytes⟩
  | u =>
    match items.find? (·.key = unitKey u) with
    | some it => ⟨it.offset, sizeOfRep it.rep p⟩
    | none => ⟨0, 0⟩

variable {fs : List MiniTableField} {bytes size : Nat} {items : List LayoutItem}

theorem unitRange_eq {s : Nat → Option (Nat × FieldRep)} {gs : List (List Nat)} {it : LayoutItem}
    {u : StorageUnit} (h : LayoutItems p s gs items) (hit : it ∈ items) (hk : it.key = unitKey u)
    (hu : u ≠ .hasbits) : unitRange p bytes items u = ⟨it.offset, sizeOfRep it.rep p⟩ := by
  have hfind : items.find? (·.key = unitKey u) = some it := by
    obtain ⟨it', hit'⟩ : ∃ it', items.find? (·.key = unitKey u) = some it' := by
      rw [← Option.isSome_iff_exists, List.find?_isSome]
      exact ⟨it, hit, by simpa using hk⟩
    have hk' : it'.key = unitKey u := by simpa using List.find?_some hit'
    rw [hit', h.eq_of_key (List.mem_of_find?_eq_some hit') hit (hk'.trans hk.symm)]
  have hunfold : unitRange p bytes items u = match items.find? (·.key = unitKey u) with
      | some it => ⟨it.offset, sizeOfRep it.rep p⟩
      | none => ⟨0, 0⟩ := by
    cases u with
    | hasbits => exact absurd rfl hu
    | field i => rfl
    | oneofCase l => rfl
    | oneofSlot l => rfl
  rw [hunfold, hfind]

/-- Every part but the has-bits has an item. -/
theorem Placed.exists_item {u : StorageUnit} (h : d.Placed fs bytes items size)
    (hs : d.Stores u) (hu : u ≠ .hasbits) : ∃ it ∈ items, it.key = unitKey u := by
  cases u with
  | hasbits => exact absurd rfl hu
  | field i =>
    obtain ⟨hlt, hno⟩ := hs
    have hx : shape d.fields i = some (d.fields[i].offset, d.fields[i].rep) := by
      simp [shape, hlt]
    obtain ⟨it, hit, hw⟩ := h.isItems.fieldItem i _ hx hno
    exact ⟨it, hit, congrArg Prod.fst hw⟩
  | oneofCase l =>
    obtain ⟨it, hit, i, hi, hw⟩ := h.isItems.caseItem l hs
    refine ⟨it, hit, ?_⟩
    rw [unitKey, List.headD_eq_head?_getD, hi]
    exact congrArg Prod.fst hw
  | oneofSlot l =>
    obtain ⟨it, hit, i, r, hi, hw, -⟩ := h.isItems.slotItem l hs
    refine ⟨it, hit, ?_⟩
    rw [unitKey, List.headD_eq_head?_getD, hi]
    exact congrArg Prod.fst hw

/-- Oneofs with the same first member are the same. -/
theorem Parsed.eq_of_head {l l' : List Nat} (h : d.Parsed) (hl : l ∈ d.oneofs) (hl' : l' ∈ d.oneofs)
    (he : l.headD 0 = l'.headD 0) : l = l' := by
  have hmem : ∀ m ∈ d.oneofs, m.headD 0 ∈ m := by
    intro m hm
    cases m with
    | nil => exact absurd rfl (h.nonempty [] hm)
    | cons a m => exact List.mem_cons_self
  exact h.oneofs.unique hl hl' (hmem l hl) (he ▸ hmem l' hl')

/-- Different parts have different items. -/
theorem Parsed.unitKey_injective {u v : StorageUnit} (h : d.Parsed) (hu : d.Stores u)
    (hv : d.Stores v) (hub : u ≠ .hasbits) (hvb : v ≠ .hasbits) (he : unitKey u = unitKey v) :
    u = v := by
  cases u with
  | hasbits => exact absurd rfl hub
  | field i =>
    cases v with
    | hasbits => exact absurd rfl hvb
    | field j => exact congrArg StorageUnit.field (congrArg Prod.snd he)
    | oneofCase l => simp [unitKey] at he
    | oneofSlot l => simp [unitKey] at he
  | oneofCase l =>
    cases v with
    | hasbits => exact absurd rfl hvb
    | field j => simp [unitKey] at he
    | oneofCase l' => rw [h.eq_of_head hu hv (congrArg Prod.snd he)]
    | oneofSlot l' => simp [unitKey] at he
  | oneofSlot l =>
    cases v with
    | hasbits => exact absurd rfl hvb
    | field j => simp [unitKey] at he
    | oneofCase l' => simp [unitKey] at he
    | oneofSlot l' => rw [h.eq_of_head hu hv (congrArg Prod.snd he)]

theorem Placed.disjoint {u v : StorageUnit} (h : d.Placed fs bytes items size) (hd : d.Parsed)
    (hu : d.Stores u) (hv : d.Stores v) (hne : u ≠ v) :
    (unitRange d.platform bytes items u).Disjoint (unitRange d.platform bytes items v) := by
  have hfirst : ∀ {v : StorageUnit}, d.Stores v → v ≠ .hasbits →
      (unitRange d.platform bytes items .hasbits).Disjoint (unitRange d.platform bytes items v) := by
    intro v hv hvb
    obtain ⟨it, hit, hk⟩ := h.exists_item hv hvb
    rw [unitRange_eq h.isItems hit hk hvb]
    refine Or.inl ?_
    change 0 + bytes ≤ it.offset
    rw [Nat.zero_add]
    exact (h.bound it hit).1
  by_cases hub : u = .hasbits
  · subst hub
    exact hfirst hv (Ne.symm hne)
  by_cases hvb : v = .hasbits
  · subst hvb
    exact (hfirst hu hub).symm
  obtain ⟨a, ha, hka⟩ := h.exists_item hu hub
  obtain ⟨b, hb, hkb⟩ := h.exists_item hv hvb
  rw [unitRange_eq h.isItems ha hka hub, unitRange_eq h.isItems hb hkb hvb]
  have hab : a ≠ b := by
    rintro rfl
    exact hne (hd.unitKey_injective hu hv hub hvb (hka.symm.trans hkb))
  have horder : items.Pairwise fun a b => LayoutItem.stop d.platform a ≤ b.offset ∨
      LayoutItem.stop d.platform b ≤ a.offset := h.order.imp fun hle => Or.inl hle
  have : Std.Symm fun a b => LayoutItem.stop d.platform a ≤ b.offset ∨
      LayoutItem.stop d.platform b ≤ a.offset := ⟨fun _ _ hd => hd.symm⟩
  exact horder.forall ha hb hab

theorem Placed.inside {u : StorageUnit} (h : d.Placed fs bytes items size) (hu : d.Stores u) :
    (unitRange d.platform bytes items u).stop ≤ size := by
  by_cases hub : u = .hasbits
  · subst hub
    change 0 + bytes ≤ size
    have := h.room
    omega
  · obtain ⟨it, hit, hk⟩ := h.exists_item hu hub
    rw [unitRange_eq h.isItems hit hk hub]
    exact (h.bound it hit).2

/-! ### The fields of the table -/

/-- The first pass keeps the links. -/
theorem assignCases_shape {gs : List (List Nat)} (h : LayoutItems p (shape fs) gs items)
    (ho : Oneofs (shape fs) gs) : shape (items.foldl assignCase fs) = shape fs := by
  obtain ⟨hcase, hother⟩ := assignCases_spec h ho
  funext j
  by_cases hj : ∃ l ∈ gs, j ∈ l
  · obtain ⟨l, hl, hj⟩ := hj
    obtain ⟨it, hit, i, hi, hw⟩ := h.caseItem l hl
    have hindex : it.fieldIndex = i := congrArg (·.1.2) hw
    simp only [shape, hcase it hit (congrArg (·.1.1) hw) l hl (hindex ▸ hi) j hj, Option.map_map]
    rfl
  · push Not at hj
    simp only [shape, hother j hj]

/-- The fields of the table. -/
def tableFields (fs : List MiniTableField) (items : List LayoutItem) : List MiniTableField :=
  items.foldl assignOffset (items.foldl assignCase fs)

/-- What the layout of a parsed message has placed, and where. -/
theorem Parsed.layout_items {fields : List MiniTableField} {requiredCount size : Nat} (hd : d.Parsed)
    (hl : d.layout = .ok (fields, requiredCount, size)) :
    ∃ fs items, Placed d.allocateSubs fs (hasbitBytes d.fields) items size ∧ fields = tableFields fs items ∧
      place d.platform (hasbitBytes d.fields) d.sortLayoutItems = .ok (items, size) := by
  obtain ⟨fs, bytes, items, hplaced, rfl, hplace⟩ := layout_placed hd hl
  have hcount : hasbitCount d.allocateSubs.fields = hasbitCount d.fields := by
    unfold hasbitCount
    rw [countP_congr_offset (allocateSubs_offsets hd.count), countP_congr_offset (allocateSubs_offsets hd.count)]
  have hshape : shape fs = shape d.fields := by
    rw [shape_of_hasbits hplaced.hasbits, allocateSubs_shape hd.count]
  have hbytes : bytes = hasbitBytes d.fields := by
    rw [hplaced.hasbitBytes, hcount]
    rfl
  rw [sortLayoutItems_allocateSubs hshape, hbytes, allocateSubs_platform] at hplace
  exact ⟨fs, items, hbytes ▸ hplaced, rfl, hplace⟩

/-- The presence classes are those of the fields of no oneof. -/
theorem Parsed.not_mem_iff {i : Nat} {f : MiniTableField} (hd : d.Parsed)
    (hf : d.fields[i]? = some f) :
    (∀ l ∈ d.oneofs, i ∉ l) ↔
      (f.offset = requiredPresence ∨ f.offset = hasbitPresence) ∨ f.offset = noPresence := by
  have hx : shape d.fields i = some (f.offset, f.rep) := by simp [shape, hf]
  have hmem := hd.oneofs.mem_iff hx
  have hnot : (∀ l ∈ d.oneofs, i ∉ l) ↔ ¬∃ l ∈ d.oneofs, i ∈ l := by
    push Not
    rfl
  rw [hnot, hmem]
  unfold oneofBase requiredPresence hasbitPresence noPresence
  dsimp only
  omega

theorem hasbit_noPresence {i : Nat} {f : MiniTableField} (h : f.offset = noPresence) :
    hasbit fs i f = 0 := by
  simp [hasbit, h, noPresence, requiredPresence, hasbitPresence]

theorem Placed.length_eq (h : d.Placed fs bytes items size) :
    (tableFields fs items).length = d.fields.length := by
  have hfs : fs.map (·.offset) = d.fields.map (·.offset) := by
    apply List.ext_getElem?
    intro i
    simp only [List.getElem?_map, h.hasbits, Option.map_map]
    rfl
  rw [tableFields, foldl_length assignOffset_length, foldl_length assignCase_length]
  simpa using congrArg List.length hfs

theorem Placed.exists_field {i : Nat} {g : MiniTableField} (h : d.Placed fs bytes items size)
    (hg : (tableFields fs items)[i]? = some g) : ∃ f, d.fields[i]? = some f := by
  have hlt := (List.getElem?_eq_some_iff.mp hg).1
  rw [h.length_eq] at hlt
  exact ⟨_, List.getElem?_eq_getElem hlt⟩

section

variable (h : d.Placed fs bytes items size) (hd : d.Parsed)
include h hd

theorem Placed.oneofs : Oneofs (shape fs) d.oneofs ∧
    LayoutItems d.platform (shape fs) d.oneofs items := by
  rw [shape_of_hasbits h.hasbits]
  exact ⟨hd.oneofs, h.isItems⟩

/-- A field that is in no oneof. -/
theorem Placed.field_eq {i : Nat} {f : MiniTableField} (hf : d.fields[i]? = some f)
    (hi : ∀ l ∈ d.oneofs, i ∉ l) :
    (tableFields fs items)[i]? = some { f with
      presence := hasbit d.fields i f
      offset := (unitRange d.platform bytes items (.field i)).start } ∧
    (unitRange d.platform bytes items (.field i)).size = sizeOfRep f.rep d.platform := by
  obtain ⟨ho, hitems⟩ := h.oneofs hd
  have hcases := assignCases_shape hitems ho
  have hx : shape d.fields i = some (f.offset, f.rep) := by simp [shape, hf]
  obtain ⟨it, hit, hw⟩ := h.isItems.fieldItem i _ hx hi
  have hindex : it.fieldIndex = i := congrArg (·.1.2) hw
  have hdata := (assignData_spec (hcases ▸ hitems) (hcases ▸ ho)).2 it hit (congrArg (·.1.1) hw)
  rw [hindex, (assignCases_spec hitems ho).2 i hi, h.hasbits, hf] at hdata
  have hk : it.key = unitKey (.field i) := congrArg Prod.fst hw
  rw [unitRange_eq h.isItems hit hk (by simp)]
  refine ⟨hdata, ?_⟩
  rw [show it.rep = f.rep from congrArg Prod.snd hw]

/-- A member of a oneof. -/
theorem Placed.member_eq {l : List Nat} {i : Nat} {f : MiniTableField} (hl : l ∈ d.oneofs)
    (hi : i ∈ l) (hf : d.fields[i]? = some f) :
    (tableFields fs items)[i]? = some { f with
      presence := toInt16 (-((unitRange d.platform bytes items (.oneofCase l)).start : Int) - 1)
      offset := (unitRange d.platform bytes items (.oneofSlot l)).start } ∧
    (unitRange d.platform bytes items (.oneofCase l)).size = 4 ∧
    sizeOfRep f.rep d.platform ≤ (unitRange d.platform bytes items (.oneofSlot l)).size := by
  obtain ⟨ho, hitems⟩ := h.oneofs hd
  have hcases := assignCases_shape hitems ho
  obtain ⟨a, ha, j, hj, hwa⟩ := h.isItems.caseItem l hl
  obtain ⟨b, hb, k, r, hk, hwb, hsize⟩ := h.isItems.slotItem l hl
  have hjk : k = j := Option.some.inj (hk.symm.trans hj)
  subst hjk
  have hhead : l.headD 0 = k := by rw [List.headD_eq_head?_getD, hk, Option.getD_some]
  have hia : a.fieldIndex = k := congrArg (·.1.2) hwa
  have hib : b.fieldIndex = k := congrArg (·.1.2) hwb
  have hcase := (assignCases_spec hitems ho).1 a ha (congrArg (·.1.1) hwa) l hl (hia ▸ hk) i hi
  have hdata := (assignData_spec (hcases ▸ hitems) (hcases ▸ ho)).1 b hb (congrArg (·.1.1) hwb) l hl
    (hib ▸ hk) i hi
  rw [hcase, h.hasbits, hf] at hdata
  have hka : a.key = unitKey (.oneofCase l) := by
    rw [unitKey, hhead]
    exact congrArg Prod.fst hwa
  have hkb : b.key = unitKey (.oneofSlot l) := by
    rw [unitKey, hhead]
    exact congrArg Prod.fst hwb
  rw [unitRange_eq h.isItems ha hka (by simp), unitRange_eq h.isItems hb hkb (by simp)]
  refine ⟨hdata, ?_, ?_⟩
  · rw [show a.rep = .fourByte from congrArg Prod.snd hwa]
    rfl
  · rw [show b.rep = r from congrArg Prod.snd hwb]
    exact hsize i hi (f.offset, f.rep) (by simp [shape, hf])

/-- The fields of the table with a has-bit are the required and the optional ones of no oneof. -/
theorem Placed.hasbit_eq {i : Nat} {g : MiniTableField} (hs : size < 2 ^ 15)
    (hg : (tableFields fs items)[i]? = some g) (hpos : 0 < g.presence) :
    ∃ f, d.fields[i]? = some f ∧ g.presence = hasbit d.fields i f ∧
      (f.offset = requiredPresence ∨ f.offset = hasbitPresence) := by
  obtain ⟨f, hf⟩ := h.exists_field hg
  by_cases hi : ∃ l ∈ d.oneofs, i ∈ l
  · obtain ⟨l, hl, hi⟩ := hi
    have hm := (h.member_eq hd hl hi hf).1
    rw [hg] at hm
    cases hm
    have hin := h.inside (u := .oneofCase l) hl
    unfold ByteRange.stop at hin
    dsimp only at hpos
    rw [toInt16_of_bounds (by omega) (by omega)] at hpos
    omega
  · push Not at hi
    have hm := (h.field_eq hd hf hi).1
    rw [hg] at hm
    cases hm
    refine ⟨f, hf, rfl, ?_⟩
    obtain hc | hc := (hd.not_mem_iff hf).mp hi
    · exact hc
    · dsimp only at hpos
      rw [hasbit_noPresence hc] at hpos
      omega

theorem Placed.layoutSound {t : MiniTable} (hs : size < 2 ^ 15) (hf : t.fields = tableFields fs items)
    (ht : size ≤ t.size) :
    LayoutSound d.platform d t (unitRange d.platform bytes items) := by
  have hcount : hasbitCount d.fields < 2 ^ 15 := by
    have := h.room
    omega
  constructor
  case length => rw [hf, h.length_eq]
  case hasbits => rfl
  case field =>
    intro i g hg hno
    rw [hf] at hg
    obtain ⟨f, hi⟩ := h.exists_field hg
    obtain ⟨hm, hsize⟩ := h.field_eq hd hi hno
    rw [hg] at hm
    cases hm
    refine ⟨?_, ?_⟩
    · dsimp only
      obtain hc | hc := (hd.not_mem_iff hi).mp hno
      · exact Int.le_of_lt (hasbit_bounds hcount hi hc).1
      · exact Int.le_of_eq (hasbit_noPresence hc).symm
    · exact congrArg (ByteRange.mk _) hsize
  case member =>
    intro l hl i hi
    obtain ⟨x, hx, -⟩ := hd.oneofs.member l hl i hi
    obtain ⟨f, hfi, -⟩ := shape_eq_some.mp hx
    obtain ⟨hm, -, hsize⟩ := h.member_eq hd hl hi hfi
    have hin := h.inside (u := .oneofCase l) hl
    unfold ByteRange.stop at hin
    rw [toInt16_of_bounds (by omega) (by omega)] at hm
    rw [hf]
    exact ⟨_, hm, rfl, rfl, hsize⟩
  case caseSize =>
    intro l hl
    obtain ⟨i, hi⟩ := List.exists_mem_of_ne_nil l (hd.nonempty l hl)
    obtain ⟨x, hx, -⟩ := hd.oneofs.member l hl i hi
    obtain ⟨f, hfi, -⟩ := shape_eq_some.mp hx
    exact (h.member_eq hd hl hi hfi).2.1
  case disjoint => exact fun u v hu hv hne => h.disjoint hd hu hv hne
  case inside => exact fun u hu => Nat.le_trans (h.inside hu) ht
  case hasbit =>
    intro i f hi hc
    have hno := (hd.not_mem_iff hi).mpr (Or.inl hc)
    rw [hf]
    exact ⟨_, (h.field_eq hd hi hno).1, (hasbit_bounds hcount hi hc).1⟩
  case hasbitInside =>
    intro i g hg hpos
    rw [hf] at hg
    obtain ⟨f, hi, heq, hc⟩ := h.hasbit_eq hd hs hg hpos
    have hle := (hasbit_bounds hcount hi hc).2.1
    rw [← heq] at hle
    change g.presence / 8 < (bytes : Int)
    rw [h.hasbitBytes, if_neg (by omega)]
    unfold divideRoundUp
    omega
  case hasbitInjective =>
    intro i j f g hif hjg hpos heq
    rw [hf] at hif hjg
    obtain ⟨f', hi', hef, hcf⟩ := h.hasbit_eq hd hs hif hpos
    obtain ⟨g', hj', heg, hcg⟩ := h.hasbit_eq hd hs hjg (heq ▸ hpos)
    exact hasbit_injective hcount hi' hj' hcf hcg (by rw [← hef, ← heg, heq])
  case requiredLowest =>
    intro i f g hi hg hpos
    rw [hf] at hg
    obtain ⟨f', hi', heq, hc⟩ := h.hasbit_eq hd hs hg hpos
    rw [hi] at hi'
    cases hi'
    rw [heq]
    exact (hasbit_bounds hcount hi hc).2.2

end

/-- The numbers of the enums do not matter. -/
theorem LayoutSound.of_allocateSubs {t : MiniTable} {range : StorageUnit → ByteRange}
    (hc : d.fieldCount = d.fields.length) (h : LayoutSound p d.allocateSubs t range) :
    LayoutSound p d t range := by
  have hoffs := allocateSubs_offsets hc
  have honeofs := allocateSubs_oneofs d
  have hlen : d.allocateSubs.fields.length = d.fields.length := by
    simpa using congrArg List.length hoffs
  have hstores : ∀ u, d.Stores u → d.allocateSubs.Stores u := by
    intro u hu
    cases u with
    | hasbits => exact hu
    | field i =>
      unfold Stores at hu ⊢
      rw [hlen, honeofs]
      exact hu
    | oneofCase l =>
      unfold Stores at hu ⊢
      rw [honeofs]
      exact hu
    | oneofSlot l =>
      unfold Stores at hu ⊢
      rw [honeofs]
      exact hu
  have hfield : ∀ {i : Nat} {f : MiniTableField}, d.fields[i]? = some f →
      ∃ f' : MiniTableField, d.allocateSubs.fields[i]? = some f' ∧ f'.offset = f.offset := by
    intro i f hf
    obtain ⟨g, hg, hsame⟩ := allocateSubs_getElem? hc i
    exact ⟨g f, by rw [hg, hf, Option.map_some], (hsame f).1⟩
  constructor
  case length => rw [h.length, hlen]
  case hasbits => exact h.hasbits
  case field => exact fun i f hf hno => h.field i f hf (honeofs ▸ hno)
  case member => exact fun l hl => h.member l (honeofs ▸ hl)
  case caseSize => exact fun l hl => h.caseSize l (honeofs ▸ hl)
  case disjoint => exact fun u v hu hv hne => h.disjoint u v (hstores u hu) (hstores v hv) hne
  case inside => exact fun u hu => h.inside u (hstores u hu)
  case hasbit =>
    intro i f hf hcl
    obtain ⟨f', hf', ho⟩ := hfield hf
    exact h.hasbit i f' hf' (by rwa [ho])
  case hasbitInside => exact h.hasbitInside
  case hasbitInjective => exact h.hasbitInjective
  case requiredLowest =>
    intro i f g hf hg hpos
    obtain ⟨f', hf', ho⟩ := hfield hf
    rw [← ho, ← countP_congr_offset hoffs]
    exact h.requiredLowest i f' g hf' hg hpos

end

/-- In a table with a sound layout the members of a oneof, and only they, have the same `presence`. -/
theorem LayoutSound.presence_eq_iff {p : Platform} {d : MtDecoder} {t : MiniTable} {range : StorageUnit → ByteRange}
    {l l' : List Nat} {i j : Nat} {f g : MiniTableField} (h : LayoutSound p d t range) (hl : l ∈ d.oneofs)
    (hl' : l' ∈ d.oneofs) (hi : i ∈ l) (hj : j ∈ l') (hf : t.fields[i]? = some f) (hg : t.fields[j]? = some g) :
    f.presence = g.presence ↔ l = l' := by
  obtain ⟨f', hf', hpf, -⟩ := h.member l hl i hi
  obtain ⟨g', hg', hpg, -⟩ := h.member l' hl' j hj
  obtain rfl := Option.some.inj (hf.symm.trans hf')
  obtain rfl := Option.some.inj (hg.symm.trans hg')
  constructor
  · intro hsame
    by_contra hne
    have hdisjoint := h.disjoint (.oneofCase l) (.oneofCase l') hl hl' (fun he => hne (StorageUnit.oneofCase.inj he))
    have hsize := h.caseSize l hl
    have hsize' := h.caseSize l' hl'
    unfold ByteRange.Disjoint ByteRange.stop at hdisjoint
    omega
  · rintro rfl
    rw [hpf, hpg]

/-- An empty message has an empty layout. -/
theorem layout_start (p : Platform) :
    ((start p).endParse ⟨0, 0, true⟩).layout = .ok ([], 0, 0) := by
  simp [layout, allocateSubs, start, endParse, assignHasbits, assignRequired, assignOptional,
    assignOffsets, sortLayoutItems, fieldItems, place, bind, Except.bind, pure, Except.pure]

/-- The parsed message behind a descriptor that `build` takes as a message. -/
theorem build_message {p : Platform} {desc : List UInt8} {d : MtDecoder}
    (hv : ∀ v ∈ desc.head?, v = 36) (hp : parseMessage p desc.tail = .ok d) :
    build p desc = d.messageTable := by
  cases desc with
  | nil =>
    cases hp
    rw [messageTable, layout_start]
    rfl
  | cons v data =>
    obtain rfl := hv v rfl
    change (parseMessage p data >>= messageTable) = d.messageTable
    rw [show parseMessage p data = .ok d from hp]
    rfl

/-- The layout of a parsed message is sound. -/
theorem Parsed.layoutSound {d : MtDecoder} {fields : List MiniTableField} {requiredCount size : Nat}
    (hd : d.Parsed) (hl : d.layout = .ok (fields, requiredCount, size)) (hs : size < 2 ^ 15)
    {t : MiniTable} (hf : t.fields = fields) (ht : t.size = alignUp size 8 % 2 ^ 16) :
    ∃ range, LayoutSound d.platform d t range := by
  obtain ⟨fs, bytes, items, hplaced, rfl, -⟩ := layout_placed hd hl
  have halign : size ≤ t.size := by
    rw [ht]
    unfold alignUp
    omega
  have hsound := hplaced.layoutSound (allocateSubs_parsed hd) hs hf halign
  rw [allocateSubs_platform] at hsound
  exact ⟨_, LayoutSound.of_allocateSubs hd.count hsound⟩

/-- **The layout of a message is sound**: for every descriptor that `build` accepts as a message, with
at most `2 ^ 15` fields and less than `2 ^ 15` bytes of layout. -/
theorem build_layout_sound {p : Platform} {desc : List UInt8} {d : MtDecoder} {t : MiniTable}
    {fields : List MiniTableField} {requiredCount size : Nat}
    (hv : ∀ v ∈ desc.head?, v = 36) (hp : parseMessage p desc.tail = .ok d)
    (ht : build p desc = .ok t) (hn : d.fields.length ≤ 2 ^ 15)
    (hl : d.layout = .ok (fields, requiredCount, size)) (hs : size < 2 ^ 15) :
    ∃ range, LayoutSound p d t range := by
  obtain ⟨hd, rfl⟩ := parseMessage_parsed hp (Nat.le_trans hn (by decide))
  rw [build_message hv hp, messageTable, hl] at ht
  cases ht
  exact hd.layoutSound hl hs rfl rfl

/-- Two `bool`s in a oneof and a required `int32`, parsed. -/
def boolOneof : MtDecoder where
  platform := .bits64
  extension := false
  fields :=
    [⟨1, 65535, 0, noSub, .bool, 2⟩, ⟨2, 3, 0, noSub, .bool, 2⟩, ⟨3, 2, 0, noSub, .int32, 66⟩]
  fieldCount := 3
  denseBelow := 3
  ext := 0
  subCounts := ⟨0, 0⟩
  vec := [⟨1, 0, .oneByte, .oneofField⟩, ⟨1, 0, .fourByte, .oneofCase⟩]
  oneofs := [[1, 0]]

theorem boolOneof_layout : boolOneof.layout = .ok
    ([⟨1, 1, -5, noSub, .bool, 2⟩, ⟨2, 1, -5, noSub, .bool, 2⟩, ⟨3, 8, 1, noSub, .int32, 66⟩], 1, 12) := by
  have hsort : ∀ fs : List MiniTableField, fieldItems fs 3 = [⟨2, 0, .fourByte, .field⟩] →
      sortLayoutItems { boolOneof with fields := fs } =
        boolOneof.vec ++ [⟨2, 0, .fourByte, .field⟩] := by
    intro fs hfs
    change (boolOneof.vec ++ fieldItems fs 3).mergeSort _ = _
    rw [hfs]
    exact List.mergeSort_of_pairwise (by decide)
  change (assignOffsets .bits64 1 (sortLayoutItems { boolOneof with fields :=
    [⟨1, 65535, 0, noSub, .bool, 2⟩, ⟨2, 3, 0, noSub, .bool, 2⟩, ⟨3, 2, 1, noSub, .int32, 66⟩] })
    _ >>= fun r => .ok (r.1, 1, r.2)) = _
  rw [hsort _ (by decide)]
  rfl

theorem build_layout_sound_bool_oneof :
    ∃ t, build .bits64 [36, 47, 47, 40, 78, 94, 33, 124, 35] = .ok t ∧ t.size = 16 ∧
      ∃ range, LayoutSound .bits64 boolOneof t range := by
  have hp : parseMessage .bits64 [47, 47, 40, 78, 94, 33, 124, 35] = .ok boolOneof := by decide
  have hv : ∀ v ∈ ([36, 47, 47, 40, 78, 94, 33, 124, 35] : List UInt8).head?, v = 36 :=
    fun v hv => (Option.some.inj hv).symm
  have ht : build .bits64 [36, 47, 47, 40, 78, 94, 33, 124, 35] = boolOneof.messageTable :=
    build_message hv hp
  rw [messageTable, boolOneof_layout] at ht
  exact ⟨_, ht, rfl, build_layout_sound hv hp ht (by decide) boolOneof_layout (by decide)⟩

end MtDecoder

end Hpb
