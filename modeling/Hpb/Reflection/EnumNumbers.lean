import Mathlib.Data.List.Destutter
import Hpb.Hash.Compact
import Hpb.MiniDescriptor.EnumTable
import Hpb.Reflection.Indexes

/-!
# The numbers of an enum (`hpb/reflection/enum_def.c`)

A definition knows its numbers in two ways. `iton` is an integer table with the first value of every number, which is
compacted when all are in it. `layout` is the table of the enum, made of the sorted numbers, if the enum is closed.

* `itonNew`, `findValueByNumber`, `checkNumber`: the two ways.
* `Created`: what is known of a definition that `create_enumdef` made, `createEnumDef_created`.
* `encodedValues_sorted`, `mem_encodedValues`: what goes into the table of the enum.
* `enumInsertAll_run`: what goes into `iton`.
* `numbersRight_iff`: when the two agree.
-/

namespace Hpb

/-! ### Sorted lists without repetitions -/

theorem mem_destutter'_ne {l : List Nat} {a v : Nat} : v ∈ l.destutter' (· ≠ ·) a ↔ v = a ∨ v ∈ l := by
  induction l generalizing a with
  | nil => simp
  | cons b l ih =>
    by_cases hab : a = b
    · subst hab
      rw [List.destutter'_cons_neg _ (by simp), ih]
      simp
    · rw [List.destutter'_cons_pos _ hab, List.mem_cons, ih, List.mem_cons]

theorem mem_destutter_ne {l : List Nat} {v : Nat} : v ∈ l.destutter (· ≠ ·) ↔ v ∈ l := by
  cases l with
  | nil => rfl
  | cons a l => rw [List.destutter_cons', mem_destutter'_ne, List.mem_cons]

/-- A list in order, each of its numbers once. -/
theorem destutter_sorted {l : List Nat} (h : l.Pairwise (· ≤ ·)) : (l.destutter (· ≠ ·)).Pairwise (· < ·) := by
  have hle := List.isChain_iff_getElem.mp (h.sublist (List.destutter_sublist (· ≠ ·) l)).isChain
  have hne := List.isChain_iff_getElem.mp (List.isChain_destutter (· ≠ ·) l)
  exact (List.isChain_iff_getElem.mpr fun i hi => Nat.lt_of_le_of_ne (hle i hi) (hne i hi)).pairwise

theorem findIdx?_congr {α : Type} {l : List α} {p q : α → Bool} (h : ∀ x ∈ l, p x = q x) : l.findIdx? p = l.findIdx? q := by
  induction l with
  | nil => rfl
  | cons x l ih =>
    rw [List.findIdx?_cons, List.findIdx?_cons, h x List.mem_cons_self, ih fun y hy => h y (List.mem_cons_of_mem _ hy)]

namespace Reflection

open Build

/-! ### The two ways -/

/-- The key of a number: an `int` as a `uintptr_t`. -/
def numberKey (number : Int) : Nat := (number % 2 ^ 64).toNat

/-- `_hpb_EnumDef_Insert`, what it does to `iton`. The pointer to a value is its index here. -/
def enumInsert (t : IntTable) (index : Nat) (v : EnumValueDef) (a : Alloc) : Option (Bool × IntTable) × Alloc :=
  match t.lookup (numberKey v.number) with
  | none => (none, a)
  -- multiple enumerators can have the same number, first one wins
  | some (some _) => (some (true, t), a)
  | some none => t.insert (numberKey v.number) (UInt64.ofNat index) a

/-- The loop of `_hpb_EnumValueDefs_New`. -/
def enumInsertAll : List EnumValueDef → Nat → IntTable → Alloc → Option (Bool × IntTable) × Alloc
  | [], _, t, a => (some (true, t), a)
  | v :: vs, index, t, a =>
    match enumInsert t index v a with
    | (some (true, t), a) => enumInsertAll vs (index + 1) t a
    | (r, a) => (r, a)

/-- `iton` with all values. -/
def itonFilled (values : List EnumValueDef) (a : Alloc) : Option (Bool × IntTable) × Alloc :=
  match IntTable.init a with
  | (none, a) => (none, a)
  | (some t, a) => enumInsertAll values 0 t a

/-- `iton` of a definition, if nothing goes wrong. -/
def itonNew (values : List EnumValueDef) (a : Alloc) : Option IntTable :=
  match itonFilled values a with
  | (some (true, t), a) => (t.compactAsserted a).1
  | _ => none

/-- The values got their memory, and there is more. -/
structure HasMemory (values : List EnumValueDef) (a : Alloc) : Prop where
  filled : (itonFilled values a).2.failed = false
  grants : ∀ n, (itonFilled values a).2.grants n = true

/-- `hpb_EnumDef_FindValueByNumber`: the index of the value, `none` for `NULL`. -/
def findValueByNumber (iton : Option IntTable) (num : Int) : Option (Option Nat) := do
  let t ← iton
  let v ← t.lookup (numberKey num)
  return v.map UInt64.toNat

/-- `hpb_EnumDef_CheckNumber`, if there is a `layout`. -/
def checkNumber (layout : Option MiniTableEnum) (num : Int) : Option Bool :=
  layout.map fun t => t.checkValue (num % 2 ^ 32).toNat

/-- An `int32_t`. -/
def IsInt32 (n : Int) : Prop := -2 ^ 31 ≤ n ∧ n < 2 ^ 31

/-- **The two ways agree**, and the value that is found is the first one with the number. -/
structure NumbersRight (values : List EnumValueDef) (layout : Option MiniTableEnum) (iton : Option IntTable) : Prop where
  check : ∀ n, IsInt32 n → ∃ ok found, checkNumber layout n = some ok ∧ findValueByNumber iton n = some found ∧
    (ok = true ↔ found ≠ none)
  find : ∀ n, IsInt32 n → findValueByNumber iton n = some (values.findIdx? fun v => v.number = n)

/-! ### What goes into the table of the enum -/

section Encoded

variable {e : EnumDef} {values : List EnumValueDef}

theorem sortedFrom_pairwise {l : List Nat} {previous : Nat} (h : sortedFrom previous l = true) :
    (previous :: l).Pairwise (· ≤ ·) := by
  refine List.IsChain.pairwise ?_
  induction l generalizing previous with
  | nil => exact .singleton _
  | cons current rest ih =>
    rw [sortedFrom, Bool.and_eq_true] at h
    have hle : ¬previous > current := by simpa using h.1
    exact .cons_cons (Nat.le_of_not_lt hle) (ih h.2)

theorem encodedValues_sorted (h : e.isSorted = sortedFrom 0 (e.values.map (·.unsigned))) :
    e.encodedValues.Pairwise (· < ·) := by
  rw [EnumDef.encodedValues]
  refine destutter_sorted ?_
  split
  · rename_i hs
    exact (List.pairwise_cons.mp (sortedFrom_pairwise (h.symm.trans hs))).2
  · refine (List.pairwise_mergeSort (fun a b c hab hbc => ?_) (fun a b => ?_) _).imp fun hab => of_decide_eq_true hab
    · exact decide_eq_true (Nat.le_trans (of_decide_eq_true hab) (of_decide_eq_true hbc))
    · simpa using Nat.le_total a b

theorem mem_encodedValues {w : Nat} : w ∈ e.encodedValues ↔ ∃ v ∈ e.values, v.unsigned = w := by
  rw [EnumDef.encodedValues, mem_destutter_ne]
  split
  · exact List.mem_map
  · rw [List.mem_mergeSort, List.mem_map]

theorem unsigned_lt (v : EnumValueDef) : v.unsigned < 2 ^ 32 := by
  rw [EnumValueDef.unsigned]
  omega

theorem unsigned_eq_iff {v : EnumValueDef} (hv : IsInt32 v.number) {n : Int} (hn : IsInt32 n) :
    v.unsigned = (n % 2 ^ 32).toNat ↔ v.number = n := by
  unfold IsInt32 at hv hn
  rw [EnumValueDef.unsigned]
  omega

theorem numberKey_eq_iff {m n : Int} (hm : IsInt32 m) (hn : IsInt32 n) : numberKey m = numberKey n ↔ m = n := by
  unfold IsInt32 at hm hn
  rw [numberKey, numberKey]
  omega

end Encoded

/-! ### What goes into `iton` -/

section Iton

variable {values : List EnumValueDef} {t : IntTable} {m : Finmap fun _ : Nat => UInt64} {a : Alloc} {index : Nat}

/-- The index of the first value with a key, if it is not in the table yet. -/
def firstFrom (values : List EnumValueDef) (index k : Nat) : Option UInt64 :=
  (values.findIdx? fun v => numberKey v.number = k).map fun j => UInt64.ofNat (index + j)

theorem firstFrom_cons (v : EnumValueDef) (values : List EnumValueDef) (index k : Nat) :
    firstFrom (v :: values) index k =
      if numberKey v.number = k then some (UInt64.ofNat index) else firstFrom values (index + 1) k := by
  rw [firstFrom, firstFrom, List.findIdx?_cons]
  by_cases hk : numberKey v.number = k
  · rw [if_pos hk, if_pos (decide_eq_true hk)]
    rfl
  · rw [if_neg hk, if_neg (by simpa using hk), Option.map_map]
    congr 1
    funext j
    rw [Function.comp_apply, Nat.add_assoc, Nat.add_comm 1 j]

theorem numberKey_lt (n : Int) : numberKey n < 2 ^ 64 := by
  rw [numberKey]
  omega

/-- **The loop over the values** enters the first one of every number. -/
theorem enumInsertAll_run (values : List EnumValueDef) (h : t.Stands m) (hlen : index + values.length < 2 ^ 31)
    (hf : (enumInsertAll values index t a).2.failed = false) :
    ∃ t' m', (enumInsertAll values index t a).1 = some (true, t') ∧ a.failed = false ∧ t'.Stands m' ∧
      ∀ k, m'.lookup k = (m.lookup k).or (firstFrom values index k) := by
  induction values generalizing t m a index with
  | nil => exact ⟨t, m, rfl, hf, h, fun k => (Option.or_none).symm⟩
  | cons v values ih =>
    rw [List.length_cons] at hlen
    rw [enumInsertAll, enumInsert, IntTable.lookup_run h] at hf ⊢
    cases hl : m.lookup (numberKey v.number) with
    | some x =>
      simp only [hl] at hf ⊢
      obtain ⟨t', m', hrun, hok, hst, hlook⟩ := ih h (by omega) hf
      refine ⟨t', m', hrun, hok, hst, fun k => ?_⟩
      rw [hlook, firstFrom_cons]
      split
      · rename_i hk
        rw [← hk, hl]
        rfl
      · rfl
    | none =>
      simp only [hl] at hf ⊢
      have hnot : numberKey v.number ∉ m := Finmap.lookup_eq_none.mp hl
      have hval : arrHas (UInt64.ofNat index) := by
        rw [arrHas, decide_eq_true_eq]
        intro heq
        have := congrArg UInt64.toNat heq
        have hmax : tabvalEmpty.toNat = 2 ^ 64 - 1 := rfl
        rw [UInt64.toNat_ofNat', hmax] at this
        omega
      obtain ⟨r, t₁, a₁, hins, hinv, -, hres⟩ :=
        IntTable.insert_run h.inv (fun hm => hnot (h.listing.mem_keys.mp hm)) hval a
      rw [hins] at hf ⊢
      obtain ⟨hfailed, rfl⟩ | ⟨rfl, hfailed, hp⟩ := hres
      · exfalso
        cases r with
        | false =>
          rw [hfailed] at hf
          cases hf
        | true =>
          obtain ⟨_, _, _, hok, -⟩ := ih h (by omega) hf
          rw [hfailed] at hok
          cases hok
      · obtain ⟨t', m', hrun, hok, hst, hlook⟩ := ih
          (h.insert hnot (numberKey_lt _) hval hinv hp) (by omega) hf
        refine ⟨t', m', hrun, hfailed ▸ hok, hst, fun k => ?_⟩
        rw [hlook, firstFrom_cons]
        split
        · rename_i hk
          rw [← hk, Finmap.lookup_insert, hl]
          rfl
        · rename_i hk
          rw [Finmap.lookup_insert_of_ne _ (Ne.symm hk)]

theorem firstFrom_ne_none (values : List EnumValueDef) (index k : Nat) :
    firstFrom values index k ≠ none ↔ ∃ v ∈ values, numberKey v.number = k := by
  rw [firstFrom, Ne, Option.map_eq_none_iff, List.findIdx?_eq_none_iff]
  simp

/-- The numbers of an enum for which the compaction works: fewer than 6554 of them, or none that is negative. -/
def Compacts (numbers : List Int) : Prop := numbers.toFinset.card < 6554 ∨ ∀ n ∈ numbers, 0 ≤ n

/-- The keys of `iton`. -/
theorem mem_iff_of_firstFrom (hm : ∀ k, m.lookup k = firstFrom values 0 k) (k : Nat) :
    k ∈ m ↔ ∃ v ∈ values, numberKey v.number = k := by
  rw [← firstFrom_ne_none values 0 k, ← hm, Ne, Finmap.lookup_eq_none, not_not]

theorem card_of_firstFrom (hm : ∀ k, m.lookup k = firstFrom values 0 k) (hrange : ∀ v ∈ values, IsInt32 v.number) :
    m.keys.card = (values.map (·.number)).toFinset.card := by
  have hkeys : m.keys = (values.map (·.number)).toFinset.image numberKey := by
    ext k
    rw [Finmap.mem_keys, mem_iff_of_firstFrom hm, Finset.mem_image]
    simp
  rw [hkeys]
  refine Finset.card_image_of_injOn fun x hx y hy hxy => ?_
  obtain ⟨v, hv, rfl⟩ := List.mem_map.mp (List.mem_toFinset.mp (Finset.mem_coe.mp hx))
  obtain ⟨w, hw, rfl⟩ := List.mem_map.mp (List.mem_toFinset.mp (Finset.mem_coe.mp hy))
  exact (numberKey_eq_iff (hrange v hv) (hrange w hw)).mp hxy

theorem itonFilled_run (hlen : values.length < 2 ^ 31) (hmem : HasMemory values a) :
    ∃ t m, (itonFilled values a).1 = some (true, t) ∧ t.Stands m ∧ ∀ k, m.lookup k = firstFrom values 0 k := by
  have hf := hmem.filled
  rw [itonFilled] at hf ⊢
  obtain ⟨a₁, hinit, hfailed⟩ | ⟨t, a₁, hinit, -, hst⟩ := IntTable.init_run a
  · rw [hinit, hfailed] at hf
    cases hf
  · rw [hinit] at hf ⊢
    obtain ⟨t', m, hrun, -, hst', hm⟩ := enumInsertAll_run values hst (by omega) hf
    refine ⟨t', m, hrun, hst', fun k => ?_⟩
    rw [hm, Finmap.lookup_empty, Option.none_or]

/-- The index that is found for a number. -/
theorem firstFrom_toNat (hlen : values.length < 2 ^ 31) (hrange : ∀ v ∈ values, IsInt32 v.number) {n : Int}
    (hn : IsInt32 n) :
    (firstFrom values 0 (numberKey n)).map UInt64.toNat = values.findIdx? fun v => v.number = n := by
  have hsame : (values.findIdx? fun v => numberKey v.number = numberKey n) = values.findIdx? fun v => v.number = n := by
    refine findIdx?_congr fun v hv => ?_
    rw [decide_eq_decide, numberKey_eq_iff (hrange v hv) hn]
  rw [firstFrom, hsame, Option.map_map]
  cases hfind : values.findIdx? fun v => v.number = n with
  | none => rfl
  | some i =>
    obtain ⟨hi, -⟩ := List.findIdx?_eq_some_iff_getElem.mp hfind
    rw [Option.map_some, Function.comp_apply, UInt64.toNat_ofNat', Nat.zero_add, Nat.mod_eq_of_lt (by omega)]

/-- **`FindValueByNumber` is right** if and only if the compaction works. -/
theorem find_right_iff (hlen : values.length < 2 ^ 31) (hrange : ∀ v ∈ values, IsInt32 v.number)
    (hmem : HasMemory values a) :
    (∀ n, IsInt32 n → findValueByNumber (itonNew values a) n = some (values.findIdx? fun v => v.number = n)) ↔
      Compacts (values.map (·.number)) := by
  obtain ⟨t, m, hrun, hst, hm⟩ := itonFilled_run hlen hmem
  have hnew : itonNew values a = (t.compactAsserted (itonFilled values a).2).1 := by
    rw [itonNew, ← Prod.mk.eta (p := itonFilled values a), hrun]
  have hcard := card_of_firstFrom hm hrange
  rw [hnew]
  constructor
  · intro hfind
    by_contra hno
    obtain ⟨hcard', hneg⟩ := not_or.mp hno
    obtain ⟨v, hv, hv0⟩ : ∃ v ∈ values, v.number < 0 := by
      by_contra hall
      refine hneg fun n hn => ?_
      obtain ⟨v, hv, rfl⟩ := List.mem_map.mp hn
      exact Int.not_lt.mp fun hlt => hall ⟨v, hv, hlt⟩
    have hkey := (mem_iff_of_firstFrom hm _).mpr ⟨v, hv, rfl⟩
    have hint := hrange v hv
    unfold IsInt32 at hint
    have hlarge : 2 ^ 61 - 1 ≤ numberKey v.number := by
      rw [numberKey]
      omega
    have hnone := IntTable.compactAsserted_none hst (by omega) hkey hlarge (itonFilled values a).2
    have := hfind 0 ⟨by decide, by decide⟩
    rw [hnone] at this
    cases this
  · intro hc n hn
    have hsmall : m.keys.card < 6554 ∨ ∀ k ∈ m, k < 2 ^ 60 - 1 := by
      refine hc.imp (fun hlt => by omega) fun hpos k hk => ?_
      obtain ⟨v, hv, rfl⟩ := (mem_iff_of_firstFrom hm k).mp hk
      have h0 := hpos v.number (List.mem_map_of_mem hv)
      have hint := hrange v hv
      unfold IsInt32 at hint
      rw [numberKey]
      omega
    obtain ⟨t', hrun', hst'⟩ := IntTable.compactAsserted_run hst hsmall hmem.grants hmem.filled
    rw [hrun', findValueByNumber]
    change (t'.lookup (numberKey n)).bind (fun v => some (v.map UInt64.toNat)) = _
    rw [IntTable.lookup_run hst', Option.bind_some, hm, firstFrom_toNat hlen hrange hn]

end Iton

/-! ### The definition -/

/-- The numbers as `uint32_t`, in order, each once. -/
def unsignedNumbers (numbers : List Int) : List Nat :=
  ((numbers.map fun n => (n % 2 ^ 32).toNat).mergeSort (· ≤ ·)).destutter (· ≠ ·)

/-- What is known of a definition that was created. -/
structure EnumDef.Created (e : EnumDef) (layout : Option MiniTableEnum) : Prop where
  sorted : e.isSorted = sortedFrom 0 (e.values.map (·.unsigned))
  closed : e.isClosed = true → ∃ t, layout = some t ∧ buildEnum (encodeEnum e.encodedValues) = .ok t
  opened : e.isClosed = false → layout = none

section Definition

variable {e : EnumDef} {layout : Option MiniTableEnum} {a : Alloc}

theorem EnumDef.Created.encodedValues_eq (h : e.Created layout) :
    e.encodedValues = unsignedNumbers (e.values.map (·.number)) := by
  have hmap : e.values.map (·.unsigned) = (e.values.map (·.number)).map fun n => (n % 2 ^ 32).toNat := by
    rw [List.map_map]
    rfl
  rw [EnumDef.encodedValues, unsignedNumbers, ← hmap]
  split
  · rename_i hs
    have hpairs := (List.pairwise_cons.mp (sortedFrom_pairwise (h.sorted.symm.trans hs))).2
    rw [List.mergeSort_of_pairwise (hpairs.imp fun hab => decide_eq_true hab)]
  · rfl

/-- **The two ways agree** if and only if the enum is closed, its numbers fit into its table, and the compaction
works. -/
theorem EnumDef.Created.numbersRight_iff (h : e.Created layout) (hlen : e.values.length < 2 ^ 31)
    (hrange : ∀ v ∈ e.values, IsInt32 v.number) (hmem : HasMemory e.values a) :
    NumbersRight e.values layout (itonNew e.values a) ↔
      e.isClosed = true ∧ EnumFits e.encodedValues ∧ Compacts (e.values.map (·.number)) := by
  have hfind := find_right_iff hlen hrange hmem
  have hlt : ∀ w ∈ e.encodedValues, w < 2 ^ 32 := by
    intro w hw
    obtain ⟨v, -, rfl⟩ := mem_encodedValues.mp hw
    exact unsigned_lt v
  have hmemEncoded : ∀ n, IsInt32 n → ((n % 2 ^ 32).toNat ∈ e.encodedValues ↔
      (e.values.findIdx? fun v => v.number = n) ≠ none) := by
    intro n hn
    rw [mem_encodedValues, Ne, List.findIdx?_eq_none_iff]
    simp only [decide_eq_false_iff_not, not_forall, not_not, exists_prop]
    exact exists_congr fun v => and_congr_right fun hv => unsigned_eq_iff (hrange v hv) hn
  constructor
  · rintro ⟨hcheck, hright⟩
    cases hclosed : e.isClosed with
    | false =>
      obtain ⟨ok, found, hok, -⟩ := hcheck 0 ⟨by decide, by decide⟩
      rw [h.opened hclosed] at hok
      cases hok
    | true =>
      obtain ⟨t, rfl, ht⟩ := h.closed hclosed
      refine ⟨rfl, (built_fits_iff hlt (encodedValues_sorted h.sorted) ht).mp fun w hw => ?_, hfind.mp hright⟩
      obtain ⟨n, hn, rfl⟩ : ∃ n, IsInt32 n ∧ (n % 2 ^ 32).toNat = w := by
        refine ⟨if w < 2 ^ 31 then (w : Int) else w - 2 ^ 32, ?_, ?_⟩
        · unfold IsInt32
          split <;> omega
        · split <;> omega
      obtain ⟨ok, found, hok, hf, hiff⟩ := hcheck n hn
      cases hok
      cases (hright n hn).symm.trans hf
      rw [hiff, hmemEncoded n hn]
  · rintro ⟨hclosed, hfits, hc⟩
    obtain ⟨t, rfl, ht⟩ := h.closed hclosed
    have hright := hfind.mpr hc
    refine ⟨fun n hn => ⟨_, _, rfl, hright n hn, ?_⟩, hright⟩
    rw [(built_fits_iff hlt (encodedValues_sorted h.sorted) ht).mpr hfits _ (by omega), hmemEncoded n hn]

/-- What every step of a loop returns. -/
theorem Build.Yields.mapM {α β : Type} {f : α → Build β} {R : α → β → Prop} (h : ∀ x, (f x).Yields (R x)) (l : List α) :
    (l.mapM f).Yields fun r => List.Forall₂ R l r := by
  have hloop : ∀ (l : List α) (acc : List β), (List.mapM.loop f l acc).Yields fun r =>
      ∃ r', r = acc.reverse ++ r' ∧ List.Forall₂ R l r' := by
    intro l
    induction l with
    | nil => exact fun acc => .pure ⟨[], (List.append_nil _).symm, .nil⟩
    | cons x l ih =>
      intro acc
      refine .bind (h x) fun y hy => (ih (y :: acc)).imp fun r hr => ?_
      obtain ⟨r', rfl, hr'⟩ := hr
      exact ⟨y :: r', by simp, .cons hy hr'⟩
  refine (hloop l []).imp fun r hr => ?_
  obtain ⟨r', rfl, hr'⟩ := hr
  exact hr'

theorem createEnumValDef_yields (scope : Option StrKey) (proto : EnumValueDescriptorProto) :
    (createEnumValDef scope proto).Yields fun v => v.number = proto.number := by
  unfold createEnumValDef
  exact .bind (.any _) fun _ _ => .bind (.any _) fun _ _ => .pure rfl

theorem enumValueDefsNew_yields (ctx : BuildContext) (scope : Option StrKey) (enumName : StrKey)
    (protos : List EnumValueDescriptorProto) :
    (enumValueDefsNew ctx scope enumName protos).Yields fun values => values.map (·.number) = protos.map (·.number) := by
  unfold enumValueDefsNew
  refine .bind (.mapM (createEnumValDef_yields scope) protos) fun values hvalues => ?_
  have heq : values.map (·.number) = protos.map (·.number) := by
    induction hvalues with
    | nil => rfl
    | cons hv _ ih => rw [List.map_cons, List.map_cons, hv, ih]
  split
  · split
    · exact .errf _ _
    · exact .pure heq
  · exact .pure heq

/-- The table of a closed enum is the next one of the file. -/
theorem createEnumLayout_returns (ctx : BuildContext) (e : EnumDef) (b : BuildState) :
    (createEnumLayout ctx e b).Returns fun r => ∃ t, buildEnum (encodeEnum e.encodedValues) = .ok t ∧
      r.1 = ctx.enumBase + b.enumTables.length ∧ r.2.enumTables = b.enumTables ++ [t] := by
  unfold createEnumLayout
  cases ht : buildEnum (encodeEnum e.encodedValues) with
  | ok t => exact ⟨t, rfl, rfl, rfl⟩
  | error err => cases err <;> exact trivial

/-- `e->layout`, among the tables that the builder has made. -/
def EnumDef.table (e : EnumDef) (ctx : BuildContext) (b : BuildState) : Option MiniTableEnum :=
  e.layout.bind fun i => b.enumTables[i - ctx.enumBase]?

/-- **What `create_enumdef` makes.** -/
theorem createEnumDef_created (ctx : BuildContext) (scope : Option StrKey) (proto : EnumDescriptorProto) (b : BuildState) :
    (createEnumDef ctx scope proto b).Returns fun r => r.1.values.map (·.number) = proto.value.map (·.number) ∧
      (r.1.isClosed = true ↔ ctx.fileSyntax = .proto2) ∧ r.1.Created (r.1.table ctx r.2) := by
  unfold createEnumDef
  refine Client.Returns.bind (Build.Yields.any _ b) fun r₁ _ => Client.Returns.bind (Build.Yields.any _ _) fun r₂ _ =>
    Client.Returns.bind (enumValueDefsNew_yields ctx scope _ proto.value _) fun r₃ hvalues => ?_
  obtain ⟨values, b₃⟩ := r₃
  dsimp only at hvalues ⊢
  by_cases hnil : values = []
  · rw [if_pos hnil]
    exact trivial
  rw [if_neg hnil]
  refine Client.Returns.bind (Build.Yields.any _ _) fun r₄ _ => ?_
  obtain ⟨-, b₄⟩ := r₄
  dsimp only
  by_cases hclosed : ctx.fileSyntax = .proto2
  · rw [if_pos hclosed]
    refine Client.Returns.bind (createEnumLayout_returns ctx _ b₄) fun r₅ hlayout => ?_
    obtain ⟨layout, b₅⟩ := r₅
    obtain ⟨t, ht, hi, htables⟩ := hlayout
    refine ⟨hvalues, iff_of_true (decide_eq_true hclosed) hclosed, rfl, fun _ => ⟨t, ?_, ht⟩, fun hno => ?_⟩
    · change b₅.enumTables[layout - ctx.enumBase]? = some t
      dsimp only at hi htables
      rw [hi, htables, Nat.add_sub_cancel_left, List.getElem?_append_right (Nat.le_refl _), Nat.sub_self]
      rfl
    · exact absurd hclosed (of_decide_eq_false hno)
  · rw [if_neg hclosed]
    refine ⟨hvalues, iff_of_false (by simpa using hclosed) hclosed, rfl, fun hyes => ?_, fun _ => rfl⟩
    exact absurd (of_decide_eq_true hyes) hclosed

/-- **`CheckNumber` and `FindValueByNumber` agree** for an enum that `create_enumdef` makes, and the latter finds the first
value, if and only if the file is a proto2 file, the numbers fit into the table of the enum, and there are fewer than
6554 numbers or none that is negative. -/
theorem createEnumDef_numbersRight_iff (ctx : BuildContext) (scope : Option StrKey) (proto : EnumDescriptorProto)
    (b : BuildState) (hcount : proto.value.length < 2 ^ 31) (hint : ∀ v ∈ proto.value, IsInt32 v.number) :
    (createEnumDef ctx scope proto b).Returns fun r => ∀ a, HasMemory r.1.values a →
      (NumbersRight r.1.values (r.1.table ctx r.2) (itonNew r.1.values a) ↔
        ctx.fileSyntax = .proto2 ∧ EnumFits (unsignedNumbers (proto.value.map (·.number))) ∧
          Compacts (proto.value.map (·.number))) := by
  refine (createEnumDef_created ctx scope proto b).imp fun r hr a hmem => ?_
  obtain ⟨hvalues, hclosed, hcreated⟩ := hr
  have hlen : r.1.values.length < 2 ^ 31 := by
    have := congrArg List.length hvalues
    rw [List.length_map, List.length_map] at this
    omega
  have hrange : ∀ v ∈ r.1.values, IsInt32 v.number := by
    intro v hv
    have hmem := List.mem_map_of_mem (f := fun v : EnumValueDef => v.number) hv
    rw [hvalues] at hmem
    obtain ⟨w, hw, heq⟩ := List.mem_map.mp hmem
    exact heq ▸ hint w hw
  rw [hcreated.numbersRight_iff hlen hrange hmem, hclosed, hcreated.encodedValues_eq, hvalues]

/-- `enum E` with some numbers. -/
def enumOf (numbers : List Int) : EnumDescriptorProto :=
  { name := [69], value := numbers.mapIdx fun i n => ⟨[97 + UInt8.ofNat i], n⟩ }

/-- The first file of a pool, without a package. -/
def firstFile (fileSyntax : Syntax) : BuildContext := ⟨0, fileSyntax, none, .bits64, 0, 0, 0, fun _ => none, fun _ => none⟩

/-- `create_enumdef` in a new pool. -/
def createFirst (fileSyntax : Syntax) (numbers : List Int) : Except Failure (EnumDef × BuildState) × DefPool :=
  (createEnumDef (firstFile fileSyntax) none (enumOf numbers) ⟨[], [], [], 0⟩).run DefPool.serve DefPool.fresh

theorem createFirst_ok {fileSyntax : Syntax} {numbers : List Int} {β : Type} {f : EnumDef × BuildState → β} {x : β}
    (h : (createFirst fileSyntax numbers).1.map f = .ok x) :
    ∃ e b s, createFirst fileSyntax numbers = (.ok (e, b), s) ∧ f (e, b) = x := by
  match hrun : createFirst fileSyntax numbers with
  | (.ok (e, b), s) =>
    rw [hrun] at h
    exact ⟨e, b, s, rfl, Except.ok.inj h⟩
  | (.error err, s) =>
    rw [hrun] at h
    cases h

theorem unsignedNumbers_sorted {numbers : List Int} {l : List Nat} (h : (numbers.map fun n => (n % 2 ^ 32).toNat) = l)
    (hs : l.Pairwise (· < ·)) : unsignedNumbers numbers = l := by
  have hle : l.Pairwise fun a b => decide (a ≤ b) = true := hs.imp fun hab => decide_eq_true (Nat.le_of_lt hab)
  rw [unsignedNumbers, h, List.mergeSort_of_pairwise hle]
  exact List.destutter_of_isChain _ _ (hs.imp fun hab => Nat.ne_of_lt hab).isChain

/-- The numbers 0 and 1. -/
theorem createEnumDef_numbersRight_two : ∃ e b s, createFirst .proto2 [0, 1] = (.ok (e, b), s) ∧
    NumbersRight e.values (e.table (firstFile .proto2) b) (itonNew e.values Alloc.granting) := by
  obtain ⟨e, b, s, hrun, hvalues⟩ : ∃ e b s, createFirst .proto2 [0, 1] = (.ok (e, b), s) ∧
      e.values = [⟨[97], 0⟩, ⟨[98], 1⟩] :=
    createFirst_ok (f := fun r => r.1.values) (by decide)
  have hmem : HasMemory e.values Alloc.granting := by
    rw [hvalues]
    exact ⟨by decide, fun n => rfl⟩
  have hfits : EnumFits (unsignedNumbers ((enumOf [0, 1]).value.map (·.number))) := by
    rw [unsignedNumbers_sorted (l := [0, 1]) rfl (by decide)]
    exact ⟨by decide, by decide, by decide⟩
  have hiff := createEnumDef_numbersRight_iff (firstFile .proto2) none (enumOf [0, 1]) ⟨[], [], [], 0⟩ (by decide)
    (by unfold IsInt32; decide)
  exact ⟨e, b, s, hrun, (hiff.of_run hrun Alloc.granting hmem).mpr ⟨rfl, hfits, .inl (by decide)⟩⟩

/-- **The two ways disagree** for the numbers 512 and 513 of a proto2 enum: the bit mask of 512 covers 513, which is in the
list. A proto3 enum has no table that `CheckNumber` could read. -/
theorem not_createEnumDef_numbersRight :
    (∃ e b s, createFirst .proto2 [512, 513] = (.ok (e, b), s) ∧
      findValueByNumber (itonNew e.values Alloc.granting) 513 = some (some 1) ∧
        checkNumber (e.table (firstFile .proto2) b) 513 = some false) ∧
      ∃ e b s, createFirst .proto3 [0] = (.ok (e, b), s) ∧
        findValueByNumber (itonNew e.values Alloc.granting) 0 = some (some 0) ∧
          checkNumber (e.table (firstFile .proto3) b) 0 = none := by
  have hclosed : (createFirst .proto2 [512, 513]).1.map (fun r =>
      (findValueByNumber (itonNew r.1.values Alloc.granting) 513, checkNumber (r.1.table (firstFile .proto2) r.2) 513)) =
        .ok (some (some 1), some false) := by
    decide
  have hopen : (createFirst .proto3 [0]).1.map (fun r =>
      (findValueByNumber (itonNew r.1.values Alloc.granting) 0, checkNumber (r.1.table (firstFile .proto3) r.2) 0)) =
        .ok (some (some 0), none) := by
    decide
  obtain ⟨e, b, s, hrun, heq⟩ := createFirst_ok hclosed
  obtain ⟨e', b', s', hrun', heq'⟩ := createFirst_ok hopen
  exact ⟨⟨e, b, s, hrun, Prod.mk.inj heq⟩, e', b', s', hrun', Prod.mk.inj heq'⟩

end Definition

end Reflection

end Hpb
