import Mathlib.Data.List.Basic
import Hpb.MiniTable.Table
import Hpb.Message.Message

/-!
# Sorted maps (`hpb/collections/map_sorter.c`)

The order in which the deterministic encoder takes the entries of a map and the extensions of a message. `qsort` gives
them in the order of a comparison.

* `compareKeys`: the comparison of the keys for each key type; the keys of one map are all numbers or all strings,
* `compareKeys_trans`, `compareKeys_total`, `compareKeys_antisymm`: it is a total order on the keys of a type,
* `sortKeys_eq_of_perm`: so the sorted keys of a map do not depend on the order in which its table has them.
-/

namespace Hpb

/-- `a < b ? -1 : a > b`. -/
def threeWay (a b : Int) : Int := if a < b then -1 else if a > b then 1 else 0

/-- `memcmp` over the bytes that both have: the sign of the first difference. -/
def memcmp : List UInt8 → List UInt8 → Int
  | a :: as, b :: bs => if a = b then memcmp as bs else if a < b then -1 else 1
  | _, _ => 0

/-- `_hpb_mapsorter_cmpstr`. -/
def cmpstr (a b : List UInt8) : Int :=
  let cmp := memcmp a b
  if cmp ≠ 0 then -cmp else threeWay a.length b.length

/-- The number that `_hpb_map_fromkey` makes of a key, for the comparison of its type. -/
def keyNumber (type : FieldType) (v : UInt64) : Int :=
  match type with
  | .int64 | .sfixed64 | .sint64 => v.toBitVec.toInt
  | .int32 | .sint32 | .sfixed32 | .enum => v.toUInt32.toBitVec.toInt
  | .uint32 | .fixed32 => v.toUInt32.toNat
  | .bool => v.toUInt8.toNat
  | _ => v.toNat

/-- `compar`. A number and a string are not compared; that they are in this order here makes it total. -/
def compareKeys (type : FieldType) : MapKey → MapKey → Int
  | .scalar a, .scalar b => threeWay (keyNumber type a) (keyNumber type b)
  | .str a, .str b => cmpstr a b
  | .scalar _, .str _ => -1
  | .str _, .scalar _ => 1

/-- `_hpb_mapsorter_pushmap`, for the keys of a map. -/
def sortKeys (type : FieldType) (keys : List MapKey) : List MapKey :=
  keys.mergeSort fun a b => compareKeys type a b ≤ 0

/-- `_hpb_mapsorter_pushexts`, for extensions with these numbers. -/
def sortExts (number : Nat → Nat) (ids : List Nat) : List Nat := ids.mergeSort fun a b => number a ≤ number b

/-- A number in the memory of a field of a type. -/
def FieldType.InMemory (type : FieldType) (v : UInt64) : Prop :=
  match type with
  | .bool => v.toNat ≤ 1
  | .float | .int32 | .fixed32 | .uint32 | .enum | .sfixed32 | .sint32 => v.toNat < 2 ^ 32
  | _ => True

/-- A key of a map with keys of a type. -/
def MapKey.Fits (type : FieldType) : MapKey → Prop
  | .scalar v => type ≠ .string ∧ type ≠ .bytes ∧ type.InMemory v
  | .str _ => type = .string ∨ type = .bytes

/-! ### The comparison -/

section Compare

variable {a b c : List UInt8} {m n k : Int} {type : FieldType}

theorem threeWay_le_iff : threeWay m n ≤ 0 ↔ m ≤ n := by
  unfold threeWay
  split_ifs <;> omega

theorem cmpstr_nil : cmpstr [] b ≤ 0 := by
  show threeWay (0 : Nat) b.length ≤ 0
  rw [threeWay_le_iff]
  omega

theorem cmpstr_cons_nil {x : UInt8} : ¬cmpstr (x :: a) [] ≤ 0 := by
  show ¬threeWay (x :: a).length (0 : Nat) ≤ 0
  rw [threeWay_le_iff, List.length_cons]
  omega

/-- Where the first bytes differ, the greater one comes first. -/
theorem cmpstr_cons {x y : UInt8} : cmpstr (x :: a) (y :: b) ≤ 0 ↔ y < x ∨ x = y ∧ cmpstr a b ≤ 0 := by
  by_cases hxy : x = y
  · subst hxy
    have hlen : threeWay (x :: a).length (x :: b).length = threeWay a.length b.length := by
      simp [threeWay]
    simp only [cmpstr, memcmp, if_true, hlen]
    simp
  · rcases UInt8.lt_or_lt_of_ne hxy with h | h
    · simp [cmpstr, memcmp, hxy, h, UInt8.lt_asymm h]
    · simp [cmpstr, memcmp, hxy, h, UInt8.lt_asymm h]

theorem cmpstr_trans (hab : cmpstr a b ≤ 0) (hbc : cmpstr b c ≤ 0) : cmpstr a c ≤ 0 := by
  induction a generalizing b c with
  | nil => exact cmpstr_nil
  | cons x a ih =>
    rcases b with _ | ⟨y, b⟩
    · exact absurd hab cmpstr_cons_nil
    rcases c with _ | ⟨z, c⟩
    · exact absurd hbc cmpstr_cons_nil
    rw [cmpstr_cons] at *
    rcases hab with hyx | ⟨rfl, hab⟩ <;> rcases hbc with hzy | ⟨rfl, hbc⟩
    · exact .inl (UInt8.lt_trans hzy hyx)
    · exact .inl hyx
    · exact .inl hzy
    · exact .inr ⟨rfl, ih hab hbc⟩

theorem cmpstr_total (a b : List UInt8) : cmpstr a b ≤ 0 ∨ cmpstr b a ≤ 0 := by
  induction a generalizing b with
  | nil => exact .inl cmpstr_nil
  | cons x a ih =>
    rcases b with _ | ⟨y, b⟩
    · exact .inr cmpstr_nil
    rw [cmpstr_cons, cmpstr_cons]
    by_cases hxy : x = y
    · exact (ih b).imp (fun h => .inr ⟨hxy, h⟩) fun h => .inr ⟨hxy.symm, h⟩
    · exact (UInt8.lt_or_lt_of_ne hxy).symm.imp .inl .inl

theorem cmpstr_antisymm (hab : cmpstr a b ≤ 0) (hba : cmpstr b a ≤ 0) : a = b := by
  induction a generalizing b with
  | nil =>
    rcases b with _ | ⟨y, b⟩
    · rfl
    · exact absurd hba cmpstr_cons_nil
  | cons x a ih =>
    rcases b with _ | ⟨y, b⟩
    · exact absurd hab cmpstr_cons_nil
    rw [cmpstr_cons] at hab hba
    rcases hab with hyx | ⟨rfl, hab⟩
    · rcases hba with hxy | ⟨rfl, -⟩
      · exact absurd (UInt8.lt_trans hxy hyx) (UInt8.lt_irrefl x)
      · exact absurd hyx (UInt8.lt_irrefl y)
    · rcases hba with hxx | ⟨-, hba⟩
      · exact absurd hxx (UInt8.lt_irrefl x)
      · rw [ih hab hba]

theorem compareKeys_trans (type : FieldType) (a b c : MapKey) (hab : compareKeys type a b ≤ 0)
    (hbc : compareKeys type b c ≤ 0) : compareKeys type a c ≤ 0 := by
  rcases a with a | a <;> rcases b with b | b <;> rcases c with c | c <;> simp only [compareKeys] at *
  · rw [threeWay_le_iff] at *
    exact Int.le_trans hab hbc
  all_goals first | exact cmpstr_trans hab hbc | omega

theorem compareKeys_total (type : FieldType) (a b : MapKey) :
    compareKeys type a b ≤ 0 ∨ compareKeys type b a ≤ 0 := by
  rcases a with a | a <;> rcases b with b | b <;> simp only [compareKeys]
  · rw [threeWay_le_iff, threeWay_le_iff]
    exact Int.le_total _ _
  all_goals first | exact cmpstr_total a b | omega

/-- The numbers of a type are told apart by the comparison of the type. -/
theorem keyNumber_inj {a b : UInt64} (ha : type.InMemory a) (hb : type.InMemory b)
    (h : keyNumber type a = keyNumber type b) : a = b := by
  have hint64 : a.toBitVec.toInt = b.toBitVec.toInt → a = b := fun h =>
    UInt64.toBitVec_inj.mp (BitVec.toInt_inj.mp h)
  have huint32 : a.toNat < 2 ^ 32 → b.toNat < 2 ^ 32 → a.toUInt32.toNat = b.toUInt32.toNat → a = b := by
    intro ha hb h
    rw [UInt64.toNat_toUInt32, UInt64.toNat_toUInt32, Nat.mod_eq_of_lt ha, Nat.mod_eq_of_lt hb] at h
    exact UInt64.toNat_inj.mp h
  have hint32 : a.toNat < 2 ^ 32 → b.toNat < 2 ^ 32 → a.toUInt32.toBitVec.toInt = b.toUInt32.toBitVec.toInt → a = b :=
    fun ha hb h => huint32 ha hb (congrArg UInt32.toNat (UInt32.toBitVec_inj.mp (BitVec.toInt_inj.mp h)))
  have hnat : (a.toNat : Int) = b.toNat → a = b := fun h => UInt64.toNat_inj.mp (Int.ofNat_inj.mp h)
  cases type with
  | int64 | sfixed64 | sint64 => exact hint64 h
  | int32 | sint32 | sfixed32 | enum => exact hint32 ha hb h
  | uint32 | fixed32 => exact huint32 ha hb (Int.ofNat_inj.mp h)
  | bool =>
    have hbyte : a.toUInt8.toNat = b.toUInt8.toNat := Int.ofNat_inj.mp h
    have ha : a.toNat ≤ 1 := ha
    have hb : b.toNat ≤ 1 := hb
    rw [UInt64.toNat_toUInt8, UInt64.toNat_toUInt8] at hbyte
    exact UInt64.toNat_inj.mp (by omega)
  | _ => exact hnat h

theorem compareKeys_antisymm {a b : MapKey} (ha : a.Fits type) (hb : b.Fits type) (hab : compareKeys type a b ≤ 0)
    (hba : compareKeys type b a ≤ 0) : a = b := by
  rcases a with a | a <;> rcases b with b | b <;> simp only [compareKeys] at hab hba
  · rw [threeWay_le_iff] at hab hba
    rw [keyNumber_inj ha.2.2 hb.2.2 (Int.le_antisymm hab hba)]
  · omega
  · omega
  · rw [cmpstr_antisymm hab hba]

end Compare

/-! ### The sorted keys -/

/-- A list has one order only if no two of its elements are equal in the order. -/
theorem mergeSort_eq_of_perm {α : Type} {le : α → α → Bool} (trans : ∀ a b c, le a b → le b c → le a c)
    (total : ∀ a b, le a b || le b a) {l l' : List α} (antisymm : ∀ a ∈ l, ∀ b ∈ l, le a b → le b a → a = b)
    (h : l.Perm l') : l.mergeSort le = l'.mergeSort le := by
  have hl := List.mergeSort_perm l le
  have hl' := List.mergeSort_perm l' le
  refine List.Perm.eq_of_pairwise ?_ (List.pairwise_mergeSort trans total l) (List.pairwise_mergeSort trans total l')
    (hl.trans (h.trans hl'.symm))
  intro a b ha hb
  exact antisymm a (hl.mem_iff.mp ha) b (h.mem_iff.mpr (hl'.mem_iff.mp hb))

theorem sortKeys_perm (type : FieldType) (keys : List MapKey) : (sortKeys type keys).Perm keys := List.mergeSort_perm _ _

theorem sortExts_perm (number : Nat → Nat) (ids : List Nat) : (sortExts number ids).Perm ids := List.mergeSort_perm _ _

/-- **The sorted keys** of a map do not depend on the order in which its table has them. -/
theorem sortKeys_eq_of_perm {type : FieldType} {keys keys' : List MapKey} (hfits : ∀ k ∈ keys, k.Fits type)
    (h : keys.Perm keys') : sortKeys type keys = sortKeys type keys' := by
  refine mergeSort_eq_of_perm (fun a b c hab hbc => ?_) (fun a b => ?_) (fun a ha b hb hab hba => ?_) h
  · simp only [decide_eq_true_eq] at *
    exact compareKeys_trans type a b c hab hbc
  · simpa using compareKeys_total type a b
  · simp only [decide_eq_true_eq] at hab hba
    exact compareKeys_antisymm (hfits a ha) (hfits b hb) hab hba

/-- No two extensions of a message have the same number. -/
theorem sortExts_eq_of_perm {number : Nat → Nat} {ids ids' : List Nat}
    (hinj : ∀ a ∈ ids, ∀ b ∈ ids, number a = number b → a = b) (h : ids.Perm ids') :
    sortExts number ids = sortExts number ids' := by
  refine mergeSort_eq_of_perm (fun a b c hab hbc => ?_) (fun a b => ?_) (fun a ha b hb hab hba => ?_) h
  · simp only [decide_eq_true_eq] at *
    exact Nat.le_trans hab hbc
  · simpa using Nat.le_total (number a) (number b)
  · simp only [decide_eq_true_eq] at hab hba
    exact hinj a ha b hb (Nat.le_antisymm hab hba)

end Hpb
