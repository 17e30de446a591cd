import Mathlib.Data.List.Induction
import Mathlib.Data.List.Perm.Subperm
import Mathlib.Data.List.Nodup
import Mathlib.Data.Nat.Bitwise
import Hpb.MiniDescriptor.EnumRead

/-!
# The table of an enum

Of the values of an enum, in ascending order, the first ones go to the bit mask (`masked`) until one
is sparse: above 512 and with too few values up to it. That one and all after it go to the list
(`listed`). `EnumInv` is what the table holds in between.

* `EnumInv.buildValue_masked`, `EnumInv.buildValue_listed`: one more value,
* `EnumInv.checkEnumValueSlow_iff`, `EnumInv.checkValue_eq`: what the finished table answers,
* `enumChecks_iff`: the table of an enum is right exactly if `EnumFits`.
-/

namespace Hpb

/-- How many of the values go to the bit mask, after `n` others that did. -/
def denseCount (n : Nat) : List Nat → Nat
  | [] => 0
  | v :: vs => if 512 < v ∧ n + 1 < v / 32 then 0 else denseCount (n + 1) vs + 1

/-- The values before the first sparse one. -/
def masked (vals : List Nat) : List Nat := vals.take (denseCount 0 vals)

/-- The values from the first sparse one on. -/
def listed (vals : List Nat) : List Nat := vals.drop (denseCount 0 vals)

/-- The words of a bit mask for `ms`, at least two. -/
def maskWords (ms : List Nat) : Nat := ms.foldl (fun n v => max n (v / 32 + 1)) 2

theorem maskWords_append (ms : List Nat) (v : Nat) :
    maskWords (ms ++ [v]) = max (maskWords ms) (v / 32 + 1) := by
  simp [maskWords]

theorem testBit_or_one_shiftLeft (word i j : Nat) :
    (word ||| 1 <<< i).testBit j = (word.testBit j || decide (i = j)) := by
  rw [Nat.testBit_or, Nat.shiftLeft_eq, Nat.one_mul, Nat.testBit_two_pow]

theorem and_one_shiftLeft_ne_zero (word i : Nat) : word &&& 1 <<< i ≠ 0 ↔ word.testBit i = true := by
  rw [Nat.shiftLeft_eq, Nat.one_mul, Nat.and_two_pow]
  cases word.testBit i with
  | false => simp
  | true => simp

theorem length_le_of_sorted {vals : List Nat} {b : Nat} (hlt : ∀ v ∈ vals, v < b) (hs : vals.Pairwise (· < ·)) :
    vals.length ≤ b := by
  have hnodup : vals.Nodup := hs.imp fun h => Nat.ne_of_lt h
  have hsub : vals ⊆ List.range b := fun v hv => List.mem_range.mpr (hlt v hv)
  have := (List.subperm_of_subset hnodup hsub).length_le
  rwa [List.length_range] at this

namespace MdEnumDecoder

/-- The capacity doubles, up to `2 ^ 31` words. -/
structure HasRoom (d : MdEnumDecoder) : Prop where
  capacity : ∃ k, 1 ≤ k ∧ k ≤ 31 ∧ d.dataCapacity = 2 ^ k
  length : d.table.data.length ≤ d.dataCapacity

variable {d : MdEnumDecoder} {v : Nat}

theorem addEnumDataMember_ok (h : d.HasRoom) (hlen : d.table.data.length < 2 ^ 31) (v : Nat) :
    ∃ d', d.addEnumDataMember v = .ok d' ∧ d'.HasRoom ∧ d'.valueCount = d.valueCount ∧
      d'.table = { d.table with data := d.table.data ++ [v] } := by
  obtain ⟨k, hk1, hk, hcap⟩ := h.capacity
  have hle := h.length
  unfold addEnumDataMember
  by_cases hfull : d.table.data.length = d.dataCapacity
  · have hlt : k < 31 := by
      have : 2 ^ k < 2 ^ 31 := by rw [← hcap, ← hfull]; exact hlen
      exact (Nat.pow_lt_pow_iff_right (by decide)).mp this
    have hdouble : max 2 (d.dataCapacity * 2 % 2 ^ 32) = 2 ^ (k + 1) := by
      have hpow : 2 ^ (k + 1) ≤ 2 ^ 31 := Nat.pow_le_pow_right (by decide) (by omega)
      have hpow' : 2 ^ 1 ≤ 2 ^ (k + 1) := Nat.pow_le_pow_right (by decide) (by omega)
      rw [hcap, ← Nat.pow_succ, Nat.mod_eq_of_lt (by omega)]
      exact Nat.max_eq_right (by omega)
    have hgrow : 2 ^ (k + 1) = d.dataCapacity * 2 := by rw [hcap, Nat.pow_succ]
    have hpos : 0 < d.dataCapacity := by rw [hcap]; exact Nat.two_pow_pos _
    simp only [if_pos hfull, hdouble]
    rw [if_pos (by omega)]
    refine ⟨_, rfl, ⟨⟨k + 1, by omega, by omega, rfl⟩, ?_⟩, rfl, rfl⟩
    simp only [List.length_append, List.length_singleton]
    omega
  · simp only [if_neg hfull]
    rw [if_pos (by omega)]
    refine ⟨_, rfl, ⟨⟨k, hk1, hk, hcap⟩, ?_⟩, rfl, rfl⟩
    simp only [List.length_append, List.length_singleton]
    omega

/-- With `2 ^ 31` words the capacity wraps. -/
theorem addEnumDataMember_full (h : d.HasRoom) (hlen : 2 ^ 31 ≤ d.table.data.length) (v : Nat) :
    d.addEnumDataMember v = .error .outOfBounds := by
  obtain ⟨k, -, hk, hcap⟩ := h.capacity
  have hle := h.length
  have hpow : 2 ^ k ≤ 2 ^ 31 := Nat.pow_le_pow_right (by decide) hk
  have hfull : d.table.data.length = d.dataCapacity := by omega
  have hwrap : max 2 (d.dataCapacity * 2 % 2 ^ 32) = 2 := by
    rw [show d.dataCapacity = 2 ^ 31 by omega]
    rfl
  unfold addEnumDataMember
  simp only [if_pos hfull, hwrap]
  rw [if_neg (by omega)]

/-- The mask grows by words of zeros. -/
theorem growMask_ok {q n : Nat} (h : d.HasRoom) (hlimit : d.table.maskLimit = 32 * d.table.data.length)
    (hq : q < 2 ^ 27) (hlen : d.table.data.length < 2 ^ 27) (hn : q ≤ d.table.data.length + n) :
    ∃ d', growMask (32 * q) n d = .ok d' ∧ d'.HasRoom ∧ d'.valueCount = d.valueCount ∧
      d'.table.valueCount = d.table.valueCount ∧
      d'.table.maskLimit = 32 * d'.table.data.length ∧
      d'.table.data = d.table.data ++ List.replicate (q - d.table.data.length) 0 := by
  induction n generalizing d with
  | zero =>
    refine ⟨d, rfl, h, rfl, rfl, hlimit, ?_⟩
    rw [show q - d.table.data.length = 0 by omega]
    simp
  | succ n ih =>
    rw [growMask]
    by_cases hlt : d.table.maskLimit < 32 * q
    · rw [if_pos hlt]
      obtain ⟨d₁, hd₁, hroom, hcount, htable⟩ := addEnumDataMember_ok h (by omega) 0
      rw [hd₁]
      have hlen₁ : d₁.table.data.length = d.table.data.length + 1 := by simp [htable]
      have hlim₁ : d₁.table.maskLimit = d.table.maskLimit := by simp [htable]
      have hval₁ : d₁.table.valueCount = d.table.valueCount := by simp [htable]
      have hmod : (d₁.table.maskLimit + 32) % 2 ^ 32 = 32 * d₁.table.data.length := by
        rw [hlim₁, hlimit, hlen₁, Nat.mod_eq_of_lt (by omega)]
        omega
      obtain ⟨d', hd', hroom', hcount', hval', hlim', hdata'⟩ := ih (d := { d₁ with
        table := { d₁.table with maskLimit := (d₁.table.maskLimit + 32) % 2 ^ 32 } })
        ⟨hroom.capacity, hroom.length⟩ hmod (by dsimp only; omega) (by dsimp only; omega)
      refine ⟨d', hd', hroom', hcount'.trans hcount, hval'.trans hval₁, hlim', ?_⟩
      rw [hdata']
      simp only [htable, List.length_append, List.length_singleton, List.append_assoc]
      rw [show q - d.table.data.length = (q - (d.table.data.length + 1)) + 1 by omega,
        List.replicate_succ]
      rfl
    · rw [if_neg hlt]
      refine ⟨d, rfl, h, rfl, rfl, hlimit, ?_⟩
      rw [show q - d.table.data.length = 0 by omega]
      simp

/-- The values `ms` are in the bit mask `words`, and the values `ls` in the list behind it. -/
structure EnumInv (d : MdEnumDecoder) (words ms ls : List Nat) : Prop where
  room : d.HasRoom
  data : d.table.data = words ++ ls
  limit : d.table.maskLimit = 32 * words.length
  listLength : d.table.valueCount = ls.length
  count : d.valueCount = (ms.length + ls.length) % 2 ^ 32
  small : words.length < 2 ^ 27
  length : words.length = maskWords ms
  word : ∀ w ∈ words, w < 2 ^ 32
  bits : ∀ v < 32 * words.length, (words.getD (v / 32) 0).testBit (v % 32) = true ↔ v ∈ ms

theorem enumInv_start : EnumInv start [0, 0] [] [] where
  room := ⟨⟨1, by decide, by decide, rfl⟩, by decide⟩
  data := rfl
  limit := rfl
  listLength := rfl
  count := rfl
  small := by decide
  length := rfl
  word := by decide
  bits := by
    intro v hv
    have hzero : ([0, 0] : List Nat).getD (v / 32) 0 = 0 := by
      have : v / 32 = 0 ∨ v / 32 = 1 := by
        simp only [List.length_cons, List.length_nil] at hv
        omega
      obtain h | h := this <;> rw [h] <;> rfl
    rw [hzero]
    simp

variable {words ms ls : List Nat}

theorem maskWords_ge_two (ms : List Nat) : 2 ≤ maskWords ms := by
  induction ms using List.reverseRecOn with
  | nil => exact le_refl 2
  | append_singleton ms v ih =>
    rw [maskWords_append]
    exact ih.trans (Nat.le_max_left _ _)

theorem lt_maskWords {v : Nat} (h : v ∈ ms) : v < 32 * maskWords ms := by
  induction ms using List.reverseRecOn with
  | nil => cases h
  | append_singleton ms w ih =>
    rw [maskWords_append]
    obtain h | h := List.mem_append.mp h
    · exact Nat.lt_of_lt_of_le (ih h) (Nat.mul_le_mul_left _ (Nat.le_max_left _ _))
    · rw [List.mem_singleton.mp h]
      have := Nat.le_max_right (maskWords ms) (w / 32 + 1)
      omega

theorem EnumInv.count_succ (h : EnumInv d words ms ls) (hms : ms.length + 1 < 2 ^ 32) (hls : ls = []) :
    (d.valueCount + 1) % 2 ^ 32 = ms.length + 1 := by
  rw [h.count, hls, List.length_nil, Nat.add_zero]
  omega

/-- The mask is too short to hold as many values as `enum_value_count` can count. -/
theorem EnumInv.length_lt (h : EnumInv d words ms ls) (hs : ms.Pairwise (· < ·)) :
    ms.length + 1 < 2 ^ 32 := by
  have hlen := length_le_of_sorted (fun v hv => h.length ▸ lt_maskWords hv) hs
  have := h.small
  omega

/-- A sparse value, and every one after it, goes to the list. -/
theorem EnumInv.buildValue_listed (h : EnumInv d words ms ls)
    (hs : ls ≠ [] ∨ (512 < v ∧ ms.length + 1 < v / 32)) (hms : ms.length + 1 < 2 ^ 32) :
    (words.length + ls.length < 2 ^ 31 →
      ∃ d', d.buildValue v = .ok d' ∧ EnumInv d' words ms (ls ++ [v])) ∧
    (2 ^ 31 ≤ words.length + ls.length → d.buildValue v = .error .outOfBounds) := by
  have hcond : d.table.valueCount ≠ 0 ∨ (v > 512 ∧ (d.valueCount + 1) % 2 ^ 32 < v / 32) := by
    obtain hs | hs := hs
    · rw [h.listLength]
      exact Or.inl fun h0 => hs (List.length_eq_zero_iff.mp h0)
    · by_cases h0 : ls = []
      · refine Or.inr ⟨hs.1, ?_⟩
        rw [h.count_succ hms h0]
        exact hs.2
      · rw [h.listLength]
        exact Or.inl fun hl => h0 (List.length_eq_zero_iff.mp hl)
  have hroom : HasRoom { d with valueCount := (d.valueCount + 1) % 2 ^ 32 } :=
    ⟨h.room.capacity, h.room.length⟩
  have hlen : d.table.data.length = words.length + ls.length := by rw [h.data, List.length_append]
  unfold buildValue
  dsimp only
  rw [if_pos hcond]
  constructor
  · intro hlt
    obtain ⟨d', hd', hroom', hcount', htable'⟩ :=
      addEnumDataMember_ok hroom (by rw [hlen]; exact hlt) v
    rw [hd']
    refine ⟨_, rfl, ⟨hroom'.capacity, hroom'.length⟩, ?_, ?_, ?_, ?_, h.small, h.length, h.word, h.bits⟩
    · change d'.table.data = _
      rw [htable']
      change d.table.data ++ [v] = _
      rw [h.data, List.append_assoc]
    · change d'.table.maskLimit = _
      rw [htable']
      exact h.limit
    · change (d'.table.valueCount + 1) % 2 ^ 32 = _
      rw [htable']
      change (d.table.valueCount + 1) % 2 ^ 32 = _
      rw [h.listLength, Nat.mod_eq_of_lt (by omega), List.length_append, List.length_singleton]
    · change d'.valueCount = _
      rw [hcount']
      change (d.valueCount + 1) % 2 ^ 32 = _
      rw [h.count, List.length_append, List.length_singleton]
      omega
  · intro hge
    rw [addEnumDataMember_full hroom (by rw [hlen]; exact hge) v]
    rfl

/-- A value that is not sparse goes to the mask, if the mask has room for it. -/
theorem EnumInv.buildValue_masked (h : EnumInv d words ms [])
    (hs : ¬(512 < v ∧ ms.length + 1 < v / 32)) (hms : ms.length + 1 < 2 ^ 32) (hv : v < 2 ^ 32) :
    (v < 2 ^ 32 - 32 →
      ∃ d' words', d.buildValue v = .ok d' ∧ EnumInv d' words' (ms ++ [v]) []) ∧
    (2 ^ 32 - 32 ≤ v → d.buildValue v = .error .outOfBounds) := by
  have hdata : d.table.data = words := by rw [h.data, List.append_nil]
  have hcond : ¬(d.table.valueCount ≠ 0 ∨ (v > 512 ∧ (d.valueCount + 1) % 2 ^ 32 < v / 32)) := by
    rw [h.listLength, h.count_succ hms rfl]
    simpa using hs
  have hroom : HasRoom { d with valueCount := (d.valueCount + 1) % 2 ^ 32 } :=
    ⟨h.room.capacity, h.room.length⟩
  unfold buildValue
  dsimp only
  rw [if_neg hcond]
  constructor
  · intro hlt
    have hlimit : (v / 32 + 1) * 32 % 2 ^ 32 = 32 * (v / 32 + 1) := by omega
    obtain ⟨d₁, hd₁, hroom₁, hcount₁, hval₁, hlim₁, hdata₁⟩ := growMask_ok (q := v / 32 + 1)
      (n := v / 32 + 1) hroom (by rw [hdata]; exact h.limit) (by omega) (by rw [hdata]; exact h.small)
      (by omega)
    rw [hlimit, hd₁]
    dsimp only at hcount₁ hval₁ hdata₁
    rw [hdata] at hdata₁
    have hlen₁ : d₁.table.data.length = maskWords (ms ++ [v]) := by
      rw [hdata₁, List.length_append, List.length_replicate, maskWords_append, ← h.length]
      omega
    have hlt₁ : v / 32 < d₁.table.data.length := by
      rw [hlen₁]
      have := lt_maskWords (show v ∈ ms ++ [v] by simp)
      omega
    obtain ⟨word, hget⟩ : ∃ word, d₁.table.data[v / 32]? = some word :=
      ⟨_, List.getElem?_eq_getElem hlt₁⟩
    dsimp only [bind, Except.bind]
    rw [hget]
    -- bits of the grown mask, before the new one is set
    have hbits₁ : ∀ u < 32 * d₁.table.data.length,
        (d₁.table.data.getD (u / 32) 0).testBit (u % 32) = true ↔ u ∈ ms := by
      intro u hu
      rw [hdata₁, List.getD_eq_getElem?_getD]
      by_cases hw : u / 32 < words.length
      · rw [List.getElem?_append_left hw, ← List.getD_eq_getElem?_getD]
        exact h.bits u (by omega)
      · have hzero : ((words ++ List.replicate (v / 32 + 1 - words.length) 0)[u / 32]?).getD 0 = 0 := by
          rw [List.getElem?_append_right (by omega), List.getElem?_replicate]
          split <;> rfl
        have hnot : u ∉ ms := fun hu' => by
          have := lt_maskWords hu'
          have := h.length
          omega
        simp [hzero, hnot]
    have hword₁ : ∀ w ∈ d₁.table.data, w < 2 ^ 32 := by
      intro w hw
      rw [hdata₁] at hw
      obtain hw | hw := List.mem_append.mp hw
      · exact h.word w hw
      · rw [List.eq_of_mem_replicate hw]
        exact Nat.two_pow_pos _
    refine ⟨_, d₁.table.data.set (v / 32) (word ||| 1 <<< (v % 32)), rfl, ?_⟩
    have hsetlen : (d₁.table.data.set (v / 32) (word ||| 1 <<< (v % 32))).length =
        d₁.table.data.length := List.length_set
    constructor
    case room => exact ⟨hroom₁.capacity, by dsimp only; rw [hsetlen]; exact hroom₁.length⟩
    case data => exact (List.append_nil _).symm
    case limit => dsimp only; rw [hsetlen]; exact hlim₁
    case listLength => exact hval₁.trans h.listLength
    case count =>
      change d₁.valueCount = _
      rw [hcount₁, h.count_succ hms rfl, List.length_append, List.length_singleton, List.length_nil,
        Nat.add_zero, Nat.mod_eq_of_lt hms]
    case small =>
      rw [hsetlen, hlen₁, maskWords_append, ← h.length]
      have := h.small
      omega
    case length => rw [hsetlen, hlen₁]
    case word =>
      intro w hw
      obtain hw | rfl := List.mem_or_eq_of_mem_set hw
      · exact hword₁ w hw
      · refine Nat.or_lt_two_pow (hword₁ word (List.mem_of_getElem? hget)) ?_
        rw [Nat.shiftLeft_eq, Nat.one_mul]
        exact Nat.pow_lt_pow_right (by decide) (Nat.mod_lt _ (by decide))
    case bits =>
      intro u hu
      rw [hsetlen] at hu
      rw [List.mem_append, List.mem_singleton, ← hbits₁ u hu, List.getD_eq_getElem?_getD,
        List.getD_eq_getElem?_getD]
      by_cases huv : v / 32 = u / 32
      · rw [← huv, List.getElem?_set_self hlt₁, hget, Option.getD_some, Option.getD_some,
          testBit_or_one_shiftLeft, Bool.or_eq_true, decide_eq_true_eq]
        refine or_congr Iff.rfl ?_
        omega
      · rw [List.getElem?_set_ne huv]
        have hne : u ≠ v := by
          rintro rfl
          exact huv rfl
        simp [hne]
  · intro hge
    have hlimit : (v / 32 + 1) * 32 % 2 ^ 32 = 0 := by omega
    have hnone : d.table.data[v / 32]? = none := by
      have := h.small
      rw [List.getElem?_eq_none_iff, hdata]
      omega
    rw [hlimit, growMask, if_neg (Nat.not_lt_zero _)]
    dsimp only [bind, Except.bind]
    rw [hnone]

/-- The values that are not sparse. -/
theorem EnumInv.buildAll_masked {vals : List Nat} (h : EnumInv d words ms [])
    (hsorted : (ms ++ vals).Pairwise (· < ·)) (hlt : ∀ v ∈ vals, v < 2 ^ 32) :
    ((∀ w ∈ vals.take (denseCount ms.length vals), w < 2 ^ 32 - 32) →
      ∃ d' words', d.buildAll (vals.take (denseCount ms.length vals)) = .ok d' ∧
        EnumInv d' words' (ms ++ vals.take (denseCount ms.length vals)) []) ∧
    ((∃ w ∈ vals.take (denseCount ms.length vals), 2 ^ 32 - 32 ≤ w) →
      d.buildAll (vals.take (denseCount ms.length vals)) = .error .outOfBounds) := by
  induction vals generalizing d words ms with
  | nil =>
    refine ⟨fun _ => ⟨d, words, rfl, ?_⟩, ?_⟩
    · simpa using h
    · rintro ⟨w, hw, -⟩
      simp at hw
  | cons v vals ih =>
    rw [denseCount]
    by_cases hs : 512 < v ∧ ms.length + 1 < v / 32
    · rw [if_pos hs]
      refine ⟨fun _ => ⟨d, words, rfl, ?_⟩, ?_⟩
      · simpa using h
      · rintro ⟨w, hw, -⟩
        simp at hw
    · rw [if_neg hs, List.take_succ_cons]
      have hms := h.length_lt (List.pairwise_append.mp hsorted).1
      obtain ⟨hok, hbad⟩ := h.buildValue_masked hs hms (hlt v List.mem_cons_self)
      have hcount : ms.length + 1 = (ms ++ [v]).length := by simp
      by_cases hv : v < 2 ^ 32 - 32
      · obtain ⟨d₁, words₁, hd₁, h₁⟩ := hok hv
        obtain ⟨ihok, ihbad⟩ := ih h₁ (by simpa using hsorted) fun w hw =>
          hlt w (List.mem_cons_of_mem _ hw)
        rw [← hcount] at ihok ihbad
        rw [buildAll, hd₁]
        refine ⟨fun hall => ?_, ?_⟩
        · obtain ⟨d', words', hd', h'⟩ := ihok fun w hw => hall w (List.mem_cons_of_mem _ hw)
          exact ⟨d', words', hd', by simpa using h'⟩
        · rintro ⟨w, hw, hge⟩
          obtain rfl | hw := List.mem_cons.mp hw
          · omega
          · exact ihbad ⟨w, hw, hge⟩
      · rw [buildAll, hbad (by omega)]
        exact ⟨fun hall => absurd (hall v List.mem_cons_self) hv, fun _ => rfl⟩

/-- The values of the list. -/
theorem EnumInv.buildAll_listed {vals : List Nat} (h : EnumInv d words ms ls)
    (hms : ms.length + 1 < 2 ^ 32)
    (hs : ls ≠ [] ∨ ∀ v ∈ vals.head?, 512 < v ∧ ms.length + 1 < v / 32) :
    (words.length + ls.length + vals.length ≤ 2 ^ 31 →
      ∃ d', d.buildAll vals = .ok d' ∧ EnumInv d' words ms (ls ++ vals)) ∧
    (2 ^ 31 < words.length + ls.length + vals.length → vals ≠ [] →
      d.buildAll vals = .error .outOfBounds) := by
  induction vals generalizing d ls with
  | nil =>
    refine ⟨fun _ => ⟨d, rfl, ?_⟩, fun _ hne => absurd rfl hne⟩
    simpa using h
  | cons v vals ih =>
    have hsv : ls ≠ [] ∨ (512 < v ∧ ms.length + 1 < v / 32) := hs.imp_right fun hs => hs v rfl
    obtain ⟨hok, hbad⟩ := h.buildValue_listed hsv hms
    rw [List.length_cons]
    by_cases hlen : words.length + ls.length < 2 ^ 31
    · obtain ⟨d₁, hd₁, h₁⟩ := hok hlen
      obtain ⟨ihok, ihbad⟩ := ih h₁ (Or.inl (by simp))
      rw [List.length_append, List.length_singleton] at ihok ihbad
      rw [buildAll, hd₁]
      refine ⟨fun hle => ?_, fun hgt _ => ihbad (by omega) ?_⟩
      · obtain ⟨d', hd', h'⟩ := ihok (by omega)
        exact ⟨d', hd', by simpa using h'⟩
      · rintro rfl
        simp at hgt
        omega
    · rw [buildAll, hbad (by omega)]
      exact ⟨fun hle => absurd hle (by omega), fun _ _ => rfl⟩

theorem EnumInv.getD_data (h : EnumInv d words ms ls) {i : Nat} (hi : i < words.length) :
    d.table.data.getD i 0 = words.getD i 0 := by
  rw [h.data, List.getD_eq_getElem?_getD, List.getD_eq_getElem?_getD, List.getElem?_append_left hi]

/-- What a table answers: the bit below the limit of the mask, the list from it on. -/
theorem EnumInv.checkEnumValueSlow_iff (h : EnumInv d words ms ls) (v : Nat) :
    d.table.checkEnumValueSlow v = true ↔ if v < 32 * words.length then v ∈ ms else v ∈ ls := by
  unfold MiniTableEnum.checkEnumValueSlow
  rw [h.limit]
  by_cases hlt : v < 32 * words.length
  · rw [if_pos hlt, if_pos hlt, h.getD_data (by omega), ← h.bits v hlt, bne_iff_ne,
      and_one_shiftLeft_ne_zero]
  · rw [if_neg hlt, if_neg hlt, h.data, h.listLength, Nat.mul_div_cancel_left _ (by decide),
      List.drop_left, List.take_length, List.contains_iff_mem]

/-- The fast test reads the same bit as the slow one. -/
theorem EnumInv.checkValue_eq (h : EnumInv d words ms ls) (v : Nat) :
    d.table.checkValue v = d.table.checkEnumValueSlow v := by
  have htwo := h.length ▸ maskWords_ge_two ms
  unfold MiniTableEnum.checkValue MiniTableEnum.checkEnumValueFast
  by_cases h64 : v ≥ 64
  · rw [if_pos h64]
  · have hlt : v < 32 * words.length := by omega
    have hlow : words.getD 0 0 < 2 ^ 32 := by
      rw [List.getD_eq_getElem?_getD, List.getElem?_eq_getElem (show 0 < words.length by omega)]
      exact h.word _ (List.getElem_mem _)
    have hbit : (words.getD 0 0 ||| words.getD 1 0 <<< 32).testBit v =
        (words.getD (v / 32) 0).testBit (v % 32) := by
      rw [Nat.testBit_or, Nat.testBit_shiftLeft]
      by_cases h32 : v < 32
      · rw [show v / 32 = 0 by omega, show v % 32 = v by omega]
        simp [Nat.not_le_of_lt h32]
      · rw [show v / 32 = 1 by omega, show v % 32 = v - 32 by omega,
          Nat.testBit_lt_two_pow (Nat.lt_of_lt_of_le hlow (Nat.pow_le_pow_right (by decide) (by omega)))]
        simp [Nat.le_of_not_lt h32]
    have hslow := h.checkEnumValueSlow_iff v
    rw [if_pos hlt, ← h.bits v hlt, ← hbit, ← and_one_shiftLeft_ne_zero] at hslow
    rw [if_neg h64, h.getD_data (by omega), h.getD_data (by omega)]
    dsimp only
    by_cases hset : (words.getD 0 0 ||| words.getD 1 0 <<< 32) &&& 1 <<< v ≠ 0
    · rw [if_pos hset]
      exact (hslow.mpr hset).symm
    · rw [if_neg hset]
      exact (Bool.eq_false_iff.mpr fun ht => hset (hslow.mp ht)).symm

end MdEnumDecoder

/-- The values of an enum for which its table is right: the mask does not reach the last word of the
32-bit values, the values of the list are behind the mask, and the table has at most `2 ^ 31` words. -/
structure EnumFits (vals : List Nat) : Prop where
  high : ∀ w ∈ masked vals, w < 2 ^ 32 - 32
  apart : ∀ w ∈ listed vals, 32 * maskWords (masked vals) ≤ w
  room : maskWords (masked vals) + (listed vals).length ≤ 2 ^ 31

/-- The table of an enum answers right for every value, and so does the slow test alone. -/
def EnumChecks (vals : List Nat) : Prop :=
  ∃ t, buildEnum (encodeEnum vals) = .ok t ∧
    ∀ v < 2 ^ 32, (t.checkValue v = true ↔ v ∈ vals) ∧ t.checkValue v = t.checkEnumValueSlow v

section

open MdEnumDecoder

variable {vals : List Nat}

theorem masked_append_listed (vals : List Nat) : masked vals ++ listed vals = vals :=
  List.take_append_drop _ _

/-- The first value of the list is sparse. -/
theorem listed_head {n : Nat} {v : Nat} (h : (vals.drop (denseCount n vals)).head? = some v) :
    512 < v ∧ n + (vals.take (denseCount n vals)).length + 1 < v / 32 := by
  induction vals generalizing n with
  | nil => simp at h
  | cons w vals ih =>
    rw [denseCount] at h ⊢
    by_cases hs : 512 < w ∧ n + 1 < w / 32
    · rw [if_pos hs] at h ⊢
      cases h
      simpa using hs
    · rw [if_neg hs] at h ⊢
      obtain ⟨hv, hlt⟩ := ih h
      rw [List.take_succ_cons, List.length_cons]
      exact ⟨hv, by omega⟩

theorem buildAll_start (hlt : ∀ v ∈ vals, v < 2 ^ 32) (hs : vals.Pairwise (· < ·)) :
    ((∀ w ∈ masked vals, w < 2 ^ 32 - 32) →
      maskWords (masked vals) + (listed vals).length ≤ 2 ^ 31 →
      ∃ d words, start.buildAll vals = .ok d ∧ EnumInv d words (masked vals) (listed vals)) ∧
    (∀ d, start.buildAll vals = .ok d → (∀ w ∈ masked vals, w < 2 ^ 32 - 32) ∧
      maskWords (masked vals) + (listed vals).length ≤ 2 ^ 31) := by
  have hsplit := masked_append_listed vals
  have hsmask : (masked vals).Pairwise (· < ·) := hs.sublist (List.take_sublist _ _)
  obtain ⟨hok, hbad⟩ :=
    enumInv_start.buildAll_masked (show ([] ++ vals).Pairwise (· < ·) from hs) hlt
  change ((∀ w ∈ masked vals, w < 2 ^ 32 - 32) → ∃ d' words', start.buildAll (masked vals) = .ok d' ∧
    EnumInv d' words' (masked vals) []) at hok
  change ((∃ w ∈ masked vals, 2 ^ 32 - 32 ≤ w) → start.buildAll (masked vals) = _) at hbad
  have hrun : start.buildAll vals = start.buildAll (masked vals) >>= fun d => d.buildAll (listed vals) := by
    conv_lhs => rw [← hsplit]
    exact buildAll_append _ _ _
  have hsparse : ([] : List Nat) ≠ [] ∨
      ∀ v ∈ (listed vals).head?, 512 < v ∧ (masked vals).length + 1 < v / 32 := by
    refine Or.inr fun v hv => ?_
    have := listed_head hv
    rwa [Nat.zero_add] at this
  by_cases hhigh : ∀ w ∈ masked vals, w < 2 ^ 32 - 32
  · obtain ⟨d₁, words, hd₁, h₁⟩ := hok hhigh
    obtain ⟨hlok, hlbad⟩ := h₁.buildAll_listed (h₁.length_lt hsmask) hsparse
    rw [List.length_nil, Nat.add_zero, h₁.length] at hlok hlbad
    rw [hrun, hd₁]
    refine ⟨fun _ hroom => ?_, fun d hd => ⟨hhigh, ?_⟩⟩
    · obtain ⟨d', hd', h'⟩ := hlok hroom
      exact ⟨d', words, hd', h'⟩
    · by_contra hgt
      have hne : listed vals ≠ [] := by
        intro hnil
        have := h₁.small
        rw [hnil, List.length_nil, ← h₁.length] at hgt
        omega
      have herr := hlbad (Nat.lt_of_not_le hgt) hne
      change d₁.buildAll (listed vals) = .ok d at hd
      rw [herr] at hd
      cases hd
  · refine ⟨fun h => absurd h hhigh, fun d hd => ?_⟩
    push Not at hhigh
    rw [hrun, hbad hhigh] at hd
    cases hd

/-- No value is in the mask and in the list. -/
theorem not_mem_masked (hs : vals.Pairwise (· < ·)) {w : Nat} (hw : w ∈ listed vals) : w ∉ masked vals := by
  intro hm
  rw [← masked_append_listed vals] at hs
  exact absurd ((List.pairwise_append.mp hs).2.2 w hm w hw) (Nat.lt_irrefl w)

theorem mem_iff_masked (vals : List Nat) (v : Nat) : v ∈ vals ↔ v ∈ masked vals ∨ v ∈ listed vals := by
  rw [← List.mem_append, masked_append_listed]

/-- What a table that was built answers, and what is known of its values. -/
theorem built_table (hlt : ∀ v ∈ vals, v < 2 ^ 32) (hs : vals.Pairwise (· < ·)) {t : MiniTableEnum}
    (ht : buildEnum (encodeEnum vals) = .ok t) :
    (∀ w ∈ masked vals, w < 2 ^ 32 - 32) ∧ maskWords (masked vals) + (listed vals).length ≤ 2 ^ 31 ∧
      ∀ v, t.checkValue v = t.checkEnumValueSlow v ∧
        (t.checkValue v = true ↔ if v < 32 * maskWords (masked vals) then v ∈ masked vals else v ∈ listed vals) := by
  obtain ⟨hok, hneed⟩ := buildAll_start hlt hs
  rw [buildEnum_encodeEnum hlt hs] at ht
  cases hd : start.buildAll vals with
  | error e =>
    rw [hd] at ht
    cases ht
  | ok d =>
    rw [hd] at ht
    cases ht
    obtain ⟨hhigh, hroom⟩ := hneed d hd
    obtain ⟨d', words, hd', h⟩ := hok hhigh hroom
    rw [hd] at hd'
    cases hd'
    refine ⟨hhigh, hroom, fun v => ⟨h.checkValue_eq v, ?_⟩⟩
    rw [h.checkValue_eq, h.checkEnumValueSlow_iff, h.length]

/-- A table that was built is right if and only if the values fit. -/
theorem built_fits_iff (hlt : ∀ v ∈ vals, v < 2 ^ 32) (hs : vals.Pairwise (· < ·)) {t : MiniTableEnum}
    (ht : buildEnum (encodeEnum vals) = .ok t) :
    (∀ v < 2 ^ 32, t.checkValue v = true ↔ v ∈ vals) ↔ EnumFits vals := by
  obtain ⟨hhigh, hroom, hcheck⟩ := built_table hlt hs ht
  constructor
  · refine fun hright => ⟨hhigh, fun w hw => ?_, hroom⟩
    by_contra hlt'
    have hmem := (mem_iff_masked vals w).mpr (.inr hw)
    have := (hright w (hlt w hmem)).mpr hmem
    rw [(hcheck w).2, if_pos (Nat.lt_of_not_le hlt')] at this
    exact not_mem_masked hs hw this
  · rintro ⟨-, hapart, -⟩ v -
    rw [(hcheck v).2, mem_iff_masked vals]
    by_cases hlim : v < 32 * maskWords (masked vals)
    · rw [if_pos hlim]
      exact ⟨Or.inl, fun h' => h'.resolve_right fun hl => absurd (hapart v hl) (by omega)⟩
    · rw [if_neg hlim]
      exact ⟨Or.inr, fun h' => h'.resolve_left fun hm => hlim (lt_maskWords hm)⟩

/-- **The table of an enum is right for exactly the values that fit.** -/
theorem enumChecks_iff (hlt : ∀ v ∈ vals, v < 2 ^ 32) (hs : vals.Pairwise (· < ·)) :
    EnumChecks vals ↔ EnumFits vals := by
  constructor
  · rintro ⟨t, ht, hcheck⟩
    exact (built_fits_iff hlt hs ht).mp fun v hv => (hcheck v hv).1
  · intro hfits
    obtain ⟨d, words, hd, -⟩ := (buildAll_start hlt hs).1 hfits.high hfits.room
    have ht : buildEnum (encodeEnum vals) = .ok d.table := by
      rw [buildEnum_encodeEnum hlt hs, hd]
      rfl
    exact ⟨d.table, ht, fun v hv => ⟨(built_fits_iff hlt hs ht).mpr hfits v hv, ((built_table hlt hs ht).2.2 v).1⟩⟩

theorem enumChecks_sparse : EnumChecks [1, 5, 512, 700] :=
  (enumChecks_iff (by decide) (by decide)).mpr ⟨by decide, by decide, by decide⟩

/-- 513 goes to the list, but the mask of 512 covers it. -/
theorem not_enumChecks_512_513 : ¬EnumChecks [512, 513] := by
  rintro ⟨t, ht, hcheck⟩
  have hbuild : (buildEnum (encodeEnum [512, 513])).map (·.checkValue 513) = .ok false := by decide
  rw [ht] at hbuild
  have := (hcheck 513 (by decide)).1.mpr (by decide)
  exact absurd (Except.ok.inj hbuild) (by simp [this])

end

end Hpb
