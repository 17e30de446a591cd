import Hpb.MiniDescriptor.Base92Spec
import Hpb.MiniDescriptor.BuildEnum
import Hpb.MiniDescriptor.Parsed

/-!
# Reading the descriptor of an enum

The values that `putEnumValue` wrote come out of the masks and skips of the descriptor in the same
order: building the table of `encodeEnum vals` is `buildValue` for each value of `vals`
(`buildEnum_encodeEnum`). `maskValues` are the values that a mask stands for; the encoder's state is a
mask that is not written yet.
-/

namespace Hpb

namespace MdEnumDecoder

/-- `buildValue` for one value after the other. -/
def buildAll (d : MdEnumDecoder) : List Nat → Except BuildEnumError MdEnumDecoder
  | [] => .ok d
  | v :: vs => do
    let d ← d.buildValue v
    buildAll d vs

theorem buildAll_append (d : MdEnumDecoder) (vs ws : List Nat) :
    d.buildAll (vs ++ ws) = d.buildAll vs >>= fun d => d.buildAll ws := by
  induction vs generalizing d with
  | nil => rfl
  | cons v vs ih =>
    rw [List.cons_append, buildAll, buildAll]
    cases d.buildValue v with
    | error e => rfl
    | ok d' => exact ih d'

/-- The values of the `i` lowest bits of a mask, from `base` on. -/
def maskValues : Nat → Nat → Nat → List Nat
  | 0, _, _ => []
  | i + 1, mask, base =>
    (if mask % 2 = 1 then [base] else []) ++ maskValues i (mask / 2) (base + 1)

theorem maskValues_eq_map (i mask base : Nat) :
    maskValues i mask base = (maskValues i mask 0).map (base + ·) := by
  have h : ∀ b c, maskValues i mask (b + c) = (maskValues i mask b).map (c + ·) := by
    induction i generalizing mask with
    | zero => intro b c; rfl
    | succ i ih =>
      intro b c
      rw [maskValues, maskValues, List.map_append, show b + c + 1 = b + 1 + c by omega, ih]
      congr 1
      split_ifs
      · simp [Nat.add_comm]
      · rfl
  simpa using h 0 base

theorem le_of_mem_maskValues {i mask base v : Nat} (h : v ∈ maskValues i mask base) : base ≤ v := by
  rw [maskValues_eq_map] at h
  obtain ⟨x, -, rfl⟩ := List.mem_map.mp h
  omega

theorem buildMask_of_nil {i mask base : Nat} (h : maskValues i mask base = []) (b : Nat)
    (d : MdEnumDecoder) : buildMask i mask b d = .ok d := by
  induction i generalizing mask base b with
  | zero => rfl
  | succ i ih =>
    rw [maskValues, List.append_eq_nil_iff] at h
    have hbit : ¬mask % 2 = 1 := by
      intro hbit
      simp [hbit] at h
    rw [buildMask, if_neg hbit]
    exact ih h.2 _

/-- A mask builds its values. -/
theorem buildMask_eq {i mask base : Nat} (h : ∀ v ∈ maskValues i mask base, v < 2 ^ 32)
    (d : MdEnumDecoder) : buildMask i mask base d = d.buildAll (maskValues i mask base) := by
  induction i generalizing mask base d with
  | zero => rfl
  | succ i ih =>
    rw [maskValues] at h ⊢
    have hrest : ∀ d, buildMask i (mask / 2) ((base + 1) % 2 ^ 32) d =
        d.buildAll (maskValues i (mask / 2) (base + 1)) := by
      intro d
      by_cases hwrap : base + 1 < 2 ^ 32
      · rw [Nat.mod_eq_of_lt hwrap]
        exact ih (fun v hv => h v (List.mem_append_right _ hv)) d
      · -- no value is left
        have hnil : maskValues i (mask / 2) (base + 1) = [] := by
          by_contra hne
          obtain ⟨v, hv⟩ := List.exists_mem_of_ne_nil _ hne
          have := le_of_mem_maskValues hv
          have := h v (List.mem_append_right _ hv)
          omega
        rw [buildMask_of_nil hnil, hnil]
        rfl
    rw [buildMask]
    by_cases hbit : mask % 2 = 1
    · rw [if_pos hbit, if_pos hbit, List.singleton_append, buildAll]
      cases d.buildValue base with
      | error e => rfl
      | ok d' => exact hrest d'
    · rw [if_neg hbit, if_neg hbit, List.nil_append]
      exact hrest d

theorem mask_char {mask : Nat} (h : mask < 32) :
    charValue (toBase92 mask) ≤ 65 ∧ (wrapUInt32 (fromBase92 (toBase92 mask))).toNat = mask := by
  revert mask
  decide

/-- Reading a mask. -/
theorem buildValues_mask {mask base : Nat} (hm : mask < 32)
    (h : ∀ v ∈ maskValues 5 mask base, v < 2 ^ 32) (d : MdEnumDecoder) (rest : List UInt8) :
    buildValues base d 0 (toBase92 mask :: rest) =
      d.buildAll (maskValues 5 mask base) >>= fun d =>
        buildValues ((base + 5) % 2 ^ 32) d 0 rest := by
  obtain ⟨hle, hval⟩ := mask_char hm
  rw [buildValues, if_pos hle, hval, buildMask_eq h]

theorem buildValues_drop (base : Nat) (d : MdEnumDecoder) (cs rest : List UInt8) :
    buildValues base d cs.length (cs ++ rest) = buildValues base d 0 rest := by
  induction cs with
  | nil => rfl
  | cons c cs ih => exact ih

/-- Reading a skip. -/
theorem buildValues_skip {delta base : Nat} (hd : delta < 2 ^ 32) {rest : List UInt8}
    (hrest : Stops 95 126 rest) (d : MdEnumDecoder) :
    buildValues base d 0 (putBase92Varint 95 126 delta ++ rest) =
      buildValues ((base + delta) % 2 ^ 32) d 0 rest := by
  obtain ⟨ch, cs, hput, hdec⟩ := decodeVarint_putBase92Varint skipDigits hd hrest
  obtain ⟨ch', cs', hput', hlo, hhi⟩ := putBase92Varint_head skipDigits delta
  rw [hput] at hput'
  obtain ⟨rfl, rfl⟩ := List.cons.inj hput'
  have hrange : 95 ≤ ch ∧ ch ≤ 126 := le_of_charValue hlo hhi
  have hgt : ¬charValue ch ≤ 65 := by
    have : ((95 : UInt8).toNat : Int) = 95 := rfl
    omega
  rw [hput, List.cons_append, buildValues, if_neg hgt, if_pos hrange, decodeBase92Varint, hdec]
  dsimp only
  rw [UInt32.toNat_ofNat', Nat.mod_eq_of_lt hd]
  exact buildValues_drop _ d cs rest

end MdEnumDecoder

namespace EnumState

open MdEnumDecoder

variable {s : EnumState} {val : Nat}

/-- A value that fits into the mask. -/
theorem putEnumValue_near (h : val - s.lastWrittenValue < 5) :
    s.putEnumValue val =
      ([], ⟨s.presentValuesMask ||| 1 <<< (val - s.lastWrittenValue), s.lastWrittenValue⟩) := by
  unfold putEnumValue
  have hn : ¬(val - s.lastWrittenValue ≥ 5 ∧ s.presentValuesMask ≠ 0) := by omega
  have hn' : ¬val - s.lastWrittenValue ≥ 5 := by omega
  simp only [if_neg hn, if_neg hn']
  rfl

/-- A value behind the mask writes the mask first. -/
theorem putEnumValue_flush (h : 5 ≤ val - s.lastWrittenValue) (hm : s.presentValuesMask ≠ 0)
    (hb : s.lastWrittenValue + 5 < 2 ^ 32) :
    s.putEnumValue val =
      (toBase92 s.presentValuesMask :: (EnumState.putEnumValue ⟨0, s.lastWrittenValue + 5⟩ val).1,
        (EnumState.putEnumValue ⟨0, s.lastWrittenValue + 5⟩ val).2) := by
  unfold putEnumValue
  have hdelta : val - s.lastWrittenValue - 5 = val - (s.lastWrittenValue + 5) := by omega
  simp only [ge_iff_le, h, hm, ne_eq, not_false_eq_true, and_self, if_true, flushDenseEnumMask,
    Nat.mod_eq_of_lt hb, hdelta, not_true_eq_false, and_false, if_false, List.nil_append,
    List.cons_append]

/-- A value behind an empty mask is skipped to. -/
theorem putEnumValue_skip {base : Nat} (h : 5 ≤ val - base) (hv : val < 2 ^ 32) :
    EnumState.putEnumValue ⟨0, base⟩ val = (putBase92Varint 95 126 (val - base), ⟨1, val⟩) := by
  unfold putEnumValue
  have hsum : (base + (val - base)) % 2 ^ 32 = val := by
    rw [Nat.mod_eq_of_lt (by omega)]
    omega
  simp only [ge_iff_le, h, ne_eq, not_true_eq_false, and_false, if_false, if_true, List.nil_append,
    hsum]
  rfl

/-- Adding a value to the mask adds it behind the others. -/
theorem maskValues_or {mask delta base : Nat} (hm : mask < 32) (hd : delta < 5)
    (h : ∀ v ∈ maskValues 5 mask base, v < base + delta) :
    (mask ||| 1 <<< delta) < 32 ∧
      maskValues 5 (mask ||| 1 <<< delta) base = maskValues 5 mask base ++ [base + delta] := by
  have hfin : ∀ mask < 32, ∀ delta < 5, (∀ v ∈ maskValues 5 mask 0, v < delta) →
      (mask ||| 1 <<< delta) < 32 ∧
        maskValues 5 (mask ||| 1 <<< delta) 0 = maskValues 5 mask 0 ++ [delta] := by
    decide
  rw [maskValues_eq_map] at h
  obtain ⟨hlt, heq⟩ := hfin mask hm delta hd fun v hv => by
    have := h (base + v) (List.mem_map_of_mem hv)
    omega
  refine ⟨hlt, ?_⟩
  rw [maskValues_eq_map, heq, List.map_append, ← maskValues_eq_map]
  rfl

/-- The values of the mask that is not written yet. -/
def pending (s : EnumState) : List Nat := maskValues 5 s.presentValuesMask s.lastWrittenValue

@[simp] theorem pending_empty (base : Nat) : pending ⟨0, base⟩ = [] := by
  simp [pending, maskValues]

@[simp] theorem pending_one (base : Nat) : pending ⟨1, base⟩ = [base] := by
  simp [pending, maskValues]

/-- `vals` can follow in the state `s`. -/
structure CanPut (s : EnumState) (vals : List Nat) : Prop where
  mask : s.presentValuesMask < 32
  lt : ∀ v ∈ s.pending ++ vals, v < 2 ^ 32
  sorted : (s.pending ++ vals).Pairwise (· < ·)
  le : ∀ v ∈ vals, s.lastWrittenValue ≤ v

variable {vals : List Nat}

theorem CanPut.near (h : s.CanPut (val :: vals)) (hd : val - s.lastWrittenValue < 5) :
    (s.putEnumValue val).1 = [] ∧ (s.putEnumValue val).2.CanPut vals ∧
      (s.putEnumValue val).2.presentValuesMask ≠ 0 ∧
      (s.putEnumValue val).2.lastWrittenValue = s.lastWrittenValue ∧
      (s.putEnumValue val).2.pending = s.pending ++ [val] := by
  have hle := h.le val List.mem_cons_self
  have hval : s.lastWrittenValue + (val - s.lastWrittenValue) = val := by omega
  have hbelow : ∀ v ∈ s.pending, v < s.lastWrittenValue + (val - s.lastWrittenValue) := by
    intro v hv
    rw [hval]
    exact (List.pairwise_append.mp h.sorted).2.2 v hv val List.mem_cons_self
  obtain ⟨hlt, hpend⟩ := maskValues_or h.mask hd hbelow
  rw [hval] at hpend
  rw [putEnumValue_near hd]
  have hassoc : s.pending ++ [val] ++ vals = s.pending ++ val :: vals := by simp
  refine ⟨rfl, ⟨hlt, ?_, ?_, fun v hv => h.le v (List.mem_cons_of_mem _ hv)⟩, ?_, rfl, hpend⟩
  · rw [pending, hpend]
    exact hassoc ▸ h.lt
  · rw [pending, hpend]
    exact hassoc ▸ h.sorted
  · intro hzero
    have hor := (Nat.or_eq_zero_iff.mp hzero).2
    rw [Nat.shiftLeft_eq, Nat.one_mul] at hor
    exact absurd hor (Nat.ne_of_gt (Nat.two_pow_pos _))

theorem CanPut.skip {base : Nat} (h : CanPut ⟨0, base⟩ (val :: vals)) : CanPut ⟨1, val⟩ vals := by
  have hlt := h.lt
  have hsorted := h.sorted
  rw [pending_empty, List.nil_append] at hlt hsorted
  refine ⟨Nat.one_lt_succ_succ _, ?_, ?_, fun v hv => ?_⟩
  · rw [pending_one]
    exact hlt
  · rw [pending_one]
    exact hsorted
  · exact Nat.le_of_lt ((List.pairwise_cons.mp hsorted).1 v hv)

theorem CanPut.flush (h : s.CanPut (val :: vals)) (hd : 5 ≤ val - s.lastWrittenValue) :
    s.lastWrittenValue + 5 < 2 ^ 32 ∧ CanPut ⟨0, s.lastWrittenValue + 5⟩ (val :: vals) := by
  have hval := h.lt val (List.mem_append_right _ List.mem_cons_self)
  have hsorted := (List.pairwise_append.mp h.sorted).2.1
  refine ⟨by omega, Nat.zero_lt_succ _, ?_, ?_, fun v hv => ?_⟩
  · rw [pending_empty]
    exact fun v hv => h.lt v (List.mem_append_right _ hv)
  · rw [pending_empty]
    exact hsorted
  · obtain rfl | hv := List.mem_cons.mp hv
    · change s.lastWrittenValue + 5 ≤ v
      omega
    · have := (List.pairwise_cons.mp hsorted).1 v hv
      change s.lastWrittenValue + 5 ≤ v
      omega

theorem putEnumValues_cons (s : EnumState) (val : Nat) (vals : List Nat) :
    s.putEnumValues (val :: vals) =
      (s.putEnumValue val).1 ++ (s.putEnumValue val).2.putEnumValues vals := rfl

/-- A mask that is not written yet comes next. -/
theorem putEnumValues_stops (h : s.CanPut vals) (hm : s.presentValuesMask ≠ 0) :
    Stops 95 126 (s.putEnumValues vals) := by
  have hchar : ∀ rest, Stops 95 126 (toBase92 s.presentValuesMask :: rest) := by
    intro rest c hc
    cases hc
    have := (mask_char h.mask).1
    exact Or.inl (by change _ < (95 : Int); omega)
  induction vals generalizing s with
  | nil =>
    rw [putEnumValues, endEnum, if_neg hm]
    exact hchar []
  | cons val vals ih =>
    rw [putEnumValues_cons]
    by_cases hd : val - s.lastWrittenValue < 5
    · obtain ⟨hnil, hcan, hne, -, -⟩ := h.near hd
      rw [hnil, List.nil_append]
      refine ih hcan hne fun rest c hc => ?_
      cases hc
      have := (mask_char hcan.mask).1
      exact Or.inl (by change _ < (95 : Int); omega)
    · rw [putEnumValue_flush (by omega) hm (h.flush (by omega)).1]
      exact hchar _

/-- Skipping to a value and reading what follows. -/
theorem buildValues_skip_cons {base : Nat} (h : CanPut ⟨0, base⟩ (val :: vals)) (d : MdEnumDecoder)
    (hd : 5 ≤ val - base)
    (ih : ∀ {s : EnumState} (d : MdEnumDecoder), s.CanPut vals →
      buildValues s.lastWrittenValue d 0 (s.putEnumValues vals) = d.buildAll (s.pending ++ vals)) :
    buildValues base d 0 (EnumState.putEnumValues ⟨0, base⟩ (val :: vals)) =
      d.buildAll (val :: vals) := by
  have hval : val < 2 ^ 32 := h.lt val (List.mem_append_right _ List.mem_cons_self)
  rw [putEnumValues_cons, putEnumValue_skip hd hval,
    buildValues_skip (by omega) (putEnumValues_stops h.skip Nat.one_ne_zero),
    Nat.mod_eq_of_lt (by omega), show base + (val - base) = val by omega]
  have := ih d h.skip
  rwa [pending_one] at this

theorem buildValues_putEnumValues (h : s.CanPut vals) (d : MdEnumDecoder) :
    buildValues s.lastWrittenValue d 0 (s.putEnumValues vals) = d.buildAll (s.pending ++ vals) := by
  induction vals generalizing s d with
  | nil =>
    rw [putEnumValues, endEnum]
    by_cases hm : s.presentValuesMask = 0
    · rw [if_pos hm, pending, hm]
      rfl
    · rw [if_neg hm, flushDenseEnumMask, List.append_nil]
      have hlt : ∀ v ∈ s.pending, v < 2 ^ 32 := fun v hv => h.lt v (List.mem_append_left _ hv)
      rw [buildValues_mask h.mask hlt]
      change (d.buildAll s.pending >>= fun d => .ok d) = _
      cases d.buildAll s.pending <;> rfl
  | cons val vals ih =>
    by_cases hd : val - s.lastWrittenValue < 5
    · obtain ⟨hnil, hcan, -, hbase, hpend⟩ := h.near hd
      have := ih hcan d
      rw [hbase, hpend] at this
      rw [putEnumValues_cons, hnil, List.nil_append, this]
      simp
    · by_cases hm : s.presentValuesMask = 0
      · obtain ⟨mask, base⟩ := s
        dsimp only at hm hd ⊢
        subst hm
        rw [pending_empty]
        exact buildValues_skip_cons h d (by omega) fun d hs => ih hs d
      · obtain ⟨hb, hcan⟩ := h.flush (by omega)
        have hlt : ∀ v ∈ s.pending, v < 2 ^ 32 := fun v hv => h.lt v (List.mem_append_left _ hv)
        rw [putEnumValues_cons, putEnumValue_flush (by omega) hm hb, List.cons_append,
          buildValues_mask h.mask hlt, buildAll_append, Nat.mod_eq_of_lt hb]
        change (d.buildAll s.pending >>= fun d => buildValues (s.lastWrittenValue + 5) d 0
          (EnumState.putEnumValues ⟨0, s.lastWrittenValue + 5⟩ (val :: vals))) = _
        congr 1
        funext d
        by_cases hd' : 5 ≤ val - (s.lastWrittenValue + 5)
        · exact buildValues_skip_cons hcan d hd' fun d hs => ih hs d
        · obtain ⟨hnil, hcan', -, hbase, hpend⟩ := hcan.near (Nat.lt_of_not_le hd')
          have := ih hcan' d
          rw [hbase, hpend, pending_empty] at this
          rw [putEnumValues_cons, hnil, List.nil_append, this]
          rfl

end EnumState

/-- **The builder sees the values in the order in which they were put.** -/
theorem buildEnum_encodeEnum {vals : List Nat} (hlt : ∀ v ∈ vals, v < 2 ^ 32)
    (hsorted : vals.Pairwise (· < ·)) :
    buildEnum (encodeEnum vals) = (MdEnumDecoder.start.buildAll vals).map (·.table) := by
  have h : EnumState.CanPut ⟨0, 0⟩ vals := ⟨by decide, hlt, hsorted, fun v _ => Nat.zero_le v⟩
  have := EnumState.buildValues_putEnumValues h MdEnumDecoder.start
  change (MdEnumDecoder.buildValues 0 MdEnumDecoder.start 0 (EnumState.putEnumValues ⟨0, 0⟩ vals) >>=
    fun d => .ok d.table) = _
  rw [this]
  change (MdEnumDecoder.start.buildAll vals >>= fun d => .ok d.table) = _
  cases MdEnumDecoder.start.buildAll vals <;> rfl

end Hpb
