import Hpb.Collections.Array
import Hpb.Mem.ArenaWrites

/-!
# The reallocation of an array

`_hpb_array_realloc` is right if and only if `HpbArray.Fits` holds: the first doubling of the capacity that reaches
the request has less than `PTRDIFF_MAX` bytes and the arena can grow, or there is no such doubling and the arena has
no memory for what the code asks for instead. `HpbArray.reallocOk_iff` is this equivalence.
-/

namespace Hpb

namespace HpbArray

/-- The memory of the elements. -/
def alloc (arr : HpbArray) : LiveAlloc := ⟨arr.ptr, arr.capacity * 2 ^ arr.lg2⟩

/-- The capacity that the doubling starts from. -/
def firstCapacity (arr : HpbArray) : Nat := max arr.capacity 4

/-- Some doubling of the capacity reaches the request and can be allocated. -/
def Small (arr : HpbArray) (minCapacity : Nat) : Prop :=
  ∃ k, minCapacity ≤ arr.firstCapacity * 2 ^ k ∧ arr.firstCapacity * 2 ^ k * 2 ^ arr.lg2 + 7 < 2 ^ 63

/-- The arena has an allocator, or needs none for the new size. -/
def Backed (arr : HpbArray) (a : Arena) (bytes : Nat) : Prop :=
  a.alloc = true ∨ a.initial = none ∨ a.Room arr.alloc.ptr arr.alloc.size bytes

/-- The condition of `_hpb_array_realloc`. -/
def Fits (arr : HpbArray) (minCapacity : Nat) (a : Arena) (heap : Nat → Option Nat) : Prop :=
  (∃ k, FirstDouble arr.firstCapacity minCapacity k ∧ arr.firstCapacity * 2 ^ k * 2 ^ arr.lg2 + 7 < 2 ^ 63 ∧
      arr.Backed a (arr.firstCapacity * 2 ^ k * 2 ^ arr.lg2)) ∨
    ¬arr.Small minCapacity ∧ ∃ k, FirstDoubleMod 64 arr.firstCapacity minCapacity k ∧
      a.realloc arr.alloc.ptr arr.alloc.size (arr.shift (arr.firstCapacity * 2 ^ k % 2 ^ 64)) heap = some (0, a)

/-- What `_hpb_array_realloc` should do: it returns, and changes nothing or leaves an array with the capacity, whose
bytes are a number that did not wrap around and in one block. -/
def ReallocOk (arr : HpbArray) (minCapacity : Nat) (a : Arena) (heap : Nat → Option Nat) : Prop :=
  ∃ ok arr' a', arr.realloc minCapacity a heap = some (ok, arr', a') ∧ (ok = false → arr' = arr ∧ a' = a) ∧
    (ok = true → minCapacity ≤ arr'.capacity ∧ arr'.capacity * 2 ^ arr'.lg2 < 2 ^ 64 ∧
      ∃ r ∈ a'.regions, AddrRange.Within ⟨arr'.ptr, arr'.ptr + arr'.capacity * 2 ^ arr'.lg2⟩ r)

end HpbArray

/-- An array in an arena, with the allocations of others. -/
structure ArrayInv (a : Arena) (others : List LiveAlloc) (arr : HpbArray) : Prop where
  arena : a.Inv (others ++ [arr.alloc])
  lg2_le : arr.lg2 ≤ 4
  size_le : arr.size ≤ arr.capacity

section Realloc

variable {a a' : Arena} {others : List LiveAlloc} {arr arr' : HpbArray} {minCapacity : Nat} {heap : Nat → Option Nat}

theorem HpbArray.alloc_mem (arr : HpbArray) : arr.alloc ∈ others ++ [arr.alloc] :=
  List.mem_append_right _ (List.mem_singleton_self _)

/-- The bytes of the elements are in one block. -/
theorem ArrayInv.bytes (h : ArrayInv a others arr) :
    arr.capacity * 2 ^ arr.lg2 + 7 < 2 ^ 63 ∧ arr.ptr + arr.capacity * 2 ^ arr.lg2 < 2 ^ 64 := by
  have hmem : arr.alloc ∈ others ++ [arr.alloc] := arr.alloc_mem
  have hle : arr.capacity * 2 ^ arr.lg2 ≤ alignMalloc (arr.capacity * 2 ^ arr.lg2) :=
    Arena.le_alignMalloc (h.arena.sizes _ hmem)
  obtain ⟨-, -, r, hr, hstart, hstop⟩ := h.arena.places _ hmem
  have hlt := h.arena.region_lt hr
  obtain ⟨o, ho, hw⟩ := h.arena.region_within hr
  have ho := (h.arena.owned_lt ho).1
  have hw := hw.2
  have hstart : r.start ≤ arr.ptr := hstart
  have hstop : arr.ptr + alignMalloc (arr.capacity * 2 ^ arr.lg2) ≤ r.stop := hstop
  omega

theorem le_mul_two_pow (n k : Nat) : n ≤ n * 2 ^ k := Nat.le_mul_of_pos_right _ (Nat.two_pow_pos k)

theorem ArrayInv.firstCapacity_lt (h : ArrayInv a others arr) : arr.firstCapacity < 2 ^ 64 := by
  have hb := h.bytes.1
  have hle := le_mul_two_pow arr.capacity arr.lg2
  rw [HpbArray.firstCapacity]
  omega

theorem HpbArray.firstCapacity_pos (arr : HpbArray) : 0 < arr.firstCapacity := by
  rw [firstCapacity]
  omega

theorem ArrayInv.shift_capacity (h : ArrayInv a others arr) : arr.shift arr.capacity = arr.alloc.size :=
  Nat.mod_eq_of_lt (by have := h.bytes.1; omega)

/-- Once the loop has stopped, the arena decides. -/
theorem ArrayInv.realloc_eq (h : ArrayInv a others arr) {k : Nat}
    (hk : FirstDoubleMod 64 arr.firstCapacity minCapacity k) :
    arr.realloc minCapacity a heap =
      (a.realloc arr.alloc.ptr arr.alloc.size (arr.shift (arr.firstCapacity * 2 ^ k % 2 ^ 64)) heap).bind fun r =>
        if r.1 = 0 then some (false, arr, r.2)
        else some (true, { arr with ptr := r.1, capacity := arr.firstCapacity * 2 ^ k % 2 ^ 64 }, r.2) := by
  have hloop := (doubleUntil_eq_some h.firstCapacity_lt).mpr ⟨k, Nat.lt_succ_of_le hk.le_width, hk, rfl⟩
  rw [HpbArray.firstCapacity] at hloop ⊢
  rw [HpbArray.realloc, hloop, h.shift_capacity]
  rfl

/-- The request can be met: the capacity is the doubling itself. -/
theorem ArrayInv.small_eq (h : ArrayInv a others arr) {k : Nat}
    (hk : FirstDouble arr.firstCapacity minCapacity k)
    (hsmall : arr.firstCapacity * 2 ^ k * 2 ^ arr.lg2 + 7 < 2 ^ 63) :
    arr.realloc minCapacity a heap =
      (a.realloc arr.alloc.ptr arr.alloc.size (arr.firstCapacity * 2 ^ k * 2 ^ arr.lg2) heap).bind fun r =>
        if r.1 = 0 then some (false, arr, r.2)
        else some (true, { arr with ptr := r.1, capacity := arr.firstCapacity * 2 ^ k }, r.2) := by
  have hle := le_mul_two_pow (arr.firstCapacity * 2 ^ k) arr.lg2
  have hlt : arr.firstCapacity * 2 ^ k < 2 ^ 64 := by omega
  have hshift : arr.shift (arr.firstCapacity * 2 ^ k) = arr.firstCapacity * 2 ^ k * 2 ^ arr.lg2 :=
    Nat.mod_eq_of_lt (by omega)
  rw [h.realloc_eq (hk.mod hlt), Nat.mod_eq_of_lt hlt, hshift]

theorem sized_of_small {size : Nat} (h : size + 7 < 2 ^ 63) : a.Sized size ∧ alignMalloc size < 2 ^ 63 := by
  have halign : alignMalloc size = (size + 7) / 8 * 8 := Arena.alignMalloc_eq (by omega)
  exact ⟨⟨by omega, fun _ => by omega⟩, by omega⟩

/-- What a reallocation leaves behind. -/
structure Reallocated (a : Arena) (others : List LiveAlloc) (arr : HpbArray) (minCapacity : Nat) (arr' : HpbArray)
    (a' : Arena) : Prop where
  inv : a'.Inv (others ++ [arr'.alloc])
  writes : a.Writes a' arr'.alloc.range
  capacity_le : arr.capacity ≤ arr'.capacity
  min_le : minCapacity ≤ arr'.capacity
  size_eq : arr'.size = arr.size
  lg2_eq : arr'.lg2 = arr.lg2

/-- **A request that fits** is refused and changes nothing, or met. -/
theorem ArrayInv.realloc_fits (h : ArrayInv a others arr) (hl : Arena.HeapLegal a.owned heap)
    (hf : arr.Fits minCapacity a heap) :
    arr.realloc minCapacity a heap = some (false, arr, a) ∨
      ∃ arr' a', arr.realloc minCapacity a heap = some (true, arr', a') ∧
        Reallocated a others arr minCapacity arr' a' := by
  obtain ⟨k, hk, hsmall, hbacked⟩ | ⟨-, k, hk, hrefused⟩ := hf
  · rw [h.small_eq hk hsmall]
    obtain ⟨hsized, hlarge⟩ := sized_of_small (a := a) hsmall
    have hx : (others ++ [arr.alloc])[others.length]? = some arr.alloc := List.getElem?_concat_length
    obtain ⟨hnone, -⟩ | hnull | ⟨p, a', hsome, hp, hinv, -⟩ := Arena.realloc_run h.arena hl hsized hlarge hx
    · obtain ⟨hroom, halloc, hinitial⟩ := (Arena.realloc_eq_none h.arena hl hsized hlarge arr.alloc_mem).mp hnone
      obtain hb | hb | hb := hbacked
      · rw [halloc] at hb
        cases hb
      · exact absurd hb hinitial
      · exact absurd hb hroom
    · rw [hnull]
      exact .inl rfl
    · have hwrites := Arena.realloc_writes h.arena hl hsized hsome
      rw [hsome]
      refine .inr ⟨_, a', if_neg hp, ?_, hwrites, ?_, hk.1, rfl, rfl⟩
      · rw [List.set_append_right _ _ (Nat.le_refl _), Nat.sub_self] at hinv
        exact hinv
      · exact Nat.le_trans (Nat.le_max_left _ _) (le_mul_two_pow _ _)
  · rw [h.realloc_eq hk, hrefused]
    exact .inl rfl

theorem Reallocated.arrayInv (h : ArrayInv a others arr) (hr : Reallocated a others arr minCapacity arr' a') :
    ArrayInv a' others arr' :=
  ⟨hr.inv, by rw [hr.lg2_eq]; exact h.lg2_le, by rw [hr.size_eq]; exact Nat.le_trans h.size_le hr.capacity_le⟩

/-- A result that is in one block was computed without overflow. -/
theorem ArrayInv.small_of_region (h : ArrayInv a others arr) {k p : Nat} {r : AddrRange}
    (hk : FirstDoubleMod 64 arr.firstCapacity minCapacity k) (hlt : r.stop + 16 < r.start + 2 ^ 63)
    (hw : AddrRange.Within ⟨p, p + arr.firstCapacity * 2 ^ k % 2 ^ 64 * 2 ^ arr.lg2⟩ r) : arr.Small minCapacity := by
  have hstart : r.start ≤ p := hw.1
  have hstop : p + arr.firstCapacity * 2 ^ k % 2 ^ 64 * 2 ^ arr.lg2 ≤ r.stop := hw.2
  have hle := le_mul_two_pow (arr.firstCapacity * 2 ^ k % 2 ^ 64) arr.lg2
  obtain ⟨hexact, hfirst⟩ := hk.exact (w := 63) h.firstCapacity_lt (by omega)
  rw [Nat.mod_eq_of_lt hexact] at hstop
  exact ⟨k, hfirst.1, by omega⟩

/-- **`_hpb_array_realloc` is right if and only if its request fits.** -/
theorem ArrayInv.reallocOk_iff (h : ArrayInv a others arr) (hl : Arena.HeapLegal a.owned heap) :
    arr.ReallocOk minCapacity a heap ↔ arr.Fits minCapacity a heap := by
  constructor
  · rintro ⟨ok, arr', a', hrun, hfalse, htrue⟩
    by_cases hs : arr.Small minCapacity
    · obtain ⟨k', hmin, hbytes⟩ := hs
      obtain ⟨k, hk⟩ := exists_firstDouble arr.firstCapacity_pos minCapacity
      have hsmall : arr.firstCapacity * 2 ^ k * 2 ^ arr.lg2 + 7 < 2 ^ 63 :=
        Nat.lt_of_le_of_lt (Nat.add_le_add_right (Nat.mul_le_mul_right _ (hk.le hmin)) 7) hbytes
      refine .inl ⟨k, hk, hsmall, ?_⟩
      by_contra hno
      obtain ⟨hsized, hlarge⟩ := sized_of_small (a := a) hsmall
      have hnone := (Arena.realloc_eq_none h.arena hl hsized hlarge arr.alloc_mem).mpr
        ⟨fun hroom => hno (.inr (.inr hroom)), Bool.eq_false_iff.mpr fun ha => hno (.inl ha),
          fun hi => hno (.inr (.inl hi))⟩
      rw [h.small_eq hk hsmall, hnone] at hrun
      cases hrun
    · refine .inr ⟨hs, ?_⟩
      cases hloop : doubleUntil 64 65 arr.firstCapacity minCapacity with
      | none =>
        rw [HpbArray.firstCapacity] at hloop
        rw [HpbArray.realloc, hloop] at hrun
        cases hrun
      | some c =>
        obtain ⟨k, -, hk, rfl⟩ := (doubleUntil_eq_some h.firstCapacity_lt).mp hloop
        refine ⟨k, hk, ?_⟩
        rw [h.realloc_eq hk] at hrun
        obtain ⟨⟨p, b⟩, hp, hrun⟩ := Option.bind_eq_some_iff.mp hrun
        dsimp only at hrun
        split at hrun
        next hnull =>
          cases hrun
          rw [hp, hnull, (hfalse rfl).2]
        · cases hrun
          obtain ⟨-, -, r, hr, hw⟩ := htrue rfl
          have hlt := Arena.realloc_region_lt hl.bytes_lt (fun r hr => h.arena.region_lt hr) hp r hr
          exact absurd (h.small_of_region hk hlt hw) hs
  · intro hf
    obtain hrun | ⟨arr', a', hrun, hr⟩ := h.realloc_fits hl hf
    · exact ⟨false, arr, a, hrun, fun _ => ⟨rfl, rfl⟩, fun heq => absurd heq Bool.false_ne_true⟩
    · have hinv := hr.arrayInv h
      refine ⟨true, arr', a', hrun, fun heq => absurd heq.symm Bool.false_ne_true, fun _ => ⟨hr.min_le, ?_, ?_⟩⟩
      · have := hinv.bytes
        omega
      · obtain ⟨-, -, r, hr, hstart, hstop⟩ := hinv.arena.places _ arr'.alloc_mem
        have hle := Arena.le_alignMalloc (hinv.arena.sizes _ arr'.alloc_mem)
        exact ⟨r, hr, hstart, Nat.le_trans (Nat.add_le_add_left hle _) hstop⟩

end Realloc

end Hpb
