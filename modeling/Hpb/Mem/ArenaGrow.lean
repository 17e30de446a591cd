import Hpb.Mem.ArenaWrites

/-!
# An allocation that grows

`hpb_Arena_Realloc` to a larger size moves no byte of its argument from its place: in the same place the allocation
only becomes longer, and a new one is made where nothing else is. A client may so read the old allocation after the
call, as long as nothing else is allocated.
-/

namespace Hpb

namespace Arena

section Grow

variable {a a' : Arena} {others : List LiveAlloc} {size p : Nat} {x y : LiveAlloc} {heap : Nat → Option Nat}

/-- The bytes of all allocations are where they were. -/
def KeepsBytes (live : List LiveAlloc) (mem mem' : Nat → UInt8) : Prop :=
  ∀ y ∈ live, ∀ i < y.size, mem' (y.ptr + i) = mem (y.ptr + i)

theorem KeepsBytes.refl (live : List LiveAlloc) (mem : Nat → UInt8) : KeepsBytes live mem mem := fun _ _ _ _ => rfl

theorem KeepsBytes.trans {live : List LiveAlloc} {mem mem' mem'' : Nat → UInt8} (h : KeepsBytes live mem mem')
    (h' : KeepsBytes live mem' mem'') : KeepsBytes live mem mem'' := fun y hy i hi => by rw [h' y hy i hi, h y hy i hi]

/-- A write to the bytes of one allocation. -/
theorem Inv.store_keeps (h : Inv a (x :: others)) {mem : Nat → UInt8} {addr : Nat} {cells : List UInt8}
    (hstart : x.ptr ≤ addr) (hstop : addr + cells.length ≤ x.ptr + alignMalloc x.size) :
    KeepsBytes others mem (storeAt mem addr cells) := by
  intro y hy i hi
  obtain ⟨j, hj⟩ := List.mem_iff_getElem?.mp hy
  have hyle := le_alignMalloc (h.sizes y (List.mem_cons_of_mem _ hy))
  refine storeAt_outside ?_
  obtain hz | hz | hz | hz := h.separate 0 (j + 1) x y (by omega) rfl hj
  · omega
  · omega
  · have hz : x.ptr + alignMalloc x.size ≤ y.ptr := hz
    omega
  · have hz : y.ptr + alignMalloc y.size ≤ x.ptr := hz
    omega

theorem malloc_keeps (h : Inv a others) (hl : HeapLegal a.owned heap) (hs : a.Sized size)
    (hrun : a.malloc size heap = some (p, a')) (hp : p ≠ 0) :
    Inv a' (⟨p, size⟩ :: others) ∧ KeepsBytes others a.mem a'.mem := by
  obtain ⟨hnone, -⟩ | hnull | ⟨q, b, hsome, -, hinv, hkept⟩ := malloc_run h hl hs
  · rw [hnone] at hrun
    cases hrun
  · rw [hnull] at hrun
    cases hrun
    exact absurd rfl hp
  · rw [hsome] at hrun
    cases hrun
    exact ⟨hinv, fun y hy i hi => hkept.byte h hy hi⟩

/-- The copy into other memory leaves the old bytes. -/
theorem moveTo_keeps (h : Inv a (x :: others)) (hl : HeapLegal a.owned heap) (hs : a.Sized size)
    (hrun : a.moveTo x.ptr (alignMalloc x.size) (alignMalloc size) heap = some (p, a')) (hp : p ≠ 0) :
    Inv a' (⟨p, size⟩ :: others) ∧ KeepsBytes (x :: others) a.mem a'.mem := by
  rw [moveTo, malloc_align] at hrun
  obtain ⟨⟨q, b⟩, hq, hrun⟩ := Option.bind_eq_some_iff.mp hrun
  dsimp only at hrun
  by_cases hcopy : q ≠ 0 ∧ 0 < alignMalloc x.size
  · rw [if_pos hcopy] at hrun
    cases hrun
    obtain ⟨hinv, hkept⟩ := malloc_keeps h hl hs hq hp
    refine ⟨(hinv.settle (k := 0)).with_mem _, hkept.trans (hinv.store_keeps (Nat.le_refl _) ?_)⟩
    rw [length_loadAt]
    exact Nat.add_le_add_left (Nat.min_le_right _ _) _
  · rw [if_neg hcopy] at hrun
    cases hrun
    obtain ⟨hinv, hkept⟩ := malloc_keeps h hl hs hq hp
    exact ⟨hinv.settle (k := 0), hkept⟩

/-- **Growing an allocation** leaves its bytes where they were, and those of all others. -/
theorem realloc_keeps_bytes (h : Inv a (x :: others)) (hl : HeapLegal a.owned heap) (hs : a.Sized size)
    (hgrow : x.size ≤ size) (hdiff : alignMalloc size < 2 ^ 63 + alignMalloc x.size)
    (hrun : a.realloc x.ptr x.size size heap = some (p, a')) (hp : p ≠ 0) :
    Inv a' (⟨p, size⟩ :: others) ∧ KeepsBytes (x :: others) a.mem a'.mem := by
  have hmem : x ∈ x :: others := List.mem_cons_self
  obtain ⟨hxa, hxp, r, hr, hw⟩ := h.places x hmem
  obtain ⟨o, ho, hro⟩ := h.region_within hr
  obtain ⟨ho₁, ho₂, ho₃⟩ := h.owned_lt ho
  have hw₁ : o.start ≤ x.ptr := (hw.trans hro).1
  have hw₂ : x.ptr + alignMalloc x.size ≤ o.stop := (hw.trans hro).2
  have hmod : (x.ptr + alignMalloc x.size) % 2 ^ 64 = x.ptr + alignMalloc x.size := Nat.mod_eq_of_lt (by omega)
  obtain ⟨hend, hpos, hdist⟩ := h.endPtr_lt
  have hle := h.ptr_le
  have hsizes := h.sizes x hmem
  have halign : alignMalloc x.size ≤ alignMalloc size := by
    rw [alignMalloc_eq hsizes, alignMalloc_eq hs.rounds]
    omega
  rw [realloc] at hrun
  dsimp only at hrun
  rw [hmod] at hrun
  by_cases hrecent : x.ptr + alignMalloc x.size = a.ptr
  · rw [if_pos hrecent] at hrun
    have hdiff' : (alignMalloc size + 2 ^ 64 - alignMalloc x.size) % 2 ^ 64 = alignMalloc size - alignMalloc x.size := by
      omega
    rw [hdiff', h.has_eq, toPtrdiff_small (by omega), toPtrdiff_small (by omega)] at hrun
    by_cases hroom : alignMalloc size - alignMalloc x.size ≤ a.endPtr - a.ptr
    · rw [if_pos (Int.ofNat_le.mpr hroom)] at hrun
      cases hrun
      have hptr : (a.ptr + (alignMalloc size - alignMalloc x.size)) % 2 ^ 64 = x.ptr + alignMalloc size := by omega
      rw [hptr]
      exact ⟨h.resize (k := 0) rfl hrecent hs.rounds (by omega), .refl _ _⟩
    · rw [if_neg (mt Int.ofNat_le.mp hroom)] at hrun
      exact moveTo_keeps h hl hs hrun hp
  · rw [if_neg hrecent] at hrun
    by_cases hsame : alignMalloc size ≤ alignMalloc x.size
    · rw [if_pos hsame] at hrun
      cases hrun
      have heq : alignMalloc size = alignMalloc x.size := Nat.le_antisymm hsame halign
      have hrange : LiveAlloc.range ⟨x.ptr, size⟩ = x.range := by
        change AddrRange.mk _ (x.ptr + alignMalloc size) = _
        rw [heq]
        rfl
      refine ⟨?_, .refl _ _⟩
      refine h.replace (k := 0) hs.rounds ⟨hxa, hxp, r, hr, by rwa [hrange]⟩ ?_ ?_
      · have hbehind := h.behind x hmem
        rw [Behind, hrange]
        dsimp only
        rwa [heq]
      · intro j z hj hz
        have hsep := h.separate 0 j x z (Ne.symm hj) rfl hz
        rw [Separate, hrange]
        dsimp only
        rwa [heq]
    · rw [if_neg hsame] at hrun
      exact moveTo_keeps h hl hs hrun hp

/-- **Growing from nothing**: `hpb_Arena_Realloc` of a null pointer. -/
theorem realloc_null_keeps (h : Inv a others) (hl : HeapLegal a.owned heap) (hs : a.Sized size)
    (hrun : a.realloc 0 0 size heap = some (p, a')) (hp : p ≠ 0) :
    Inv a' (⟨p, size⟩ :: others) ∧ KeepsBytes others a.mem a'.mem := by
  rw [realloc_null h] at hrun
  split at hrun
  · cases hrun
    exact absurd rfl hp
  · exact malloc_keeps h hl hs hrun hp

end Grow

end Arena

end Hpb
