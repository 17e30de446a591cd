import Hpb.Mem.ArenaWrites

/-!
# A fixed-size arena

An arena that `hpb_Arena_Init` made in an initial block and without an `hpb_alloc` is to answer what fits and to
return null otherwise. The word `block_alloc` of such an arena holds the tag of the initial block, so the test
`if (!a->block_alloc)` of `hpb_Arena_AllocBlock` does not fire, and the block that is missing is asked for from a
null pointer. Null is never returned (`Arena.Fixed.ne_null`), so a request is answered right if and only if it fits.
-/

namespace Hpb

namespace Arena

/-- What is left of the block has room for `size` bytes, rounded up without wrapping around. -/
def Holds (a : Arena) (size : Nat) : Prop := (size + 7) / 8 * 8 ≤ a.endPtr - a.ptr

/-- The allocation can have `size` bytes: where it is if it is the newest one or becomes smaller, else elsewhere. -/
def Resizes (a : Arena) (x : LiveAlloc) (size : Nat) : Prop :=
  if x.range.stop = a.ptr then x.ptr + (size + 7) / 8 * 8 ≤ a.endPtr
  else (size + 7) / 8 * 8 ≤ alignMalloc x.size ∨ a.Holds size

/-- What a fixed-size arena owes its caller: memory for a request that fits, else null and no change. -/
def Obliges (a : Arena) (fits : Prop) (size : Nat) (answer : Option (Nat × Arena)) : Prop :=
  (fits → ∃ p a', answer = some (p, a') ∧ p ≠ 0 ∧ ∃ r ∈ a'.regions, r.start ≤ p ∧ p + size ≤ r.stop) ∧
    (¬fits → answer = some (0, a))

/-- `block_alloc` is nothing but the tag bit. -/
def Fixed (a : Arena) : Prop := a.alloc = false ∧ a.initial ≠ none

/-- An arena that was just made in an initial block, without an allocator. -/
def FreshFixed (s : Arena × List LiveAlloc) : Prop :=
  s.2 = [] ∧ ∃ start n heap mem, 0 < n ∧ 0 < start ∧ start + n < 2 ^ 64 ∧ n < 2 ^ 63 ∧
    init start n false heap mem = some s.1

section Fixed

variable {a a' : Arena} {live : List LiveAlloc} {size p : Nat} {x : LiveAlloc} {heap : Nat → Option Nat}

theorem Fixed.malloc_ptr (hf : Fixed a) (hrun : a.malloc size heap = some (p, a')) : p = a.ptr := by
  by_cases hlt : a.has < alignMalloc size
  · obtain ⟨i, hi⟩ := Option.ne_none_iff_exists'.mp hf.2
    rw [malloc_slow hlt, allocBlock, hf.1, hi] at hrun
    cases hrun
  · rw [malloc_fast (Nat.le_of_not_lt hlt)] at hrun
    cases hrun
    rfl

/-- **A fixed-size arena never returns null.** -/
theorem Fixed.malloc_ne_null (hf : Fixed a) (h : Inv a live) (hrun : a.malloc size heap = some (p, a')) : p ≠ 0 := by
  rw [hf.malloc_ptr hrun]
  exact Nat.ne_of_gt h.endPtr_lt.2.1

theorem Fixed.realloc_ne_null (hf : Fixed a) (h : Inv a live) (hx : x ∈ live)
    (hrun : a.realloc x.ptr x.size size heap = some (p, a')) : p ≠ 0 := by
  have hpos : x.ptr ≠ 0 := Nat.ne_of_gt (h.places x hx).2.1
  have hmove : ∀ o, a.moveTo x.ptr o (alignMalloc size) heap = some (p, a') → p ≠ 0 := by
    intro o hr
    obtain ⟨⟨q, b⟩, hq, hr⟩ := Option.bind_eq_some_iff.mp hr
    have hne := hf.malloc_ne_null h hq
    dsimp only at hr
    split at hr
    · cases hr
      exact hne
    · cases hr
      exact hne
  rw [realloc] at hrun
  dsimp only at hrun
  split at hrun
  · split at hrun
    · obtain ⟨rfl, -⟩ := Prod.mk.inj (Option.some.inj hrun)
      exact hpos
    · exact hmove _ hrun
  · split at hrun
    · obtain ⟨rfl, -⟩ := Prod.mk.inj (Option.some.inj hrun)
      exact hpos
    · exact hmove _ hrun

/-- What never returns null does what it owes if and only if it answers what fits, and nothing else fits. -/
theorem obliges_iff {fits : Prop} {answer : Option (Nat × Arena)} (hnull : ∀ p a', answer = some (p, a') → p ≠ 0)
    (hrun : fits → ∃ p a', answer = some (p, a') ∧ ∃ r ∈ a'.regions, r.start ≤ p ∧ p + size ≤ r.stop) :
    a.Obliges fits size answer ↔ fits := by
  constructor
  · intro ho
    by_contra hnot
    exact hnull _ _ (ho.2 hnot) rfl
  · intro hfits
    obtain ⟨p, a', hp, hr⟩ := hrun hfits
    exact ⟨fun _ => ⟨p, a', hp, hnull p a' hp, hr⟩, fun hnot => absurd hfits hnot⟩

/-- `hpb_Arena_Malloc` on a fixed-size arena. -/
theorem Fixed.malloc_iff (hf : Fixed a) (h : Inv a live) :
    a.Obliges (a.Holds size) size (a.malloc size heap) ↔ a.Holds size := by
  refine obliges_iff (fun p a' => hf.malloc_ne_null h) fun hfits => ?_
  have hfits : (size + 7) / 8 * 8 ≤ a.endPtr - a.ptr := hfits
  have hend := h.endPtr_lt
  have hsize : size + 7 < 2 ^ 64 := by omega
  have hround := alignMalloc_eq hsize
  have hs : a.Sized size := ⟨hsize, fun _ => by omega⟩
  have hhas : alignMalloc size ≤ a.has := by
    rw [hround, h.has_eq]
    exact hfits
  have hinv := h.take hs.rounds hhas
  obtain ⟨-, -, r, hr, hstart, hstop⟩ := hinv.places _ List.mem_cons_self
  have hle := le_alignMalloc hsize
  have hstop : a.ptr + alignMalloc size ≤ r.stop := hstop
  exact ⟨_, _, malloc_fast hhas, r, hr, hstart, by omega⟩

/-- `hpb_Arena_Realloc` on a fixed-size arena. -/
theorem Fixed.realloc_iff (hf : Fixed a) (h : Inv a live) (hl : HeapLegal a.owned heap) (hx : x ∈ live) :
    a.Obliges (a.Resizes x size) size (a.realloc x.ptr x.size size heap) ↔ a.Resizes x size := by
  refine obliges_iff (fun p a' => hf.realloc_ne_null h hx) fun hfits => ?_
  have hend := h.endPtr_lt
  have hle := h.ptr_le
  -- the request is no larger than the block
  have hbound : (size + 7) / 8 * 8 < 2 ^ 63 := by
    rw [Resizes] at hfits
    split at hfits
    next hrecent =>
      obtain ⟨c, hc, hstart, hstop⟩ := h.current
      obtain ⟨o, ho, hw₁, hw₂⟩ := h.region_within (List.mem_of_head? hc)
      have hc' := h.start_le_of_end hx hrecent hc
      have ho' := h.owned_lt ho
      omega
    · obtain hfits | hfits := hfits
      · obtain ⟨o, ho, hw₁, hw₂⟩ := h.live_owned hx
        have ho' := h.owned_lt ho
        have hw₁ : o.start ≤ x.ptr := hw₁
        have hw₂ : x.ptr + alignMalloc x.size ≤ o.stop := hw₂
        omega
      · have hfits : (size + 7) / 8 * 8 ≤ a.endPtr - a.ptr := hfits
        omega
  have hsize : size + 7 < 2 ^ 64 := by omega
  have hround := alignMalloc_eq hsize
  have hs : a.Sized size := ⟨hsize, fun _ => by omega⟩
  have hroom : a.Room x.ptr x.size size := by
    rw [Room, hround, h.has_eq]
    exact hfits
  obtain ⟨k, hk⟩ := List.mem_iff_getElem?.mp hx
  have hsome : a.realloc x.ptr x.size size heap ≠ none := fun hnone =>
    ((realloc_eq_none h hl hs (by omega) hx).mp hnone).1 hroom
  obtain ⟨hnone, -⟩ | hnull | ⟨p, a', hrun, -, hinv, -⟩ := realloc_run h hl hs (by omega) hk
  · exact absurd hnone hsome
  · exact absurd rfl (hf.realloc_ne_null h hx hnull)
  · obtain ⟨-, -, r, hr, hstart, hstop⟩ := hinv.places ⟨p, size⟩
      (List.mem_iff_getElem?.mpr ⟨k, List.getElem?_set_self (List.getElem?_eq_some_iff.mp hk).1⟩)
    have hle' := le_alignMalloc hsize
    have hstop : p + alignMalloc size ≤ r.stop := hstop
    exact ⟨p, a', hrun, r, hr, hstart, by omega⟩

/-- One call leaves the arena without an allocator. -/
theorem Fixed.call {s s' : Arena × List LiveAlloc} {c : ArenaCall}
    (hf : Fixed s.1) (hrun : Arena.call s c = some (p, s')) : Fixed s'.1 := by
  have hmalloc : ∀ {size heap r}, s.1.malloc size heap = some r → Fixed r.2 := fun {_ _ _} hr =>
    mallocRec_keeps (fun _ _ h => h) (fun _ _ _ _ h => h) 2 hf hr
  have hrealloc : ∀ {ptr oldsize size heap r}, s.1.realloc ptr oldsize size heap = some r → Fixed r.2 :=
    fun {_ _ _ _ _} hr =>
      realloc_keeps (R := Fixed) (fun _ _ h => h) (fun _ _ _ _ h => h) (fun _ _ h => h) hf hr
  cases c with
  | malloc size heap =>
    obtain ⟨r, hr, hrun⟩ := Option.bind_eq_some_iff.mp hrun
    cases hrun
    exact hmalloc hr
  | realloc k size heap =>
    cases k with
    | none =>
      obtain ⟨r, hr, hrun⟩ := Option.bind_eq_some_iff.mp hrun
      cases hrun
      exact hrealloc hr
    | some k =>
      obtain ⟨x, hx, hrun⟩ := Option.bind_eq_some_iff.mp hrun
      obtain ⟨r, hr, hrun⟩ := Option.bind_eq_some_iff.mp hrun
      cases hrun
      exact hrealloc hr
  | shrinkLast k size =>
    obtain ⟨x, hx, hrun⟩ := Option.bind_eq_some_iff.mp hrun
    cases hrun
    exact hf

theorem FreshFixed.fixed {s : Arena × List LiveAlloc} (h : FreshFixed s) : Fixed s.1 := by
  obtain ⟨-, start, n, heap, mem, hn, -, -, -, hinit⟩ := h
  rw [init] at hinit
  generalize (if n = 0 then start else (start + 7) % 2 ^ 64 / 8 * 8) = aligned at hinit
  generalize (if (aligned + 2 ^ 64 - start) % 2 ^ 64 ≤ n then n - (aligned + 2 ^ 64 - start) % 2 ^ 64 else 0) / 8 * 8 =
    size at hinit
  dsimp only at hinit
  split at hinit
  · cases hinit
  · rw [← Option.some.inj hinit]
    exact ⟨rfl, Option.some_ne_none _⟩

theorem FreshFixed.fresh {s : Arena × List LiveAlloc} (h : FreshFixed s) : Fresh s := by
  obtain ⟨hnil, start, n, heap, mem, hn, hstart, hstop, hlt, hinit⟩ := h
  exact ⟨hnil, start, n, false, fun _ => none, mem, fun _ => hstart, hstop, hlt,
    ⟨nofun, nofun, nofun, nofun, nofun, nofun⟩, hinit⟩

/-- Every state of a fixed-size arena. -/
theorem fixed_reached {s : Arena × List LiveAlloc} (h : (calls fun _ size _ => size < 2 ^ 63).Reached FreshFixed s) :
    Inv s.1 s.2 ∧ Fixed s.1 := by
  have hP : ∀ (a : Arena) (size : Nat) (heap : Nat → Option Nat), size < 2 ^ 63 → Sized a size := by
    intro a size heap hsize
    refine ⟨by omega, fun _ => ?_⟩
    rw [alignMalloc_eq (by omega)]
    omega
  refine h.invariant (I := fun s => Inv s.1 s.2 ∧ Fixed s.1) (fun s hs => ?_) fun s c e s' hs hc hrun => ?_
  · exact ⟨calls_reached hP (.start hs.fresh), hs.fixed⟩
  · exact ⟨call_inv hP hs.1 hc hrun, hs.2.call hrun⟩

end Fixed

end Arena

/-- **A fixed-size arena** does what it owes for a request if and only if the request fits; a request that does not
fit is never answered with null. -/
theorem fixed_arena {s : Arena × List LiveAlloc}
    (h : (Arena.calls fun _ size _ => size < 2 ^ 63).Reached Arena.FreshFixed s) {size : Nat} {heap : Nat → Option Nat}
    (hl : Arena.HeapLegal s.1.owned heap) :
    (s.1.Obliges (s.1.Holds size) size (s.1.malloc size heap) ↔ s.1.Holds size) ∧
      ∀ x ∈ s.2, s.1.Obliges (s.1.Resizes x size) size (s.1.realloc x.ptr x.size size heap) ↔ s.1.Resizes x size := by
  obtain ⟨hinv, hf⟩ := Arena.fixed_reached h
  exact ⟨hf.malloc_iff hinv, fun x hx => hf.realloc_iff hinv hl hx⟩

theorem fixed_arena_small : Arena.small.malloc 200 (fun _ => none) ≠ none ∧
    ¬Arena.small.Obliges (Arena.small.Holds 201) 201 (Arena.small.malloc 201 fun _ => none) := by
  have hfresh : Arena.FreshFixed (Arena.small, []) :=
    ⟨rfl, 4096, 256, fun _ => none, fun _ => 0, by decide, by decide, by decide, by decide, rfl⟩
  have hl : Arena.HeapLegal Arena.small.owned fun _ => none := ⟨nofun, nofun, nofun, nofun, nofun, nofun⟩
  have hiff : ∀ size, Arena.small.Obliges (Arena.small.Holds size) size (Arena.small.malloc size fun _ => none) ↔
      Arena.small.Holds size := fun size => (fixed_arena (.start hfresh) hl).1
  refine ⟨fun hnone => ?_, mt (hiff 201).mp (by unfold Arena.Holds; decide)⟩
  have hfits : Arena.small.Holds 200 := by unfold Arena.Holds; decide
  obtain ⟨p, a', hrun, -⟩ := ((hiff 200).mpr hfits).1 hfits
  rw [hnone] at hrun
  cases hrun

/-- An arena in 256 bytes asks a null pointer for the block that a request for 201 bytes needs. -/
theorem not_fixed_arena :
    Arena.FreshFixed (Arena.small, []) ∧ ¬Arena.small.Holds 201 ∧ Arena.small.malloc 201 (fun _ => none) = none := by
  refine ⟨⟨rfl, 4096, 256, fun _ => none, fun _ => 0, by decide, by decide, by decide, by decide, rfl⟩, ?_, ?_⟩
  · unfold Arena.Holds
    decide
  · rw [Arena.malloc_slow (by decide)]
    rfl

end Hpb
