import Hpb.Mem.ArenaAlloc
import Hpb.Lib.Calls

/-!
# The live allocations of an arena

What holds between the allocations that an arena has handed out: each is in the data of a block that the arena
owns, no two overlap, and none that has a byte reaches into what is left of the newest block. `Arena.Inv` is that
invariant; an allocation takes a range of the size that `HPB_ALIGN_MALLOC` rounds its request to.

`hpb_Arena_Realloc` resizes in place when the end of its argument is `head.ptr`. An empty allocation can lie
anywhere, also behind `head.ptr` after a shrink, so this test may hold for one that is not the last; it is then
`head.ptr` itself from where it grows.
-/

namespace Hpb

/-- An allocation and the size that was asked for. -/
structure LiveAlloc where
  ptr : Nat
  size : Nat
  deriving DecidableEq

/-- The bytes of an allocation, rounded up. -/
def LiveAlloc.range (x : LiveAlloc) : AddrRange := ⟨x.ptr, x.ptr + alignMalloc x.size⟩

namespace MemBlock

/-- What `hpb_malloc` returned. -/
def whole (b : MemBlock) : AddrRange := ⟨b.addr, b.addr + b.bytes⟩

/-- The bytes that can be handed out. -/
def data (b : MemBlock) : AddrRange := ⟨b.addr + memblockReserve, b.addr + b.real⟩

/-- The block's own header. -/
def header (b : MemBlock) : AddrRange := ⟨b.addr, b.addr + memblockReserve⟩

end MemBlock

namespace Arena

/-- The memory that the arena owns, the newest block first. -/
def owned (a : Arena) : List AddrRange :=
  a.blocks.map MemBlock.whole ++ a.initial.toList.map fun i => ⟨i.1, i.1 + i.2⟩

/-- What can be handed out of it. -/
def regions (a : Arena) : List AddrRange :=
  a.blocks.map MemBlock.data ++ a.initial.toList.map fun i => ⟨i.1, i.1 + (i.2 - sizeofArena)⟩

/-- The headers of the blocks and the arena itself. -/
def headers (a : Arena) : List AddrRange := ⟨a.self, a.self + sizeofArena⟩ :: a.blocks.map MemBlock.header

/-- Nothing of an allocation with a byte overlaps another one. -/
def Separate (x y : LiveAlloc) : Prop :=
  alignMalloc x.size = 0 ∨ alignMalloc y.size = 0 ∨ x.range.Apart y.range

theorem Separate.symm {x y : LiveAlloc} (h : Separate x y) : Separate y x := by
  obtain h | h | h := h
  exacts [.inr (.inl h), .inl h, .inr (.inr h.symm)]

/-- An allocation with a byte is before `head.ptr` or not in the newest block at all. -/
def Behind (a : Arena) (x : LiveAlloc) : Prop :=
  alignMalloc x.size = 0 ∨ x.range.stop ≤ a.ptr ∨ a.endPtr ≤ x.ptr

/-- What a block is like. -/
structure BlockInv (b : MemBlock) : Prop where
  aligned : b.addr % 8 = 0
  pos : 0 < b.addr
  size_lt : b.size < 2 ^ 32
  reserve_le : memblockReserve ≤ b.real
  real_le : b.real ≤ b.bytes
  bytes_lt : b.bytes < 2 ^ 63
  stop_lt : b.addr + b.bytes < 2 ^ 64

/-- What an initial block is like. -/
structure InitialInv (i : Nat × Nat) : Prop where
  aligned : i.1 % 8 = 0
  pos : 0 < i.1
  arena_le : sizeofArena ≤ i.2
  size_lt : i.2 < 2 ^ 63
  stop_lt : i.1 + i.2 < 2 ^ 64

/-- The invariant of an arena with its live allocations. -/
structure Inv (a : Arena) (live : List LiveAlloc) : Prop where
  blocks : ∀ b ∈ a.blocks, BlockInv b
  initial : ∀ i ∈ a.initial, InitialInv i
  apart : a.owned.Pairwise AddrRange.Apart
  current : ∃ r, a.regions.head? = some r ∧ r.start ≤ a.ptr ∧ a.endPtr = r.stop
  ptr_le : a.ptr ≤ a.endPtr
  aligned : a.ptr % 8 = 0
  self_owned : ∃ r ∈ a.owned, AddrRange.Within ⟨a.self, a.self + sizeofArena⟩ r
  self_apart : ∀ r ∈ a.regions, r.Apart ⟨a.self, a.self + sizeofArena⟩
  /-- No request was rounded to something smaller. -/
  sizes : ∀ x ∈ live, x.size + 7 < 2 ^ 64
  places : ∀ x ∈ live, x.ptr % 8 = 0 ∧ 0 < x.ptr ∧ ∃ r ∈ a.regions, x.range.Within r
  behind : ∀ x ∈ live, a.Behind x
  separate : ∀ (i j : Nat) x y, i ≠ j → live[i]? = some x → live[j]? = some y → Separate x y

/-- What `hpb_malloc` promises: aligned memory that nothing else is in. A request for no bytes gets none, and no
object is larger than `PTRDIFF_MAX`. -/
structure HeapLegal (owned : List AddrRange) (heap : Nat → Option Nat) : Prop where
  pos : ∀ bytes p, heap bytes = some p → 0 < p
  aligned : ∀ bytes p, heap bytes = some p → p % 8 = 0
  bytes_pos : ∀ bytes p, heap bytes = some p → 0 < bytes
  bytes_lt : ∀ bytes p, heap bytes = some p → bytes < 2 ^ 63
  stop_lt : ∀ bytes p, heap bytes = some p → p + bytes < 2 ^ 64
  fresh : ∀ bytes p, heap bytes = some p → ∀ r ∈ owned, AddrRange.Apart ⟨p, p + bytes⟩ r

theorem alignMalloc_eq {size : Nat} (h : size + 7 < 2 ^ 64) : alignMalloc size = (size + 7) / 8 * 8 := by
  rw [alignMalloc, Nat.mod_eq_of_lt h]

theorem le_alignMalloc {size : Nat} (h : size + 7 < 2 ^ 64) : size ≤ alignMalloc size := by
  rw [alignMalloc_eq h]
  omega

theorem alignMalloc_mod (size : Nat) : alignMalloc size % 8 = 0 := by
  rw [alignMalloc]
  omega

theorem alignMalloc_lt (size : Nat) : alignMalloc size < 2 ^ 64 := by
  rw [alignMalloc]
  omega

theorem alignMalloc_idem (size : Nat) : alignMalloc (alignMalloc size) = alignMalloc size := by
  have hmod := alignMalloc_mod size
  have hlt := alignMalloc_lt size
  rw [alignMalloc_eq (by omega)]
  omega

section Parts

variable {a : Arena} {live : List LiveAlloc} {r : AddrRange} {x : LiveAlloc}

/-- What can be handed out of some memory is part of it. -/
theorem data_within {bs : List MemBlock} (hb : ∀ b ∈ bs, BlockInv b) {i : Option (Nat × Nat)}
    (hr : r ∈ bs.map MemBlock.data ++ i.toList.map fun i => (⟨i.1, i.1 + (i.2 - sizeofArena)⟩ : AddrRange)) :
    ∃ o ∈ bs.map MemBlock.whole ++ i.toList.map fun i => (⟨i.1, i.1 + i.2⟩ : AddrRange), r.Within o := by
  obtain hr | hr := List.mem_append.mp hr
  · obtain ⟨b, hmem, rfl⟩ := List.mem_map.mp hr
    refine ⟨b.whole, List.mem_append_left _ (List.mem_map_of_mem hmem), Nat.le_add_right _ _, ?_⟩
    exact Nat.add_le_add_left (hb b hmem).real_le _
  · obtain ⟨i, hi, rfl⟩ := List.mem_map.mp hr
    refine ⟨_, List.mem_append_right _ (List.mem_map_of_mem hi), Nat.le_refl _, ?_⟩
    exact Nat.add_le_add_left (Nat.sub_le _ _) _

theorem Inv.region_within (h : Inv a live) (hr : r ∈ a.regions) : ∃ o ∈ a.owned, r.Within o :=
  data_within h.blocks hr

theorem Inv.owned_lt (h : Inv a live) (hr : r ∈ a.owned) : r.stop < 2 ^ 64 ∧ 0 < r.start ∧ r.stop < r.start + 2 ^ 63 := by
  obtain hr | hr := List.mem_append.mp hr
  · obtain ⟨b, hb, rfl⟩ := List.mem_map.mp hr
    have hb := h.blocks b hb
    exact ⟨hb.stop_lt, hb.pos, Nat.add_lt_add_left hb.bytes_lt _⟩
  · obtain ⟨i, hi, rfl⟩ := List.mem_map.mp hr
    have hi := h.initial i (Option.mem_toList.mp hi)
    exact ⟨hi.stop_lt, hi.pos, Nat.add_lt_add_left hi.size_lt _⟩

theorem Inv.endPtr_lt (h : Inv a live) : a.endPtr < 2 ^ 64 ∧ 0 < a.ptr ∧ a.endPtr < a.ptr + 2 ^ 63 := by
  obtain ⟨r, hr, hstart, hstop⟩ := h.current
  obtain ⟨o, ho, hw⟩ := h.region_within (List.mem_of_head? hr)
  obtain ⟨h₁, h₂, h₃⟩ := h.owned_lt ho
  obtain ⟨hw₁, hw₂⟩ := hw
  omega

/-- `_hpb_ArenaHas` is the distance of two pointers. -/
theorem Inv.has_eq (h : Inv a live) : a.has = a.endPtr - a.ptr := by
  have hle := h.ptr_le
  have hlt := h.endPtr_lt.1
  rw [has]
  omega

/-- An allocation lies in memory that is owned. -/
theorem Inv.live_owned (h : Inv a live) (hx : x ∈ live) : ∃ o ∈ a.owned, x.range.Within o := by
  obtain ⟨-, -, r, hr, hw⟩ := h.places x hx
  obtain ⟨o, ho, hro⟩ := h.region_within hr
  exact ⟨o, ho, hw.trans hro⟩

/-- An allocation whose end is `head.ptr` starts in the newest block. -/
theorem Inv.start_le_of_end (h : Inv a live) (hx : x ∈ live) (hend : x.range.stop = a.ptr) {c : AddrRange}
    (hc : a.regions.head? = some c) : c.start ≤ x.ptr := by
  obtain ⟨c', hc', hstart, hstop⟩ := h.current
  rw [hc] at hc'
  cases hc'
  obtain ⟨-, -, r, hr, hw⟩ := h.places x hx
  have hle := h.ptr_le
  have hend' : x.ptr + alignMalloc x.size = a.ptr := hend
  have hw₁ : r.start ≤ x.ptr := hw.1
  have hw₂ : x.ptr + alignMalloc x.size ≤ r.stop := hw.2
  cases hb : a.blocks with
  | nil =>
    -- the initial block is the only one
    cases hi : a.initial with
    | none => simp [regions, hb, hi] at hc
    | some i =>
      simp only [regions, hb, hi, List.map_nil, List.nil_append, Option.toList_some, List.map_cons,
        List.head?_cons, Option.some.injEq, List.mem_singleton] at hc hr
      rw [← hc, ← hr]
      exact hw₁
  | cons b bs =>
    have hcb : c = b.data := by simpa [regions, hb] using hc.symm
    have hbinv := h.blocks b (by rw [hb]; exact List.mem_cons_self)
    have hreal := hbinv.real_le
    by_cases hrb : r = b.data
    · rw [hcb, ← hrb]
      exact hw₁
    · have hapart := h.apart
      have howned : a.owned = b.whole :: (bs.map MemBlock.whole ++ a.initial.toList.map fun i => ⟨i.1, i.1 + i.2⟩) := by
        rw [owned, hb]
        rfl
      have hrest : r ∈ bs.map MemBlock.data ++ a.initial.toList.map fun i =>
          (⟨i.1, i.1 + (i.2 - sizeofArena)⟩ : AddrRange) := by
        rw [regions, hb, List.map_cons, List.cons_append] at hr
        exact (List.mem_cons.mp hr).resolve_left hrb
      obtain ⟨o, ho, hro⟩ := data_within (fun b' hb' => h.blocks b' (by rw [hb]; exact List.mem_cons_of_mem _ hb')) hrest
      rw [howned, List.pairwise_cons] at hapart
      obtain ⟨hro₁, hro₂⟩ := hro
      have hcs : c.start = b.addr + memblockReserve := by rw [hcb]; rfl
      have hce : c.stop = b.addr + b.real := by rw [hcb]; rfl
      have hres : memblockReserve = 16 := rfl
      obtain hap | hap := hapart.1 o ho
      · have hap : b.addr + b.bytes ≤ o.start := hap
        omega
      · have hap : o.stop ≤ b.addr := hap
        omega

end Parts

section Lists

variable {live : List LiveAlloc} {z : LiveAlloc} {k : Nat}

/-- One more allocation. -/
theorem separate_cons (h : ∀ (i j : Nat) x y, i ≠ j → live[i]? = some x → live[j]? = some y → Separate x y)
    (hz : ∀ x ∈ live, Separate z x) :
    ∀ (i j : Nat) x y, i ≠ j → (z :: live)[i]? = some x → (z :: live)[j]? = some y → Separate x y := by
  intro i j x y hij hx hy
  cases i with
  | zero =>
    cases j with
    | zero => exact absurd rfl hij
    | succ j =>
      cases hx
      exact hz y (List.mem_of_getElem? hy)
  | succ i =>
    cases j with
    | zero =>
      cases hy
      exact (hz x (List.mem_of_getElem? hx)).symm
    | succ j => exact h i j x y (by omega) hx hy

theorem getElem?_set_cases {j : Nat} {y : LiveAlloc} (h : (live.set k z)[j]? = some y) :
    j = k ∧ y = z ∨ j ≠ k ∧ live[j]? = some y := by
  by_cases hj : j = k
  · subst hj
    rw [List.getElem?_set_self (by simpa using (List.getElem?_eq_some_iff.mp h).1)] at h
    cases h
    exact .inl ⟨rfl, rfl⟩
  · rw [List.getElem?_set_ne (Ne.symm hj)] at h
    exact .inr ⟨hj, h⟩

/-- Another allocation in the place of one. -/
theorem separate_set (h : ∀ (i j : Nat) x y, i ≠ j → live[i]? = some x → live[j]? = some y → Separate x y)
    (hz : ∀ (j : Nat) x, j ≠ k → live[j]? = some x → Separate z x) :
    ∀ (i j : Nat) x y, i ≠ j → (live.set k z)[i]? = some x → (live.set k z)[j]? = some y → Separate x y := by
  intro i j x y hij hx hy
  obtain ⟨rfl, rfl⟩ | ⟨hi, hx'⟩ := getElem?_set_cases hx
  · obtain ⟨rfl, rfl⟩ | ⟨hj, hy'⟩ := getElem?_set_cases hy
    · exact absurd rfl hij
    · exact hz j y hj hy'
  · obtain ⟨rfl, rfl⟩ | ⟨hj, hy'⟩ := getElem?_set_cases hy
    · exact (hz i x hi hx').symm
    · exact h i j x y hij hx' hy'

end Lists

section Steps

variable {a : Arena} {live : List LiveAlloc} {size : Nat} {heap : Nat → Option Nat}

/-- Some bytes are taken from the newest block. -/
theorem Inv.take (h : Inv a live) (hsize : size + 7 < 2 ^ 64) (hle : alignMalloc size ≤ a.has) :
    Inv { a with ptr := (a.ptr + alignMalloc size) % 2 ^ 64 } (⟨a.ptr, size⟩ :: live) := by
  obtain ⟨c, hc, hstart, hstop⟩ := h.current
  obtain ⟨hlt, hpos, -⟩ := h.endPtr_lt
  have hptr := h.ptr_le
  have hal := h.aligned
  have hmod := alignMalloc_mod size
  rw [h.has_eq] at hle
  have heq : (a.ptr + alignMalloc size) % 2 ^ 64 = a.ptr + alignMalloc size := Nat.mod_eq_of_lt (by omega)
  rw [heq]
  refine
    { blocks := h.blocks
      initial := h.initial
      apart := h.apart
      current := ⟨c, hc, by dsimp only; omega, hstop⟩
      ptr_le := by dsimp only; omega
      aligned := by dsimp only; omega
      self_owned := h.self_owned
      self_apart := h.self_apart
      sizes := ?_
      places := ?_
      behind := ?_
      separate := ?_ }
  · exact List.forall_mem_cons.mpr ⟨hsize, h.sizes⟩
  · refine List.forall_mem_cons.mpr ⟨⟨hal, hpos, c, List.mem_of_head? hc, hstart, ?_⟩, h.places⟩
    change a.ptr + alignMalloc size ≤ c.stop
    omega
  · refine List.forall_mem_cons.mpr ⟨.inr (.inl (Nat.le_refl _)), fun x hx => ?_⟩
    refine (h.behind x hx).imp_right fun hb => hb.imp_left fun hb => ?_
    dsimp only
    omega
  · refine separate_cons h.separate fun x hx => ?_
    obtain h0 | hb | hb := h.behind x hx
    · exact .inr (.inl h0)
    · exact .inr (.inr (.inr hb))
    · refine .inr (.inr (.inl ?_))
      change a.ptr + alignMalloc size ≤ x.ptr
      omega

theorem Inv.lastSize_le (h : Inv a live) : a.lastSize < 2 ^ 32 := by
  rw [lastSize]
  cases hb : a.blocks with
  | nil =>
    change 128 < 2 ^ 32
    decide
  | cons b bs => exact (h.blocks b (by rw [hb]; exact List.mem_cons_self)).size_lt

theorem Inv.blockSize_eq (h : Inv a live) (hsize : size < 2 ^ 64 - 16) :
    a.blockSize size = max size (a.lastSize * 2) + 16 := by
  have := h.lastSize_le
  rw [blockSize, memblockReserve]
  omega

/-- A new block, whose memory nothing else is in. -/
theorem Inv.addBlock (h : Inv a live) (hl : HeapLegal a.owned heap) {bytes p : Nat} (hp : heap bytes = some p)
    (h16 : 16 ≤ bytes) : Inv (a.addBlock p bytes bytes) live ∧ (a.addBlock p bytes bytes).has = bytes - 16 := by
  have hpos := hl.pos _ _ hp
  have haln := hl.aligned _ _ hp
  have hblt := hl.bytes_lt _ _ hp
  have hslt := hl.stop_lt _ _ hp
  have hfresh := hl.fresh _ _ hp
  have hres : memblockReserve = 16 := rfl
  have hb : BlockInv ⟨p, bytes % 2 ^ 32, bytes, bytes⟩ :=
    ⟨haln, hpos, Nat.mod_lt _ (by decide), h16, Nat.le_refl _, hblt, hslt⟩
  have hptr : (a.addBlock p bytes bytes).ptr = p + 16 := Nat.mod_eq_of_lt (by omega)
  have hend : (a.addBlock p bytes bytes).endPtr = p + bytes := Nat.mod_eq_of_lt (by omega)
  have hlive : ∀ x ∈ live, AddrRange.Apart ⟨p, p + bytes⟩ x.range := fun x hx => by
    obtain ⟨o, ho, hw⟩ := h.live_owned hx
    exact (hw.apart (hfresh o ho).symm).symm
  refine ⟨?_, by rw [has, hptr, hend]; omega⟩
  refine
    { blocks := List.forall_mem_cons.mpr ⟨hb, h.blocks⟩
      initial := h.initial
      apart := List.pairwise_cons.mpr ⟨hfresh, h.apart⟩
      current := ⟨⟨p + 16, p + bytes⟩, rfl, Nat.le_of_eq hptr.symm, hend⟩
      ptr_le := by omega
      aligned := by omega
      self_owned := ?_
      self_apart := ?_
      sizes := h.sizes
      places := ?_
      behind := fun x hx => ?_
      separate := h.separate }
  · obtain ⟨r, hr, hw⟩ := h.self_owned
    exact ⟨r, List.mem_cons_of_mem _ hr, hw⟩
  · refine List.forall_mem_cons.mpr ⟨?_, h.self_apart⟩
    obtain ⟨r, hr, hw⟩ := h.self_owned
    have hdata : AddrRange.Within ⟨p + 16, p + bytes⟩ ⟨p, p + bytes⟩ := ⟨Nat.le_add_right _ _, Nat.le_refl _⟩
    exact hdata.apart (hw.apart (hfresh r hr).symm).symm
  · intro x hx
    obtain ⟨hxa, hxp, r, hr, hw⟩ := h.places x hx
    exact ⟨hxa, hxp, r, List.mem_cons_of_mem _ hr, hw⟩
  · refine .inr ?_
    rw [hptr, hend]
    obtain hap | hap := hlive x hx
    · exact .inr hap
    · refine .inl ?_
      have hap : x.range.stop ≤ p := hap
      omega

/-- **Resizing in place**: the end of an allocation is `head.ptr`, and moves. -/
theorem Inv.resize (h : Inv a live) {k : Nat} {x : LiveAlloc} (hx : live[k]? = some x) (hend : x.range.stop = a.ptr)
    (hsize : size + 7 < 2 ^ 64) (hle : x.ptr + alignMalloc size ≤ a.endPtr) :
    Inv { a with ptr := x.ptr + alignMalloc size } (live.set k ⟨x.ptr, size⟩) := by
  obtain ⟨c, hc, hstart, hstop⟩ := h.current
  have hmem := List.mem_of_getElem? hx
  have hcx := h.start_le_of_end hmem hend hc
  obtain ⟨hxa, hxp, -⟩ := h.places x hmem
  have hmod := alignMalloc_mod size
  have hend : x.ptr + alignMalloc x.size = a.ptr := hend
  have hptr := h.ptr_le
  -- every other allocation with a byte is before this one or not in the newest block
  have hother : ∀ (j : Nat) y, j ≠ k → live[j]? = some y →
      alignMalloc y.size = 0 ∨ y.range.stop ≤ x.ptr ∨ a.endPtr ≤ y.ptr := by
    intro j y hj hy
    have hpos : alignMalloc y.size = 0 ∨ y.ptr < y.range.stop := by
      change alignMalloc y.size = 0 ∨ y.ptr < y.ptr + alignMalloc y.size
      omega
    obtain h0 | hb | hb := h.behind y (List.mem_of_getElem? hy)
    · exact .inl h0
    · obtain hs | hs | hs := h.separate k j x y (Ne.symm hj) hx hy
      · exact .inr (.inl (by omega))
      · exact .inl hs
      · obtain hs | hs := hs
        · have hs : x.ptr + alignMalloc x.size ≤ y.ptr := hs
          obtain hpos | hpos := hpos
          · exact .inl hpos
          · omega
        · exact .inr (.inl hs)
    · exact .inr (.inr hb)
  refine
    { blocks := h.blocks
      initial := h.initial
      apart := h.apart
      current := ⟨c, hc, by dsimp only; omega, hstop⟩
      ptr_le := hle
      aligned := by dsimp only; omega
      self_owned := h.self_owned
      self_apart := h.self_apart
      sizes := ?_
      places := ?_
      behind := ?_
      separate := ?_ }
  · intro y hy
    obtain ⟨j, hy⟩ := List.mem_iff_getElem?.mp hy
    obtain ⟨-, rfl⟩ | ⟨-, hy⟩ := getElem?_set_cases hy
    exacts [hsize, h.sizes y (List.mem_of_getElem? hy)]
  · intro y hy
    obtain ⟨j, hy⟩ := List.mem_iff_getElem?.mp hy
    obtain ⟨-, rfl⟩ | ⟨-, hy⟩ := getElem?_set_cases hy
    · exact ⟨hxa, hxp, c, List.mem_of_head? hc, hcx, hstop ▸ hle⟩
    · exact h.places y (List.mem_of_getElem? hy)
  · intro y hy
    obtain ⟨j, hy⟩ := List.mem_iff_getElem?.mp hy
    obtain ⟨-, rfl⟩ | ⟨hj, hy⟩ := getElem?_set_cases hy
    · exact .inr (.inl (Nat.le_refl _))
    · refine (hother j y hj hy).imp_right fun hb => hb.imp_left fun hb => ?_
      dsimp only
      omega
  · refine separate_set h.separate fun j y hj hy => ?_
    obtain h0 | hb | hb := hother j y hj hy
    · exact .inr (.inl h0)
    · exact .inr (.inr (.inr hb))
    · exact .inr (.inr (.inl (Nat.le_trans hle hb)))

/-- Allocations that are replaced by a smaller one in their place, or by one that is apart from all others. -/
theorem Inv.replace (h : Inv a live) {k : Nat} {z : LiveAlloc} (hsize : z.size + 7 < 2 ^ 64)
    (hplace : z.ptr % 8 = 0 ∧ 0 < z.ptr ∧ ∃ r ∈ a.regions, z.range.Within r) (hbehind : a.Behind z)
    (hsep : ∀ (j : Nat) y, j ≠ k → live[j]? = some y → Separate z y) : Inv a (live.set k z) := by
  have hall : ∀ {P : LiveAlloc → Prop}, (∀ y ∈ live, P y) → P z → ∀ y ∈ live.set k z, P y := by
    intro P hlive hz y hy
    obtain hy | rfl := List.mem_or_eq_of_mem_set hy
    exacts [hlive y hy, hz]
  exact { h with
    sizes := hall h.sizes hsize
    places := hall h.places hplace
    behind := hall h.behind hbehind
    separate := separate_set h.separate hsep }

end Steps

section Malloc

variable {a a' : Arena} {live : List LiveAlloc} {size : Nat} {heap : Nat → Option Nat}

/-- A request whose sizes do not wrap around. -/
structure Sized (a : Arena) (size : Nat) : Prop where
  rounds : size + 7 < 2 ^ 64
  block : a.has < alignMalloc size → alignMalloc size < 2 ^ 64 - 16

/-- The memory that was owned is still owned, with its bytes. -/
structure Kept (a a' : Arena) : Prop where
  owned : a.owned ⊆ a'.owned
  bytes : ∀ r ∈ a.owned, ∀ i, r.start ≤ i → i < r.stop → a'.mem i = a.mem i

theorem Kept.refl (a : Arena) : Kept a a := ⟨fun _ hr => hr, fun _ _ _ _ _ => rfl⟩

theorem Kept.with_ptr (h : Kept a a') (n : Nat) : Kept a { a' with ptr := n } := ⟨h.owned, h.bytes⟩

theorem length_littleEndian (n k : Nat) : (littleEndian n k).length = k := by
  induction k generalizing n with
  | zero => rfl
  | succ k ih => rw [littleEndian, List.length_cons, ih]

/-- The header of a new block is written where nothing else is. -/
theorem addBlock_kept (hl : HeapLegal a.owned heap) {bytes p : Nat} (hp : heap bytes = some p) (h16 : 16 ≤ bytes) :
    Kept a (a.addBlock p bytes bytes) := by
  refine ⟨fun r hr => List.mem_cons_of_mem _ hr, fun r hr i hstart hstop => ?_⟩
  have hlen : ∀ next, (littleEndian next 8 ++ littleEndian bytes 4).length = 12 := fun next => by
    rw [List.length_append, length_littleEndian, length_littleEndian]
  obtain hap | hap := hl.fresh _ _ hp r hr
  · have hap : p + bytes ≤ r.start := hap
    exact storeAt_outside (.inr (by rw [hlen]; omega))
  · have hap : r.stop ≤ p := hap
    exact storeAt_outside (.inl (by omega))

theorem malloc_align (a : Arena) (size : Nat) (heap : Nat → Option Nat) :
    a.malloc (alignMalloc size) heap = a.malloc size heap := by
  rw [malloc, malloc, mallocRec, mallocRec, alignMalloc_idem]

theorem mallocRec_fast (hle : alignMalloc size ≤ a.has) (n : Nat) :
    mallocRec (n + 1) a size heap = some (a.ptr, { a with ptr := (a.ptr + alignMalloc size) % 2 ^ 64 }) := by
  rw [mallocRec]
  dsimp only
  rw [if_neg (Nat.not_lt.mpr hle)]

/-- The newest block has room. -/
theorem malloc_fast (hle : alignMalloc size ≤ a.has) :
    a.malloc size heap = some (a.ptr, { a with ptr := (a.ptr + alignMalloc size) % 2 ^ 64 }) :=
  mallocRec_fast hle 1

/-- Another block is needed. -/
theorem malloc_slow (hlt : a.has < alignMalloc size) :
    a.malloc size heap = (a.allocBlock (alignMalloc size) heap).bind fun r =>
      if r.1 then mallocRec 1 r.2 (alignMalloc size) heap else some (0, r.2) := by
  rw [malloc, mallocRec]
  dsimp only
  rw [if_pos hlt]
  rfl

theorem allocBlock_granted (ha : a.alloc = true) {p : Nat} (hp : heap (a.blockSize size) = some p) :
    a.allocBlock size heap = some (true, a.addBlock p (a.blockSize size) (a.blockSize size)) := by
  simp only [allocBlock, ha, Bool.not_true, Bool.false_and, Bool.false_eq_true, if_false, hp]

theorem allocBlock_refused (ha : a.alloc = true) (hp : heap (a.blockSize size) = none) :
    a.allocBlock size heap = some (false, a) := by
  simp only [allocBlock, ha, Bool.not_true, Bool.false_and, Bool.false_eq_true, if_false, hp]

theorem malloc_granted (hlt : a.has < alignMalloc size) {b : Arena}
    (hb : a.allocBlock (alignMalloc size) heap = some (true, b)) (hroom : alignMalloc size ≤ b.has) :
    a.malloc size heap = some (b.ptr, { b with ptr := (b.ptr + alignMalloc size) % 2 ^ 64 }) := by
  rw [malloc_slow hlt, hb, Option.bind_some, if_pos rfl, mallocRec_fast (by rwa [alignMalloc_idem]), alignMalloc_idem]

theorem malloc_refused (hlt : a.has < alignMalloc size) {b : Arena}
    (hb : a.allocBlock (alignMalloc size) heap = some (false, b)) : a.malloc size heap = some (0, b) := by
  rw [malloc_slow hlt, hb, Option.bind_some, if_neg Bool.false_ne_true]

/-- **`hpb_Arena_Malloc`** calls through a null pointer, finds no memory, or returns an allocation that overlaps
no other one. -/
theorem malloc_run (h : Inv a live) (hl : HeapLegal a.owned heap) (hs : a.Sized size) :
    (a.malloc size heap = none ∧ a.alloc = false ∧ a.initial.isSome) ∨ a.malloc size heap = some (0, a) ∨
      ∃ p a', a.malloc size heap = some (p, a') ∧ p ≠ 0 ∧ Inv a' (⟨p, size⟩ :: live) ∧ Kept a a' := by
  by_cases hlt : a.has < alignMalloc size
  · have hbs := h.blockSize_eq (hs.block hlt)
    cases halloc : a.alloc with
    | false =>
      cases hi : a.initial with
      | none =>
        refine .inr (.inl (malloc_refused hlt ?_))
        rw [allocBlock, halloc, hi]
        rfl
      | some i =>
        refine .inl ⟨?_, rfl, rfl⟩
        rw [malloc_slow hlt, allocBlock, halloc, hi]
        rfl
    | true =>
      cases hp : heap (a.blockSize (alignMalloc size)) with
      | none => exact .inr (.inl (malloc_refused hlt (allocBlock_refused halloc hp)))
      | some p =>
        obtain ⟨hinv, hhas⟩ := h.addBlock hl hp (by omega)
        have hkept := addBlock_kept hl hp (by omega)
        have hgrant := allocBlock_granted halloc hp
        generalize a.addBlock p (a.blockSize (alignMalloc size)) (a.blockSize (alignMalloc size)) = b at *
        have hroom : alignMalloc size ≤ b.has := by
          rw [hhas, hbs]
          omega
        exact .inr (.inr ⟨_, _, malloc_granted hlt hgrant hroom, Nat.ne_of_gt hinv.endPtr_lt.2.1,
          hinv.take hs.rounds hroom, hkept.with_ptr _⟩)
  · exact .inr (.inr ⟨a.ptr, _, malloc_fast (Nat.le_of_not_lt hlt), Nat.ne_of_gt h.endPtr_lt.2.1,
      h.take hs.rounds (Nat.le_of_not_lt hlt), (Kept.refl a).with_ptr _⟩)

end Malloc

section Realloc

variable {a a' : Arena} {live : List LiveAlloc} {size k : Nat} {x z : LiveAlloc} {heap : Nat → Option Nat}

theorem Inv.with_mem (h : Inv a live) (mem : Nat → UInt8) : Inv { a with mem := mem } live :=
  ⟨h.blocks, h.initial, h.apart, h.current, h.ptr_le, h.aligned, h.self_owned, h.self_apart, h.sizes, h.places,
    h.behind, h.separate⟩

theorem Inv.tail (h : Inv a (z :: live)) : Inv a live :=
  { h with
    sizes := fun x hx => h.sizes x (List.mem_cons_of_mem _ hx)
    places := fun x hx => h.places x (List.mem_cons_of_mem _ hx)
    behind := fun x hx => h.behind x (List.mem_cons_of_mem _ hx)
    separate := fun i j x y hij hx hy => h.separate (i + 1) (j + 1) x y (by omega) hx hy }

/-- The newest allocation takes the place of another one. -/
theorem Inv.settle (h : Inv a (z :: live)) : Inv a (live.set k z) := by
  refine h.tail.replace (h.sizes z List.mem_cons_self) (h.places z List.mem_cons_self)
    (h.behind z List.mem_cons_self) fun j y _ hy => ?_
  exact h.separate 0 (j + 1) z y (by omega) rfl hy

/-- A byte of an allocation is in memory that is owned. -/
theorem Kept.byte (hk : Kept a a') (h : Inv a live) (hx : x ∈ live) {i : Nat} (hi : i < x.size) :
    a'.mem (x.ptr + i) = a.mem (x.ptr + i) := by
  obtain ⟨o, ho, hw⟩ := h.live_owned hx
  have hle := le_alignMalloc (h.sizes x hx)
  have h₁ : o.start ≤ x.ptr := hw.1
  have h₂ : x.ptr + alignMalloc x.size ≤ o.stop := hw.2
  exact hk.bytes o ho _ (by omega) (by omega)

/-- What `hpb_Arena_Realloc` leaves in memory: the bytes of its argument, up to the smaller size, and those of all
other allocations. -/
structure Preserves (a : Arena) (live : List LiveAlloc) (k : Nat) (x : LiveAlloc) (size p : Nat) (a' : Arena) :
    Prop where
  moved : ∀ i < min x.size size, a'.mem (p + i) = a.mem (x.ptr + i)
  others : ∀ (j : Nat) y, j ≠ k → live[j]? = some y → ∀ i < y.size, a'.mem (y.ptr + i) = a.mem (y.ptr + i)

/-- The copy into other memory. -/
theorem moveTo_run (h : Inv a live) (hl : HeapLegal a.owned heap) (hs : a.Sized size) (hx : live[k]? = some x) :
    (a.moveTo x.ptr (alignMalloc x.size) (alignMalloc size) heap = none ∧ a.alloc = false ∧ a.initial.isSome) ∨
      a.moveTo x.ptr (alignMalloc x.size) (alignMalloc size) heap = some (0, a) ∨
      ∃ p a', a.moveTo x.ptr (alignMalloc x.size) (alignMalloc size) heap = some (p, a') ∧ p ≠ 0 ∧
        Inv a' (live.set k ⟨p, size⟩) ∧ Preserves a live k x size p a' := by
  have hmem := List.mem_of_getElem? hx
  have hxle := le_alignMalloc (h.sizes x hmem)
  have hle := le_alignMalloc hs.rounds
  rw [moveTo, malloc_align]
  obtain ⟨hrun, hcrash⟩ | hrun | ⟨p, a₁, hrun, hp, hinv, hkept⟩ := malloc_run h hl hs
  · exact .inl ⟨by rw [hrun]; rfl, hcrash⟩
  · refine .inr (.inl ?_)
    rw [hrun]
    rfl
  · refine .inr (.inr ?_)
    rw [hrun]
    dsimp only [Option.bind_eq_bind, Option.bind_some]
    by_cases h0 : 0 < alignMalloc x.size
    · rw [if_pos ⟨hp, h0⟩]
      refine ⟨p, _, rfl, hp, hinv.settle.with_mem _, fun i hi => ?_, fun j y hj hy i hi => ?_⟩
      · have hlen : (loadAt a₁.mem x.ptr (min (alignMalloc x.size) (alignMalloc size))).length = _ := length_loadAt _
        dsimp only
        rw [storeAt_within (by omega), getElem_loadAt]
        exact hkept.byte h hmem (by omega)
      · have hlen : (loadAt a₁.mem x.ptr (min (alignMalloc x.size) (alignMalloc size))).length = _ := length_loadAt _
        have hyle := le_alignMalloc (h.sizes y (List.mem_of_getElem? hy))
        dsimp only
        rw [← hkept.byte h (List.mem_of_getElem? hy) hi]
        refine storeAt_outside ?_
        obtain hz | hz | hz | hz := hinv.separate 0 (j + 1) ⟨p, size⟩ y (by omega) rfl hy
        · have hz : alignMalloc size = 0 := hz
          omega
        · omega
        · have hz : p + alignMalloc size ≤ y.ptr := hz
          omega
        · have hz : y.ptr + alignMalloc y.size ≤ p := hz
          omega
    · rw [if_neg fun hc => h0 hc.2]
      exact ⟨p, a₁, rfl, hp, hinv.settle, fun i hi => by omega,
        fun j y _ hy i hi => hkept.byte h (List.mem_of_getElem? hy) hi⟩

theorem toPtrdiff_small {n : Nat} (h : n < 2 ^ 63) : toPtrdiff n = n := if_pos h

/-- In place, the new end is where the new size puts it. -/
theorem resized_ptr {o s n : Nat} (ho : o ≤ n) (hs : s < 2 ^ 63) (ho' : o < 2 ^ 63) (hlt : n - o + s < 2 ^ 64) :
    (n + (s + 2 ^ 64 - o) % 2 ^ 64) % 2 ^ 64 = n - o + s := by
  omega

/-- The test of `hpb_Arena_Realloc` for the newest allocation: what is left of the block has room for the new size. -/
theorem Inv.room_iff (h : Inv a live) (hx : x ∈ live) (hrecent : x.ptr + alignMalloc x.size = a.ptr)
    (hlarge : alignMalloc size < 2 ^ 63) :
    toPtrdiff a.has ≥ toPtrdiff ((alignMalloc size + 2 ^ 64 - alignMalloc x.size) % 2 ^ 64) ↔
      x.ptr + alignMalloc size ≤ a.endPtr := by
  obtain ⟨o, ho, hw⟩ := h.live_owned hx
  obtain ⟨ho₁, ho₂, ho₃⟩ := h.owned_lt ho
  have hw₁ : o.start ≤ x.ptr := hw.1
  have hw₂ : x.ptr + alignMalloc x.size ≤ o.stop := hw.2
  obtain ⟨hend, hpos, hdist⟩ := h.endPtr_lt
  have hle := h.ptr_le
  rw [h.has_eq]
  unfold toPtrdiff
  split <;> split <;> omega

/-- **`hpb_Arena_Realloc`** calls through a null pointer, finds no memory, or returns an allocation that overlaps
no other one and has the bytes of its argument. -/
theorem realloc_run (h : Inv a live) (hl : HeapLegal a.owned heap) (hs : a.Sized size) (hlarge : alignMalloc size < 2 ^ 63)
    (hx : live[k]? = some x) :
    (a.realloc x.ptr x.size size heap = none ∧ a.alloc = false ∧ a.initial.isSome) ∨
      a.realloc x.ptr x.size size heap = some (0, a) ∨
      ∃ p a', a.realloc x.ptr x.size size heap = some (p, a') ∧ p ≠ 0 ∧
        Inv a' (live.set k ⟨p, size⟩) ∧ Preserves a live k x size p a' := by
  have hmem := List.mem_of_getElem? hx
  obtain ⟨hxa, hxp, r, hr, hw⟩ := h.places x hmem
  obtain ⟨o, ho, hro⟩ := h.region_within hr
  obtain ⟨ho₁, ho₂, ho₃⟩ := h.owned_lt ho
  have hw₁ : o.start ≤ x.ptr := (hw.trans hro).1
  have hw₂ : x.ptr + alignMalloc x.size ≤ o.stop := (hw.trans hro).2
  have hmod : (x.ptr + alignMalloc x.size) % 2 ^ 64 = x.ptr + alignMalloc x.size := Nat.mod_eq_of_lt (by omega)
  have hmove := moveTo_run h hl hs hx
  obtain ⟨hend, hpos, hdist⟩ := h.endPtr_lt
  have hle := h.ptr_le
  rw [realloc]
  dsimp only
  rw [hmod]
  by_cases hrecent : x.ptr + alignMalloc x.size = a.ptr
  · rw [if_pos hrecent]
    by_cases hroom : x.ptr + alignMalloc size ≤ a.endPtr
    · -- in place
      have hcond := (h.room_iff hmem hrecent hlarge).mpr hroom
      have hptr : (a.ptr + (alignMalloc size + 2 ^ 64 - alignMalloc x.size) % 2 ^ 64) % 2 ^ 64 =
          x.ptr + alignMalloc size := by
        rw [resized_ptr (by omega) hlarge (by omega) (by omega)]
        omega
      rw [if_pos hcond, hptr]
      exact .inr (.inr ⟨x.ptr, _, rfl, Nat.ne_of_gt hxp, h.resize hx hrecent hs.rounds hroom, fun _ _ => rfl,
        fun _ _ _ _ _ _ => rfl⟩)
    · have hcond := mt (h.room_iff hmem hrecent hlarge).mp hroom
      rw [if_neg hcond]
      exact hmove
  · rw [if_neg hrecent]
    by_cases hshrink : alignMalloc size ≤ alignMalloc x.size
    · rw [if_pos hshrink]
      have hwithin : AddrRange.Within (LiveAlloc.range ⟨x.ptr, size⟩) x.range :=
        ⟨Nat.le_refl _, Nat.add_le_add_left hshrink _⟩
      refine .inr (.inr ⟨x.ptr, a, rfl, Nat.ne_of_gt hxp, h.replace hs.rounds ⟨hxa, hxp, r, hr, hwithin.trans hw⟩ ?_ ?_,
        fun _ _ => rfl, fun _ _ _ _ _ _ => rfl⟩)
      · obtain hb | hb | hb := h.behind x hmem
        · refine .inl ?_
          change alignMalloc size = 0
          omega
        · exact .inr (.inl (Nat.le_trans hwithin.2 hb))
        · exact .inr (.inr hb)
      · intro j y hj hy
        obtain hsep | hsep | hsep := h.separate k j x y (Ne.symm hj) hx hy
        · refine .inl ?_
          change alignMalloc size = 0
          omega
        · exact .inr (.inl hsep)
        · exact .inr (.inr (hwithin.apart hsep))
    · rw [if_neg hshrink]
      exact hmove

end Realloc

end Arena

end Hpb
