import Hpb.Mem.ArenaLive
import Mathlib.Data.List.Pairwise

/-!
# The calls of an arena

`hpb_Arena_Malloc`, `hpb_Arena_Realloc` and `hpb_Arena_ShrinkLast` on one arena, as a system whose state is the
arena and its live allocations. A call names an allocation by its place in that list and passes the size that was
asked for last, so the `oldsize` of a call is right.

* `Arena.calls_reached`: the invariant in every state that is reached, for requests whose sizes do not wrap around;
* `arena_allocations`: what clients see of it, for requests below `2 ^ 31` bytes.
-/

namespace Hpb

/-- The calls of an arena; `heap` is what `hpb_malloc` answers. -/
inductive ArenaCall where
  | malloc (size : Nat) (heap : Nat → Option Nat)
  /-- `hpb_Arena_Realloc` of a live allocation or, without one, of a null pointer. -/
  | realloc (k : Option Nat) (size : Nat) (heap : Nat → Option Nat)
  | shrinkLast (k size : Nat)

namespace Arena

/-- One call: the pointer it returns, the arena and its live allocations then. -/
def call (s : Arena × List LiveAlloc) : ArenaCall → Option (Nat × Arena × List LiveAlloc)
  | .malloc size heap => do
    let (p, a) ← s.1.malloc size heap
    return (p, a, if p = 0 then s.2 else ⟨p, size⟩ :: s.2)
  | .realloc none size heap => do
    let (p, a) ← s.1.realloc 0 0 size heap
    return (p, a, if p = 0 then s.2 else ⟨p, size⟩ :: s.2)
  | .realloc (some k) size heap => do
    let x ← s.2[k]?
    let (p, a) ← s.1.realloc x.ptr x.size size heap
    return (p, a, if p = 0 then s.2 else s.2.set k ⟨p, size⟩)
  | .shrinkLast k size => do
    let x ← s.2[k]?
    return (x.ptr, s.1.shrinkLast x.ptr size, s.2.set k ⟨x.ptr, size⟩)

/-- The calls that a client may make, with the requests that `P` admits: `hpb_malloc` keeps its promise, an
allocation is resized to less than `PTRDIFF_MAX` bytes, and what `hpb_Arena_ShrinkLast` asserts holds. -/
def Callable (P : Arena → Nat → (Nat → Option Nat) → Prop) (s : Arena × List LiveAlloc) : ArenaCall → Prop
  | .malloc size heap => HeapLegal s.1.owned heap ∧ P s.1 size heap
  | .realloc _ size heap => HeapLegal s.1.owned heap ∧ P s.1 size heap ∧ alignMalloc size < 2 ^ 63
  | .shrinkLast k size => size + 7 < 2 ^ 64 ∧ ∃ x, s.2[k]? = some x ∧ x.range.stop = s.1.ptr ∧
      alignMalloc size ≤ alignMalloc x.size

/-- The arena as a system; it stands for nothing but itself. -/
def calls (P : Arena → Nat → (Nat → Option Nat) → Prop) :
    CallSystem (Arena × List LiveAlloc) Unit ArenaCall Nat where
  step := call
  Allowed := Callable P
  GivesUp _ _ := False
  next _ _ _ := ()
  Answers _ _ _ _ := True

/-- An arena that was just made, with or without an initial block. -/
def Fresh (s : Arena × List LiveAlloc) : Prop :=
  s.2 = [] ∧ ∃ start n alloc heap mem, (n ≠ 0 → 0 < start) ∧ start + n < 2 ^ 64 ∧ n < 2 ^ 63 ∧ HeapLegal [] heap ∧
    init start n alloc heap mem = some s.1

section Init

variable {a : Arena} {heap : Nat → Option Nat} {mem : Nat → UInt8}

theorem initSlow_inv {alloc : Bool} (hl : HeapLegal [] heap) (h : initSlow alloc heap mem = some a) : Inv a [] := by
  cases alloc with
  | false => cases h
  | true =>
    have hn : sizeofArena + memblockReserve + 256 = 328 := rfl
    have hn' : 328 - sizeofArena = 272 := rfl
    have hres : memblockReserve = 16 := rfl
    rw [initSlow] at h
    simp only [hn, hn', if_true] at h
    obtain ⟨p, hp, h⟩ := Option.bind_eq_some_iff.mp h
    have hpos := hl.pos _ _ hp
    have haln := hl.aligned _ _ hp
    have hslt : p + 328 < 2 ^ 64 := hl.stop_lt _ _ hp
    have hself : (p + 272) % 2 ^ 64 = p + 272 := Nat.mod_eq_of_lt (by omega)
    have hptr : (p + 16) % 2 ^ 64 = p + 16 := Nat.mod_eq_of_lt (by omega)
    rw [hself, addBlock, hres] at h
    simp only [hself, hptr] at h
    cases h
    have hblock : BlockInv ⟨p, 272 % 2 ^ 32, 272, 328⟩ := by
      refine ⟨haln, hpos, ?_, ?_, ?_, ?_, hslt⟩ <;> dsimp only <;> decide
    refine
      { blocks := List.forall_mem_cons.mpr ⟨hblock, fun _ hb => absurd hb List.not_mem_nil⟩
        initial := fun i hi => by cases hi
        apart := List.pairwise_singleton _ _
        current := ⟨⟨p + 16, p + 272⟩, rfl, Nat.le_refl _, rfl⟩
        ptr_le := Nat.add_le_add_left (by decide) _
        aligned := by dsimp only; omega
        self_owned := ⟨⟨p, p + 328⟩, List.mem_singleton_self _, Nat.le_add_right _ _, ?_⟩
        self_apart := List.forall_mem_cons.mpr ⟨.inl ?_, fun _ hb => absurd hb List.not_mem_nil⟩
        sizes := fun x hx => absurd hx List.not_mem_nil
        places := fun x hx => absurd hx List.not_mem_nil
        behind := fun x hx => absurd hx List.not_mem_nil
        separate := fun i j x y _ hx => by simp at hx }
    · have h56 : sizeofArena = 56 := rfl
      dsimp only
      omega
    · exact Nat.le_refl (p + 272)

theorem init_inv {start n : Nat} {alloc : Bool} (hpos : n ≠ 0 → 0 < start) (hlt : start + n < 2 ^ 64)
    (hn : n < 2 ^ 63) (hl : HeapLegal [] heap) (h : init start n alloc heap mem = some a) : Inv a [] := by
  have h56 : sizeofArena = 56 := rfl
  rw [init] at h
  generalize haligned : (if n = 0 then start else (start + 7) % 2 ^ 64 / 8 * 8) = aligned at h
  generalize hdelta : (aligned + 2 ^ 64 - start) % 2 ^ 64 = delta at h
  generalize hsize : (if delta ≤ n then n - delta else 0) / 8 * 8 = size at h
  dsimp only at h
  split at h
  · exact initSlow_inv hl h
  next hlarge =>
    cases h
    rw [h56] at hlarge
    -- the start of the block was rounded up, and its size down
    have hdn : delta ≤ n := by
      by_contra hno
      rw [if_neg hno] at hsize
      omega
    rw [if_pos hdn] at hsize
    have hn0 : n ≠ 0 := by omega
    rw [if_neg hn0] at haligned
    have hstart := hpos hn0
    have hup : start ≤ aligned ∧ aligned + size ≤ start + n ∧ aligned % 8 = 0 := by omega
    have hself : (aligned + (size - sizeofArena)) % 2 ^ 64 = aligned + (size - 56) := by omega
    rw [hself]
    have hinitial : InitialInv (aligned, size) := by
      refine ⟨hup.2.2, ?_, ?_, ?_, ?_⟩ <;> dsimp only <;> omega
    refine
      { blocks := fun b hb => absurd hb List.not_mem_nil
        initial := fun i hi => by cases hi; exact hinitial
        apart := List.pairwise_singleton _ _
        current := ⟨⟨aligned, aligned + (size - sizeofArena)⟩, rfl, Nat.le_refl _, rfl⟩
        ptr_le := Nat.le_add_right _ _
        aligned := hup.2.2
        self_owned := ⟨⟨aligned, aligned + size⟩, List.mem_singleton_self _, Nat.le_add_right _ _, ?_⟩
        self_apart := List.forall_mem_cons.mpr ⟨.inl (Nat.le_refl _), fun _ hb => absurd hb List.not_mem_nil⟩
        sizes := fun x hx => absurd hx List.not_mem_nil
        places := fun x hx => absurd hx List.not_mem_nil
        behind := fun x hx => absurd hx List.not_mem_nil
        separate := fun i j x y _ hx => by simp at hx }
    dsimp only
    omega

end Init

section Runs

variable {P : Arena → Nat → (Nat → Option Nat) → Prop} {a : Arena} {live : List LiveAlloc} {size : Nat}
  {heap : Nat → Option Nat}

/-- `hpb_Arena_Realloc` of a null pointer. -/
theorem realloc_null (h : Inv a live) :
    a.realloc 0 0 size heap = if alignMalloc size = 0 then some (0, a) else a.malloc size heap := by
  have h0 : alignMalloc 0 = 0 := rfl
  have hpos := h.endPtr_lt.2.1
  rw [realloc]
  simp only [h0, Nat.add_zero, Nat.zero_mod]
  rw [if_neg (by omega)]
  by_cases hs : alignMalloc size = 0
  · rw [if_pos (by omega), if_pos hs]
  · rw [if_neg (by omega), if_neg hs, moveTo, malloc_align]
    cases a.malloc size heap with
    | none => rfl
    | some r => simp

/-- One call keeps the invariant. -/
theorem call_inv (hP : ∀ a size heap, P a size heap → Sized a size) {s s' : Arena × List LiveAlloc} {c : ArenaCall}
    {p : Nat} (h : Inv s.1 s.2) (hc : Callable P s c) (hrun : call s c = some (p, s')) : Inv s'.1 s'.2 := by
  obtain ⟨a, live⟩ := s
  -- a call that is answered as `hpb_Arena_Malloc` is
  have hmalloc : ∀ size heap, HeapLegal a.owned heap → P a size heap → ∀ r, a.malloc size heap = some r →
      Inv r.2 (if r.1 = 0 then live else ⟨r.1, size⟩ :: live) := by
    intro size heap hl hp r hr
    obtain ⟨hnone, -⟩ | hnull | ⟨p, a', hsome, hp0, hinv, -⟩ := malloc_run h hl (hP _ _ _ hp)
    · rw [hnone] at hr
      cases hr
    · rw [hnull] at hr
      cases hr
      exact h
    · rw [hsome] at hr
      cases hr
      rw [if_neg hp0]
      exact hinv
  cases c with
  | malloc size heap =>
    obtain ⟨r, hr, hrun⟩ := Option.bind_eq_some_iff.mp hrun
    cases hrun
    exact hmalloc size heap hc.1 hc.2 r hr
  | realloc k size heap =>
    obtain ⟨hl, hp, hlarge⟩ := hc
    cases k with
    | none =>
      obtain ⟨r, hr, hrun⟩ := Option.bind_eq_some_iff.mp hrun
      cases hrun
      rw [realloc_null h] at hr
      split at hr
      · cases hr
        exact h
      · exact hmalloc size heap hl hp r hr
    | some k =>
      obtain ⟨x, hx, hrun⟩ := Option.bind_eq_some_iff.mp hrun
      obtain ⟨r, hr, hrun⟩ := Option.bind_eq_some_iff.mp hrun
      cases hrun
      obtain ⟨hnone, -⟩ | hnull | ⟨p, a', hsome, hp0, hinv, -⟩ := realloc_run h hl (hP _ _ _ hp) hlarge hx
      · rw [hnone] at hr
        cases hr
      · rw [hnull] at hr
        cases hr
        exact h
      · rw [hsome] at hr
        cases hr
        rw [if_neg hp0]
        exact hinv
  | shrinkLast k size =>
    obtain ⟨hsize, x, hx, hend, hle⟩ := hc
    obtain ⟨x', hx', hrun⟩ := Option.bind_eq_some_iff.mp hrun
    cases hrun
    obtain rfl : x' = x := by
      dsimp only at hx hx'
      rw [hx] at hx'
      cases hx'
      rfl
    have hptr := h.ptr_le
    have hlt := h.endPtr_lt.1
    have hend' : x'.ptr + alignMalloc x'.size = a.ptr := hend
    dsimp only at hptr hlt
    have hmod : (x'.ptr + alignMalloc size) % 2 ^ 64 = x'.ptr + alignMalloc size := Nat.mod_eq_of_lt (by omega)
    dsimp only [shrinkLast]
    rw [hmod]
    exact h.resize hx hend hsize (by dsimp only; omega)

/-- **Every arena that is reached keeps its allocations apart.** -/
theorem calls_reached (hP : ∀ a size heap, P a size heap → Sized a size) {s : Arena × List LiveAlloc}
    (h : (calls P).Reached Fresh s) : Inv s.1 s.2 := by
  refine h.invariant (I := fun s => Inv s.1 s.2) ?_ fun _ _ _ _ hinv hc hrun => call_inv hP hinv hc hrun
  rintro ⟨a, live⟩ ⟨hnil, start, n, alloc, heap, mem, hpos, hlt, hn, hl, hinit⟩
  dsimp only at hnil
  subst hnil
  exact init_inv hpos hlt hn hl hinit

/-- What is handed out is no header. -/
theorem Inv.region_header (h : Inv a live) {r hd : AddrRange} (hr : r ∈ a.regions) (hhd : hd ∈ a.headers) :
    r.Apart hd := by
  obtain rfl | hhd := List.mem_cons.mp hhd
  · exact h.self_apart r hr
  obtain ⟨b', hb', rfl⟩ := List.mem_map.mp hhd
  have hwithin : b'.header.Within b'.whole := by
    have hb := h.blocks b' hb'
    exact ⟨Nat.le_refl _, Nat.add_le_add_left (Nat.le_trans hb.reserve_le hb.real_le) _⟩
  obtain ⟨hblocks, -, hinitial⟩ := List.pairwise_append.mp h.apart
  obtain hr | hr := List.mem_append.mp hr
  · obtain ⟨b, hb, rfl⟩ := List.mem_map.mp hr
    by_cases heq : b.whole = b'.whole
    · -- its own header
      have haddr : b.addr = b'.addr := congrArg AddrRange.start heq
      refine .inr ?_
      change b'.addr + memblockReserve ≤ b.addr + memblockReserve
      exact Nat.le_of_eq (by rw [haddr])
    · have hap := hblocks.forall (List.mem_map_of_mem hb) (List.mem_map_of_mem hb') heq
      have hdata : b.data.Within b.whole := ⟨Nat.le_add_right _ _, Nat.add_le_add_left (h.blocks b hb).real_le _⟩
      exact hdata.apart (hwithin.apart hap.symm).symm
  · obtain ⟨i, hi, rfl⟩ := List.mem_map.mp hr
    have hap := hinitial b'.whole (List.mem_map_of_mem hb') _ (List.mem_map_of_mem hi)
    have hdata : AddrRange.Within ⟨i.1, i.1 + (i.2 - sizeofArena)⟩ ⟨i.1, i.1 + i.2⟩ :=
      ⟨Nat.le_refl _, Nat.add_le_add_left (Nat.sub_le _ _) _⟩
    exact hdata.apart (hwithin.apart hap).symm

end Runs

end Arena

/-- The bytes that a client asked for. -/
def LiveAlloc.bytes (x : LiveAlloc) : AddrRange := ⟨x.ptr, x.ptr + x.size⟩

/-- **The allocations of an arena**, for requests below `2 ^ 31` bytes: they do not overlap, are aligned, lie in a
block that the arena owns and outside all headers; and `hpb_Arena_Realloc` keeps the bytes of its argument and of
all other allocations. -/
theorem arena_allocations {s : Arena × List LiveAlloc}
    (h : (Arena.calls fun _ size _ => size < 2 ^ 31).Reached Arena.Fresh s) :
    (∀ (i j : Nat) x y, i ≠ j → s.2[i]? = some x → s.2[j]? = some y →
        x.size = 0 ∨ y.size = 0 ∨ x.bytes.Apart y.bytes) ∧
      (∀ x ∈ s.2, x.ptr % 8 = 0 ∧ (∃ r ∈ s.1.owned, x.bytes.Within r) ∧ ∀ r ∈ s.1.headers, x.bytes.Apart r) ∧
      ∀ (k : Nat) x size heap p s', s.2[k]? = some x →
        Arena.Callable (fun _ size _ => size < 2 ^ 31) s (.realloc (some k) size heap) →
        Arena.call s (.realloc (some k) size heap) = some (p, s') →
        (p = 0 → s' = s) ∧ (p ≠ 0 → s'.2 = s.2.set k ⟨p, size⟩ ∧ Arena.Preserves s.1 s.2 k x size p s'.1) := by
  have hP : ∀ (a : Arena) size (_ : Nat → Option Nat), size < 2 ^ 31 → Arena.Sized a size := fun a size _ hsize => by
    refine ⟨by omega, fun _ => ?_⟩
    rw [Arena.alignMalloc_eq (by omega)]
    omega
  have hinv := Arena.calls_reached hP h
  have hbytes : ∀ x ∈ s.2, x.bytes.Within x.range := fun x hx =>
    ⟨Nat.le_refl _, Nat.add_le_add_left (Arena.le_alignMalloc (hinv.sizes x hx)) _⟩
  refine ⟨fun i j x y hij hx hy => ?_, fun x hx => ?_, fun k x size heap p s' hx hc hrun => ?_⟩
  · have hxm := List.mem_of_getElem? hx
    have hym := List.mem_of_getElem? hy
    have hxle := Arena.le_alignMalloc (hinv.sizes x hxm)
    have hyle := Arena.le_alignMalloc (hinv.sizes y hym)
    obtain h0 | h0 | hap := hinv.separate i j x y hij hx hy
    · exact .inl (by omega)
    · exact .inr (.inl (by omega))
    · exact .inr (.inr ((hbytes x hxm).apart ((hbytes y hym).apart hap.symm).symm))
  · obtain ⟨haligned, -, r, hr, hw⟩ := hinv.places x hx
    obtain ⟨o, ho, hro⟩ := hinv.region_within hr
    have hwithin := (hbytes x hx).trans hw
    exact ⟨haligned, ⟨o, ho, hwithin.trans hro⟩, fun hd hhd => hwithin.apart (hinv.region_header hr hhd)⟩
  · obtain ⟨hl, hsize, hlarge⟩ := hc
    obtain ⟨x', hx', hrun⟩ := Option.bind_eq_some_iff.mp hrun
    rw [hx] at hx'
    cases hx'
    obtain ⟨r, hr, hrun⟩ := Option.bind_eq_some_iff.mp hrun
    cases hrun
    obtain ⟨hnone, -⟩ | hnull | ⟨p, a', hsome, hp0, -, hpres⟩ :=
      Arena.realloc_run hinv hl (hP s.1 size heap hsize) hlarge hx
    · rw [hnone] at hr
      cases hr
    · rw [hnull] at hr
      cases hr
      exact ⟨fun _ => rfl, fun hne => absurd rfl hne⟩
    · rw [hsome] at hr
      cases hr
      exact ⟨fun heq => absurd heq hp0, fun _ => ⟨if_neg hp0, hpres⟩⟩

/-- A fixed-size arena in 256 bytes. -/
def Arena.small : Arena := ⟨4096, 4296, [], false, some (4096, 256), 4296, fun _ => 0⟩

theorem Arena.small_fresh : Arena.Fresh (Arena.small, []) :=
  ⟨rfl, 4096, 256, false, fun _ => none, fun _ => 0, fun _ => by decide, by decide, by decide,
    ⟨nofun, nofun, nofun, nofun, nofun, nofun⟩, rfl⟩

theorem arena_allocations_two :
    ∃ s, (Arena.calls fun _ size _ => size < 2 ^ 31).Reached Arena.Fresh s ∧ s.2 = [⟨4112, 8⟩, ⟨4096, 10⟩] ∧
      (LiveAlloc.bytes ⟨4112, 8⟩).Apart (LiveAlloc.bytes ⟨4096, 10⟩) := by
  have hnone : ∀ owned, Arena.HeapLegal owned fun _ => none := fun _ => ⟨nofun, nofun, nofun, nofun, nofun, nofun⟩
  have hmalloc : ∀ (a : Arena) (live : List LiveAlloc) (size : Nat), alignMalloc size ≤ a.has → a.ptr ≠ 0 →
      Arena.call (a, live) (.malloc size fun _ => none) =
        some (a.ptr, { a with ptr := (a.ptr + alignMalloc size) % 2 ^ 64 }, ⟨a.ptr, size⟩ :: live) := by
    intro a live size hle hptr
    rw [Arena.call, Arena.malloc_fast hle]
    simp only [Option.bind_eq_bind, Option.bind_some, if_neg hptr]
    rfl
  have h₁ : (Arena.calls fun _ size _ => size < 2 ^ 31).Reached Arena.Fresh
      ({ Arena.small with ptr := 4112 }, [⟨4096, 10⟩]) :=
    .call (c := .malloc 10 fun _ => none) (.start Arena.small_fresh) ⟨hnone _, (by decide : 10 < 2 ^ 31)⟩
      (hmalloc Arena.small [] 10 (by decide) (by decide))
  have h₂ : (Arena.calls fun _ size _ => size < 2 ^ 31).Reached Arena.Fresh
      ({ Arena.small with ptr := 4120 }, [⟨4112, 8⟩, ⟨4096, 10⟩]) :=
    .call (c := .malloc 8 fun _ => none) h₁ ⟨hnone _, (by decide : 8 < 2 ^ 31)⟩
      (hmalloc { Arena.small with ptr := 4112 } [⟨4096, 10⟩] 8 (by decide) (by decide))
  refine ⟨_, h₂, rfl, ?_⟩
  obtain h0 | h0 | hapart := (arena_allocations h₂).1 0 1 ⟨4112, 8⟩ ⟨4096, 10⟩ (by decide) rfl rfl
  · cases h0
  · cases h0
  · exact hapart

end Hpb
