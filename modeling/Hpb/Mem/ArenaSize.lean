import Hpb.Mem.ArenaCalls

/-!
# The sizes that an arena computes

`hpb_Arena_Malloc` rounds its request up, `hpb_Arena_AllocBlock` doubles the last size and adds the header, and the
block keeps the result as a `uint32_t`; nothing checks for overflow. `Arena.Fits` is the condition under which all
of it is exact, and `arena_sizes` says that there is no other one.

`hpb_Arena_SpaceAllocated` counts the header of a block besides its size, of which it is a part already, and not the
arena at the end of a first block: its sum is right only for an arena without blocks.
-/

namespace Hpb

namespace Arena

/-- A request is answered by no memory or by a region of a block, no size wraps around, and every block has
recorded its size. -/
structure Served (a : Arena) (size : Nat) (heap : Nat → Option Nat) : Prop where
  returns : ∃ p a', a.malloc size heap = some (p, a') ∧
    (p = 0 ∨ ∃ r ∈ a'.regions, r.start ≤ p ∧ p + size ≤ r.stop) ∧ ∀ b ∈ a'.blocks, b.size = b.real
  rounds : size + 7 < 2 ^ 64
  block : a.has < alignMalloc size → a.alloc = true → max (alignMalloc size) (a.lastSize * 2) + memblockReserve < 2 ^ 64

/-- The rounding does not wrap around; and if another block is needed, the arena has an allocator, the size of the
block does not wrap around, and it is below `2 ^ 32` unless there is no memory for it. -/
def Fits (a : Arena) (size : Nat) (heap : Nat → Option Nat) : Prop :=
  size + 7 < 2 ^ 64 ∧ (a.has < alignMalloc size →
    a.alloc = true ∧ alignMalloc size < 2 ^ 64 - 16 ∧
      (heap (max (alignMalloc size) (a.lastSize * 2) + 16) = none ∨
        max (alignMalloc size) (a.lastSize * 2) + 16 < 2 ^ 32))

/-- The bytes that were obtained from the allocator. -/
def obtained (a : Arena) : Nat := (a.blocks.map MemBlock.bytes).sum

/-- What the blocks record, what was obtained beyond their sizes (the arena itself, unless it is in an initial
block), and where the newest block is from. -/
structure Recorded (a : Arena) : Prop where
  size_eq : ∀ b ∈ a.blocks, b.size = b.real
  obtained_eq : a.obtained = (a.blocks.map MemBlock.real).sum + if a.initial = none then sizeofArena else 0
  backed : a.alloc = true ∨ a.initial ≠ none

section Sizes

variable {a a' : Arena} {live : List LiveAlloc} {size : Nat} {heap : Nat → Option Nat}

/-- A block whose size is a `uint32_t`. -/
theorem Recorded.addBlock (h : Recorded a) {p n : Nat} (hn : n < 2 ^ 32) : Recorded (a.addBlock p n n) := by
  refine ⟨List.forall_mem_cons.mpr ⟨Nat.mod_eq_of_lt hn, h.size_eq⟩, ?_, h.backed⟩
  have heq := h.obtained_eq
  rw [obtained] at heq ⊢
  rw [Arena.addBlock]
  simp only [List.map_cons, List.sum_cons]
  omega

theorem Recorded.with_ptr (h : Recorded a) (n : Nat) : Recorded { a with ptr := n } :=
  ⟨h.size_eq, h.obtained_eq, h.backed⟩

theorem Recorded.with_mem (h : Recorded a) (mem : Nat → UInt8) : Recorded { a with mem := mem } :=
  ⟨h.size_eq, h.obtained_eq, h.backed⟩

theorem Fits.sized (h : Fits a size heap) : Sized a size := ⟨h.1, fun hlt => (h.2 hlt).2.1⟩

/-- **A request that fits** leaves all sizes recorded. -/
theorem Fits.malloc_recorded (h : Inv a live) (hl : HeapLegal a.owned heap) (hrec : Recorded a) (hf : Fits a size heap)
    {p : Nat} (hrun : a.malloc size heap = some (p, a')) : Recorded a' := by
  by_cases hlt : a.has < alignMalloc size
  · obtain ⟨ha, hlarge, hsmall⟩ := hf.2 hlt
    have hbs := h.blockSize_eq hlarge
    cases hp : heap (a.blockSize (alignMalloc size)) with
    | none =>
      rw [malloc_refused hlt (allocBlock_refused ha hp)] at hrun
      cases hrun
      exact hrec
    | some block =>
      have h32 : a.blockSize (alignMalloc size) < 2 ^ 32 := by
        rw [hbs] at hp ⊢
        refine hsmall.resolve_left fun hnone => ?_
        rw [hp] at hnone
        cases hnone
      obtain ⟨-, hhas⟩ := h.addBlock hl hp (by omega)
      have hgrant := allocBlock_granted ha hp
      have hrec' := hrec.addBlock (p := block) h32
      generalize a.addBlock block (a.blockSize (alignMalloc size)) (a.blockSize (alignMalloc size)) = b at *
      have hroom : alignMalloc size ≤ b.has := by
        rw [hhas, hbs]
        omega
      rw [malloc_granted hlt hgrant hroom] at hrun
      cases hrun
      exact hrec'.with_ptr _
  · rw [malloc_fast (Nat.le_of_not_lt hlt)] at hrun
    cases hrun
    exact hrec.with_ptr _

theorem Fits.realloc_recorded (h : Inv a live) (hl : HeapLegal a.owned heap) (hrec : Recorded a)
    (hf : Fits a size heap) {ptr oldsize p : Nat} (hrun : a.realloc ptr oldsize size heap = some (p, a')) :
    Recorded a' := by
  have hmove : ∀ {o : Nat} {r : Nat × Arena}, a.moveTo ptr o (alignMalloc size) heap = some r → Recorded r.2 := by
    intro o r hr
    rw [moveTo, malloc_align] at hr
    obtain ⟨⟨q, b⟩, hq, hr⟩ := Option.bind_eq_some_iff.mp hr
    have hb := hf.malloc_recorded h hl hrec hq
    dsimp only at hr
    split at hr
    · cases hr
      exact hb.with_mem _
    · cases hr
      exact hb
  rw [realloc] at hrun
  dsimp only at hrun
  split at hrun
  · split at hrun
    · cases hrun
      exact hrec.with_ptr _
    · exact hmove hrun
  · split at hrun
    · cases hrun
      exact hrec
    · exact hmove hrun

/-- One call with a request that fits. -/
theorem call_recorded {s s' : Arena × List LiveAlloc} {c : ArenaCall} {p : Nat} (h : Inv s.1 s.2)
    (hrec : Recorded s.1) (hc : Callable Fits s c) (hrun : call s c = some (p, s')) : Recorded s'.1 := by
  cases c with
  | malloc size heap =>
    obtain ⟨r, hr, hrun⟩ := Option.bind_eq_some_iff.mp hrun
    cases hrun
    exact hc.2.malloc_recorded h hc.1 hrec hr
  | realloc k size heap =>
    obtain ⟨hl, hf, -⟩ := hc
    cases k with
    | none =>
      obtain ⟨r, hr, hrun⟩ := Option.bind_eq_some_iff.mp hrun
      cases hrun
      exact hf.realloc_recorded h hl hrec hr
    | some k =>
      obtain ⟨x, hx, hrun⟩ := Option.bind_eq_some_iff.mp hrun
      obtain ⟨r, hr, hrun⟩ := Option.bind_eq_some_iff.mp hrun
      cases hrun
      exact hf.realloc_recorded h hl hrec hr
  | shrinkLast k size =>
    obtain ⟨x, hx, hrun⟩ := Option.bind_eq_some_iff.mp hrun
    cases hrun
    exact hrec.with_ptr _

theorem init_recorded {start n : Nat} {alloc : Bool} {mem : Nat → UInt8} (h : init start n alloc heap mem = some a) :
    Recorded a := by
  rw [init] at h
  generalize (if n = 0 then start else (start + 7) % 2 ^ 64 / 8 * 8) = aligned at h
  generalize (if (aligned + 2 ^ 64 - start) % 2 ^ 64 ≤ n then n - (aligned + 2 ^ 64 - start) % 2 ^ 64 else 0) / 8 * 8 =
    size at h
  dsimp only at h
  split at h
  · cases alloc with
    | false => cases h
    | true =>
      obtain ⟨p, hp, h⟩ := Option.bind_eq_some_iff.mp h
      cases h
      exact ⟨List.forall_mem_cons.mpr ⟨rfl, fun _ hb => absurd hb List.not_mem_nil⟩, rfl, .inl rfl⟩
  · cases h
    exact ⟨fun _ hb => absurd hb List.not_mem_nil, rfl, .inr (Option.some_ne_none _)⟩

/-- **Requests that fit leave all sizes recorded.** -/
theorem calls_recorded {s : Arena × List LiveAlloc} (h : (calls Fits).Reached Fresh s) :
    Inv s.1 s.2 ∧ Recorded s.1 := by
  refine h.invariant (I := fun s => Inv s.1 s.2 ∧ Recorded s.1) ?_ fun s c e s' hs hc hrun =>
    ⟨call_inv (fun _ _ _ hf => hf.sized) hs.1 hc hrun, call_recorded hs.1 hs.2 hc hrun⟩
  rintro ⟨a, live⟩ ⟨hnil, start, n, alloc, heap, mem, hpos, hlt, hn, hl, hinit⟩
  dsimp only at hnil
  subst hnil
  exact ⟨init_inv hpos hlt hn hl hinit, init_recorded hinit⟩

/-- The sum of `hpb_Arena_SpaceAllocated`: each size, and each header once more. -/
theorem spaceAllocated_eq (h : Recorded a) :
    a.spaceAllocated = ((a.blocks.map MemBlock.real).sum + memblockReserve * a.blocks.length) % 2 ^ 64 := by
  have hfold : ∀ (bs : List MemBlock) (n : Nat), (∀ b ∈ bs, b.size = b.real) →
      bs.foldl (fun memsize block => (memsize + (memblockReserve + block.size)) % 2 ^ 64) (n % 2 ^ 64) =
        (n + ((bs.map MemBlock.real).sum + memblockReserve * bs.length)) % 2 ^ 64 := by
    intro bs
    induction bs with
    | nil => intro n _; rfl
    | cons b bs ih =>
      intro n hbs
      obtain ⟨hb, hbs⟩ := List.forall_mem_cons.mp hbs
      have hmod : (n % 2 ^ 64 + (memblockReserve + b.size)) % 2 ^ 64 = (n + (memblockReserve + b.real)) % 2 ^ 64 := by
        rw [hb, Nat.mod_add_mod]
      rw [List.foldl_cons, hmod, ih _ hbs]
      simp only [List.map_cons, List.sum_cons, List.length_cons]
      congr 1
      rw [Nat.mul_succ]
      omega
  have hzero := hfold a.blocks 0 h.size_eq
  rw [Nat.zero_mod, Nat.zero_add] at hzero
  exact hzero

theorem Inv.reserve_le_sum (h : Inv a live) :
    memblockReserve * a.blocks.length ≤ (a.blocks.map MemBlock.real).sum := by
  have hsum : ∀ bs : List MemBlock, (∀ b ∈ bs, BlockInv b) →
      memblockReserve * bs.length ≤ (bs.map MemBlock.real).sum := by
    intro bs
    induction bs with
    | nil => intro _; exact Nat.le_refl _
    | cons b bs ih =>
      intro hbs
      obtain ⟨hb, hbs⟩ := List.forall_mem_cons.mp hbs
      have hle := hb.reserve_le
      have hrest := ih hbs
      simp only [List.map_cons, List.sum_cons, List.length_cons]
      rw [Nat.mul_succ]
      omega
  exact hsum _ h.blocks

/-- The sum is right for an arena without blocks. -/
theorem spaceAllocated_obtained (h : Inv a live) (hrec : Recorded a) : a.spaceAllocated = a.obtained ↔ a.blocks = [] := by
  constructor
  · intro heq
    have hle := h.reserve_le_sum
    have hsum := spaceAllocated_eq hrec
    have hobt := hrec.obtained_eq
    have h16 : memblockReserve = 16 := rfl
    have h56 : sizeofArena = 56 := rfl
    rw [h16] at hle hsum
    rw [h56] at hobt
    refine List.eq_nil_of_length_eq_zero ?_
    split at hobt <;> omega
  · intro hnil
    rw [spaceAllocated, obtained, hnil]
    rfl

/-- **A request is served if and only if it fits.** -/
theorem served_iff (h : Inv a live) (hrec : Recorded a) (hl : HeapLegal a.owned heap) :
    a.Served size heap ↔ a.Fits size heap := by
  have hlast := h.lastSize_le
  have h16 : memblockReserve = 16 := rfl
  constructor
  · intro hs
    refine ⟨hs.rounds, fun hlt => ?_⟩
    obtain ⟨p, a', hrun, -, hsizes⟩ := hs.returns
    cases halloc : a.alloc with
    | false =>
      -- the call through a null pointer
      obtain ⟨i, hi⟩ := Option.ne_none_iff_exists'.mp (hrec.backed.resolve_left (by rw [halloc]; exact Bool.false_ne_true))
      rw [malloc_slow hlt, allocBlock, halloc, hi] at hrun
      cases hrun
    | true =>
      have hwrap := hs.block hlt halloc
      have hlarge : alignMalloc size < 2 ^ 64 - 16 := by omega
      refine ⟨rfl, hlarge, ?_⟩
      have hbs := h.blockSize_eq hlarge
      rw [← hbs]
      cases hp : heap (a.blockSize (alignMalloc size)) with
      | none => exact .inl rfl
      | some block =>
        refine .inr ?_
        obtain ⟨-, hhas⟩ := h.addBlock hl hp (by omega)
        have hgrant := allocBlock_granted halloc hp
        have hmem : ⟨block, a.blockSize (alignMalloc size) % 2 ^ 32, a.blockSize (alignMalloc size),
            a.blockSize (alignMalloc size)⟩ ∈
              (a.addBlock block (a.blockSize (alignMalloc size)) (a.blockSize (alignMalloc size))).blocks :=
          List.mem_cons_self
        generalize a.addBlock block (a.blockSize (alignMalloc size)) (a.blockSize (alignMalloc size)) = b at *
        have hroom : alignMalloc size ≤ b.has := by
          rw [hhas, hbs]
          omega
        rw [malloc_granted hlt hgrant hroom] at hrun
        cases hrun
        have heq : a.blockSize (alignMalloc size) % 2 ^ 32 = a.blockSize (alignMalloc size) := hsizes _ hmem
        omega
  · intro hf
    refine ⟨?_, hf.1, fun hlt _ => ?_⟩
    · obtain ⟨hrun, halloc, -⟩ | hrun | ⟨p, a', hrun, -, hinv, -⟩ := malloc_run h hl hf.sized
      · by_cases hlt : a.has < alignMalloc size
        · rw [(hf.2 hlt).1] at halloc
          cases halloc
        · rw [malloc_fast (Nat.le_of_not_lt hlt)] at hrun
          cases hrun
      · exact ⟨0, a, hrun, .inl rfl, hrec.size_eq⟩
      · obtain ⟨-, -, r, hr, hstart, hstop⟩ := hinv.places _ List.mem_cons_self
        have hle := le_alignMalloc hf.1
        have hstop : p + alignMalloc size ≤ r.stop := hstop
        exact ⟨p, a', hrun, .inr ⟨r, hr, hstart, by omega⟩, (hf.malloc_recorded h hl hrec hrun).size_eq⟩
    · have hlarge := (hf.2 hlt).2.1
      omega

end Sizes

end Arena

/-- **The sizes of an arena** whose requests all fitted: the next request is answered as it should be if and only if
it fits, the blocks have recorded their sizes, and `hpb_Arena_SpaceAllocated` is what was obtained if and only if
there is no block. -/
theorem arena_sizes {s : Arena × List LiveAlloc} (h : (Arena.calls Arena.Fits).Reached Arena.Fresh s) :
    (∀ size < 2 ^ 64, ∀ heap, Arena.HeapLegal s.1.owned heap → (s.1.Served size heap ↔ s.1.Fits size heap)) ∧
      (∀ b ∈ s.1.blocks, b.size = b.real) ∧ (s.1.spaceAllocated = s.1.obtained ↔ s.1.blocks = []) := by
  obtain ⟨hinv, hrec⟩ := Arena.calls_recorded h
  exact ⟨fun size _ heap hl => Arena.served_iff hinv hrec hl, hrec.size_eq, Arena.spaceAllocated_obtained hinv hrec⟩

theorem arena_sizes_small : Arena.small.Served 200 (fun _ => none) ∧ ¬Arena.small.Served 201 fun _ => none := by
  have hl : Arena.HeapLegal Arena.small.owned fun _ => none := ⟨nofun, nofun, nofun, nofun, nofun, nofun⟩
  have hiff := (arena_sizes (.start Arena.small_fresh)).1
  refine ⟨(hiff 200 (by decide) _ hl).mpr ⟨by decide, fun hlt => absurd hlt (by decide)⟩, fun hs => ?_⟩
  -- there is no allocator for another block
  have hf := (hiff 201 (by decide) _ hl).mp hs
  exact Bool.false_ne_true (hf.2 (by decide)).1

/-- The largest request is rounded to nothing, and the block of a new arena is counted with one header too much and
without the arena. -/
theorem not_arena_sizes :
    (Arena.Fresh (Arena.small, []) ∧ ∃ a', Arena.small.malloc (2 ^ 64 - 1) (fun _ => none) = some (4096, a') ∧
        ¬∃ r ∈ a'.regions, r.start ≤ 4096 ∧ 4096 + (2 ^ 64 - 1) ≤ r.stop) ∧
      ∃ a, Arena.Fresh (a, []) ∧ a.obtained = 328 ∧ a.spaceAllocated = 288 := by
  refine ⟨⟨Arena.small_fresh, _, Arena.malloc_fast (by decide), ?_⟩, ?_⟩
  · rintro ⟨r, hr, -, hstop⟩
    obtain rfl : r = ⟨4096, 4296⟩ := List.mem_singleton.mp hr
    exact absurd hstop (by decide)
  · have hl : Arena.HeapLegal [] fun n => if n = 328 then some 4096 else none := by
      have hcases : ∀ n p, (if n = 328 then some 4096 else none) = some p → n = 328 ∧ p = 4096 := fun n p h => by
        split at h
        next hn =>
          cases h
          exact ⟨hn, rfl⟩
        · cases h
      refine ⟨?_, ?_, ?_, ?_, ?_, fun _ _ _ _ hr => absurd hr List.not_mem_nil⟩ <;> intro n p h <;>
        obtain ⟨rfl, rfl⟩ := hcases n p h <;> decide
    let a : Arena := ⟨0, 0, [], true, none, 4368, fun _ => 0⟩
    exact ⟨a.addBlock 4096 272 328, ⟨rfl, 0, 0, true, _, fun _ => 0, fun hne => absurd rfl hne, by decide, by decide, hl,
      rfl⟩, rfl, rfl⟩

end Hpb
