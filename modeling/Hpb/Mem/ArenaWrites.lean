import Hpb.Mem.ArenaCalls

/-!
# What a call writes

The bytes that `hpb_Arena_Malloc` and `hpb_Arena_Realloc` change: those of the allocation that is returned, and the
header of a block that is new. Then what a client needs to keep an allocation of its own beside those of others.
-/

namespace Hpb

namespace Arena

/-- Only the bytes of a range change, and the headers of new blocks. -/
def Writes (a a' : Arena) (r : AddrRange) : Prop :=
  ∀ i, a'.mem i ≠ a.mem i → (r.start ≤ i ∧ i < r.stop) ∨
    ∃ b ∈ a'.blocks, b ∉ a.blocks ∧ b.addr ≤ i ∧ i < b.addr + memblockReserve

section Writes

variable {a a' b : Arena} {live : List LiveAlloc} {size k p : Nat} {x : LiveAlloc} {heap : Nat → Option Nat}
  {r r' : AddrRange}

theorem Writes.of_mem_eq (h : a'.mem = a.mem) : Writes a a' r := fun i hi => absurd (congrFun h i) hi

theorem Writes.mono (h : Writes a a' r) (hr : r.Within r') : Writes a a' r' := fun i hi =>
  (h i hi).imp_left fun ⟨h₁, h₂⟩ => ⟨Nat.le_trans hr.1 h₁, Nat.lt_of_lt_of_le h₂ hr.2⟩

theorem Writes.with_ptr (h : Writes a a' r) (n : Nat) : Writes a { a' with ptr := n } r := h

/-- More bytes are written into the range. -/
theorem Writes.store (h : Writes a a' r) {addr : Nat} {cells : List UInt8} (hstart : r.start ≤ addr)
    (hstop : addr + cells.length ≤ r.stop) : Writes a { a' with mem := storeAt a'.mem addr cells } r := by
  intro i hi
  by_cases hin : addr ≤ i ∧ i < addr + cells.length
  · exact .inl ⟨Nat.le_trans hstart hin.1, Nat.lt_of_lt_of_le hin.2 hstop⟩
  · refine h i fun heq => hi ?_
    dsimp only
    rw [storeAt_outside (by omega), heq]

/-- The header of a new block. -/
theorem addBlock_writes (hl : HeapLegal a.owned heap) {bytes : Nat} (hp : heap bytes = some p) :
    Writes a (a.addBlock p bytes bytes) r := by
  intro i hi
  refine .inr ⟨_, List.mem_cons_self, fun hmem => ?_, ?_⟩
  · have hpos := hl.bytes_pos _ _ hp
    have hap := hl.fresh _ _ hp _ (List.mem_append_left _ (List.mem_map_of_mem hmem))
    obtain hap | hap := hap
    · have hap : p + bytes ≤ p := hap
      omega
    · have hap : p + bytes ≤ p := hap
      omega
  · have hlen : ∀ next, (littleEndian next 8 ++ littleEndian bytes 4).length = 12 := fun next => by
      rw [List.length_append, length_littleEndian, length_littleEndian]
    have h16 : memblockReserve = 16 := rfl
    by_contra hout
    refine hi (storeAt_outside ?_)
    rw [hlen]
    dsimp only at hout
    omega

theorem malloc_writes (h : Inv a live) (hl : HeapLegal a.owned heap) (hs : a.Sized size)
    (hrun : a.malloc size heap = some (p, a')) : Writes a a' r := by
  by_cases hlt : a.has < alignMalloc size
  · have hbs := h.blockSize_eq (hs.block hlt)
    cases halloc : a.alloc with
    | false =>
      cases hi : a.initial with
      | none =>
        rw [malloc_refused hlt (by rw [allocBlock, halloc, hi]; rfl)] at hrun
        cases hrun
        exact .of_mem_eq rfl
      | some i =>
        rw [malloc_slow hlt, allocBlock, halloc, hi] at hrun
        cases hrun
    | true =>
      cases hp : heap (a.blockSize (alignMalloc size)) with
      | none =>
        rw [malloc_refused hlt (allocBlock_refused halloc hp)] at hrun
        cases hrun
        exact .of_mem_eq rfl
      | some block =>
        obtain ⟨-, hhas⟩ := h.addBlock hl hp (by omega)
        have hwrites : Writes a _ r := addBlock_writes hl hp
        have hgrant := allocBlock_granted halloc hp
        generalize a.addBlock block (a.blockSize (alignMalloc size)) (a.blockSize (alignMalloc size)) = b at *
        have hroom : alignMalloc size ≤ b.has := by
          rw [hhas, hbs]
          omega
        rw [malloc_granted hlt hgrant hroom] at hrun
        cases hrun
        exact hwrites.with_ptr _
  · rw [malloc_fast (Nat.le_of_not_lt hlt)] at hrun
    cases hrun
    exact .of_mem_eq rfl

/-- **`hpb_Arena_Realloc`** writes to nothing but what it returns. -/
theorem realloc_writes (h : Inv a live) (hl : HeapLegal a.owned heap) (hs : a.Sized size) {ptr oldsize : Nat}
    (hrun : a.realloc ptr oldsize size heap = some (p, a')) : Writes a a' ⟨p, p + alignMalloc size⟩ := by
  have hmove : ∀ o, a.moveTo ptr o (alignMalloc size) heap = some (p, a') →
      Writes a a' ⟨p, p + alignMalloc size⟩ := by
    intro o hr
    rw [moveTo, malloc_align] at hr
    obtain ⟨⟨q, b⟩, hq, hr⟩ := Option.bind_eq_some_iff.mp hr
    have hb := malloc_writes (r := ⟨q, q + alignMalloc size⟩) h hl hs hq
    dsimp only at hr
    split at hr
    · cases hr
      refine hb.store (Nat.le_refl _) ?_
      rw [length_loadAt]
      exact Nat.add_le_add_left (Nat.min_le_right _ _) _
    · cases hr
      exact hb
  rw [realloc] at hrun
  dsimp only at hrun
  split at hrun
  · split at hrun
    · cases hrun
      exact .of_mem_eq rfl
    · exact hmove _ hrun
  · split at hrun
    · cases hrun
      exact .of_mem_eq rfl
    · exact hmove _ hrun

/-- What the arena's other clients see of a call, they see with one more allocation. -/
theorem call_append {P : Arena → Nat → (Nat → Option Nat) → Prop} {z : LiveAlloc} {c : ArenaCall}
    {s' : Arena × List LiveAlloc} (hc : Callable P (a, live) c) (hrun : call (a, live) c = some (p, s')) :
    Callable P (a, live ++ [z]) c ∧ call (a, live ++ [z]) c = some (p, s'.1, s'.2 ++ [z]) := by
  cases c with
  | malloc size heap =>
    refine ⟨hc, ?_⟩
    obtain ⟨r, hr, hrun⟩ := Option.bind_eq_some_iff.mp hrun
    cases hrun
    refine Option.bind_eq_some_iff.mpr ⟨r, hr, ?_⟩
    dsimp only
    split <;> rfl
  | realloc k size heap =>
    refine ⟨hc, ?_⟩
    cases k with
    | none =>
      obtain ⟨r, hr, hrun⟩ := Option.bind_eq_some_iff.mp hrun
      cases hrun
      refine Option.bind_eq_some_iff.mpr ⟨r, hr, ?_⟩
      dsimp only
      split <;> rfl
    | some k =>
      obtain ⟨x, hx, hrun⟩ := Option.bind_eq_some_iff.mp hrun
      obtain ⟨r, hr, hrun⟩ := Option.bind_eq_some_iff.mp hrun
      cases hrun
      have hk := (List.getElem?_eq_some_iff.mp hx).1
      dsimp only at hx hk
      refine Option.bind_eq_some_iff.mpr ⟨x, by dsimp only; rw [List.getElem?_append_left hk, hx], ?_⟩
      refine Option.bind_eq_some_iff.mpr ⟨r, hr, ?_⟩
      dsimp only
      split
      · rfl
      · rw [List.set_append_left _ _ hk]
        rfl
  | shrinkLast k size =>
    obtain ⟨hsize, x, hx, hend⟩ := hc
    have hk := (List.getElem?_eq_some_iff.mp hx).1
    dsimp only at hx hk
    have hx' : (live ++ [z])[k]? = some x := by rw [List.getElem?_append_left hk, hx]
    refine ⟨⟨hsize, x, hx', hend⟩, ?_⟩
    obtain ⟨y, hy, hrun⟩ := Option.bind_eq_some_iff.mp hrun
    cases hrun
    dsimp only at hy
    refine Option.bind_eq_some_iff.mpr ⟨y, by dsimp only; rw [List.getElem?_append_left hk, hy], ?_⟩
    dsimp only
    rw [List.set_append_left _ _ hk]
    rfl

/-- A block is smaller than `PTRDIFF_MAX`, with its header. -/
theorem Inv.region_lt (h : Inv a live) (hr : r ∈ a.regions) : r.stop + 16 < r.start + 2 ^ 63 := by
  obtain hr | hr := List.mem_append.mp hr
  · obtain ⟨b, hb, rfl⟩ := List.mem_map.mp hr
    have hb := h.blocks b hb
    have hreal := hb.real_le
    have hlt := hb.bytes_lt
    change b.addr + b.real + 16 < b.addr + 16 + 2 ^ 63
    omega
  · obtain ⟨i, hi, rfl⟩ := List.mem_map.mp hr
    have hi := h.initial i (Option.mem_toList.mp hi)
    have hlt := hi.size_lt
    have hle := hi.arena_le
    have h56 : sizeofArena = 56 := rfl
    dsimp only
    omega

end Writes

section Closed

variable {a a' : Arena} {size p : Nat} {heap : Nat → Option Nat} {R : Arena → Prop}

/-- What moving `head.ptr` and adding a granted block keep. -/
theorem mallocRec_keeps (hptr : ∀ a n, R a → R { a with ptr := n })
    (hadd : ∀ a n p, heap n = some p → R a → R (a.addBlock p n n)) (n : Nat) (ha : R a)
    (hrun : mallocRec n a size heap = some (p, a')) : R a' := by
  induction n generalizing a size with
  | zero => cases hrun
  | succ n ih =>
    rw [mallocRec] at hrun
    dsimp only at hrun
    split at hrun
    · obtain ⟨⟨ok, b⟩, hb, hrun⟩ := Option.bind_eq_some_iff.mp hrun
      have hRb : R b := by
        rw [allocBlock] at hb
        split at hb
        · cases hb
          exact ha
        · split at hb
          · cases hb
          · split at hb
            · cases hb
              exact ha
            next block hblock =>
              cases hb
              exact hadd _ _ _ hblock ha
      dsimp only at hrun
      split at hrun
      · exact ih hRb hrun
      · cases hrun
        exact hRb
    · cases hrun
      exact hptr _ _ ha

/-- The same for `hpb_Arena_Realloc`, which also writes. -/
theorem realloc_keeps (hptr : ∀ a n, R a → R { a with ptr := n })
    (hadd : ∀ a n p, heap n = some p → R a → R (a.addBlock p n n))
    (hmem : ∀ (a : Arena) (m : Nat → UInt8), R a → R { a with mem := m }) {ptr oldsize : Nat} (ha : R a)
    (hrun : a.realloc ptr oldsize size heap = some (p, a')) : R a' := by
  have hmove : ∀ o s, a.moveTo ptr o s heap = some (p, a') → R a' := by
    intro o s hr
    obtain ⟨⟨q, b⟩, hq, hr⟩ := Option.bind_eq_some_iff.mp hr
    have hb := mallocRec_keeps hptr hadd 2 ha hq
    dsimp only at hr
    split at hr
    · cases hr
      exact hmem _ _ hb
    · cases hr
      exact hb
  rw [realloc] at hrun
  dsimp only at hrun
  split at hrun
  · split at hrun
    · cases hrun
      exact hptr _ _ ha
    · exact hmove _ _ hrun
  · split at hrun
    · cases hrun
      exact ha
    · exact hmove _ _ hrun

/-- **No region is as large as `PTRDIFF_MAX`**, whatever was asked for. -/
theorem realloc_region_lt (hl : ∀ n p, heap n = some p → n < 2 ^ 63) {ptr oldsize : Nat}
    (ha : ∀ r ∈ a.regions, r.stop + 16 < r.start + 2 ^ 63)
    (hrun : a.realloc ptr oldsize size heap = some (p, a')) : ∀ r ∈ a'.regions, r.stop + 16 < r.start + 2 ^ 63 := by
  refine realloc_keeps (R := fun a => ∀ r ∈ a.regions, r.stop + 16 < r.start + 2 ^ 63) (fun _ _ h => h) ?_
    (fun _ _ h => h) ha hrun
  intro b n q hq hb
  refine List.forall_mem_cons.mpr ⟨?_, hb⟩
  have hlt := hl n q hq
  change q + n + 16 < q + 16 + 2 ^ 63
  omega

end Closed

section Crash

variable {a : Arena} {live : List LiveAlloc} {size : Nat} {x : LiveAlloc} {heap : Nat → Option Nat}

/-- `hpb_Arena_Realloc` needs no other block. -/
def Room (a : Arena) (ptr oldsize size : Nat) : Prop :=
  if ptr + alignMalloc oldsize = a.ptr then ptr + alignMalloc size ≤ a.endPtr
  else alignMalloc size ≤ alignMalloc oldsize ∨ alignMalloc size ≤ a.has

theorem malloc_eq_none (h : Inv a live) (hl : HeapLegal a.owned heap) (hs : a.Sized size) :
    a.malloc size heap = none ↔ a.has < alignMalloc size ∧ a.alloc = false ∧ a.initial ≠ none := by
  constructor
  · intro hrun
    obtain ⟨-, halloc, hi⟩ | hrun' | ⟨p, a', hrun', -⟩ := malloc_run h hl hs
    · refine ⟨?_, halloc, Option.isSome_iff_ne_none.mp hi⟩
      by_contra hge
      rw [malloc_fast (Nat.le_of_not_lt hge)] at hrun
      cases hrun
    · rw [hrun] at hrun'
      cases hrun'
    · rw [hrun] at hrun'
      cases hrun'
  · rintro ⟨hlt, halloc, hi⟩
    obtain ⟨i, hi⟩ := Option.ne_none_iff_exists'.mp hi
    rw [malloc_slow hlt, allocBlock, halloc, hi]
    rfl

/-- **The call through a null pointer**: a fixed-size arena in an initial block that has no room. -/
theorem realloc_eq_none (h : Inv a live) (hl : HeapLegal a.owned heap) (hs : a.Sized size)
    (hlarge : alignMalloc size < 2 ^ 63) (hx : x ∈ live) :
    a.realloc x.ptr x.size size heap = none ↔ ¬a.Room x.ptr x.size size ∧ a.alloc = false ∧ a.initial ≠ none := by
  obtain ⟨o, ho, hw⟩ := h.live_owned hx
  have hstop : x.ptr + alignMalloc x.size ≤ o.stop := hw.2
  have hmod : (x.ptr + alignMalloc x.size) % 2 ^ 64 = x.ptr + alignMalloc x.size :=
    Nat.mod_eq_of_lt (Nat.lt_of_le_of_lt hstop (h.owned_lt ho).1)
  have hmove : a.moveTo x.ptr (alignMalloc x.size) (alignMalloc size) heap = none ↔
      a.has < alignMalloc size ∧ a.alloc = false ∧ a.initial ≠ none := by
    rw [← malloc_eq_none h hl hs, moveTo, malloc_align]
    cases a.malloc size heap with
    | none => exact iff_of_true rfl rfl
    | some r =>
      refine iff_of_false ?_ (Option.some_ne_none r)
      dsimp only [Option.bind_eq_bind, Option.bind_some]
      split <;> exact Option.some_ne_none _
  rw [realloc, Room]
  dsimp only
  rw [hmod]
  by_cases hrecent : x.ptr + alignMalloc x.size = a.ptr
  · rw [if_pos hrecent, if_pos hrecent]
    by_cases hroom : x.ptr + alignMalloc size ≤ a.endPtr
    · rw [if_pos ((h.room_iff hx hrecent hlarge).mpr hroom)]
      exact iff_of_false (Option.some_ne_none _) fun hc => hc.1 hroom
    · rw [if_neg (mt (h.room_iff hx hrecent hlarge).mp hroom), hmove, h.has_eq]
      have hle := h.ptr_le
      have hlt : a.endPtr - a.ptr < alignMalloc size := by omega
      exact and_congr_left fun _ => iff_of_true hlt hroom
  · rw [if_neg hrecent, if_neg hrecent]
    by_cases hshrink : alignMalloc size ≤ alignMalloc x.size
    · rw [if_pos hshrink]
      exact iff_of_false (Option.some_ne_none _) fun hc => hc.1 (.inl hshrink)
    · rw [if_neg hshrink, hmove]
      exact and_congr_left fun _ => ⟨fun hlt hc => hc.elim hshrink (Nat.not_le.mpr hlt), fun hc => by omega⟩

end Crash

section Split

variable {a : Arena} {live : List LiveAlloc} {z : LiveAlloc} {p m n : Nat}

/-- One more allocation, behind all others in the list. -/
theorem Inv.append (h : Inv a live) (hsize : z.size + 7 < 2 ^ 64)
    (hplace : z.ptr % 8 = 0 ∧ 0 < z.ptr ∧ ∃ r ∈ a.regions, z.range.Within r) (hbehind : a.Behind z)
    (hsep : ∀ y ∈ live, Separate z y) : Inv a (live ++ [z]) := by
  have hall : ∀ {P : LiveAlloc → Prop}, (∀ y ∈ live, P y) → P z → ∀ y ∈ live ++ [z], P y := by
    intro P hlive hz y hy
    obtain hy | hy := List.mem_append.mp hy
    · exact hlive y hy
    · rwa [List.mem_singleton.mp hy]
  have hcases : ∀ {j : Nat} {y : LiveAlloc}, (live ++ [z])[j]? = some y →
      live[j]? = some y ∨ j = live.length ∧ y = z := by
    intro j y hy
    obtain hlt | hge := Nat.lt_or_ge j live.length
    · rw [List.getElem?_append_left hlt] at hy
      exact .inl hy
    · rw [List.getElem?_append_right hge, List.getElem?_singleton] at hy
      split at hy
      · cases hy
        exact .inr ⟨by omega, rfl⟩
      · cases hy
  refine { h with
    sizes := hall h.sizes hsize
    places := hall h.places hplace
    behind := hall h.behind hbehind
    separate := ?_ }
  intro i j x y hij hx hy
  obtain hx' | ⟨rfl, rfl⟩ := hcases hx
  · obtain hy' | ⟨rfl, rfl⟩ := hcases hy
    · exact h.separate i j x y hij hx' hy'
    · exact (hsep x (List.mem_of_getElem? hx')).symm
  · obtain hy' | ⟨rfl, rfl⟩ := hcases hy
    · exact hsep y (List.mem_of_getElem? hy')
    · exact absurd rfl hij

/-- **An allocation in two parts**, of which the first one has a whole number of words. -/
theorem Inv.split (h : Inv a (⟨p, m + n⟩ :: live)) (hm : m % 8 = 0) : Inv a (⟨p, m⟩ :: live ++ [⟨p + m, n⟩]) := by
  have hsize : m + n + 7 < 2 ^ 64 := h.sizes _ List.mem_cons_self
  obtain ⟨haligned, hpos, r, hr, hstart, hstop⟩ := h.places _ List.mem_cons_self
  have hbehind := h.behind _ List.mem_cons_self
  have hwhole : alignMalloc (m + n) = m + alignMalloc n := by
    rw [alignMalloc_eq (by omega), alignMalloc_eq (by omega)]
    omega
  have hfirst : alignMalloc m = m := by
    rw [alignMalloc_eq (by omega)]
    omega
  have hw₁ : AddrRange.Within (LiveAlloc.range ⟨p, m⟩) (LiveAlloc.range ⟨p, m + n⟩) := by
    refine ⟨Nat.le_refl _, ?_⟩
    change p + alignMalloc m ≤ p + alignMalloc (m + n)
    omega
  have hw₂ : AddrRange.Within (LiveAlloc.range ⟨p + m, n⟩) (LiveAlloc.range ⟨p, m + n⟩) := by
    refine ⟨Nat.le_add_right _ _, ?_⟩
    change p + m + alignMalloc n ≤ p + alignMalloc (m + n)
    omega
  -- a part is as far from the others as the whole, or has no bytes
  have hpart : ∀ z : LiveAlloc, z.range.Within (LiveAlloc.range ⟨p, m + n⟩) → alignMalloc z.size ≤ alignMalloc (m + n) →
      a.Behind z ∧ ∀ y ∈ live, Separate z y := by
    intro z hz hle
    refine ⟨?_, fun y hy => ?_⟩
    · obtain hb | hb | hb := hbehind
      · exact .inl (Nat.le_zero.mp (hb ▸ hle))
      · exact .inr (.inl (Nat.le_trans hz.2 hb))
      · exact .inr (.inr (Nat.le_trans hb hz.1))
    · obtain ⟨j, hy⟩ := List.mem_iff_getElem?.mp hy
      obtain hs | hs | hs := h.separate 0 (j + 1) ⟨p, m + n⟩ y (by omega) rfl hy
      · exact .inl (Nat.le_zero.mp (hs ▸ hle))
      · exact .inr (.inl hs)
      · exact .inr (.inr (hz.apart hs))
  have h₁ := hpart ⟨p, m⟩ hw₁ (by dsimp only; omega)
  have h₂ := hpart ⟨p + m, n⟩ hw₂ (by dsimp only; omega)
  have hinv := h.replace (k := 0) (z := ⟨p, m⟩) (by dsimp only; omega)
    ⟨haligned, hpos, r, hr, hstart, Nat.le_trans hw₁.2 hstop⟩ h₁.1 fun j y hj hy => by
      obtain _ | j := j
      · exact absurd rfl hj
      · exact h₁.2 y (List.mem_of_getElem? hy)
  refine hinv.append (by dsimp only; omega) ⟨?_, ?_, r, hr, ?_⟩ h₂.1 ?_
  · have haligned : p % 8 = 0 := haligned
    dsimp only
    omega
  · exact Nat.add_pos_left hpos m
  · exact hw₂.trans ⟨hstart, hstop⟩
  · refine List.forall_mem_cons.mpr ⟨.inr (.inr (.inr ?_)), h₂.2⟩
    change p + alignMalloc m ≤ p + m
    omega

end Split

end Arena

end Hpb
