import Hpb.Collections.ArrayRealloc

/-!
# The calls of an array

`hpb_Array_Resize`, `hpb_Array_Append`, `hpb_Array_Insert`, `hpb_Array_Delete`, `hpb_Array_Set` and
`_hpb_array_realloc` on one array, between calls of others on the same arena. As long as requests fit, each call
returns and writes to nothing but the array's own allocation (`array_calls`).
-/

namespace Hpb

/-- The calls of an array; `heap` is what `hpb_malloc` answers. -/
inductive ArrayCall where
  | realloc (minCapacity : Nat) (heap : Nat → Option Nat)
  | resize (size : Nat) (heap : Nat → Option Nat)
  | append (val : List UInt8) (heap : Nat → Option Nat)
  | insert (i count : Nat) (heap : Nat → Option Nat)
  | delete (i count : Nat)
  | set (i : Nat) (val : List UInt8)

namespace ArrayCall

/-- One call: what it returns, the array and the arena then. -/
def run (arr : HpbArray) (a : Arena) : ArrayCall → Option (Bool × HpbArray × Arena)
  | .realloc minCapacity heap => arr.realloc minCapacity a heap
  | .resize size heap => arr.resize size a heap
  | .append val heap => arr.append val a heap
  | .insert i count heap => arr.insert i count a heap
  | .delete i count =>
    let (arr, a) := arr.delete i count a
    some (true, arr, a)
  | .set i val => some (true, arr, arr.set i val a)

/-- `hpb_malloc` keeps its promise, and a request above the capacity fits. -/
def Grows (arr : HpbArray) (a : Arena) (size : Nat) (heap : Nat → Option Nat) : Prop :=
  Arena.HeapLegal a.owned heap ∧ (arr.capacity < size → arr.Fits size a heap)

/-- What the code asserts of its arguments, and the condition on requests. -/
def Allowed (arr : HpbArray) (a : Arena) : ArrayCall → Prop
  | .realloc minCapacity heap => Arena.HeapLegal a.owned heap ∧ arr.Fits minCapacity a heap
  | .resize size heap => Grows arr a size heap
  | .append val heap => val.length = 16 ∧ Grows arr a (arr.size + 1) heap
  | .insert i count heap => i ≤ arr.size ∧ arr.size + count < 2 ^ 64 ∧ Grows arr a (arr.size + count) heap
  | .delete i count => i + count ≤ arr.size
  | .set i val => i < arr.size ∧ val.length = 16

end ArrayCall

/-- An array, its arena and the allocations of others in it. -/
structure ArrayState where
  arena : Arena
  others : List LiveAlloc
  arr : HpbArray

namespace ArrayState

/-- Requests of others whose sizes do not wrap around. -/
def Others (a : Arena) (size : Nat) (_ : Nat → Option Nat) : Prop := a.Sized size

/-- A call of the array, or of another client of the arena. -/
def step (s : ArrayState) : ArrayCall ⊕ ArenaCall → Option (Bool × ArrayState)
  | .inl c => do
    let (ok, arr, a) ← c.run s.arr s.arena
    return (ok, ⟨a, s.others, arr⟩)
  | .inr c => do
    let (_, a, others) ← Arena.call (s.arena, s.others) c
    return (true, ⟨a, others, s.arr⟩)

/-- The array with its arena as a system; it stands for nothing but itself. -/
def calls : CallSystem ArrayState Unit (ArrayCall ⊕ ArenaCall) Bool where
  step := step
  Allowed s
    | .inl c => c.Allowed s.arr s.arena
    | .inr c => Arena.Callable Others (s.arena, s.others) c
  GivesUp _ _ := False
  next _ _ _ := ()
  Answers _ _ _ _ := True

/-- An array that was just made in an arena; its own header is an allocation of its own. -/
def Fresh (s : ArrayState) : Prop :=
  ∃ a live initCapacity lg2 heap, (Arena.calls Others).Reached Arena.Fresh (a, live) ∧
    Arena.HeapLegal a.owned heap ∧ lg2 ≤ 4 ∧ a.Sized (sizeofArray + initCapacity * 2 ^ lg2) ∧
    HpbArray.new a initCapacity lg2 heap = some (some s.arr, s.arena) ∧
    s.others = ⟨s.arr.ptr - sizeofArray, sizeofArray⟩ :: live

end ArrayState

section Calls

variable {a a' : Arena} {others : List LiveAlloc} {arr arr' : HpbArray} {size i : Nat} {heap : Nat → Option Nat}

theorem ArrayInv.shift_eq (h : ArrayInv a others arr) (hi : i ≤ arr.capacity) : arr.shift i = i * 2 ^ arr.lg2 := by
  have hb := h.bytes.1
  have hle : i * 2 ^ arr.lg2 ≤ arr.capacity * 2 ^ arr.lg2 := Nat.mul_le_mul_right _ hi
  exact Nat.mod_eq_of_lt (by omega)

theorem ArrayInv.elem_eq (h : ArrayInv a others arr) (hi : i ≤ arr.capacity) :
    arr.elem i = arr.ptr + i * 2 ^ arr.lg2 := by
  have hb := h.bytes.2
  have hle : i * 2 ^ arr.lg2 ≤ arr.capacity * 2 ^ arr.lg2 := Nat.mul_le_mul_right _ hi
  rw [HpbArray.elem, h.shift_eq hi]
  exact Nat.mod_eq_of_lt (by omega)

/-- What every call leaves: the array in its memory, and no byte of others changed. -/
structure Stays (a : Arena) (others : List LiveAlloc) (arr' : HpbArray) (a' : Arena) : Prop where
  inv : ArrayInv a' others arr'
  writes : a.Writes a' arr'.alloc.range

theorem ArrayInv.stays (h : ArrayInv a others arr) : Stays a others arr a := ⟨h, .of_mem_eq rfl⟩

theorem Stays.with_size (h : Stays a others arr' a') (hsize : size ≤ arr'.capacity) :
    Stays a others { arr' with size := size } a' :=
  ⟨⟨h.inv.arena, h.inv.lg2_le, hsize⟩, h.writes⟩

/-- **Elements are written**, none of them behind the capacity. -/
theorem Stays.store (h : Stays a others arr' a') {cells : List UInt8} {n : Nat} (hn : i + n ≤ arr'.capacity)
    (hcells : cells.length ≤ n * 2 ^ arr'.lg2) :
    Stays a others arr' { a' with mem := storeAt a'.mem (arr'.elem i) cells } := by
  have hle := Arena.le_alignMalloc (h.inv.arena.sizes _ arr'.alloc_mem)
  have hle : arr'.capacity * 2 ^ arr'.lg2 ≤ alignMalloc (arr'.capacity * 2 ^ arr'.lg2) := hle
  have hmul : i * 2 ^ arr'.lg2 + n * 2 ^ arr'.lg2 ≤ arr'.capacity * 2 ^ arr'.lg2 := by
    rw [← Nat.add_mul]
    exact Nat.mul_le_mul_right _ hn
  refine ⟨⟨h.inv.arena.with_mem _, h.inv.lg2_le, h.inv.size_le⟩, ?_⟩
  rw [h.inv.elem_eq (by omega)]
  refine h.writes.store (Nat.le_add_right _ _) ?_
  change arr'.ptr + i * 2 ^ arr'.lg2 + cells.length ≤ arr'.ptr + alignMalloc (arr'.capacity * 2 ^ arr'.lg2)
  omega

theorem ArrayInv.reserve_fits (h : ArrayInv a others arr) (hg : ArrayCall.Grows arr a size heap) :
    arr.reserve size a heap = some (false, arr, a) ∨
      ∃ arr' a', arr.reserve size a heap = some (true, arr', a') ∧ Reallocated a others arr size arr' a' := by
  rw [HpbArray.reserve]
  by_cases hlt : arr.capacity < size
  · rw [if_pos hlt]
    exact h.realloc_fits hg.1 (hg.2 hlt)
  · rw [if_neg hlt]
    exact .inr ⟨arr, a, rfl, h.arena, .of_mem_eq rfl, Nat.le_refl _, Nat.le_of_not_lt hlt, rfl, rfl⟩

/-- **`hpb_Array_Resize`** of a size that fits. -/
theorem ArrayInv.resize_fits (h : ArrayInv a others arr) (hg : ArrayCall.Grows arr a size heap) :
    arr.resize size a heap = some (false, arr, a) ∨
      ∃ arr' a', arr.resize size a heap = some (true, arr', a') ∧ arr'.size = size ∧ arr'.lg2 = arr.lg2 ∧
        Stays a others arr' a' := by
  obtain hrun | ⟨arr', a', hrun, hr⟩ := h.reserve_fits hg
  · refine .inl ?_
    rw [HpbArray.resize, HpbArray.resizeUninitialized, hrun]
    rfl
  · have hstays : Stays a others { arr' with size := size } a' :=
      Stays.with_size ⟨hr.arrayInv h, hr.writes⟩ hr.min_le
    refine .inr ?_
    rw [HpbArray.resize, HpbArray.resizeUninitialized, hrun]
    simp only [Option.bind_eq_bind, Option.bind_some, Option.pure_def, if_true, Bool.not_true, Bool.false_eq_true,
      if_false]
    by_cases hlt : arr.size < size
    · rw [if_pos hlt]
      refine ⟨_, _, rfl, rfl, hr.lg2_eq, hstays.store (n := size - arr.size) ?_ ?_⟩
      · have hmin := hr.min_le
        dsimp only
        omega
      · rw [List.length_replicate]
        exact Nat.mod_le _ _
    · rw [if_neg hlt]
      exact ⟨_, _, rfl, rfl, hr.lg2_eq, hstays⟩

/-- **Every call** returns, and fails without a change or leaves the array in its memory. -/
theorem ArrayInv.run (h : ArrayInv a others arr) {c : ArrayCall} (hc : c.Allowed arr a) :
    ∃ ok arr' a', c.run arr a = some (ok, arr', a') ∧ (ok = false → arr' = arr ∧ a' = a) ∧ Stays a others arr' a' := by
  have htrue : ∀ {P : Prop}, true = false → P := fun heq => absurd heq.symm Bool.false_ne_true
  have hb := h.bytes.1
  have hcap := le_mul_two_pow arr.capacity arr.lg2
  have hsize := h.size_le
  cases c with
  | realloc minCapacity heap =>
    obtain hrun | ⟨arr', a', hrun, hr⟩ := h.realloc_fits hc.1 hc.2
    · exact ⟨_, _, _, hrun, fun _ => ⟨rfl, rfl⟩, h.stays⟩
    · exact ⟨_, _, _, hrun, htrue, hr.arrayInv h, hr.writes⟩
  | resize size heap =>
    obtain hrun | ⟨arr', a', hrun, -, -, hs⟩ := h.resize_fits hc
    · exact ⟨_, _, _, hrun, fun _ => ⟨rfl, rfl⟩, h.stays⟩
    · exact ⟨_, _, _, hrun, htrue, hs⟩
  | append val heap =>
    obtain ⟨-, hg⟩ := hc
    have hmod : (arr.size + 1) % 2 ^ 64 = arr.size + 1 := Nat.mod_eq_of_lt (by omega)
    rw [ArrayCall.run, HpbArray.append, hmod]
    obtain hrun | ⟨arr', a', hrun, hsize', -, hs⟩ := h.resize_fits hg
    · rw [hrun]
      exact ⟨_, _, _, rfl, fun _ => ⟨rfl, rfl⟩, h.stays⟩
    · rw [hrun]
      refine ⟨_, _, _, rfl, htrue, hs.store (n := 1) ?_ ?_⟩
      · have := hs.inv.size_le
        omega
      · rw [List.length_take, Nat.one_mul]
        exact Nat.min_le_left _ _
  | insert i count heap =>
    obtain ⟨hi, hlt, hg⟩ := hc
    have hmod : (arr.size + count) % 2 ^ 64 = arr.size + count := Nat.mod_eq_of_lt hlt
    have hmod' : (i + count) % 2 ^ 64 = i + count := Nat.mod_eq_of_lt (by omega)
    rw [ArrayCall.run, HpbArray.insert, hmod, hmod']
    obtain hrun | ⟨arr', a', hrun, hsize', hlg2, hs⟩ := h.resize_fits hg
    · rw [hrun]
      exact ⟨_, _, _, rfl, fun _ => ⟨rfl, rfl⟩, h.stays⟩
    · rw [hrun]
      refine ⟨_, _, _, rfl, htrue, hs.store (n := arr.size - i) ?_ ?_⟩
      · have := hs.inv.size_le
        omega
      · rw [length_loadAt]
        exact Nat.mod_le _ _
  | delete i count =>
    have hc : i + count ≤ arr.size := hc
    have hmod : (i + count) % 2 ^ 64 = i + count := Nat.mod_eq_of_lt (by omega)
    rw [ArrayCall.run, HpbArray.delete, hmod]
    refine ⟨_, _, _, rfl, htrue, Stays.with_size (h.stays.store (n := arr.size - (i + count)) ?_ ?_) ?_⟩
    · omega
    · rw [length_loadAt]
      exact Nat.mod_le _ _
    · omega
  | set i val =>
    obtain ⟨hi, -⟩ := hc
    refine ⟨_, _, _, rfl, htrue, h.stays.store (n := 1) ?_ ?_⟩
    · omega
    · rw [List.length_take, Nat.one_mul]
      exact Nat.min_le_left _ _

theorem ArrayState.fresh_inv {s : ArrayState} (h : s.Fresh) : ArrayInv s.arena s.others s.arr := by
  obtain ⟨arena, others, arr⟩ := s
  obtain ⟨a, live, initCapacity, lg2, heap, hreached, hl, hlg2, hsized, hnew, hothers⟩ := h
  have hinv := Arena.calls_reached (fun _ _ _ hs => hs) hreached
  have hrounds := hsized.rounds
  have h24 : sizeofArray = 24 := rfl
  have hbytes : (sizeofArray + initCapacity * 2 ^ lg2 % 2 ^ 64) % 2 ^ 64 = sizeofArray + initCapacity * 2 ^ lg2 := by
    rw [Nat.add_mod_mod]
    exact Nat.mod_eq_of_lt (by omega)
  rw [HpbArray.new, hbytes] at hnew
  obtain ⟨hnone, -⟩ | hnull | ⟨p, a', hsome, hp, hinv', -⟩ := Arena.malloc_run hinv hl hsized
  · rw [hnone] at hnew
    cases hnew
  · rw [hnull] at hnew
    cases hnew
  · rw [hsome] at hnew
    dsimp only [Option.bind_eq_bind, Option.bind_some] at hnew
    rw [if_neg hp] at hnew
    cases hnew
    -- the header and the elements are two parts of one allocation
    have hsplit := hinv'.split rfl
    obtain ⟨-, -, r, hr, -, hstop⟩ := hinv'.places _ List.mem_cons_self
    obtain ⟨o, ho, hw⟩ := hinv'.region_within hr
    have ho := (hinv'.owned_lt ho).1
    have hw := hw.2
    have hstop : p + alignMalloc (sizeofArray + initCapacity * 2 ^ lg2) ≤ r.stop := hstop
    have hle := Arena.le_alignMalloc hrounds
    have hmod : (p + sizeofArray) % 2 ^ 64 = p + sizeofArray := Nat.mod_eq_of_lt (by omega)
    dsimp only at hothers
    rw [hmod, Nat.add_sub_cancel] at hothers
    dsimp only
    rw [hmod, hothers]
    exact ⟨hsplit, hlg2, Nat.zero_le _⟩

theorem ArrayState.step_inv {s s' : ArrayState} {c : ArrayCall ⊕ ArenaCall} {ok : Bool}
    (h : ArrayInv s.arena s.others s.arr) (hc : calls.Allowed s c) (hrun : s.step c = some (ok, s')) :
    ArrayInv s'.arena s'.others s'.arr := by
  cases c with
  | inl c =>
    obtain ⟨ok', arr', a', hrun', -, hs⟩ := h.run hc
    rw [step, hrun'] at hrun
    cases hrun
    exact hs.inv
  | inr c =>
    obtain ⟨⟨p, a', others'⟩, hcall, hrun⟩ := Option.bind_eq_some_iff.mp hrun
    cases hrun
    obtain ⟨hc', hcall'⟩ := Arena.call_append (z := s.arr.alloc) hc hcall
    exact ⟨Arena.call_inv (fun _ _ _ hs => hs) h.arena hc' hcall', h.lg2_le, h.size_le⟩

/-- **Every array that is reached** is in its own memory. -/
theorem ArrayState.reached_inv {s : ArrayState} (h : calls.Reached Fresh s) : ArrayInv s.arena s.others s.arr :=
  h.invariant (I := fun s => ArrayInv s.arena s.others s.arr) (fun _ => fresh_inv) fun _ _ _ _ => step_inv

end Calls

/-- **The reallocation of an array**, in every state that calls whose requests fit reach: `_hpb_array_realloc` is
right for exactly the requests that fit; and calls with such requests return, change nothing when they fail, and
write to nothing but the allocation of the array, which is in one block and apart from all others. -/
theorem array_calls {s : ArrayState} (h : ArrayState.calls.Reached ArrayState.Fresh s) :
    (∀ minCapacity < 2 ^ 64, ∀ heap, Arena.HeapLegal s.arena.owned heap →
        (s.arr.ReallocOk minCapacity s.arena heap ↔ s.arr.Fits minCapacity s.arena heap)) ∧
      ∀ c : ArrayCall, c.Allowed s.arr s.arena →
        ∃ ok arr' a', c.run s.arr s.arena = some (ok, arr', a') ∧ (ok = false → arr' = s.arr ∧ a' = s.arena) ∧
          ArrayInv a' s.others arr' ∧ s.arena.Writes a' arr'.alloc.range := by
  have hinv := ArrayState.reached_inv h
  refine ⟨fun minCapacity _ heap hl => hinv.reallocOk_iff hl, fun c hc => ?_⟩
  obtain ⟨ok, arr', a', hrun, hfail, hs⟩ := hinv.run hc
  exact ⟨ok, arr', a', hrun, hfail, hs.inv, hs.writes⟩

/-- An array of four 64-bit elements in a fixed-size arena. -/
def ArrayState.small : ArrayState := ⟨{ Arena.small with ptr := 4152 }, [⟨4096, 24⟩], ⟨4120, 3, 0, 4⟩⟩

theorem ArrayState.small_reached : calls.Reached Fresh small := by
  refine .start ⟨Arena.small, [], 4, 3, fun _ => none, .start Arena.small_fresh,
    ⟨nofun, nofun, nofun, nofun, nofun, nofun⟩, by decide, ⟨by decide, fun hlt => absurd hlt (by decide)⟩, ?_, rfl⟩
  rw [HpbArray.new, Arena.malloc_fast (by decide)]
  rfl

theorem array_calls_small :
    ArrayState.small.arr.ReallocOk 5 ArrayState.small.arena (fun _ => none) ∧
      ∃ arr' a', (ArrayCall.append (List.replicate 16 1) fun _ => none).run ArrayState.small.arr
        ArrayState.small.arena = some (true, arr', a') ∧ arr'.size = 1 := by
  have h := array_calls ArrayState.small_reached
  have hl : Arena.HeapLegal ArrayState.small.arena.owned fun _ => none := ⟨nofun, nofun, nofun, nofun, nofun, nofun⟩
  refine ⟨(h.1 5 (by decide) _ hl).mpr (.inl ⟨1, ⟨by decide, by decide⟩, by decide, .inr (.inr ?_)⟩), ?_⟩
  · rw [Arena.Room, if_pos (by decide)]
    decide
  · obtain ⟨ok, arr', a', hrun, -⟩ := h.2 (.append (List.replicate 16 1) fun _ => none)
      ⟨rfl, hl, fun hlt => absurd hlt (by decide)⟩
    cases hrun
    exact ⟨_, _, rfl, rfl⟩

/-- For 2^61 elements of 8 bytes, the code succeeds with no memory at all; for a little more than half of `SIZE_MAX`
elements it never stops. -/
theorem not_array_calls :
    ArrayState.calls.Reached ArrayState.Fresh ArrayState.small ∧
      (∃ a', ArrayState.small.arr.realloc (2 ^ 61) ArrayState.small.arena (fun _ => none) =
          some (true, ⟨4120, 3, 0, 2 ^ 61⟩, a') ∧ a'.ptr = 4120) ∧
      ¬ArrayState.small.arr.ReallocOk (2 ^ 61) ArrayState.small.arena (fun _ => none) ∧
      (∀ rounds, doubleUntil 64 rounds 4 (2 ^ 63 + 1) = none) ∧
      ¬ArrayState.small.arr.ReallocOk (2 ^ 63 + 1) ArrayState.small.arena fun _ => none := by
  have hinv := ArrayState.reached_inv ArrayState.small_reached
  have hfirst : FirstDoubleMod 64 ArrayState.small.arr.firstCapacity (2 ^ 61) 59 := ⟨by decide, by decide⟩
  have harena : ArrayState.small.arena.realloc 4120 32 0 (fun _ => none) =
      some (4120, { Arena.small with ptr := 4120 }) := by
    rw [Arena.realloc]
    dsimp only
    rw [if_pos (by decide), if_pos (by decide)]
    rfl
  have hrun : ArrayState.small.arr.realloc (2 ^ 61) ArrayState.small.arena (fun _ => none) =
      some (true, ⟨4120, 3, 0, 2 ^ 61⟩, { Arena.small with ptr := 4120 }) := by
    rw [hinv.realloc_eq hfirst]
    have hshift : ArrayState.small.arr.shift (ArrayState.small.arr.firstCapacity * 2 ^ 59 % 2 ^ 64) = 0 := by decide
    have halloc : ArrayState.small.arr.alloc = ⟨4120, 32⟩ := rfl
    rw [hshift, halloc, harena]
    rfl
  have hloop : doubleUntil 64 65 4 (2 ^ 63 + 1) = none := by decide
  refine ⟨ArrayState.small_reached, ⟨_, hrun, rfl⟩, ?_, fun rounds => ?_, ?_⟩
  · rintro ⟨ok, arr', a', hrun', -, htrue⟩
    rw [hrun] at hrun'
    cases hrun'
    exact absurd (htrue rfl).2.1 (by decide)
  · cases h : doubleUntil 64 rounds 4 (2 ^ 63 + 1) with
    | none => rfl
    | some r =>
      obtain ⟨k, -, hk, hr⟩ := (doubleUntil_eq_some (by decide)).mp h
      rw [(doubleUntil_eq_some (by decide)).mpr ⟨k, Nat.lt_succ_of_le hk.le_width, hk, hr⟩] at hloop
      cases hloop
  · rintro ⟨ok, arr', a', hrun', -⟩
    have hfour : max ArrayState.small.arr.capacity 4 = 4 := rfl
    rw [HpbArray.realloc, hfour, hloop] at hrun'
    cases hrun'

end Hpb
