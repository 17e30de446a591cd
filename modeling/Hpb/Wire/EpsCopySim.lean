import Hpb.Wire.EpsCopyInputStream

/-!
# The stream is a flat cursor

`Sim` relates a stream and its pointer to an offset `pos` into the caller's buffer and the innermost
limit `lim`, both absolute. A stream reads one of two places (`Mode`): the caller's buffer, up to
its last 16 bytes, or the patch buffer, which starts with the byte of offset `patchLo`. `Mode.addr`
is the address of an offset and `Mode.endOff` the offset of `e->end`, so that every signed
difference of the source is a difference of offsets:

* `ptr - e->end = pos - endOff` and `e->limit = lim - endOff`; a saved delta is the difference of
  two limits, so it survives the flip;
* the bytes at `ptr` are those at `pos`, as long as they are below `endOff + 16` (`Sim.loadN_run`).

`Flat` is the cursor that the stream stands for: an offset and a stack of limits. A client (`Client`)
calls `IsDone` before it reads, reads at most 16 bytes after it, and pops a limit only when `IsDone`
found it. `stream_simulates_flat` is the result: every such run of the stream gives the events of the
flat cursor, with no invalid access, and enters the patch buffer at most once.
-/

namespace Hpb

open EpsCopyInputStream

/-- Where a stream reads. -/
inductive Mode where
  | caller
  | patch
  deriving DecidableEq

/-- The offset of the first byte of the patch buffer. -/
def Frame.patchLo (fr : Frame) : Nat := fr.size - slopBytes

/-- The address of offset `o`. -/
def Mode.addr (fr : Frame) : Mode → Int → Int
  | .caller, o => fr.base + o
  | .patch, o => fr.patch + (o - fr.patchLo)

/-- The offset of `e->end`. -/
def Mode.endOff (fr : Frame) : Mode → Nat
  | .caller => fr.size - slopBytes
  | .patch => fr.size

/-- The offset of the first byte that can be read. -/
def Mode.lo (fr : Frame) : Mode → Nat
  | .caller => 0
  | .patch => fr.patchLo

/-- `e->aliasing` of a stream that was opened with `enable_aliasing = al`. -/
def Mode.aliasing (fr : Frame) (al : Bool) : Mode → Int
  | .caller => if al then noDelta else noAliasing
  | .patch => if al then uintptr (fr.base + fr.patchLo - fr.patch) else noAliasing

/-- The stream `e` with pointer `ptr` stands for offset `pos` with the innermost limit `lim`. -/
structure Sim (fr : Frame) (al : Bool) (m : Mode) (e : EpsCopyInputStream) (ptr : Int)
    (pos lim : Nat) : Prop where
  size_le : fr.size ≤ int32Max
  large : m = .caller → slopBytes < fr.size
  end_eq : e.end_ = m.addr fr (m.endOff fr)
  ptr_eq : ptr = m.addr fr pos
  limit_eq : e.limit = lim - m.endOff fr
  limitPtr_eq : e.limitPtr = e.end_ + min 0 e.limit
  lo_le : m.lo fr ≤ pos
  pos_le : pos ≤ m.endOff fr + slopBytes
  lim_le : lim ≤ fr.size
  aliasing_eq : e.aliasing = m.aliasing fr al
  patch_eq : m = .patch →
    e.patch = fr.buf.drop fr.patchLo ++ List.replicate (2 * slopBytes - (fr.size - fr.patchLo)) 0
  noError : e.error = false

/-- The byte at offset `o`, zero past the end of the caller's buffer. -/
def Frame.byteAt (fr : Frame) (o : Nat) : UInt8 := fr.buf.getD o 0

/-- The `n` bytes at offset `o`. -/
def Frame.bytesAt (fr : Frame) (o : Nat) : Nat → List UInt8
  | 0 => []
  | n + 1 => fr.byteAt o :: fr.bytesAt (o + 1) n

theorem Frame.bytesAt_eq (fr : Frame) {o n : Nat} (h : o + n ≤ fr.size) :
    fr.bytesAt o n = (fr.buf.drop o).take n := by
  induction n generalizing o with
  | zero => simp [bytesAt]
  | succ n ih =>
    have ho : o < fr.buf.length := by simp only [size] at h; omega
    rw [bytesAt, ih (by omega), List.drop_eq_getElem_cons ho, List.take_succ_cons, byteAt,
      List.getD_eq_getElem _ _ ho]

theorem patch_getElem (fr : Frame) {o : Nat} (hlo : fr.patchLo ≤ o)
    (ho : o < fr.patchLo + 2 * slopBytes) :
    (fr.buf.drop fr.patchLo ++ List.replicate (2 * slopBytes - (fr.size - fr.patchLo)) 0)[o -
      fr.patchLo]? = some (fr.byteAt o) := by
  have hs : fr.size - fr.patchLo ≤ 2 * slopBytes := by simp only [Frame.patchLo, slopBytes]; omega
  by_cases h : o < fr.size
  · have h' : o < fr.buf.length := h
    rw [List.getElem?_append_left (by simp; omega), List.getElem?_drop,
      show fr.patchLo + (o - fr.patchLo) = o by omega, Frame.byteAt,
      List.getElem?_eq_getElem h', List.getD_eq_getElem _ _ h']
  · have h' : fr.buf.length ≤ o := Nat.le_of_not_lt h
    have hl : (fr.buf.drop fr.patchLo).length = fr.size - fr.patchLo := by simp [Frame.size]
    rw [List.getElem?_append_right (by rw [hl]; omega), hl,
      List.getElem?_replicate_of_lt (by omega), Frame.byteAt, List.getD_eq_default _ _ h']

namespace Sim

variable {fr : Frame} {al : Bool} {m : Mode} {e : EpsCopyInputStream} {ptr : Int} {pos lim : Nat}

/-- The byte at the address of an offset that the stream can read. -/
theorem load_addr (h : Sim fr al m e ptr pos lim) {o : Nat} (hlo : m.lo fr ≤ o)
    (ho : o < m.endOff fr + slopBytes) : load fr e (m.addr fr o) = some (fr.byteAt o) := by
  have hap := fr.apart
  cases m with
  | caller =>
    have hl := h.large rfl
    simp only [Mode.endOff] at ho
    have hs : o < fr.buf.length := by simp only [Frame.size] at ho hl; omega
    have hin : (fr.base : Int) ≤ Mode.addr fr .caller o ∧
        Mode.addr fr .caller o < fr.base + fr.size := by
      simp only [Mode.addr, Frame.size]; omega
    rw [load, if_pos hin, show (Mode.addr fr .caller o - fr.base).toNat = o by simp only [Mode.addr]; omega,
      List.getElem?_eq_getElem hs, Frame.byteAt, List.getD_eq_getElem _ _ hs]
  | patch =>
    simp only [Mode.lo, Mode.endOff] at hlo ho
    have ho' : o < fr.patchLo + 2 * slopBytes := by
      simp only [Frame.patchLo, slopBytes] at ho ⊢; omega
    have hout : ¬((fr.base : Int) ≤ Mode.addr fr .patch o ∧
        Mode.addr fr .patch o < fr.base + fr.size) := by
      simp only [Mode.addr, Frame.size]; omega
    have hin : (fr.patch : Int) ≤ Mode.addr fr .patch o ∧
        Mode.addr fr .patch o < fr.patch + 2 * slopBytes := by
      simp only [Mode.addr]; omega
    rw [load, if_neg hout, if_pos hin, h.patch_eq rfl,
      show (Mode.addr fr .patch o - fr.patch).toNat = o - fr.patchLo by simp only [Mode.addr]; omega]
    exact patch_getElem fr hlo ho'

theorem loadN_addr (h : Sim fr al m e ptr pos lim) {o n : Nat} (hlo : m.lo fr ≤ o)
    (ho : o + n ≤ m.endOff fr + slopBytes) :
    loadN fr e (m.addr fr o) n = some (fr.bytesAt o n) := by
  induction n generalizing o with
  | zero => rfl
  | succ n ih =>
    have hn : m.addr fr o + 1 = m.addr fr (o + 1 : Nat) := by cases m <;> simp [Mode.addr] <;> omega
    rw [loadN, h.load_addr hlo (by omega), hn, ih (by omega) (by omega)]
    rfl

/-- Reading `n` bytes at the pointer. -/
theorem loadN_run (h : Sim fr al m e ptr pos lim) {n : Nat} (hn : pos + n ≤ m.endOff fr + slopBytes) :
    loadN fr e ptr n = some (fr.bytesAt pos n) := by
  rw [h.ptr_eq]; exact h.loadN_addr h.lo_le hn

/-- The pointer moves by what was read. -/
theorem advance (h : Sim fr al m e ptr pos lim) {n : Nat} (hn : pos + n ≤ m.endOff fr + slopBytes) :
    Sim fr al m e (ptr + n) (pos + n) lim :=
  { h with
    ptr_eq := by rw [h.ptr_eq]; cases m <;> simp [Mode.addr] <;> omega
    lo_le := by have := h.lo_le; omega
    pos_le := hn }

/-- `ptr - e->end`. -/
theorem overrun_eq (h : Sim fr al m e ptr pos lim) : ptr - e.end_ = (pos : Int) - m.endOff fr := by
  rw [h.ptr_eq, h.end_eq]; cases m <;> simp only [Mode.addr] <;> omega

/-- The `int` computed from the overrun is exact. -/
theorem toInt32_overrun (h : Sim fr al m e ptr pos lim) :
    toInt32 (ptr - e.end_) = (pos : Int) - m.endOff fr := by
  have h1 := h.size_le
  have h2 := h.pos_le
  rw [h.overrun_eq]
  cases m <;> simp only [Mode.endOff, slopBytes, int32Max] at * <;> apply toInt32_eq <;> omega

theorem lim_le_end (h : Sim fr al m e ptr pos lim) : lim ≤ m.endOff fr + slopBytes := by
  have := h.lim_le
  cases m with
  | caller => simp only [Mode.endOff, slopBytes]; omega
  | patch => simp only [Mode.endOff]; omega

/-- A stream in the patch buffer has no byte after the end of the data, so its limit is not past
`e->end`. -/
theorem limit_nonpos (h : Sim fr al .patch e ptr pos lim) : e.limit ≤ 0 := by
  have h1 := h.limit_eq
  have h2 := h.lim_le
  simp only [Mode.endOff] at h1
  omega

theorem checkSize_eq (h : Sim fr al m e ptr pos lim) (size : Nat) :
    checkSize e ptr size = decide (pos + size ≤ lim) := by
  have := h.overrun_eq
  have := h.limit_eq
  simp only [checkSize, decide_eq_decide]
  omega

/-- A size that passes `CheckSize` is available: the buffer is flat. -/
theorem available (h : Sim fr al m e ptr pos lim) {size : Nat} (hs : pos + size ≤ lim) :
    checkDataSizeAvailable e ptr size = true := by
  have h1 := h.limit_eq
  have h2 := h.limitPtr_eq
  have h3 := h.lim_le
  have h4 := h.end_eq
  have h5 := h.ptr_eq
  have h6 := h.lo_le
  have hb := fr.base_end
  have hp := fr.patch_end
  have hsz := h.size_le
  cases m with
  | caller =>
    have hl := h.large rfl
    simp only [Mode.addr, Mode.endOff, Mode.lo, slopBytes, Frame.size, int32Max] at *
    simp only [checkDataSizeAvailable, checkSizeAvailable, Bool.false_eq_true, ↓reduceIte,
      Bool.and_eq_true, decide_eq_true_eq]
    simp only [uintptr, slopBytes]
    omega
  | patch =>
    simp only [Mode.addr, Mode.endOff, Mode.lo, slopBytes, Frame.size, Frame.patchLo, int32Max] at *
    simp only [checkDataSizeAvailable, checkSizeAvailable, Bool.false_eq_true, ↓reduceIte,
      Bool.and_eq_true, decide_eq_true_eq]
    simp only [uintptr, slopBytes]
    omega

theorem skip_run (h : Sim fr al m e ptr pos lim) {size : Nat} (hs : pos + size ≤ lim) :
    skip e ptr size = some (ptr + size) ∧ Sim fr al m e (ptr + size) (pos + size) lim := by
  refine ⟨by rw [skip, if_pos (h.available hs)], h.advance ?_⟩
  have := h.lim_le_end; omega

theorem copy_run (h : Sim fr al m e ptr pos lim) {size : Nat} (hs : pos + size ≤ lim) :
    copy fr e ptr size = some (some ((fr.buf.drop pos).take size, ptr + size)) := by
  have hl := h.loadN_run (n := size) (by have := h.lim_le_end; omega)
  rw [copy, if_pos (h.available hs), hl, fr.bytesAt_eq (by have := h.lim_le; omega)]
  rfl

/-- The special values of `e->aliasing` are not deltas. -/
theorem aliasing_ge (h : Sim fr true m e ptr pos lim) : noDelta ≤ e.aliasing := by
  have h1 := h.aliasing_eq
  have hap := fr.apart
  have hb := fr.base_end
  have hp := fr.patch_end
  cases m with
  | caller => simp only [Mode.aliasing, ↓reduceIte] at h1; omega
  | patch =>
    simp only [Mode.aliasing, ↓reduceIte, uintptr, Frame.patchLo, Frame.size, slopBytes] at *
    simp only [noDelta]
    omega

/-- The pointer that aliasing returns is the address of the offset in the caller's buffer. -/
theorem getAliasedPtr_eq (h : Sim fr true m e ptr pos lim) (hp : pos ≤ fr.size) :
    getAliasedPtr e ptr = fr.base + pos := by
  have h1 := h.aliasing_eq
  have h2 := h.ptr_eq
  have h3 := h.lo_le
  have hap := fr.apart
  have hb := fr.base_end
  have hpe := fr.patch_end
  cases m with
  | caller =>
    simp only [Mode.aliasing, ↓reduceIte, Mode.addr, Frame.size] at *
    simp only [getAliasedPtr, h1, ↓reduceIte, uintptr]
    omega
  | patch =>
    simp only [Mode.aliasing, ↓reduceIte, Mode.addr, Mode.lo, uintptr, Frame.patchLo, Frame.size,
      slopBytes] at *
    have hne : e.aliasing ≠ noDelta := by simp only [noDelta]; omega
    rw [getAliasedPtr, if_neg hne]
    simp only [uintptr]
    omega

/-- A string of a size that passes `CheckSize`. -/
theorem readString_run (h : Sim fr al m e ptr pos lim) {size : Nat} (hs : pos + size ≤ lim) :
    readString fr e ptr size = some (some (
      if al then .aliased (fr.base + pos) else .copied ((fr.buf.drop pos).take size), ptr + size)) := by
  have hsz := h.lim_le
  cases al with
  | true =>
    rw [readString, aliasingAvailable, h.available hs, if_pos (by simpa using h.aliasing_ge),
      h.getAliasedPtr_eq (by omega)]
    rfl
  | false =>
    have ha : e.aliasing = noAliasing := by rw [h.aliasing_eq]; cases m <;> rfl
    rw [readString, aliasingAvailable, ha, if_neg (by simp [noDelta, noAliasing]), h.copy_run hs]
    rfl

/-- `PushLimit` of a size that passes `CheckSize`: the delta is the distance of the two limits. -/
theorem pushLimit_run (h : Sim fr al m e ptr pos lim) {size : Nat} (hs : pos + size ≤ lim) :
    (pushLimit e ptr size).1 = (lim : Int) - (pos + size : Nat) ∧
      Sim fr al m (pushLimit e ptr size).2 ptr pos (pos + size) := by
  have h1 := h.toInt32_overrun
  have h2 := h.limit_eq
  have h3 := h.lim_le
  have h4 := h.size_le
  have hl : toInt32 (size + toInt32 (ptr - e.end_)) = ((pos + size : Nat) : Int) - m.endOff fr := by
    rw [h1]
    cases m <;> simp only [Mode.endOff, slopBytes, int32Max] at * <;> rw [toInt32_eq] <;> omega
  refine ⟨?_, { h with
    limit_eq := by simp only [pushLimit, hl]
    limitPtr_eq := rfl
    lim_le := by omega }⟩
  simp only [pushLimit, hl, h2]
  cases m <;> simp only [Mode.endOff, slopBytes, int32Max] at * <;> rw [toInt32_eq] <;> omega

/-- `PopLimit` goes back to the limit that `PushLimit` left. -/
theorem popLimit_run (h : Sim fr al m e ptr pos lim) {outer : Nat} (ho : outer ≤ fr.size) {d : Int}
    (hd : d = (outer : Int) - lim) : Sim fr al m (popLimit e d) ptr pos outer :=
  { h with
    limit_eq := by
      have h1 := h.limit_eq
      have h2 := h.size_le
      have h3 := h.lim_le
      simp only [popLimit, h1, hd]
      cases m <;> simp only [Mode.endOff, slopBytes, int32Max] at * <;> rw [toInt32_eq] <;> omega
    limitPtr_eq := rfl
    lim_le := ho }

/-- The patch buffer after a flip of a stream that read the caller's buffer. -/
theorem flip_run (h : Sim fr al .caller e ptr pos lim) (hge : fr.patchLo ≤ pos) (hlt : pos < lim) :
    ∃ e', isDoneFallback fr e ptr (toInt32 (ptr - e.end_)) = some (.flip e' ptr (Mode.addr fr .patch pos)) ∧
      Sim fr al .patch e' (Mode.addr fr .patch pos) pos lim := by
  have hl := h.large rfl
  have h1 := h.toInt32_overrun
  have h2 := h.limit_eq
  have h3 := h.lim_le
  have hlo : (fr.patchLo : Int) = fr.size - slopBytes := by simp only [Frame.patchLo]; omega
  simp only [Mode.endOff] at h1 h2
  have hld : loadN fr e e.end_ slopBytes = some (fr.buf.drop fr.patchLo) := by
    rw [h.end_eq, h.loadN_addr (Nat.zero_le _) (Nat.le_refl _)]
    have hsz : fr.patchLo + slopBytes ≤ fr.size := by simp only [Frame.patchLo]; omega
    rw [show Mode.endOff fr .caller = fr.patchLo from rfl, fr.bytesAt_eq hsz, List.take_of_length_le]
    simp only [List.length_drop, Frame.patchLo, Frame.size]; omega
  have hns : (fr.patch : Int) + toInt32 (ptr - e.end_) = Mode.addr fr .patch pos := by
    simp only [Mode.addr]; omega
  refine ⟨_, by rw [isDoneFallback, if_pos (by omega), hld]; simp only [Option.bind_eq_bind,
    Option.bind_some, hns]; rfl, ?_⟩
  constructor
  · exact h.size_le
  · intro hm; cases hm
  · simp only [Mode.addr, Mode.endOff]; omega
  · rfl
  · simp only [Mode.endOff]; omega
  · simp only [slopBytes] at *; omega
  · exact hge
  · simp only [Mode.endOff, slopBytes] at *; omega
  · exact h3
  · have ha := h.aliasing_eq
    simp only [Mode.aliasing] at ha ⊢
    cases al with
    | false => simp [ha, noAliasing]
    | true =>
      have hp := h.ptr_eq
      simp only [Mode.addr] at hp
      rw [if_pos (by simp [ha, noAliasing, noDelta]), if_pos rfl]
      simp only [uintptr, Mode.addr]
      congr 1; omega
  · intro _
    simp only [Frame.patchLo, slopBytes] at *
    rw [show 2 * 16 - (fr.size - (fr.size - 16)) = 16 by omega]
  · exact h.noError

/-- The three outcomes of `IsDone`: before the limit the stream goes on, in the patch buffer if
fewer than 16 bytes are left before `e->end + 16`; at the limit it is done; past it there is an
error. -/
theorem isDone_run (h : Sim fr al m e ptr pos lim) :
    (pos < lim ∧ ∃ m' e' ptr', isDone fr e ptr = some (false, e', some ptr') ∧
        Sim fr al m' e' ptr' pos lim ∧ pos < m'.endOff fr ∧
        ((m' = m ∧ e' = e) ∨ (m = .caller ∧ m' = .patch ∧ e'.end_ ≠ e.end_))) ∨
      (pos = lim ∧ isDone fr e ptr = some (true, e, some ptr)) ∨
      (lim < pos ∧ isDone fr e ptr = some (true, { e with error := true }, none)) := by
  have h0 := h.overrun_eq
  have h1 := h.toInt32_overrun
  have h2 := h.limit_eq
  have h3 := h.limitPtr_eq
  by_cases hlt : ptr < e.limitPtr
  · refine .inl ⟨by omega, m, e, ptr, ?_, h, by omega, .inl ⟨rfl, rfl⟩⟩
    simp [isDone, isDoneStatus, hlt]
  by_cases heq : toInt32 (ptr - e.end_) = e.limit
  · refine .inr (.inl ⟨by omega, ?_⟩)
    simp [isDone, isDoneStatus, hlt, heq]
  by_cases hov : toInt32 (ptr - e.end_) < e.limit
  · -- only a stream in the caller's buffer has a limit past `e->end`
    cases m with
    | patch => have := h.limit_nonpos; omega
    | caller =>
      simp only [Mode.endOff] at h0 h1 h2
      have hge : fr.patchLo ≤ pos := by simp only [Frame.patchLo]; omega
      obtain ⟨e', hf, hsim⟩ := h.flip_run hge (by omega)
      have hl := h.lim_le
      refine .inl ⟨by omega, .patch, e', _, ?_, hsim, ?_, .inr ⟨rfl, rfl, ?_⟩⟩
      · simp [isDone, isDoneStatus, hlt, heq, hf]
      · simp only [Mode.endOff]; omega
      · have ha := fr.apart
        rw [hsim.end_eq, h.end_eq]
        simp only [Mode.addr, Mode.endOff, Frame.patchLo, Frame.size, slopBytes] at *
        omega
  · refine .inr (.inr ⟨by omega, ?_⟩)
    simp [isDone, isDoneStatus, hlt, heq, isDoneFallback, hov]

end Sim

/-- A stream that was just opened. -/
theorem init_sim {fr : Frame} (hsz : fr.size ≤ int32Max) (al : Bool) :
    ∃ m, Sim fr al m (init fr al).1 (init fr al).2 0 fr.size := by
  by_cases hs : fr.size ≤ slopBytes
  · refine ⟨.patch, ?_⟩
    have hlo : fr.patchLo = 0 := by simp only [Frame.patchLo]; omega
    rw [init, if_pos hs]
    constructor <;> simp [Mode.addr, Mode.endOff, Mode.lo, Mode.aliasing, hlo, hsz]
  · refine ⟨.caller, ?_⟩
    rw [init, if_neg hs]
    constructor <;> simp [Mode.addr, Mode.endOff, Mode.lo, Mode.aliasing, slopBytes] at * <;> omega

end Hpb
