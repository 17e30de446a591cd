import Hpb.Lib.Except
import Hpb.Mem.ArenaGrow
import Hpb.Wire.EncodeBuffer
import Hpb.Wire.VarintSpec

/-!
# What the buffer of the encoder holds

`EncState.Holds` is the invariant: the buffer is an allocation of the arena beside those of others, and the bytes from
`ptr` to `limit` are the text that is written.

* `Holds.growbuffer`: the buffer may move in the middle of any write, and the text is at the end of the new one,
* `EncState.Prepends`: an operation that puts some bytes in front of the text; each writer is one,
* `Encoder.run_follows`: every sequence of calls writes the text of its pieces, in which a length is that of its block.
-/

namespace Hpb

/-! ### Words -/

theorem wordSub_eq {m n : Nat} (hle : n ≤ m) (hlt : m < 2 ^ 64) : wordSub m n = m - n := by
  rw [wordSub]
  omega

theorem orStop_eq_ok {α : Type} {stop : EncodeStop} {o : Option α} {r : α} : orStop stop o = .ok r ↔ o = some r := by
  cases o with
  | none => simp [orStop]
  | some a => simp [orStop]

/-- The new size is a power of 2 that is large enough, and at most `2 ^ 63`. -/
theorem roundupPow2_spec {n r : Nat} (h : roundupPow2 n = some r) (hn : 0 < n) :
    n ≤ r ∧ 0 < r ∧ r ≤ 2 ^ 63 ∧ r % 8 = 0 := by
  obtain ⟨k, -, ⟨hle, -⟩, rfl⟩ := (doubleUntil_eq_some (by decide)).mp h
  have hpow : 128 * 2 ^ k = 2 ^ (7 + k) := (Nat.pow_add 2 7 k).symm
  have hk : 7 + k ≤ 63 := by
    by_contra hlarge
    have hdvd : 2 ^ 64 ∣ 128 * 2 ^ k := hpow ▸ Nat.pow_dvd_pow 2 (by omega)
    rw [Nat.mod_eq_zero_of_dvd hdvd] at hle
    omega
  have hmax : 128 * 2 ^ k ≤ 2 ^ 63 := hpow ▸ Nat.pow_le_pow_right (by decide) hk
  have hmod : 128 * 2 ^ k % 2 ^ 64 = 128 * 2 ^ k := Nat.mod_eq_of_lt (by omega)
  rw [hmod] at hle ⊢
  exact ⟨hle, by omega, hmax, by omega⟩

/-- **The loop ends** for up to `2 ^ 63` bytes. -/
theorem roundupPow2_ne_none {n : Nat} (h : n ≤ 2 ^ 63) : roundupPow2 n ≠ none := by
  obtain ⟨k, hk⟩ := exists_firstDouble (n := 128) (by decide) n
  have hmax : 128 * 2 ^ k ≤ 128 * 2 ^ 56 := hk.le (by omega)
  have hmod := hk.mod (w := 64) (by omega)
  intro hnone
  have hsome : roundupPow2 n = some (128 * 2 ^ k % 2 ^ 64) :=
    (doubleUntil_eq_some (by decide)).mpr ⟨k, Nat.lt_succ_of_le hmod.le_width, hmod, rfl⟩
  rw [hnone] at hsome
  cases hsome

theorem length_encodeVarint64 (val : UInt64) : (encodeVarint64 val).length ≤ varintMaxLen :=
  putSeptets_length_le 10 (k := 9) (Nat.lt_trans val.toNat_lt (by decide))

/-- A number below 128 is one byte. -/
theorem encodeVarint64_small {val : UInt64} (h : val < 128) : encodeVarint64 val = [val.toUInt8] := by
  have hlt : val.toNat < 128 := UInt64.lt_iff_toNat_lt.mp h
  have hbyte : (val &&& 127).toUInt8 = val.toUInt8 := by
    rw [← UInt8.toNat_inj, septet_toNat, UInt64.toNat_toUInt8]
    omega
  rw [encodeVarint64, putSeptets]
  rw [if_pos ((shiftRight_seven_eq_zero_iff val).mpr hlt), hbyte]

/-! ### The buffer -/

namespace EncState

theorem store_ptr (e : EncState) (addr : Nat) (cells : List UInt8) : (e.store addr cells).ptr = e.ptr := rfl

theorem store_mem (e : EncState) (addr : Nat) (cells : List UInt8) :
    (e.store addr cells).arena.mem = storeAt e.arena.mem addr cells := rfl

/-- The allocations of the arena, the buffer first. -/
def live (e : EncState) (others : List LiveAlloc) : List LiveAlloc :=
  if e.buf = 0 then others else ⟨e.buf, e.limit - e.buf⟩ :: others

/-- The buffer holds a text at its end, and the allocations of others hold what they held in `mem`. -/
structure Holds (e : EncState) (others : List LiveAlloc) (mem : Nat → UInt8) (text : List UInt8) : Prop where
  arena : e.arena.Inv (e.live others)
  null : e.buf = 0 → e.limit = 0
  nonempty : e.buf ≠ 0 → e.buf < e.limit
  buf_le : e.buf ≤ e.ptr
  ptr_le : e.ptr ≤ e.limit
  text : loadAt e.arena.mem e.ptr (e.limit - e.ptr) = text
  others : Arena.KeepsBytes others mem e.arena.mem

/-- The same with some bytes in front of the text that are not written yet. -/
def Reserved (e : EncState) (bytes : Nat) (others : List LiveAlloc) (mem : Nat → UInt8) (text : List UInt8) : Prop :=
  e.buf ≤ e.ptr ∧ Holds { e with ptr := e.ptr + bytes } others mem text

section Holds

variable {e e' : EncState} {others : List LiveAlloc} {mem : Nat → UInt8} {text cells : List UInt8} {bytes : Nat}
  {heap : Arena → Nat → Option Nat}

theorem Holds.length_text (h : e.Holds others mem text) : text.length = e.limit - e.ptr := by
  rw [← h.text, length_loadAt]

/-- The buffer is smaller than `2 ^ 63` bytes. -/
theorem Holds.limit_lt (h : e.Holds others mem text) : e.limit < 2 ^ 64 ∧ e.limit - e.buf < 2 ^ 63 := by
  by_cases h0 : e.buf = 0
  · rw [h.null h0]
    exact ⟨by decide, by omega⟩
  · have harena := h.arena
    rw [live, if_neg h0] at harena
    have hmem := List.mem_cons_self (a := LiveAlloc.mk e.buf (e.limit - e.buf)) (l := others)
    obtain ⟨-, -, r, hr, hstart, hstop⟩ := harena.places _ hmem
    have hle := Arena.le_alignMalloc (harena.sizes _ hmem)
    have hlt := harena.region_lt hr
    obtain ⟨o, ho, hw⟩ := harena.region_within hr
    have ho := (harena.owned_lt ho).1
    have hw := hw.2
    have hbuf := h.nonempty h0
    have hstart : r.start ≤ e.buf := hstart
    have hstop : e.buf + alignMalloc (e.limit - e.buf) ≤ r.stop := hstop
    dsimp only at hle
    omega

theorem Holds.used_eq (h : e.Holds others mem text) : wordSub e.limit e.ptr = text.length := by
  rw [h.length_text]
  exact wordSub_eq h.ptr_le h.limit_lt.1

theorem Holds.room_eq (h : e.Holds others mem text) : wordSub e.ptr e.buf = e.ptr - e.buf :=
  wordSub_eq h.buf_le (Nat.lt_of_le_of_lt h.ptr_le h.limit_lt.1)

theorem Holds.contents_eq (h : e.Holds others mem text) : e.contents = text := by
  rw [contents, h.used_eq, h.length_text, h.text]

/-- A buffer that was not allocated yet. -/
theorem holds_start {arena : Arena} (h : arena.Inv others) : (start arena).Holds others arena.mem [] :=
  ⟨h, fun _ => rfl, fun h0 => absurd rfl h0, Nat.le_refl 0, Nat.le_refl 0, rfl, .refl _ _⟩

/-- Bytes are written in front of the text, where the buffer is free. -/
theorem Holds.scratch (h : e.Holds others mem text) {addr : Nat} (hstart : e.buf ≤ addr)
    (hstop : addr + cells.length ≤ e.ptr) : (e.store addr cells).Holds others mem text := by
  have hle := h.ptr_le
  refine ⟨h.arena.with_mem _, h.null, h.nonempty, h.buf_le, hle, ?_, h.others.trans ?_⟩
  · rw [← h.text]
    exact loadAt_storeAt_outside (.inr hstop)
  · by_cases h0 : e.buf = 0
    · have hlimit := h.null h0
      exact fun y _ i _ => storeAt_outside (by omega)
    · have harena := h.arena
      rw [live, if_neg h0] at harena
      refine harena.store_keeps hstart ?_
      have hsize := Arena.le_alignMalloc (harena.sizes _ List.mem_cons_self)
      have hbuf := h.buf_le
      dsimp only at hsize ⊢
      omega

/-- The bytes that were reserved are written. -/
theorem Reserved.store (h : e.Reserved cells.length others mem text) :
    (e.store e.ptr cells).Holds others mem (cells ++ text) := by
  obtain ⟨hbuf, h⟩ := h
  have hs : Holds { e.store e.ptr cells with ptr := e.ptr + cells.length } others mem text :=
    h.scratch hbuf (Nat.le_refl _)
  have hle : e.ptr + cells.length ≤ e.limit := h.ptr_le
  refine ⟨hs.arena, hs.null, hs.nonempty, hbuf, Nat.le_trans (Nat.le_add_right _ _) hle, ?_, hs.others⟩
  have hsplit : e.limit - e.ptr = cells.length + (e.limit - (e.ptr + cells.length)) := by omega
  change loadAt (storeAt e.arena.mem e.ptr cells) e.ptr (e.limit - e.ptr) = _
  rw [hsplit, loadAt_add, loadAt_storeAt_self]
  exact congrArg _ hs.text

/-- The new buffer, with the text at its end. -/
theorem reserved_of_grown {arena : Arena} {p r : Nat} {mem' : Nat → UInt8} (hinv : arena.Inv (⟨p, r⟩ :: others))
    (hr : 0 < r) (hsize : bytes + text.length ≤ r) (hothers : Arena.KeepsBytes others mem mem')
    (htext : loadAt mem' (p + r - text.length) text.length = text) :
    Reserved ⟨{ arena with mem := mem' }, p, p + r - text.length - bytes, p + r⟩ bytes others mem text := by
  have hp : 0 < p := (hinv.places _ List.mem_cons_self).2.1
  have hptr : p + r - text.length - bytes + bytes = p + r - text.length := by omega
  refine ⟨by dsimp only; omega, ?_, fun h0 => ?_, fun _ => ?_, ?_, ?_, ?_, hothers⟩
  · have hsub : p + r - p = r := by omega
    rw [live]
    dsimp only
    rw [if_neg (by omega), hsub]
    exact hinv.with_mem _
  · dsimp only at h0
    omega
  · dsimp only
    omega
  · dsimp only
    omega
  · dsimp only
    omega
  · have hlen : p + r - (p + r - text.length) = text.length := by omega
    dsimp only
    rw [hptr, hlen, htext]

theorem alignMalloc_of_mod {r : Nat} (hmax : r ≤ 2 ^ 63) (hmod : r % 8 = 0) : alignMalloc r = r := by
  rw [Arena.alignMalloc_eq (by omega)]
  omega

/-- **Growing the buffer**: the text is at the end of the new one. -/
theorem Holds.growbuffer (h : e.Holds others mem text) (hl : ∀ a, Arena.HeapLegal a.owned (heap a))
    (hroom : wordSub e.ptr e.buf < bytes) (hbytes : bytes < 2 ^ 63) (hrun : e.growbuffer heap bytes = .ok e') :
    e'.Reserved bytes others mem text := by
  obtain ⟨hlimit, hsmall⟩ := h.limit_lt
  have hbuf := h.buf_le
  have hptr := h.ptr_le
  have hlen := h.length_text
  have hold : wordSub e.limit e.buf = e.limit - e.buf := wordSub_eq (by omega) hlimit
  rw [h.room_eq] at hroom
  rw [EncState.growbuffer, h.used_eq, hold, Nat.mod_eq_of_lt (a := bytes + text.length) (by omega)] at hrun
  obtain ⟨r, hr, hrun⟩ := Except.bind_eq_ok.mp hrun
  obtain ⟨⟨p, arena⟩, hrealloc, hrun⟩ := Except.bind_eq_ok.mp hrun
  rw [orStop_eq_ok] at hr hrealloc
  dsimp only at hrun
  split at hrun
  · cases hrun
  next hp =>
  cases hrun
  obtain ⟨hle, hpos, hmax, hmod⟩ := roundupPow2_spec hr (by omega)
  have halign := alignMalloc_of_mod hmax hmod
  have hsized : e.arena.Sized r := ⟨by omega, fun _ => by omega⟩
  have harena := h.arena
  -- the new buffer is in memory that is owned, and so are all its addresses
  have hfit : arena.Inv (⟨p, r⟩ :: others) → p + r < 2 ^ 64 := fun hinv => by
    obtain ⟨-, -, s, hs, hw⟩ := hinv.places _ List.mem_cons_self
    obtain ⟨o, ho, hso⟩ := hinv.region_within hs
    have hstop : p + alignMalloc r ≤ o.stop := (hw.trans hso).2
    have hlt := (hinv.owned_lt ho).1
    omega
  by_cases h0 : e.buf = 0
  · have hzero := h.null h0
    have hnil : text = [] := List.eq_nil_of_length_eq_zero (by omega)
    rw [live, if_pos h0] at harena
    rw [h0, hzero] at hrealloc
    obtain ⟨hinv, hkept⟩ := Arena.realloc_null_keeps harena (hl _) hsized hrealloc hp
    have hlt := hfit hinv
    subst hnil
    have hgrown : Reserved _ bytes others mem [] := reserved_of_grown hinv hpos hle (h.others.trans hkept) rfl
    have hstop : (p + r) % 2 ^ 64 = p + r := Nat.mod_eq_of_lt hlt
    have hsub : wordSub (p + r) 0 = p + r := wordSub_eq (Nat.zero_le _) hlt
    have hsub' : wordSub (p + r) bytes = p + r - bytes := wordSub_eq (by dsimp only [List.length_nil] at hle; omega) hlt
    rw [h0, hzero, hstop, if_neg (Nat.lt_irrefl 0), List.length_nil, hsub, hsub']
    exact hgrown
  · have hnonempty := h.nonempty h0
    rw [live, if_neg h0] at harena
    have hsize := Arena.le_alignMalloc (harena.sizes _ List.mem_cons_self)
    dsimp only at hsize
    obtain ⟨hinv, hkept⟩ := Arena.realloc_keeps_bytes harena (hl _) hsized (x := ⟨e.buf, e.limit - e.buf⟩)
      (by dsimp only; omega) (by dsimp only; omega) hrealloc hp
    have hlt := hfit hinv
    have hstop : (p + r) % 2 ^ 64 = p + r := Nat.mod_eq_of_lt hlt
    have hplace : wordSub (p + r) (e.limit - e.buf) = p + r - (e.limit - e.buf) := wordSub_eq (by omega) hlt
    have hsub : wordSub (p + r) text.length = p + r - text.length := wordSub_eq (by omega) hlt
    have hsub' : wordSub (p + r - text.length) bytes = p + r - text.length - bytes := wordSub_eq (by omega) (by omega)
    rw [hstop, if_pos (by omega), hplace, hsub, hsub']
    have hkeepsBuf := hkept _ List.mem_cons_self
    have hothers : Arena.KeepsBytes others e.arena.mem arena.mem := fun y hy => hkept y (List.mem_cons_of_mem _ hy)
    have hlenOld : (loadAt arena.mem e.buf (e.limit - e.buf)).length = e.limit - e.buf := length_loadAt _
    refine reserved_of_grown hinv hpos hle ((h.others.trans hothers).trans ?_) ?_
    · refine hinv.store_keeps ?_ ?_
      · dsimp only
        omega
      · dsimp only
        omega
    · -- the text is the last part of the bytes that were moved
      rw [← h.text, length_loadAt]
      refine loadAt_congr fun i hi => ?_
      have haddr : p + r - (e.limit - e.ptr) + i = p + r - (e.limit - e.buf) + (e.ptr - e.buf + i) := by omega
      rw [haddr, storeAt_within (by omega), getElem_loadAt, hkeepsBuf _ (by dsimp only; omega)]
      congr 1
      dsimp only
      omega

theorem Holds.reserve (h : e.Holds others mem text) (hl : ∀ a, Arena.HeapLegal a.owned (heap a))
    (hbytes : bytes < 2 ^ 63) (hrun : e.reserve heap bytes = .ok e') : e'.Reserved bytes others mem text := by
  rw [EncState.reserve] at hrun
  split at hrun
  next hroom => exact h.growbuffer hl hroom hbytes hrun
  next hroom =>
    cases hrun
    have hptr := h.ptr_le
    have hlt := h.limit_lt.1
    rw [h.room_eq] at hroom
    have hbuf := h.buf_le
    have hsub : wordSub e.ptr bytes = e.ptr - bytes := wordSub_eq (by omega) (by omega)
    have hback : e.ptr - bytes + bytes = e.ptr := by omega
    rw [hsub]
    refine ⟨by dsimp only; omega, ?_⟩
    dsimp only
    rw [hback]
    exact h

end Holds

/-! ### The writers -/

/-- The operation puts some bytes in front of the text. -/
def Prepends (others : List LiveAlloc) (mem : Nat → UInt8) (op : EncState → Except EncodeStop EncState)
    (cells : List UInt8) : Prop :=
  ∀ e e' text, Holds e others mem text → op e = .ok e' → e'.Holds others mem (cells ++ text)

section Writers

variable {others : List LiveAlloc} {mem : Nat → UInt8} {heap : Arena → Nat → Option Nat}
  {op op' : EncState → Except EncodeStop EncState} {cells cells' : List UInt8}

/-- One operation and another one: what is written later comes first. -/
theorem Prepends.bind (h : Prepends others mem op cells) (h' : Prepends others mem op' cells') :
    Prepends others mem (fun e => op e >>= op') (cells' ++ cells) := by
  intro e e' text he hrun
  obtain ⟨e₁, h₁, h₂⟩ := Except.bind_eq_ok.mp hrun
  rw [List.append_assoc]
  exact h' _ _ _ (h _ _ _ he h₁) h₂

theorem encodeBytes_prepends (hl : ∀ a, Arena.HeapLegal a.owned (heap a)) {data : List UInt8}
    (hdata : data.length < 2 ^ 63) : Prepends others mem (encodeBytes heap · data) data := by
  intro e e' text h hrun
  dsimp only at hrun
  rw [encodeBytes] at hrun
  split at hrun
  next h0 =>
    cases hrun
    rw [List.eq_nil_of_length_eq_zero h0]
    exact h
  next h0 =>
    obtain ⟨e₁, hreserve, hrun⟩ := Except.bind_eq_ok.mp hrun
    cases hrun
    exact (h.reserve hl hdata hreserve).store

theorem encodeFixed64_prepends (hl : ∀ a, Arena.HeapLegal a.owned (heap a)) (val : UInt64) :
    Prepends others mem (encodeFixed64 heap · val) (littleEndian val.toNat 8) :=
  encodeBytes_prepends hl (by rw [Arena.length_littleEndian]; decide)

theorem encodeFixed32_prepends (hl : ∀ a, Arena.HeapLegal a.owned (heap a)) (val : UInt32) :
    Prepends others mem (encodeFixed32 heap · val) (littleEndian val.toNat 4) :=
  encodeBytes_prepends hl (by rw [Arena.length_littleEndian]; decide)

/-- **The long path of a varint**: ten bytes are reserved, the number is written to the first of them and moved to the
last. -/
theorem encodeLongvarint_prepends (hl : ∀ a, Arena.HeapLegal a.owned (heap a)) (val : UInt64) :
    Prepends others mem (encodeLongvarint heap · val) (encodeVarint64 val) := by
  intro e e' text h hrun
  dsimp only at hrun
  rw [encodeLongvarint] at hrun
  obtain ⟨e₁, hreserve, hrun⟩ := Except.bind_eq_ok.mp hrun
  have hlen := length_encodeVarint64 val
  generalize encodeVarint64 val = cells at hlen hrun ⊢
  cases hrun
  obtain ⟨hbuf, h₁⟩ := h.reserve hl (by decide) hreserve
  have hptr : e₁.ptr + varintMaxLen ≤ e₁.limit := h₁.ptr_le
  have hlt : e₁.limit < 2 ^ 64 := h₁.limit_lt.1
  have hstop : (e₁.ptr + varintMaxLen) % 2 ^ 64 = e₁.ptr + varintMaxLen := Nat.mod_eq_of_lt (by omega)
  have hstart : wordSub (e₁.ptr + varintMaxLen) cells.length = e₁.ptr + varintMaxLen - cells.length :=
    wordSub_eq (by omega) (by omega)
  have hread : loadAt (storeAt e₁.arena.mem e₁.ptr cells) e₁.ptr cells.length = cells := loadAt_storeAt_self
  have hback : e₁.ptr + varintMaxLen - cells.length + cells.length = e₁.ptr + varintMaxLen := by omega
  have h₂ : Reserved { e₁.store e₁.ptr cells with ptr := e₁.ptr + varintMaxLen - cells.length } cells.length others mem
      text := by
    refine ⟨?_, ?_⟩
    · change e₁.buf ≤ e₁.ptr + varintMaxLen - cells.length
      omega
    · dsimp only
      rw [hback]
      exact h₁.scratch hbuf (by dsimp only; omega)
  rw [store_ptr, hstop, hstart, store_mem, hread]
  exact h₂.store

theorem encodeVarint_prepends (hl : ∀ a, Arena.HeapLegal a.owned (heap a)) (val : UInt64) :
    Prepends others mem (encodeVarint heap · val) (encodeVarint64 val) := by
  intro e e' text h hrun
  dsimp only at hrun
  rw [encodeVarint] at hrun
  split at hrun
  next hshort =>
    cases hrun
    obtain ⟨hval, hne⟩ := hshort
    have hbuf := h.buf_le
    have hlimit := h.limit_lt.1
    have hptr := h.ptr_le
    have hsub : wordSub e.ptr 1 = e.ptr - 1 := wordSub_eq (by omega) (by omega)
    have hback : e.ptr - 1 + 1 = e.ptr := by omega
    have h₁ : Reserved { e with ptr := e.ptr - 1 } [val.toUInt8].length others mem text := by
      refine ⟨by dsimp only; omega, ?_⟩
      dsimp only [List.length_singleton]
      rw [hback]
      exact h
    rw [hsub, encodeVarint64_small hval]
    exact h₁.store
  next => exact encodeLongvarint_prepends hl val _ _ _ h hrun

end Writers

end EncState

/-! ### Sequences of calls -/

/-- A length as the encoder writes it. -/
def varintOf (n : Nat) : List UInt8 := encodeVarint64 (UInt64.ofNat n)

/-- What a call adds to the text. -/
def EncoderCall.write (d : Draft UInt8) : EncoderCall → Draft UInt8
  | .bytes data => d.put data.data
  | .fixed64 val => d.put (littleEndian val.toNat 8)
  | .fixed32 val => d.put (littleEndian val.toNat 4)
  | .varint val => d.put (encodeVarint64 val)
  | .tag fieldNumber wireType => d.put (encodeVarint64 (tagOf fieldNumber wireType))
  | .string data => (d.openBlock.put data.data).closeBlock
  | .preLen => d.openBlock
  | .size => d.closeBlock

/-- What a sequence of calls writes. -/
def EncoderCall.writeAll (calls : List EncoderCall) : Draft UInt8 := calls.foldl write .empty

namespace Encoder

/-- The encoder holds the text, and each `pre_len` is where a block starts. -/
structure Follows (others : List LiveAlloc) (mem : Nat → UInt8) (s : Encoder) (d : Draft UInt8) : Prop where
  holds : s.state.Holds others mem (d.text varintOf)
  preLens : s.preLens = d.marks varintOf

section Run

variable {others : List LiveAlloc} {mem : Nat → UInt8} {heap : Arena → Nat → Option Nat} {s s' : Encoder}
  {d d' : Draft UInt8}

theorem Follows.written_eq (h : Follows others mem s d) : s.written = (d.text varintOf).length := h.holds.used_eq

/-- The number that `pre_len` is subtracted for. -/
theorem Follows.size_eq (h : Follows others mem s d) :
    wordSub s.written (s.preLens.headD 0) = (Piece.textOf varintOf d.current).length := by
  have hlen := h.holds.length_text
  have hlt := h.holds.limit_lt.1
  rw [h.written_eq, h.preLens, wordSub_eq d.mark_le (by omega), d.length_sub_mark]

/-- A writer that is called on the buffer. -/
theorem Follows.withState {op : EncState → Except EncodeStop EncState} {cells : List UInt8} (h : Follows others mem s d)
    (hop : EncState.Prepends others mem op cells) (htext : d'.text varintOf = cells ++ d.text varintOf)
    (hmarks : d'.marks varintOf = d.marks varintOf) (hrun : s.withState (op s.state) = .ok s') :
    Follows others mem s' d' := by
  obtain ⟨e, he, rfl⟩ := Except.map_eq_ok.mp hrun
  exact ⟨htext ▸ hop _ _ _ h.holds he, h.preLens.trans hmarks.symm⟩

/-- A writer of one piece. -/
theorem Follows.put {op : EncState → Except EncodeStop EncState} {cells : List UInt8} (h : Follows others mem s d)
    (hop : EncState.Prepends others mem op cells) (hrun : s.withState (op s.state) = .ok s') :
    Follows others mem s' (d.put cells) := h.withState hop (d.text_put _) (d.marks_put _) hrun

/-- **One call** writes its piece. -/
theorem call_follows (hl : ∀ a, Arena.HeapLegal a.owned (heap a)) (h : Follows others mem s d) (c : EncoderCall)
    (hrun : s.call heap c = .ok s') : Follows others mem s' (c.write d) := by
  cases c with
  | bytes data => exact h.put (EncState.encodeBytes_prepends hl data.length_lt) hrun
  | fixed64 val => exact h.put (EncState.encodeFixed64_prepends hl val) hrun
  | fixed32 val => exact h.put (EncState.encodeFixed32_prepends hl val) hrun
  | varint val => exact h.put (EncState.encodeVarint_prepends hl val) hrun
  | tag fieldNumber wireType => exact h.put (EncState.encodeVarint_prepends hl _) hrun
  | string data =>
    have hop : EncState.Prepends others mem _ _ := (EncState.encodeBytes_prepends hl data.length_lt).bind
      (EncState.encodeVarint_prepends hl (UInt64.ofNat data.data.length))
    have hcurrent : Piece.textOf varintOf (d.openBlock.put data.data).current = data.data := List.append_nil _
    refine h.withState hop ?_ ?_ hrun
    · change (Draft.closeBlock _).text _ = _
      rw [Draft.text_closeBlock, hcurrent, Draft.text_put, Draft.text_openBlock, List.append_assoc]
      rfl
    · change (Draft.closeBlock _).marks _ = _
      rw [Draft.marks_closeBlock, Draft.marks_put, Draft.marks_openBlock, List.tail_cons]
  | preLen =>
    cases hrun
    refine ⟨h.holds, ?_⟩
    change s.written :: s.preLens = d.openBlock.marks varintOf
    rw [Draft.marks_openBlock, h.written_eq, h.preLens]
  | size =>
    obtain ⟨e, he, hrun⟩ := Except.bind_eq_ok.mp hrun
    cases hrun
    rw [h.size_eq] at he
    refine ⟨?_, ?_⟩
    · change e.Holds others mem (d.closeBlock.text varintOf)
      rw [Draft.text_closeBlock]
      exact EncState.encodeVarint_prepends hl _ _ _ _ h.holds he
    · change s.preLens.tail = d.closeBlock.marks varintOf
      rw [Draft.marks_closeBlock, h.preLens]

/-- **Every sequence of calls** writes its pieces. -/
theorem run_follows (hl : ∀ a, Arena.HeapLegal a.owned (heap a)) {arena : Arena} (ha : arena.Inv others)
    (calls : List EncoderCall) (hrun : (start arena).run heap calls = .ok s) :
    Follows others arena.mem s (EncoderCall.writeAll calls) :=
  Except.foldlM_ok (R := Follows others arena.mem) (fun _ _ c _ h hc => call_follows hl h c hc) calls
    ⟨EncState.holds_start ha, rfl⟩ hrun

end Run

end Encoder

/-- **The buffer of the encoder** after any sequence of calls: it holds the pieces that were written, the last one
first; a length prefix is the number of bytes of its payload, which comes right behind it; growing the buffer changes
nothing of it; and the allocations of others are as they were. -/
theorem encoder_buffer {heap : Arena → Nat → Option Nat} (hl : ∀ a, Arena.HeapLegal a.owned (heap a)) {arena : Arena}
    {others : List LiveAlloc} (ha : (Arena.calls fun a size _ => a.Sized size).Reached Arena.Fresh (arena, others))
    (calls : List EncoderCall) {s : Encoder} (hrun : (Encoder.start arena).run heap calls = .ok s) :
    s.state.contents = (EncoderCall.writeAll calls).text varintOf ∧
      (∀ body, (EncoderCall.writeAll calls).Has body → ∃ before after,
        s.state.contents =
            before ++ (varintOf (Piece.textOf varintOf body).length ++ Piece.textOf varintOf body) ++ after ∧
          ReadsBack (memoryOf (varintOf (Piece.textOf varintOf body).length ++ Piece.textOf varintOf body))
            (varintOf (Piece.textOf varintOf body).length).length
            (UInt64.ofNat (Piece.textOf varintOf body).length) ∧
          (UInt64.ofNat (Piece.textOf varintOf body).length).toNat = (Piece.textOf varintOf body).length) ∧
      (∀ bytes e, wordSub s.state.ptr s.state.buf < bytes → bytes < 2 ^ 63 → s.state.growbuffer heap bytes = .ok e →
        loadAt e.arena.mem (e.ptr + bytes) (wordSub e.limit (e.ptr + bytes)) = s.state.contents) ∧
      Arena.KeepsBytes others arena.mem s.state.arena.mem := by
  have hinv := Arena.calls_reached (fun _ _ _ hs => hs) ha
  obtain ⟨hholds, -⟩ := Encoder.run_follows hl hinv calls hrun
  have hcontents := hholds.contents_eq
  refine ⟨hcontents, fun body hbody => ?_, fun bytes e hroom hbytes hgrow => ?_, hholds.others⟩
  · obtain ⟨before, after, htext⟩ := hbody.text varintOf
    have hlen := hholds.length_text
    have hlt := hholds.limit_lt.1
    have hle : (Piece.textOf varintOf body).length ≤ ((EncoderCall.writeAll calls).text varintOf).length := by
      rw [htext]
      simp only [List.length_append]
      omega
    refine ⟨before, after, hcontents.trans htext, readsBack_encodeVarint64 _ _, ?_⟩
    rw [UInt64.toNat_ofNat']
    exact Nat.mod_eq_of_lt (by omega)
  · obtain ⟨-, hgrown⟩ := hholds.growbuffer hl hroom hbytes hgrow
    exact hgrown.contents_eq.trans hcontents.symm

/-- A packed field with two numbers of four bytes, in front of an unknown field. -/
theorem encoder_buffer_packed :
    ∃ s, (Encoder.start Arena.small).run (fun _ _ => none) [.bytes ⟨[16, 1], by decide⟩, .preLen, .fixed32 2, .fixed32 1,
        .size, .tag 1 2] = .ok s ∧ s.state.contents = [10, 8, 1, 0, 0, 0, 2, 0, 0, 0, 16, 1] := by
  have hok : ((Encoder.start Arena.small).run (fun _ _ => none) [.bytes ⟨[16, 1], by decide⟩, .preLen, .fixed32 2,
      .fixed32 1, .size, .tag 1 2]).isOk = true := by decide
  cases hrun : (Encoder.start Arena.small).run (fun _ _ => none) [.bytes ⟨[16, 1], by decide⟩, .preLen, .fixed32 2,
      .fixed32 1, .size, .tag 1 2] with
  | error stop =>
    rw [hrun] at hok
    cases hok
  | ok s =>
    have hnone : ∀ a : Arena, Arena.HeapLegal a.owned fun _ => none :=
      fun _ => ⟨nofun, nofun, nofun, nofun, nofun, nofun⟩
    refine ⟨s, rfl, ?_⟩
    rw [(encoder_buffer hnone (.start Arena.small_fresh) _ hrun).1]
    decide

end Hpb
