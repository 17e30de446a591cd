import Hpb.Wire.DecodeMessageSet
import Hpb.Wire.EpsCopyAvailable

/-!
# Where aliased strings are (`kHpb_DecodeOption_AliasString`)

With this option the parser stores views of its input. A call of `hpb_Decode` is a client of its stream,
and which calls it makes depends on the schema and on the input; the results here are about all of them.
`Stores` are the views of one call: they are in the buffer that it was given (`Stores.inside`), also when
the stream reads the patch buffer.

The parser calls `hpb_Decode` for the payload of an item of a message set, at the pointer where its own
stream is, and for unknown fields in memory of the arena (`Nested`). The pointer may be one into the patch
buffer, which is on the stack of the outer call: then the views are there too (`aliased_views`).
-/

namespace Hpb

open EpsCopyInputStream

/-- A stream after calls that found no error, and the cursor that it stands for. -/
def StreamAt (fr : Frame) (al : Bool) (s : Stream) (f : Flat) : Prop :=
  ∃ ops evs, Client.run (Stream.step fr) {} (Stream.init fr al) ops = some (evs, s) ∧
    Client.run (fun f op => some (Flat.step fr al f op)) {} ⟨0, []⟩ ops = some (evs, f) ∧
    StreamEvent.error ∉ evs

/-- The bytes at an address are a part of a buffer. -/
def InBuffer (base : Nat) (buf : List UInt8) (addr : Int) (bytes : List UInt8) : Prop :=
  ∃ o : Nat, addr = base + o ∧ o + bytes.length ≤ buf.length ∧ (buf.drop o).take bytes.length = bytes

/-- The parser stores a view of a field with this payload. -/
def Stores (fr : Frame) (addr : Int) (payload : List UInt8) : Prop :=
  ∃ s f s', StreamAt fr true s f ∧
    s.step fr (.readString payload.length) = some (.string (.aliased addr), s') ∧
    payload = fr.bytesAt f.pos payload.length

/-- The stream reads the buffer that it was given, and not the patch buffer. -/
def ReadsBuffer (fr : Frame) (s : Stream) : Prop :=
  slopBytes < fr.size ∧ s.e.end_ = fr.base + fr.size - slopBytes

/-- The calls of `hpb_Decode` inside one of them, over the buffers that they are given, if items are
parsed in states that are `ok`. -/
inductive Nested (arena : Nat → Prop) (ok : Frame → Stream → Prop) (fr : Frame) : Frame → Prop where
  | top : Nested arena ok fr fr
  /-- `hpb_Decoder_AddKnownMessageSetItem`, for a payload of `n` bytes at the pointer. -/
  | item {g inner : Frame} {s : Stream} {f : Flat} {n : Nat} (h : Nested arena ok fr g) (hat : StreamAt g true s f)
      (hok : ok g s) (hsize : checkSize s.e s.ptr n = true) (hbase : (inner.base : Int) = s.ptr)
      (hbuf : inner.buf = g.bytesAt f.pos n) : Nested arena ok fr inner
  /-- `_hpb_Decoder_ReuseSubMessage`, for the unknown fields of a message. -/
  | promote {g inner : Frame} (h : Nested arena ok fr g) (hsize : inner.size ≤ int32Max)
      (harena : ∀ a, inner.base ≤ a → a < inner.base + inner.size → arena a) : Nested arena ok fr inner

/-- **Where a view should be**: in the caller's buffer or in memory of the arena, with the bytes of its
payload. -/
def Safe (arena : Nat → Prop) (fr : Frame) (addr : Int) (payload : List UInt8) : Prop :=
  InBuffer fr.base fr.buf addr payload ∨
    ∃ base buf, (∀ a, base ≤ a → a < base + buf.length → arena a) ∧ InBuffer base buf addr payload

theorem InBuffer.refl (base : Nat) (buf : List UInt8) : InBuffer base buf base buf :=
  ⟨0, by simp, by simp, by simp⟩

/-- A part of a part of a buffer. -/
theorem InBuffer.trans {base base' : Nat} {buf buf' : List UInt8} {addr : Int} {bytes : List UInt8}
    (h : InBuffer base buf base' buf') (h' : InBuffer base' buf' addr bytes) : InBuffer base buf addr bytes := by
  obtain ⟨o, hbase, hlen, hbuf⟩ := h
  obtain ⟨o', haddr, hlen', hbytes⟩ := h'
  refine ⟨o + o', by omega, by omega, ?_⟩
  rw [← hbuf, List.drop_take, List.drop_drop, List.take_take, Nat.min_eq_left (by omega)] at hbytes
  exact hbytes

section Views

variable {fr : Frame} {s : Stream} {f : Flat}

theorem StreamAt.stands {al : Bool} (h : StreamAt fr al s f) (hsz : fr.size ≤ int32Max) :
    ∃ m c, Stands fr al m c s f := by
  obtain ⟨ops, evs, hrun, hflat, herr⟩ := h
  obtain ⟨m₀, hm⟩ := init_stands hsz al
  obtain ⟨m, c, hstands, -⟩ := hm.run_within (.init fr) hrun hflat herr
  exact ⟨m, c, hstands⟩

/-- The stream reads its buffer if and only if it is not in the patch buffer. -/
theorem Sim.readsBuffer_iff {al : Bool} {m : Mode} {pos lim : Nat} (h : Sim fr al m s.e s.ptr pos lim) :
    ReadsBuffer fr s ↔ m = .caller := by
  have hend := h.end_eq
  have hap := fr.apart
  unfold ReadsBuffer
  rw [hend]
  cases m with
  | caller =>
    have hl := h.large rfl
    refine iff_of_true ⟨hl, ?_⟩ rfl
    simp only [Mode.addr, Mode.endOff]
    omega
  | patch =>
    refine iff_of_false ?_ fun h => by cases h
    rintro ⟨hl, heq⟩
    simp only [Mode.addr, Mode.endOff, Frame.patchLo, slopBytes, Frame.size] at *
    omega

/-- The bytes at the cursor. -/
theorem inBuffer_bytesAt {pos n : Nat} (h : pos + n ≤ fr.size) :
    InBuffer fr.base fr.buf (fr.base + pos) (fr.bytesAt pos n) := by
  have hlen : (fr.bytesAt pos n).length = n := by
    rw [fr.bytesAt_eq h, List.length_take, List.length_drop]
    unfold Frame.size at h
    omega
  refine ⟨pos, rfl, ?_, ?_⟩
  · rw [hlen]
    exact h
  · rw [hlen, fr.bytesAt_eq h]

/-- **The views of one call are in its buffer.** -/
theorem Stores.inside (hsz : fr.size ≤ int32Max) {addr : Int} {payload : List UInt8} (h : Stores fr addr payload) :
    InBuffer fr.base fr.buf addr payload := by
  obtain ⟨s, f, s', hat, hstep, hpayload⟩ := h
  obtain ⟨m, c, hstands⟩ := hat.stands hsz
  obtain ⟨s₁, hs₁, -⟩ := hstands.step_readString payload.length
  rw [hs₁] at hstep
  have hlim := hstands.sim.lim_le
  rw [Flat.step] at hstep
  split at hstep
  next hle =>
    cases hstep
    rw [hpayload]
    exact inBuffer_bytesAt (by omega)
  next => cases hstep

/-- The payload of an item that is in the buffer. -/
theorem inBuffer_item (hsz : fr.size ≤ int32Max) (hat : StreamAt fr true s f) (hreads : ReadsBuffer fr s) {n : Nat}
    (hsize : checkSize s.e s.ptr n = true) : InBuffer fr.base fr.buf s.ptr (fr.bytesAt f.pos n) := by
  obtain ⟨m, c, hstands⟩ := hat.stands hsz
  obtain rfl := hstands.sim.readsBuffer_iff.mp hreads
  rw [hstands.sim.checkSize_eq, decide_eq_true_iff] at hsize
  have hlim := hstands.sim.lim_le
  rw [hstands.sim.ptr_eq]
  exact inBuffer_bytesAt (by omega)

end Views

/-- The buffer of a nested call is in the caller's buffer or in the arena, if no item is in a patch buffer. -/
theorem Nested.safe {arena : Nat → Prop} {fr g : Frame} (hsz : fr.size ≤ int32Max)
    (h : Nested arena ReadsBuffer fr g) : g.size ≤ int32Max ∧ Safe arena fr g.base g.buf := by
  induction h with
  | top => exact ⟨hsz, .inl (.refl _ _)⟩
  | @item g inner s f n _ hat hok hsize hbase hbuf ih =>
    obtain ⟨hg, hsafe⟩ := ih
    have hin := inBuffer_item hg hat hok hsize
    rw [← hbase, ← hbuf] at hin
    refine ⟨?_, ?_⟩
    · obtain ⟨o, -, hlen, -⟩ := hin
      unfold Frame.size at hg ⊢
      omega
    · obtain h | ⟨base, buf, harena, h⟩ := hsafe
      · exact .inl (h.trans hin)
      · exact .inr ⟨base, buf, harena, h.trans hin⟩
  | promote _ hsize harena _ => exact ⟨hsize, .inr ⟨_, _, harena, .refl _ _⟩⟩

/-- The views of an item in the patch buffer are in the patch buffer. -/
theorem Stores.inPatch {fr inner : Frame} {s : Stream} {f : Flat} {n : Nat} (hsz : fr.size ≤ int32Max)
    (hat : StreamAt fr true s f) (hreads : ¬ReadsBuffer fr s) (hsize : checkSize s.e s.ptr n = true)
    (hbase : (inner.base : Int) = s.ptr) (hbuf : inner.buf = fr.bytesAt f.pos n) {addr : Int}
    {payload : List UInt8} (h : Stores inner addr payload) :
    fr.patch ≤ addr ∧ addr + payload.length ≤ fr.patch + 2 * slopBytes := by
  obtain ⟨m, c, hstands⟩ := hat.stands hsz
  have hlim := hstands.sim.lim_le
  have hlo := hstands.sim.lo_le
  rw [hstands.sim.checkSize_eq, decide_eq_true_iff] at hsize
  have hlen : inner.buf.length = n := by
    rw [hbuf, fr.bytesAt_eq (by omega), List.length_take, List.length_drop]
    unfold Frame.size at hlim
    omega
  obtain ⟨o, haddr, ho, -⟩ := h.inside (show inner.size ≤ int32Max by unfold Frame.size; omega)
  cases m with
  | caller => exact absurd (hstands.sim.readsBuffer_iff.mpr rfl) hreads
  | patch =>
    have hptr := hstands.sim.ptr_eq
    simp only [Mode.addr, Mode.lo, Frame.patchLo, slopBytes] at *
    omega

/-- **Views are in the caller's buffer or in the arena** if no item of a message set is parsed while its
stream reads the patch buffer. The views of one that is are in the patch buffer. -/
theorem aliased_views (fr : Frame) (hsz : fr.size ≤ int32Max) (arena : Nat → Prop) :
    (∀ g addr payload, Nested arena ReadsBuffer fr g → Stores g addr payload → Safe arena fr addr payload) ∧
    ∀ (s : Stream) (f : Flat) (n : Nat) (inner : Frame), StreamAt fr true s f → ¬ReadsBuffer fr s →
      checkSize s.e s.ptr n = true → (inner.base : Int) = s.ptr → inner.buf = fr.bytesAt f.pos n →
      ∀ addr payload, Stores inner addr payload →
        fr.patch ≤ addr ∧ addr + payload.length ≤ fr.patch + 2 * slopBytes := by
  constructor
  · intro g addr payload hg hview
    obtain ⟨hsize, hsafe⟩ := hg.safe hsz
    have hin := hview.inside hsize
    obtain h | ⟨base, buf, harena, h⟩ := hsafe
    · exact .inl (h.trans hin)
    · exact .inr ⟨base, buf, harena, h.trans hin⟩
  · intro s f n inner hat hreads hsize hbase hbuf addr payload hview
    exact hview.inPatch hsz hat hreads hsize hbase hbuf

section Item

/-- A message set, at 0, and the type 5 of its items, whose payload has a field 1 of bytes at the offset 8. -/
def bytesItemSchema : Schema where
  tables := fun id =>
    if id = 0 then { MiniTable.empty with ext := ExtMode.isMessageSet }
    else { MiniTable.empty with
      fields := [⟨1, 8, 1, 0, .bytes, FieldMode.scalar⟩], size := 24, fieldCount := 1, denseBelow := 1 }
  enums := fun _ => ⟨0, 0, []⟩
  exts := fun _ => ⟨⟨5, 0, 0, 0, .message, FieldMode.scalar⟩, .table 0, .submsg 1⟩
  fieldCount_eq := fun id => by
    dsimp only
    split <;> rfl
  searchable := fun id => by
    dsimp only
    split
    · exact ⟨List.Pairwise.nil, fun _ hi => absurd hi (Nat.not_lt_zero _)⟩
    · refine ⟨List.pairwise_singleton _ _, fun i hi => ?_⟩
      obtain rfl : i = 0 := Nat.lt_one_iff.mp hi
      exact ⟨_, rfl, rfl⟩

/-- A message set at the address 4096 with one item of the type 5, whose field 1 is `hi`, and the patch
buffer of its stream. -/
def itemFrame : Frame where
  base := 4096
  buf := itemRecord 5 [10, 2, 104, 105]
  patch := 8192
  base_end := by decide
  patch_end := by decide
  apart := by decide

/-- The payload where the stream has it, and the patch buffer of the nested call. -/
def payloadFrame : Frame where
  base := 8197
  buf := [10, 2, 104, 105]
  patch := 12288
  base_end := by decide
  patch_end := by decide
  apart := by decide

/-- `hi` as the nested call stores it. -/
theorem payloadFrame_stores : Stores payloadFrame 8199 [104, 105] :=
  ⟨_, _, _, ⟨[.isDone, .read 2], _, rfl, rfl, by decide⟩, rfl, rfl⟩

/-- A field of a message that is not in a message set. -/
theorem aliased_views_field :
    payloadFrame.size ≤ int32Max ∧ Stores payloadFrame 8199 [104, 105] ∧
      Safe (fun _ => False) payloadFrame 8199 [104, 105] :=
  ⟨by decide, payloadFrame_stores,
    (aliased_views payloadFrame (by decide) fun _ => False).1 _ _ _ .top payloadFrame_stores⟩

/-- **The view of the item is in the patch buffer**: when the call over the message set is over, so is the
memory at 8199. The arena has the memory from 65536 on. -/
theorem not_aliased_views_item :
    (∃ m, (decode { itemEnv with schema := bytesItemSchema } ⟨false, false, 0⟩ itemFrame.buf (.table 0)
        Message.new).result = .ok m ∧ (m.ext 0).message.data 8 = .str [104, 105]) ∧
      Nested (65536 ≤ ·) (fun _ _ => True) itemFrame payloadFrame ∧ Stores payloadFrame 8199 [104, 105] ∧
      ¬Safe (65536 ≤ ·) itemFrame 8199 [104, 105] := by
  refine ⟨⟨_, rfl, rfl⟩, ?_, payloadFrame_stores, ?_⟩
  · exact .item (n := 4) .top ⟨[.isDone, .read 1, .isDone, .read 2, .isDone, .read 2], _, rfl, rfl, by decide⟩ trivial
      (by decide) rfl rfl
  · rintro (⟨o, haddr, ho, -⟩ | ⟨base, buf, harena, o, haddr, ho, -⟩)
    · have hlen : itemFrame.buf.length = 10 := rfl
      have hbase : itemFrame.base = 4096 := rfl
      rw [hlen] at ho
      rw [hbase] at haddr
      change o + 2 ≤ 10 at ho
      omega
    · change o + 2 ≤ buf.length at ho
      have := harena (base + o) (by omega) (by omega)
      omega

end Item

end Hpb
