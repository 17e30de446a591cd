import Hpb.Wire.EpsCopyAvailable
import Hpb.Wire.VarintSpec

/-!
# Sizes that the fast decoder rejects (`fastdecode_longsize`)

`fastdecode_longsize` returns `NULL` for a size of which four bytes are followed by one of 8 or more. The
`int` that it adds to then holds what the first four bytes make (`longsizeInto_of_rejected`), and it is up
to its caller to look at the pointer. `fastdecode_delimited` does; the parsers of strings and of packed
fixed-width fields only check the size, from the address 0 on, and most addresses of a buffer let it pass.

`FastParser.read` is what each parser does with the size. `fastRead_rejects_iff` says when a size that was
rejected is an error, as it is in the generic decoder: that one may also take it, since its varints have up
to ten bytes (`Overlong`).
-/

namespace Hpb

open EpsCopyInputStream

/-- The loop of `fastdecode_longsize` with the `int` behind its argument: the bytes that were read, or none
for `NULL`, and the size. -/
def longsizeFrom (mem : Nat → UInt8) : Nat → Nat → UInt32 → Option Nat × UInt32
  | 0, i, size => if mem i ≥ 8 then (none, size) else (some (i + 1), addSizeByte size (mem i) 28)
  | fuel + 1, i, size =>
    let size := addSizeByte size (mem i) (7 + 7 * i)
    if mem i &&& 128 = 0 then (some (i + 1), size) else longsizeFrom mem fuel (i + 1) size

/-- `fastdecode_longsize`, with `*size` after it. -/
def longsizeInto (mem : Nat → UInt8) (size : UInt32) : Option Nat × UInt32 := longsizeFrom mem 3 0 (size &&& 255)

/-- What a parser does when it has read the size of its data. -/
inductive FastRead where
  /-- `kHpb_DecodeStatus_Malformed`. -/
  | malformed
  /-- `kHpb_DecodeStatus_OutOfMemory`. -/
  | outOfMemory
  /-- It goes on with `size` bytes at `ptr`. -/
  | data (ptr size : Int)
  deriving DecidableEq

/-- A size that starts with the byte `first`, as its parser converts it: the pointer after it, or none for
`NULL`, and the size. -/
def fastSize (first : UInt32) (ptr : Int) (mem : Nat → UInt8) : Option Int × Int :=
  if first &&& 128 = 0 then (some (ptr + 1), first.toInt32.toInt)
  else
    let (n, size) := longsizeInto (fun i => mem (i + 1)) first
    (n.map fun n => ptr + 1 + n, size.toInt32.toInt)

/-- The size as the parsers of strings and of packed fixed-width fields have it: `NULL` is an address. -/
def fastSizeUnchecked (ptr : Int) (mem : Nat → UInt8) : Int × Int :=
  let (ptr, size) := fastSize (mem 0).toUInt32 ptr mem
  (ptr.getD 0, size)

/-- `FASTDECODE_LONGSTRING`, with an arena that has memory. -/
def fastLongString (e : EpsCopyInputStream) (ptr : Int) (mem : Nat → UInt8) : FastRead :=
  let (ptr, size) := fastSizeUnchecked ptr mem
  if ¬e.checkSize ptr size then .malformed
  else if e.checkDataSizeAvailable ptr size then .data ptr size
  else .outOfMemory

/-- `FASTDECODE_PACKEDFIXED`, with an arena that has memory. -/
def fastPackedFixed (valbytes : Nat) (e : EpsCopyInputStream) (ptr : Int) (mem : Nat → UInt8) : FastRead :=
  let (ptr, size) := fastSizeUnchecked ptr mem
  if ¬e.checkDataSizeAvailable ptr size ∨ size % valbytes ≠ 0 then .malformed else .data ptr size

/-- The first byte of a size as `fastdecode_delimited` has it. -/
def signedByte (b : UInt8) : UInt32 := b.toInt8.toInt32.toUInt32

/-- `fastdecode_delimited`, as `FASTDECODE_PACKEDVARINT` calls it. -/
def fastDelimited (e : EpsCopyInputStream) (ptr : Int) (mem : Nat → UInt8) : FastRead :=
  if e.checkSubMessageSizeAvailable (ptr + 1) (mem 0).toInt8.toInt then .data (ptr + 1) (mem 0).toInt8.toInt
  else
    match fastSize (signedByte (mem 0)) ptr mem with
    | (none, _) => .malformed
    | (some ptr, len) => if e.checkSize ptr len then .data ptr len else .malformed

/-- The parsers of strings and bytes and of packed fields. -/
inductive FastParser where
  | string
  | packedFixed (valbytes : Nat)
  | packedVarint

namespace FastParser

/-- What a parser does with the size at `ptr`. -/
def read : FastParser → EpsCopyInputStream → Int → (Nat → UInt8) → FastRead
  | string => fastLongString
  | packedFixed valbytes => fastPackedFixed valbytes
  | packedVarint => fastDelimited

/-- Whether the parser calls `fastdecode_longsize`. -/
def ReadsLongsize (p : FastParser) (e : EpsCopyInputStream) (ptr : Int) (mem : Nat → UInt8) : Prop :=
  128 ≤ (mem 0).toNat ∧
    (p = packedVarint → e.checkSubMessageSizeAvailable (ptr + 1) (mem 0).toInt8.toInt = false)

/-- The pointer that the parser goes on with is `NULL`. -/
def Rejected (p : FastParser) (e : EpsCopyInputStream) (ptr : Int) (mem : Nat → UInt8) : Prop :=
  p.ReadsLongsize e ptr mem ∧ fastdecodeLongsize (fun i => mem (i + 1)) (mem 0).toUInt32 = none

/-- **A size that was rejected is an error**, for the parser and for the generic decoder. -/
def RejectsLikeGeneric (p : FastParser) (e : EpsCopyInputStream) (ptr : Int) (mem : Nat → UInt8) : Prop :=
  p.Rejected e ptr mem →
    p.read e ptr mem = .malformed ∧ Decoder.decodeSize (fun n size => e.checkSize (ptr + n) size) mem = none

/-- The first four bytes of a size, with the bit that says that another one follows. -/
def partialSize (mem : Nat → UInt8) : Nat := septets mem 4 + 2 ^ 28

/-- What is in the size passes the parser's check from the address 0 on. -/
def NullPasses (p : FastParser) (e : EpsCopyInputStream) (mem : Nat → UInt8) : Prop :=
  match p with
  | string => partialSize mem ≤ e.end_ + e.limit
  | packedFixed valbytes => partialSize mem ≤ uintptr (e.limitPtr + slopBytes) ∧ partialSize mem % valbytes = 0
  | packedVarint => False

/-- A size in more than five bytes that the generic decoder takes. -/
def Overlong (e : EpsCopyInputStream) (ptr : Int) (mem : Nat → UInt8) : Prop :=
  ∃ n, 5 ≤ n ∧ n < 10 ∧ Ends mem n ∧ septets mem (n + 1) % 2 ^ 64 < int32Max ∧
    e.checkSize (ptr + (n + 1 : Nat)) (septets mem (n + 1) % 2 ^ 64 : Nat) = true

end FastParser

section Longsize

variable {mem : Nat → UInt8}

/-- Without the size that is left behind, it is the reader of `Varint`. -/
theorem fastLongsizeFrom_eq (fuel i : Nat) (size : UInt32) :
    fastLongsizeFrom mem fuel i size =
      (longsizeFrom mem fuel i size).1.map fun n => (n, (longsizeFrom mem fuel i size).2) := by
  induction fuel generalizing i size with
  | zero =>
    unfold fastLongsizeFrom longsizeFrom
    split <;> rfl
  | succ fuel ih =>
    unfold fastLongsizeFrom longsizeFrom
    dsimp only
    split
    · rfl
    · exact ih _ _

/-- The sign of the first byte is masked. -/
theorem signedByte_and_255 (b : UInt8) : signedByte b &&& 255 = b.toUInt32 &&& 255 := by
  have hall : ∀ b : Fin 256, signedByte (UInt8.ofNat b.val) &&& 255 = (UInt8.ofNat b.val).toUInt32 &&& 255 := by
    decide +kernel
  have hb := hall ⟨b.toNat, b.toNat_lt⟩
  rwa [UInt8.ofNat_toNat] at hb

theorem fastdecodeLongsize_eq_none_iff (h : 128 ≤ (mem 0).toNat) :
    fastdecodeLongsize (fun i => mem (i + 1)) (mem 0).toUInt32 = none ↔ Continues mem 4 ∧ 8 ≤ (mem 4).toNat := by
  have hp := partialSize_first h
  change PartialSize mem 1 (signedByte (mem 0) &&& 255) at hp
  rw [signedByte_and_255] at hp
  unfold fastdecodeLongsize
  obtain ⟨n, hn, hends⟩ | hc := ends_or_continues mem 4
  · have h0 : 0 + 1 ≤ n := by
      refine Nat.pos_of_ne_zero ?_
      rintro rfl
      exact absurd hends.2 (Nat.not_lt.mpr h)
    rw [fastLongsizeFrom_of_ends hends hp h0 hn rfl]
    refine iff_of_false (Option.some_ne_none _) fun hc => ?_
    exact absurd hends.2 (Nat.not_lt.mpr (hc.1 n hn))
  · rw [fastLongsizeFrom_fifth hc hp rfl]
    split
    next h8 => exact ⟨fun _ => ⟨hc, h8⟩, fun _ => rfl⟩
    next h8 => exact iff_of_false (Option.some_ne_none _) fun h => h8 h.2

/-- The loop at a size that it rejects adds its first four bytes. -/
theorem longsizeFrom_of_rejected {fuel i : Nat} {size : UInt32} (h : Continues mem 4) (h8 : 8 ≤ (mem 4).toNat)
    (hp : PartialSize mem (i + 1) size) (hf : i + fuel = 3) :
    longsizeFrom (fun i => mem (i + 1)) fuel i size = (none, UInt32.ofNat (FastParser.partialSize mem)) := by
  induction fuel generalizing i size with
  | zero =>
    obtain rfl : i = 3 := by omega
    have hp' : size.toNat % 2 ^ 32 = (septets mem 4 + 2 ^ 28) % 2 ^ 32 := hp
    have hsize : size = UInt32.ofNat (FastParser.partialSize mem) := by
      apply UInt32.toNat_inj.mp
      rw [UInt32.toNat_ofNat', FastParser.partialSize, ← hp', Nat.mod_eq_of_lt size.toNat_lt]
    have hle : (8 : UInt8) ≤ mem 4 := UInt8.le_iff_toNat_le.mpr h8
    rw [longsizeFrom, if_pos hle, hsize]
  | succ fuel ih =>
    have hb := h (i + 1) (by omega)
    rw [longsizeFrom]
    rw [show 7 + 7 * i = 7 * (i + 1) by omega, if_neg (and_128_of_ge hb)]
    exact ih (hp.continued (by omega) hb) (by omega)

theorem partialSize_lt (mem : Nat → UInt8) : FastParser.partialSize mem < 2 ^ 29 := by
  have h := septets_lt mem 4
  unfold FastParser.partialSize
  omega

/-- **What is left of a size that was rejected**: `NULL`, and the first four bytes. -/
theorem fastSize_of_rejected {first : UInt32} (hfirst : first &&& 255 = (mem 0).toUInt32 &&& 255)
    (h : Continues mem 4) (h8 : 8 ≤ (mem 4).toNat) (ptr : Int) :
    fastSize first ptr mem = (none, (FastParser.partialSize mem : Int)) := by
  have hp := partialSize_first (h 0 (by decide))
  change PartialSize mem 1 (signedByte (mem 0) &&& 255) at hp
  rw [signedByte_and_255, ← hfirst] at hp
  have h128 : first &&& 128 ≠ 0 := by
    have hmask : first &&& 128 = (first &&& 255) &&& 128 := by
      rw [UInt32.and_assoc]
      rfl
    rw [hmask, hfirst, UInt32.and_assoc]
    intro hzero
    refine and_128_of_ge (h 0 (by decide)) (UInt8.toNat_inj.mp ?_)
    exact congrArg UInt32.toNat hzero
  have hlt := partialSize_lt mem
  have hint : (UInt32.ofNat (FastParser.partialSize mem)).toInt32.toInt = FastParser.partialSize mem := by
    change (BitVec.ofNat 32 (FastParser.partialSize mem)).toInt = _
    have hnat : (BitVec.ofNat 32 (FastParser.partialSize mem)).toNat = FastParser.partialSize mem := by
      rw [BitVec.toNat_ofNat]
      omega
    rw [BitVec.toInt_eq_toNat_of_lt (by omega), hnat]
  rw [fastSize, if_neg h128, longsizeInto, longsizeFrom_of_rejected h h8 hp rfl]
  exact congrArg (fun size => (none, size)) hint

end Longsize

namespace FastParser

section Rejected

variable {mem : Nat → UInt8} {e : EpsCopyInputStream} {ptr : Int}

/-- A parser that does not look at the pointer rejects the size if the check fails for `NULL`. -/
theorem read_of_rejected {p : FastParser} (hread : p.ReadsLongsize e ptr mem) (h : Continues mem 4)
    (h8 : 8 ≤ (mem 4).toNat) : p.read e ptr mem = .malformed ↔ ¬p.NullPasses e mem := by
  have hsize := fastSize_of_rejected rfl h h8 ptr
  have hlt := partialSize_lt mem
  have hnull : fastSizeUnchecked ptr mem = (0, (partialSize mem : Int)) := by
    rw [fastSizeUnchecked, hsize]
    rfl
  cases p with
  | string =>
    change fastLongString e ptr mem = _ ↔ _
    unfold fastLongString
    rw [hnull]
    dsimp only [NullPasses]
    have hcheck : e.checkSize 0 (partialSize mem) = true ↔ (partialSize mem : Int) ≤ e.end_ + e.limit := by
      rw [checkSize, decide_eq_true_iff]
      omega
    rw [← hcheck]
    split
    next hfail => exact iff_of_true rfl hfail
    next hpass =>
      refine iff_of_false ?_ (not_not_intro (not_not.mp hpass))
      split <;> rintro ⟨⟩
  | packedFixed valbytes =>
    change fastPackedFixed valbytes e ptr mem = _ ↔ _
    unfold fastPackedFixed
    rw [hnull]
    dsimp only [NullPasses]
    have hcheck : e.checkDataSizeAvailable 0 (partialSize mem) = true ↔
        (partialSize mem : Int) ≤ uintptr (e.limitPtr + slopBytes) := by
      have hzero : uintptr 0 = 0 := rfl
      have hpart : uintptr (partialSize mem) = partialSize mem := by
        rw [uintptr]
        omega
      rw [checkDataSizeAvailable, checkSizeAvailable]
      simp only [hzero, hpart, Int.zero_add, Bool.and_eq_true, decide_eq_true_iff, Bool.false_eq_true, if_false]
      exact and_iff_right (Int.natCast_nonneg _)
    have hmod : (partialSize mem : Int) % valbytes = 0 ↔ partialSize mem % valbytes = 0 := by
      rw [← Int.natCast_mod]
      exact Int.natCast_eq_zero
    rw [← hcheck, ← hmod]
    split
    next hfail => exact iff_of_true rfl fun hpass => hfail.elim (absurd hpass.1) (absurd hpass.2)
    next hpass =>
      rw [not_or, not_not, not_not] at hpass
      exact iff_of_false (by rintro ⟨⟩) (not_not_intro hpass)
  | packedVarint =>
    change fastDelimited e ptr mem = _ ↔ _
    unfold fastDelimited
    rw [if_neg (by rw [hread.2 rfl]; exact Bool.false_ne_true),
      fastSize_of_rejected (signedByte_and_255 (mem 0)) h h8 ptr]
    exact iff_of_true rfl id

/-- The generic decoder takes a size that was rejected if and only if it is overlong. -/
theorem decodeSize_of_rejected (h : Continues mem 4) (h8 : 8 ≤ (mem 4).toNat) :
    Decoder.decodeSize (fun n size => e.checkSize (ptr + n) size) mem = none ↔ ¬Overlong e ptr mem := by
  obtain ⟨n, hn, hends⟩ | hc := ends_or_continues mem 10
  · rw [decodeSize_of_ends _ hends hn]
    have hn4 : 4 ≤ n := by
      refine Nat.le_of_not_lt fun hlt => ?_
      exact absurd hends.2 (Nat.not_lt.mpr (h n hlt))
    split
    next htakes =>
      refine iff_of_false (Option.some_ne_none _) (not_not_intro ⟨n, ?_, hn, hends, htakes⟩)
      -- five bytes that were rejected make 2 ^ 31 or more
      refine Nat.lt_of_le_of_ne hn4 ?_
      rintro rfl
      have hlarge : ¬septets mem 5 < 2 ^ 31 := by
        rw [septets_five_lt, Nat.mod_eq_of_lt hends.2]
        omega
      have hsmall : septets mem 5 % 2 ^ 64 < int32Max := htakes.1
      have hbound := septets_lt mem 5
      unfold int32Max at hsmall
      omega
    next hfail =>
      refine iff_of_true rfl ?_
      rintro ⟨n', -, hn', hends', htakes⟩
      obtain rfl := hends.unique hends'
      exact hfail htakes
  · refine iff_of_true ?_ ?_
    · rw [Decoder.decodeSize, decodeVarint_of_continues hc]
    · rintro ⟨n, -, hn, hends, -⟩
      exact absurd hends.2 (Nat.not_lt.mpr (hc n hn))

end Rejected

end FastParser

/-- **A size that was rejected is an error as in the generic decoder** if and only if the check of what is
left of it fails for `NULL` and the size is not an overlong one. -/
theorem fastRead_rejects_iff (p : FastParser) (e : EpsCopyInputStream) (ptr : Int) (mem : Nat → UInt8) :
    p.RejectsLikeGeneric e ptr mem ↔
      (p.ReadsLongsize e ptr mem ∧ Continues mem 4 ∧ 8 ≤ (mem 4).toNat →
        ¬p.NullPasses e mem ∧ ¬FastParser.Overlong e ptr mem) := by
  unfold FastParser.RejectsLikeGeneric FastParser.Rejected
  constructor
  · rintro hall ⟨hread, hc, h8⟩
    obtain ⟨hfast, hgeneric⟩ := hall ⟨hread, (fastdecodeLongsize_eq_none_iff hread.1).mpr ⟨hc, h8⟩⟩
    exact ⟨(FastParser.read_of_rejected hread hc h8).mp hfast, (FastParser.decodeSize_of_rejected hc h8).mp hgeneric⟩
  · rintro hall ⟨hread, hnone⟩
    obtain ⟨hc, h8⟩ := (fastdecodeLongsize_eq_none_iff hread.1).mp hnone
    obtain ⟨hnull, hover⟩ := hall ⟨hread, hc, h8⟩
    exact ⟨(FastParser.read_of_rejected hread hc h8).mpr hnull, (FastParser.decodeSize_of_rejected hc h8).mpr hover⟩

/-- A buffer at the address `2 ^ 30` with the tag of a string and a size of `2 ^ 31`. -/
def rejectedFrame : Frame where
  base := 1073741824
  buf := [10, 128, 128, 128, 128, 8, 0, 0, 0, 0, 0, 0, 0, 0, 0, 0, 0, 0, 0, 0]
  patch := 4096
  base_end := by decide
  patch_end := by decide
  apart := by decide

/-- After the tag, the parser of strings rejects the size and goes on with `2 ^ 28` bytes at `NULL`. -/
theorem not_fastRead_rejects_string :
    ∃ s f, Client.run (Stream.step rejectedFrame) {} (Stream.init rejectedFrame false) [.isDone, .read 1] =
        some ([.isDone false, .bytes [10]], s) ∧
      Client.run (fun f op => some (Flat.step rejectedFrame false f op)) {} ⟨0, []⟩ [.isDone, .read 1] =
        some ([.isDone false, .bytes [10]], f) ∧
      FastParser.string.read s.e s.ptr (fun i => rejectedFrame.byteAt (f.pos + i)) = .data 0 268435456 ∧
      ¬FastParser.string.RejectsLikeGeneric s.e s.ptr fun i => rejectedFrame.byteAt (f.pos + i) := by
  refine ⟨_, _, rfl, rfl, by decide, fun h => ?_⟩
  exact absurd (h ⟨⟨by decide, nofun⟩, by decide⟩).1 (by decide)

end Hpb
