import Hpb.Lib.Decimal
import Hpb.Util.Compare
import Hpb.Wire.EpsCopyAvailable
import Hpb.Text.Output

/-!
# Unknown fields in the text encoder (`txtenc_unknown`)

The unknown fields of a message are printed by their numbers. The payload of a length-delimited field is parsed as a
message on trial; if that fails, the output goes back to where it was and the payload is printed as a string.

A pointer is an address of the memory that the fields lie in. `UnknownStream` is the stream over a part of it, as
`hpb_EpsCopyInputStream` shows it (see `UnknownStream.of_sim`): in the patch buffer, and there only, a length passes
`CheckDataSizeAvailable` although it ends up to 16 bytes behind the part. So the memory around the fields is read, and
the model is given all of it. A result is `none` if the fuel is used up.
-/

namespace Hpb

/-- The bytes from an address on, and zeros from `stop` on. -/
def bytesBefore (mem : Nat → UInt8) (stop ptr i : Nat) : UInt8 := if ptr + i < stop then mem (ptr + i) else 0

/-- `hpb_EpsCopyInputStream` over the memory before `stop`; `patched` if it reads the patch buffer. -/
structure UnknownStream where
  stop : Nat
  patched : Bool
  deriving DecidableEq

namespace UnknownStream

/-- `hpb_EpsCopyInputStream_Init`. -/
def init (ptr size : Nat) : UnknownStream := ⟨ptr + size, decide (size ≤ slopBytes)⟩

/-- What `hpb_EpsCopyInputStream_IsDone` finds: the end, an error, or more data. -/
inductive IsDone where
  | done
  | error
  | more (s : UnknownStream)

/-- `hpb_EpsCopyInputStream_IsDone`. The last 16 bytes are read in the patch buffer. -/
def isDone (s : UnknownStream) (ptr : Nat) : IsDone :=
  if ptr < s.stop then .more { s with patched := s.patched || decide (s.stop ≤ ptr + slopBytes) }
  else if ptr = s.stop then .done
  else .error

/-- The bytes at a pointer. -/
def bytes (s : UnknownStream) (mem : Nat → UInt8) (ptr : Nat) : Nat → UInt8 := bytesBefore mem s.stop ptr

/-- `hpb_EpsCopyInputStream_CheckDataSizeAvailable`. -/
def checkDataSizeAvailable (s : UnknownStream) (ptr size : Nat) : Bool :=
  decide (ptr + size ≤ if s.patched then s.stop + slopBytes else s.stop)

end UnknownStream

section Stream

open EpsCopyInputStream

variable {fr : Frame} {m : Mode} {e : EpsCopyInputStream} {ptr : Int} {pos : Nat}

/-- The stream over a whole buffer. -/
def UnknownStream.ofMode (fr : Frame) (m : Mode) : UnknownStream := ⟨fr.base + fr.size, decide (m = .patch)⟩

/-- **`IsDone`** of a stream is what this one finds. -/
theorem UnknownStream.isDone_of_sim (h : Sim fr true m e ptr pos fr.size) :
    match (ofMode fr m).isDone (fr.base + pos) with
    | .done => EpsCopyInputStream.isDone fr e ptr = some (true, e, some ptr)
    | .error => EpsCopyInputStream.isDone fr e ptr = some (true, { e with error := true }, none)
    | .more s => ∃ m' e' ptr', EpsCopyInputStream.isDone fr e ptr = some (false, e', some ptr') ∧
        Sim fr true m' e' ptr' pos fr.size ∧ s = ofMode fr m' := by
  unfold UnknownStream.isDone ofMode
  dsimp only
  obtain ⟨hlt, m', e', ptr', hrun, hsim, hend, hmode⟩ | ⟨heq, hrun⟩ | ⟨hgt, hrun⟩ := h.isDone_run
  · rw [if_pos (by omega)]
    refine ⟨m', e', ptr', hrun, hsim, ?_⟩
    congr 1
    obtain ⟨rfl, rfl⟩ | ⟨rfl, rfl, hflip⟩ := hmode
    · cases m' with
      | patch => rfl
      | caller =>
        simp only [Mode.endOff, slopBytes] at hend
        have hfar : ¬fr.base + fr.size ≤ fr.base + pos + slopBytes := by
          unfold slopBytes
          omega
        rw [decide_eq_false hfar]
        rfl
    · -- a stream that is not flipped stays as it is
      have hnear : fr.base + fr.size ≤ fr.base + pos + slopBytes := by
        by_contra hfar
        have hptr : ptr < e.limitPtr := by
          have h1 := h.ptr_eq
          have h2 := h.limitPtr_eq
          have h3 := h.limit_eq
          have h4 := h.end_eq
          simp only [Mode.addr, Mode.endOff] at h1 h3 h4
          unfold slopBytes at hfar h3 h4
          omega
        rw [EpsCopyInputStream.isDone, isDoneStatus, if_pos hptr] at hrun
        cases hrun
        exact hflip rfl
      rw [decide_eq_true hnear]
      rfl
  · rw [if_neg (by omega), if_pos (by omega)]
    exact hrun
  · rw [if_neg (by omega), if_neg (by omega)]
    exact hrun

/-- **`CheckDataSizeAvailable`** of a stream is that of this one. -/
theorem UnknownStream.checkDataSizeAvailable_of_sim (h : Sim fr true m e ptr pos fr.size)
    (hpos : pos ≤ fr.size + slopBytes) {size : Nat} (hsize : size < 2 ^ 31) :
    EpsCopyInputStream.checkDataSizeAvailable e ptr size =
      (ofMode fr m).checkDataSizeAvailable (fr.base + pos) size := by
  rw [h.checkDataSizeAvailable_eq hpos (by omega) (by omega), UnknownStream.checkDataSizeAvailable, decide_eq_decide]
  unfold ofMode
  cases m with
  | caller =>
    have hlarge := h.large rfl
    simp only [Mode.endOff, slopBytes, reduceCtorEq, decide_false, Bool.false_eq_true, if_false] at hlarge ⊢
    omega
  | patch =>
    simp only [Mode.endOff, decide_true, if_true]
    omega

/-- **The bytes at a pointer** of a stream are those of this one. -/
theorem UnknownStream.bytes_of_sim (h : Sim fr true m e ptr pos fr.size) {mem : Nat → UInt8}
    (hmem : ∀ i < fr.size, mem (fr.base + i) = fr.byteAt i) {n : Nat} (hn : pos + n ≤ m.endOff fr + slopBytes) :
    loadN fr e ptr n = some ((List.range n).map ((ofMode fr m).bytes mem (fr.base + pos))) := by
  have hbytes : ∀ o n, fr.bytesAt o n = (List.range n).map fun i => fr.byteAt (o + i) := by
    intro o n
    induction n generalizing o with
    | zero => rfl
    | succ n ih =>
      rw [Frame.bytesAt, ih, List.range_succ_eq_map, List.map_cons, List.map_map]
      refine congrArg (fr.byteAt o :: ·) (List.map_congr_left fun i _ => ?_)
      exact congrArg fr.byteAt (by omega)
  rw [h.loadN_run hn, hbytes]
  refine congrArg some (List.map_congr_left fun i _ => ?_)
  rw [UnknownStream.bytes, bytesBefore]
  unfold ofMode
  dsimp only
  split
  next hlt => rw [Nat.add_assoc, hmem _ (by omega)]
  next hge => rw [Frame.byteAt, List.getD_eq_default _ _ (by unfold Frame.size at hge; omega)]

end Stream

/-- The bytes of the memory from an address on. -/
def memorySlice (mem : Nat → UInt8) (ptr size : Nat) : List UInt8 := (List.range size).map fun i => mem (ptr + i)

/-- `hpb_WireReader_ReadFixed32` and `hpb_WireReader_ReadFixed64`: the value of `n` bytes, the lowest first. -/
def readFixed (bytes : Nat → UInt8) (n : Nat) : Nat := Nat.ofDigits 256 ((List.range n).map fun i => (bytes i).toNat)

namespace Txtenc

/-- The tag that ends a group, or zero for fields that are in none. -/
def endGroup (groupnum : Int) : Nat := if groupnum > 0 then groupnum.toNat * 8 + 4 else 0

/-- The output goes back to where it was: `e->ptr` and `e->overflow`. -/
def restore (e start : Txtenc) : Txtenc := { e with out := e.out.restore start.out }

/-- What `%d: ` prints for a field number. -/
def numberText (tag : Nat) : List UInt8 := Decimal.decimal 1 (tag / 8) ++ chars ": "

/-- The first line of a block. -/
def openBlock (e : Txtenc) : Txtenc := (e.putStr "\x7b").endField.deepen 1

/-- The last line of a block. -/
def closeBlock (e : Txtenc) : Txtenc := (e.deepen (-1)).indent.putStr "\x7d"

mutual

/-- `txtenc_unknown`: the encoder, and the stream and the pointer unless it is `NULL`. -/
def unknown (mem : Nat → UInt8) :
    Nat → Txtenc → Nat → UnknownStream → Int → Option (Txtenc × Option (UnknownStream × Nat))
  | 0, _, _, _, _ => none
  | fuel + 1, e, ptr, s, groupnum =>
    match s.isDone ptr with
    | .done => some (e, if endGroup groupnum = 0 then some (s, ptr) else none)
    | .error => some (e, none)
    | .more s =>
      match UnknownField.readTag (s.bytes mem ptr) with
      | none => some (e, none)
      | some (n, tag) =>
        if tag = endGroup groupnum then some (e, some (s, ptr + n))
        else
          match unknownValue mem fuel (e.indent.printf (numberText tag)) (ptr + n) s tag with
          | none => none
          | some (e, none) => some (e, none)
          | some (e, some (s, ptr)) => unknown mem fuel e.endField ptr s groupnum

/-- The `switch` of `txtenc_unknown`. -/
def unknownValue (mem : Nat → UInt8) :
    Nat → Txtenc → Nat → UnknownStream → Nat → Option (Txtenc × Option (UnknownStream × Nat))
  | 0, _, _, _, _ => none
  | fuel + 1, e, ptr, s, tag =>
    match tag % 8 with
    | 0 =>
      match WireReader.readVarint (s.bytes mem ptr) with
      | none => some (e, none)
      | some (n, val) => some (e.printf (Decimal.decimal 1 val.toNat), some (s, ptr + n))
    | 5 =>
      let val := readFixed (s.bytes mem ptr) 4
      some (e.printf (chars "0x" ++ Decimal.decimal 8 val), some (s, ptr + 4))
    | 1 =>
      let val := readFixed (s.bytes mem ptr) 8
      some (e.printf (chars "0x" ++ Decimal.decimal 16 val), some (s, ptr + 8))
    | 2 =>
      match UnknownField.readSize (s.bytes mem ptr) with
      | none => some (e, none)
      | some (n, size) =>
        if s.checkDataSizeAvailable (ptr + n) size then
          match speculate mem fuel e (ptr + n) size with
          | none => none
          | some (e, true) => some (e, some (s, ptr + n + size))
          | some (e, false) =>
            some (e.string (memorySlice mem (ptr + n) size) true, some (s, ptr + n + size))
        else some (e, none)
    | 3 =>
      match unknown mem fuel e.openBlock ptr s (tag / 8) with
      | none => none
      | some (e, none) => some (e, none)
      | some (e, some (s, ptr)) => some (e.closeBlock, some (s, ptr))
    | _ => some (e, none)

/-- The speculative parse of a payload, and whether it is a message. -/
def speculate (mem : Nat → UInt8) : Nat → Txtenc → Nat → Nat → Option (Txtenc × Bool)
  | 0, _, _, _ => none
  | fuel + 1, start, ptr, size =>
    match unknown mem fuel start.openBlock ptr (.init ptr size) (-1) with
    | none => none
    | some (e, some _) => some (e.closeBlock, true)
    | some (e, none) => some ((e.deepen (-1)).restore start, false)

end

end Txtenc

/-! ### What is read -/

/-- A field as `txtenc_unknown` reads it. `short` if the varints of its tags, its value and its length are those that
an encoder writes, which are the shortest ones. -/
inductive UnknownItem where
  | varint (number val : Nat) (short : Bool)
  /-- `fixed32` and `fixed64`, with the number of bytes. -/
  | fixed (size number val : Nat) (short : Bool)
  /-- A payload that is printed as a message; `whole` if all of it is read. -/
  | block (number : Nat) (payload : List UInt8) (items : List UnknownItem) (whole short : Bool)
  /-- A payload that is printed as a string, and the groups that are left open by its speculative parse. -/
  | string (number : Nat) (payload : List UInt8) (left : Nat) (short : Bool)
  /-- A group; `closed` if it has an end tag of its own. -/
  | group (number : Nat) (items : List UnknownItem) (closed short : Bool)

namespace UnknownItem

/-- The field number. -/
def number : UnknownItem → Nat
  | varint number _ _ => number
  | fixed _ number _ _ => number
  | block number _ _ _ _ => number
  | string number _ _ _ => number
  | group number _ _ _ => number

mutual

/-- The groups that speculative parses of a field left open. -/
def left : UnknownItem → Nat
  | block _ _ items _ _ => leftAll items
  | string _ _ left _ => left
  | group _ items _ _ => leftAll items
  | _ => 0

def leftAll : List UnknownItem → Nat
  | [] => 0
  | item :: items => item.left + leftAll items

end

end UnknownItem

/-- The fields that are read, where they end, and the end tag, if there is one: whether it is the one that an encoder
writes. -/
structure UnknownRead where
  items : List UnknownItem
  stream : UnknownStream
  ptr : Nat
  endTag : Option Bool

/-- The first `n` bytes are the varint that an encoder writes for a value. -/
def isShort (bytes : Nat → UInt8) (n val : Nat) : Bool :=
  decide ((List.range n).map bytes = encodeVarint64 (UInt64.ofNat val))

mutual

/-- The fields that `txtenc_unknown` reads, or the groups that are left open where it fails. -/
def readUnknown (mem : Nat → UInt8) : Nat → Nat → UnknownStream → Int → Option (Except Nat UnknownRead)
  | 0, _, _, _ => none
  | fuel + 1, ptr, s, groupnum =>
    match s.isDone ptr with
    | .done => some (if Txtenc.endGroup groupnum = 0 then .ok ⟨[], s, ptr, none⟩ else .error 0)
    | .error => some (.error 0)
    | .more s =>
      match UnknownField.readTag (s.bytes mem ptr) with
      | none => some (.error 0)
      | some (n, tag) =>
        if tag = Txtenc.endGroup groupnum then some (.ok ⟨[], s, ptr + n, some (isShort (s.bytes mem ptr) n tag)⟩)
        else
          match readUnknownValue mem fuel (ptr + n) s tag (isShort (s.bytes mem ptr) n tag) with
          | none => none
          | some (.error left) => some (.error left)
          | some (.ok (item, s, ptr)) =>
            match readUnknown mem fuel ptr s groupnum with
            | none => none
            | some (.error left) => some (.error (item.left + left))
            | some (.ok r) => some (.ok { r with items := item :: r.items })

/-- The value behind a tag. -/
def readUnknownValue (mem : Nat → UInt8) :
    Nat → Nat → UnknownStream → Nat → Bool → Option (Except Nat (UnknownItem × UnknownStream × Nat))
  | 0, _, _, _, _ => none
  | fuel + 1, ptr, s, tag, short =>
    match tag % 8 with
    | 0 =>
      match WireReader.readVarint (s.bytes mem ptr) with
      | none => some (.error 0)
      | some (n, val) => some (.ok (.varint (tag / 8) val.toNat (short && isShort (s.bytes mem ptr) n val.toNat), s, ptr + n))
    | 5 => some (.ok (.fixed 4 (tag / 8) (readFixed (s.bytes mem ptr) 4) short, s, ptr + 4))
    | 1 => some (.ok (.fixed 8 (tag / 8) (readFixed (s.bytes mem ptr) 8) short, s, ptr + 8))
    | 2 =>
      match UnknownField.readSize (s.bytes mem ptr) with
      | none => some (.error 0)
      | some (n, size) =>
        if s.checkDataSizeAvailable (ptr + n) size then
          let payload := memorySlice mem (ptr + n) size
          let short := short && isShort (s.bytes mem ptr) n size
          match readPayload mem fuel (ptr + n) size with
          | none => none
          | some (.error left) => some (.ok (.string (tag / 8) payload left short, s, ptr + n + size))
          | some (.ok r) =>
            some (.ok (.block (tag / 8) payload r.items r.endTag.isNone short, s, ptr + n + size))
        else some (.error 0)
    | 3 =>
      match readUnknown mem fuel ptr s (tag / 8) with
      | none => none
      | some (.error left) => some (.error (left + 1))
      | some (.ok r) =>
        some (.ok (.group (tag / 8) r.items (decide (tag / 8 ≠ 0)) (short && r.endTag.getD true), r.stream, r.ptr))
    | _ => some (.error 0)

/-- The speculative parse of a payload. -/
def readPayload (mem : Nat → UInt8) : Nat → Nat → Nat → Option (Except Nat UnknownRead)
  | 0, _, _ => none
  | fuel + 1, ptr, size => readUnknown mem fuel ptr (.init ptr size) (-1)

end

/-! ### What is printed -/

namespace UnknownItem

open Txtenc

mutual

/-- What is printed behind the number of a field. -/
def valueText (options : TxtencOptions) (depth : Int) : UnknownItem → List UInt8
  | varint _ val _ => Decimal.decimal 1 val
  | fixed size _ val _ => chars "0x" ++ Decimal.decimal (2 * size) val
  | block _ _ items _ _ =>
    chars "\x7b" ++ endText options ++ itemsText options (depth + 1) items ++
      indentText options (depth + leftAll items) ++ chars "\x7d"
  | string _ payload _ _ => stringText true payload
  | group _ items _ _ =>
    chars "\x7b" ++ endText options ++ itemsText options (depth + 1) items ++
      indentText options (depth + leftAll items) ++ chars "\x7d"

/-- **What is printed for fields.** A speculative parse that leaves groups open moves what comes after it to the
right. -/
def itemsText (options : TxtencOptions) (depth : Int) : List UnknownItem → List UInt8
  | [] => []
  | item :: items =>
    indentText options depth ++ (Decimal.decimal 1 item.number ++ chars ": ") ++ item.valueText options depth ++
      endText options ++ itemsText options (depth + item.left) items

end

end UnknownItem

end Hpb
