import Hpb.Wire.EncodeHolds

/-!
# The fields that the encoder writes (`encode_array`, `encode_mapentry` in `hpb/wire/encode.c`)

Which calls the functions of the encoder make depends on the message only, so each is a list of calls. An array is
written from its last element to the first one. `Writes` says which pieces some calls add to the innermost open block;
with it, the text of a field is that of its elements in their order, behind the tags and the lengths.
-/

namespace Hpb

/-- `kHpb_WireType_Delimited`. -/
def wireTypeDelimited : UInt8 := 2

/-- The elements of an array of fixed-size numbers. -/
inductive FixedElems where
  | four (vals : List UInt32)
  | eight (vals : List UInt64)

/-- Their bytes in memory, and on the wire. -/
def FixedElems.bytes : FixedElems → List (List UInt8)
  | .four vals => vals.map fun val => littleEndian val.toNat 4
  | .eight vals => vals.map fun val => littleEndian val.toNat 8

/-- An `hpb_Array` of such numbers. -/
structure FixedArray where
  elems : FixedElems
  size_lt : elems.bytes.flatten.length < 2 ^ 63

/-- The data of such an array. -/
def FixedArray.data (arr : FixedArray) : ObjectBytes := ⟨arr.elems.bytes.flatten, arr.size_lt⟩

/-- `if (tag) encode_varint(e, tag)`. -/
def tagCalls (tag : UInt32) : List EncoderCall := if tag = 0 then [] else [.varint tag.toUInt64]

/-- `encode_fixedarray` on a little-endian machine. -/
def encodeFixedarray (arr : FixedArray) (tag : UInt32) : List EncoderCall :=
  if tag = 0 then [.bytes arr.data]
  else
    match arr.elems with
    | .four vals => vals.reverse.flatMap fun val => .fixed32 val :: tagCalls tag
    | .eight vals => vals.reverse.flatMap fun val => .fixed64 val :: tagCalls tag

/-- `VARINT_CASE` of `encode_array`, for the numbers as they are encoded. -/
def encodeVarintArray (vals : List UInt64) (tag : UInt32) : List EncoderCall :=
  vals.reverse.flatMap fun val => .varint val :: tagCalls tag

/-- The numbers of an array. -/
inductive NumberArray where
  | varint (vals : List UInt64)
  /-- With the wire type of its elements. -/
  | fixed (arr : FixedArray) (wireType : UInt8)

/-- The tag of an element: `TAG` of `encode_array`. -/
def elemTag (packed : Bool) (number : UInt32) (wireType : UInt8) : UInt32 :=
  if packed then 0 else number <<< 3 ||| wireType.toUInt32

/-- The elements of an array, as `encode_array` writes them. -/
def encodeElems (number : UInt32) (packed : Bool) : NumberArray → List EncoderCall
  | .varint vals => encodeVarintArray vals (elemTag packed number 0)
  | .fixed arr wireType => encodeFixedarray arr (elemTag packed number wireType)

/-- `encode_array` for numbers; only a packed array looks at `pre_len`. -/
def encodeArray (number : UInt32) (packed : Bool) (arr : NumberArray) : List EncoderCall :=
  if packed then .preLen :: encodeElems number packed arr ++ [.size, .tag number wireTypeDelimited]
  else encodeElems number packed arr

/-- `encode_array` for strings. -/
def encodeStrings (number : UInt32) (vals : List ObjectBytes) : List EncoderCall :=
  vals.reverse.flatMap fun val => [.string val, .tag number wireTypeDelimited]

/-- `encode_mapentry`, with the calls of `encode_scalar` for the value and the key. -/
def encodeMapentry (number : UInt32) (value key : List EncoderCall) : List EncoderCall :=
  .preLen :: (value ++ key) ++ [.size, .tag number wireTypeDelimited]

/-! ### What they write -/

/-- The calls put pieces in front of those of the innermost open block. -/
def Writes (calls : List EncoderCall) (ps : List (Piece UInt8)) : Prop :=
  ∀ d : Draft UInt8, calls.foldl EncoderCall.write d = { d with current := ps ++ d.current }

section Writes

variable {calls calls' : List EncoderCall} {ps ps' : List (Piece UInt8)} {α : Type} {number : UInt32}

theorem Writes.nil : Writes [] [] := fun _ => rfl

theorem Writes.append (h : Writes calls ps) (h' : Writes calls' ps') : Writes (calls ++ calls') (ps' ++ ps) := by
  intro d
  rw [List.foldl_append, h, h', List.append_assoc]

/-- **A block**: its calls between `pre_len` and the length. -/
theorem Writes.block (h : Writes calls ps) : Writes (.preLen :: calls ++ [.size]) [.block ps] := by
  intro d
  rw [List.foldl_append]
  change (calls.foldl EncoderCall.write d.openBlock).closeBlock = _
  rw [h]
  simp [Draft.closeBlock, Draft.openBlock]

/-- A block with its tag. -/
theorem Writes.delimited (h : Writes calls ps) : Writes (.preLen :: calls ++ [.size, .tag number wireTypeDelimited])
    [.cells (encodeVarint64 (tagOf number wireTypeDelimited)), .block ps] := by
  have htag : Writes [.tag number wireTypeDelimited] [.cells (encodeVarint64 (tagOf number wireTypeDelimited))] :=
    fun _ => rfl
  have hall := h.block.append htag
  rw [List.append_assoc] at hall
  exact hall

/-- **A loop from the last element to the first one** writes the elements in their order. -/
theorem Writes.backwards {f : α → List EncoderCall} {g : α → List (Piece UInt8)} (h : ∀ a, Writes (f a) (g a))
    (l : List α) : Writes (l.reverse.flatMap f) (l.flatMap g) := by
  induction l with
  | nil => exact .nil
  | cons a l ih =>
    rw [List.reverse_cons, List.flatMap_append, List.flatMap_singleton, List.flatMap_cons]
    exact ih.append (h a)

/-- The text that is written. -/
theorem Writes.text (h : Writes calls ps) :
    (EncoderCall.writeAll calls).text varintOf = Piece.textOf varintOf ps := by
  rw [EncoderCall.writeAll, h]
  change Piece.textOf varintOf (ps ++ []) ++ [] = _
  rw [List.append_nil, List.append_nil]

/-- What the buffer holds then. -/
theorem Writes.contents {heap : Arena → Nat → Option Nat} (hl : ∀ a, Arena.HeapLegal a.owned (heap a)) {arena : Arena}
    {others : List LiveAlloc} (ha : arena.Inv others) (h : Writes calls ps) {s : Encoder}
    (hrun : (Encoder.start arena).run heap calls = .ok s) : s.state.contents = Piece.textOf varintOf ps := by
  rw [(Encoder.run_follows hl ha calls hrun).holds.contents_eq, h.text]

theorem textOf_flatMap (g : α → List (Piece UInt8)) (l : List α) :
    Piece.textOf varintOf (l.flatMap g) = l.flatMap fun a => Piece.textOf varintOf (g a) := by
  induction l with
  | nil => rfl
  | cons a l ih => rw [List.flatMap_cons, Piece.textOf_append, ih, List.flatMap_cons]

end Writes

/-- The wire form of one element, without its tag. -/
def NumberArray.elems : NumberArray → List (List UInt8)
  | .varint vals => vals.map encodeVarint64
  | .fixed arr _ => arr.elems.bytes

/-- The wire type of one element. -/
def NumberArray.wireType : NumberArray → UInt8
  | .varint _ => 0
  | .fixed _ wireType => wireType

/-- The text of a tag; there is none for 0. -/
def tagText (tag : UInt32) : List UInt8 := if tag = 0 then [] else encodeVarint64 tag.toUInt64

theorem writes_elem {c : EncoderCall} {cells : List UInt8} (hc : Writes [c] [.cells cells]) (tag : UInt32) :
    ∃ ps, Writes (c :: tagCalls tag) ps ∧ Piece.textOf varintOf ps = tagText tag ++ cells := by
  by_cases h0 : tag = 0
  · have htag : Writes (tagCalls tag) [] := by
      rw [tagCalls, if_pos h0]
      exact .nil
    refine ⟨_, hc.append htag, ?_⟩
    rw [tagText, if_pos h0]
    exact List.append_nil _
  · have htag : Writes (tagCalls tag) [.cells (encodeVarint64 tag.toUInt64)] := by
      rw [tagCalls, if_neg h0]
      exact fun _ => rfl
    refine ⟨_, hc.append htag, ?_⟩
    rw [tagText, if_neg h0, List.singleton_append, Piece.textOf_cons, Piece.textOf_cons, Piece.textOf_nil, List.append_nil]
    rfl

/-- A loop whose rounds write an element and its tag. -/
theorem writes_loop {α : Type} {c : α → EncoderCall} {cells : α → List UInt8} (hc : ∀ a, Writes [c a] [.cells (cells a)])
    (tag : UInt32) (l : List α) :
    ∃ ps, Writes (l.reverse.flatMap fun a => c a :: tagCalls tag) ps ∧
      Piece.textOf varintOf ps = l.flatMap fun a => tagText tag ++ cells a := by
  choose g hg htext using fun a => writes_elem (hc a) tag
  refine ⟨l.flatMap g, Writes.backwards hg l, ?_⟩
  rw [textOf_flatMap]
  rw [funext htext]

/-- **The elements of an array** come in their order, each behind its tag. -/
theorem encodeElems_text (number : UInt32) (packed : Bool) (arr : NumberArray) :
    ∃ ps, Writes (encodeElems number packed arr) ps ∧
      Piece.textOf varintOf ps = arr.elems.flatMap fun cells => tagText (elemTag packed number arr.wireType) ++ cells := by
  cases arr with
  | varint vals =>
    have hval : ∀ val, Writes [.varint val] [.cells (encodeVarint64 val)] := fun _ _ => rfl
    obtain ⟨ps, hps, htext⟩ := writes_loop hval (elemTag packed number 0) vals
    exact ⟨ps, hps, by rw [htext, NumberArray.elems, List.flatMap_map]; rfl⟩
  | fixed arr wireType =>
    change ∃ ps, Writes (encodeFixedarray arr (elemTag packed number wireType)) ps ∧ Piece.textOf varintOf ps =
      arr.elems.bytes.flatMap fun cells => tagText (elemTag packed number wireType) ++ cells
    generalize elemTag packed number wireType = tag
    rw [encodeFixedarray]
    by_cases h0 : tag = 0
    · rw [if_pos h0]
      refine ⟨[.cells arr.data.data], fun _ => rfl, ?_⟩
      rw [tagText, if_pos h0]
      change arr.elems.bytes.flatten ++ [] = arr.elems.bytes.flatMap id
      rw [List.append_nil, List.flatMap_id]
    · rw [if_neg h0]
      obtain ⟨elems, hsize⟩ := arr
      cases elems with
      | four vals =>
        have hval : ∀ val, Writes [.fixed32 val] [.cells (littleEndian val.toNat 4)] := fun _ _ => rfl
        obtain ⟨ps, hps, htext⟩ := writes_loop hval tag vals
        exact ⟨ps, hps, by rw [htext, FixedElems.bytes, List.flatMap_map]⟩
      | eight vals =>
        have hval : ∀ val, Writes [.fixed64 val] [.cells (littleEndian val.toNat 8)] := fun _ _ => rfl
        obtain ⟨ps, hps, htext⟩ := writes_loop hval tag vals
        exact ⟨ps, hps, by rw [htext, FixedElems.bytes, List.flatMap_map]⟩

/-- **A packed array** is its tag, the number of its bytes, and its elements in their order. -/
theorem encodeArray_packed (number : UInt32) (arr : NumberArray) :
    (EncoderCall.writeAll (encodeArray number true arr)).text varintOf =
      encodeVarint64 (tagOf number wireTypeDelimited) ++ varintOf arr.elems.flatten.length ++ arr.elems.flatten := by
  obtain ⟨ps, hps, htext⟩ := encodeElems_text number true arr
  have hflat : Piece.textOf varintOf ps = arr.elems.flatten := htext.trans List.flatMap_id
  rw [encodeArray, if_pos rfl, hps.delimited.text, Piece.textOf_cons, Piece.textOf_cons, Piece.text_cells, Piece.text_block,
    hflat, Piece.textOf_nil, List.append_nil, ← List.append_assoc]

/-- **A map entry** is its tag, the number of its bytes, the key and the value. -/
theorem encodeMapentry_text {value key : List EncoderCall} {valueText keyText : List (Piece UInt8)}
    (hvalue : Writes value valueText) (hkey : Writes key keyText) (number : UInt32) :
    (EncoderCall.writeAll (encodeMapentry number value key)).text varintOf =
      encodeVarint64 (tagOf number wireTypeDelimited) ++
        varintOf (Piece.textOf varintOf keyText ++ Piece.textOf varintOf valueText).length ++
        (Piece.textOf varintOf keyText ++ Piece.textOf varintOf valueText) := by
  rw [encodeMapentry, (hvalue.append hkey).delimited.text, Piece.textOf_cons, Piece.textOf_cons, Piece.text_cells,
    Piece.text_block, Piece.textOf_append, Piece.textOf_nil, List.append_nil, ← List.append_assoc]

/-- **An array of strings**: each with its tag and its length, in their order. -/
theorem encodeStrings_text (number : UInt32) (vals : List ObjectBytes) :
    (EncoderCall.writeAll (encodeStrings number vals)).text varintOf = vals.flatMap fun val =>
      encodeVarint64 (tagOf number wireTypeDelimited) ++ varintOf val.data.length ++ val.data := by
  have hval : ∀ val : ObjectBytes, Writes [.string val, .tag number wireTypeDelimited]
      [.cells (encodeVarint64 (tagOf number wireTypeDelimited)), .block [.cells val.data]] := fun _ _ => rfl
  rw [encodeStrings, (Writes.backwards hval vals).text, textOf_flatMap]
  refine congrArg vals.flatMap (funext fun val => ?_)
  simp only [Piece.textOf_cons, Piece.text_cells, Piece.text_block, Piece.textOf_nil, List.append_nil, List.append_assoc]

end Hpb
