import Hpb.MiniTable.Compat
import Hpb.Wire.Encode

/-!
# The text of a message

What the encoder writes, read from the start: the fields in the order of their numbers, then the extensions and the
unknown fields. It says nothing of a buffer, of errors or of the order in which the pieces are made.

* `WireText.message`: the text of a message; `order` gives the order of the entries of maps, and `exts` that of the
  extensions,
* `EncodeRun.Puts`: a run that does not fail puts a text in front of what is written, with its rules,
* `Encode.encodeMessage_puts`: `encode_message` puts the text of its message,
* `hpbEncode_text`: so the buffer holds the text when `hpb_Encode` is done.
-/

namespace Hpb

namespace WireText

open Encode (varintValue keySlot shouldencode)

/-- A tag. -/
def tag (number : Nat) (w : WireType) : List UInt8 := encodeVarint64 (makeTag number w).toUInt64

/-- A field with its size in front. -/
def delimited (number : Nat) (body : List UInt8) : List UInt8 :=
  tag number .delimited ++ (varintOf body.length ++ body)

/-- A group. -/
def group (number : Nat) (body : List UInt8) : List UInt8 :=
  tag number .startGroup ++ (body ++ tag number .endGroup)

/-- A number without its tag. -/
def number (type : FieldType) (v : UInt64) : List UInt8 :=
  match type.wireType with
  | .fixed64 => littleEndian v.toNat 8
  | .fixed32 => littleEndian v.toUInt32.toNat 4
  | _ => encodeVarint64 (varintValue type v)

/-- A value that is no sub-message. -/
def plain (f : MiniTableField) (s : Slot) : List UInt8 :=
  match f.descriptortype with
  | .group | .message => []
  | .string | .bytes => delimited f.number s.strVal
  | type => tag f.number type.wireType ++ number type s.scalarVal

/-- A sub-message. -/
def framed (f : MiniTableField) (body : List UInt8) : List UInt8 :=
  if f.descriptortype = .group then group f.number body else delimited f.number body

/-- The elements of an array that are no sub-messages. -/
def elements (f : MiniTableField) (xs : List Slot) : List UInt8 :=
  if f.descriptortype = .string ∨ f.descriptortype = .bytes then xs.flatMap fun x => delimited f.number x.strVal
  else if f.isPacked then delimited f.number (xs.flatMap fun x => number f.descriptortype x.scalarVal)
  else xs.flatMap fun x => tag f.number f.descriptortype.wireType ++ number f.descriptortype x.scalarVal

/-- An entry of a map. -/
def entry (number : Nat) (key : MiniTableField) (k : MapKey) (value : List UInt8) : List UInt8 :=
  delimited number (plain key (keySlot k) ++ value)

/-- An item of a message set. -/
def item (number : Nat) (body : List UInt8) : List UInt8 :=
  group Decoder.msgSetItem
    (tag Decoder.msgSetTypeId .varint ++ (encodeVarint64 (.ofNat number) ++ delimited Decoder.msgSetMessage body))

/-- A field in the text of its mode. -/
def byMode (f : MiniTableField) (array map scalar : List UInt8) : List UInt8 :=
  if f.fieldMode = FieldMode.array then array else if f.fieldMode = FieldMode.map then map else scalar

/-- The texts of the keys; the last one in the order comes first. -/
def inOrder {K : Type} [BEq K] (order : List K) (texts : List (K × List UInt8)) : List UInt8 :=
  order.reverse.flatMap fun k => (texts.lookup k).getD []

section

variable (S : Schema) (order : FieldType → List MapKey → List MapKey) (extOrder : List Nat → List Nat) (skipUnknown : Bool)

mutual

/-- A value that may be a sub-message. -/
def scalar (sub : MiniTableSub) (f : MiniTableField) : Slot → List UInt8
  | .msg isEmpty m => framed f (message (Copy.subTable sub isEmpty) m)
  | s => plain f s

/-- An array. -/
def array (sub : MiniTableSub) (f : MiniTableField) : Slot → List UInt8
  | .arr xs => if xs.isEmpty then [] else if f.isSubMessage then messages sub f xs else elements f xs
  | _ => []

/-- The sub-messages of an array. -/
def messages (sub : MiniTableSub) (f : MiniTableField) : List Slot → List UInt8
  | [] => []
  | .msg isEmpty m :: xs => framed f (message (Copy.subTable sub isEmpty) m) ++ messages sub f xs
  | _ :: xs => messages sub f xs

/-- A map. -/
def map (sub : MiniTableSub) (f : MiniTableField) : Slot → List UInt8
  | .map es =>
    match (S.table sub.tableRef).fields with
    | [key, val] =>
      inOrder (order key.descriptortype (es.map Prod.fst)) (entries ((S.table sub.tableRef).sub val) f.number key val es)
    | _ => []
  | _ => []

/-- The entries of a map. -/
def entries (sub : MiniTableSub) (number : Nat) (key val : MiniTableField) :
    List (MapKey × Slot) → List (MapKey × List UInt8)
  | [] => []
  | (k, s) :: es => (k, entry number key k (scalar sub val s)) :: entries sub number key val es

/-- The extensions of a message. -/
def extensions (isMessageSet : Bool) : List (Nat × Slot) → List (Nat × List UInt8)
  | [] => []
  | (id, s) :: exts =>
    let ext := S.exts id
    let text := if isMessageSet then itemOf ext s
      else byMode ext.field (array ext.sub ext.field s) (map ext.sub ext.field s) (scalar ext.sub ext.field s)
    (id, text) :: extensions isMessageSet exts

/-- The item of a message. -/
def itemOf (ext : MiniTableExtension) : Slot → List UInt8
  | .msg false m => item ext.field.number (message ext.sub.tableRef m)
  | _ => []

/-- **The text of a message.** -/
def message (t : TableRef) : Message → List UInt8
  | ⟨hasbits, oneofCase, data, unknown, exts⟩ =>
    let table := S.table t
    let fields := table.fields.flatMap fun f =>
      if shouldencode ⟨hasbits, oneofCase, data, unknown, exts⟩ f then
        byMode f (array (table.sub f) f (data f.offset)) (map (table.sub f) f (data f.offset))
          (scalar (table.sub f) f (data f.offset))
      else []
    let exts := if table.ext = ExtMode.nonExtendable then []
      else inOrder (extOrder (exts.map Prod.fst)) (extensions (table.ext = ExtMode.isMessageSet) exts)
    fields ++ (exts ++ if skipUnknown then [] else unknown)

end

end

end WireText

/-- The calls put a text in front of that of the innermost open block. -/
def Puts (calls : List EncoderCall) (text : List UInt8) : Prop :=
  ∃ ps, Writes calls ps ∧ Piece.textOf varintOf ps = text

section Puts

variable {calls calls' : List EncoderCall} {text text' : List UInt8}

theorem Puts.nil : Puts [] [] := ⟨[], .nil, rfl⟩

theorem Puts.append (h : Puts calls text) (h' : Puts calls' text') : Puts (calls ++ calls') (text' ++ text) := by
  obtain ⟨ps, hps, rfl⟩ := h
  obtain ⟨ps', hps', rfl⟩ := h'
  exact ⟨ps' ++ ps, hps.append hps', Piece.textOf_append ..⟩

/-- A call that puts one piece. -/
theorem puts_cells {c : EncoderCall} {cells : List UInt8} (h : Writes [c] [.cells cells]) : Puts [c] cells :=
  ⟨[.cells cells], h, List.append_nil _⟩

theorem makeTag_eq (number : Nat) (w : WireType) :
    tagOf (.ofNat number) w.bits.toUInt8 = (makeTag number w).toUInt64 := by
  cases w <;> rfl

theorem puts_tag (number : Nat) (w : WireType) : Puts [Encode.tag number w] (WireText.tag number w) := by
  have h : Puts [Encode.tag number w] (encodeVarint64 (tagOf (.ofNat number) w.bits.toUInt8)) := puts_cells fun _ => rfl
  rwa [makeTag_eq] at h

theorem puts_varint (val : UInt64) : Puts [.varint val] (encodeVarint64 val) := puts_cells fun _ => rfl

theorem puts_bytes (data : ObjectBytes) : Puts [.bytes data] data.data := puts_cells fun _ => rfl

theorem puts_string (data : ObjectBytes) : Puts [.string data] (varintOf data.data.length ++ data.data) := by
  refine ⟨[.block [.cells data.data]], fun _ => rfl, ?_⟩
  simp [Piece.textOf_cons, Piece.text_block, Piece.text_cells, Piece.textOf_nil]

/-- A block with its size. -/
theorem Puts.block (h : Puts calls text) : Puts (.preLen :: calls ++ [.size]) (varintOf text.length ++ text) := by
  obtain ⟨ps, hps, rfl⟩ := h
  exact ⟨_, hps.block, List.append_nil _⟩

theorem Puts.contents {heap : Arena → Nat → Option Nat} (hl : ∀ a, Arena.HeapLegal a.owned (heap a)) {arena : Arena}
    {others : List LiveAlloc} (ha : arena.Inv others) (h : Puts calls text) {s : Encoder}
    (hrun : (Encoder.start arena).run heap calls = .ok s) : s.state.contents = text := by
  obtain ⟨ps, hps, rfl⟩ := h
  exact hps.contents hl ha hrun

end Puts

/-! ### Runs that put a text -/

namespace EncodeRun

/-- The run fails, or it puts the text. -/
def Puts (r : EncodeRun) (text : List UInt8) : Prop := r.error = none → Hpb.Puts r.calls text

variable {r s : EncodeRun} {text text' : List UInt8}

theorem andThen_of_none (h : r.error = none) : r.andThen s = ⟨r.calls ++ s.calls, s.error⟩ := by
  rw [andThen, h]

theorem andThen_of_some {e : EncodeError} (h : r.error = some e) : r.andThen s = r := by
  rw [andThen, h]

theorem error_andThen : (r.andThen s).error = none ↔ r.error = none ∧ s.error = none := by
  cases h : r.error with
  | none => simp [andThen_of_none h]
  | some e => simp [andThen_of_some h, h]

theorem andThen_assoc (r s t : EncodeRun) : (r.andThen s).andThen t = r.andThen (s.andThen t) := by
  cases hr : r.error with
  | some e => rw [andThen_of_some hr, andThen_of_some hr, andThen_of_some hr]
  | none =>
    rw [andThen_of_none hr, andThen_of_none hr]
    cases hs : s.error with
    | some e => rw [andThen_of_some hs, andThen_of_some rfl, hs]
    | none => rw [andThen_of_none hs, andThen_of_none rfl, List.append_assoc]

theorem Puts.nothing : nothing.Puts [] := fun _ => .nil

theorem Puts.stop (e : EncodeError) (text : List UInt8) : (stop e).Puts text := fun h => nomatch h

theorem Puts.ofCalls {calls : List EncoderCall} (h : Hpb.Puts calls text) : (ofCalls calls).Puts text := fun _ => h

/-- What is done later comes first. -/
theorem Puts.andThen (h : r.Puts text) (h' : s.Puts text') : (r.andThen s).Puts (text' ++ text) := by
  intro herr
  obtain ⟨hr, hs⟩ := error_andThen.mp herr
  rw [andThen_of_none hr]
  exact (h hr).append (h' hs)

theorem Puts.all {α : Type} {f : α → EncodeRun} {g : α → List UInt8} (l : List α) (h : ∀ a ∈ l, (f a).Puts (g a)) :
    (all (l.map f)).Puts (l.reverse.flatMap g) := by
  induction l with
  | nil => exact .nothing
  | cons a l ih =>
    rw [List.forall_mem_cons] at h
    have hall : EncodeRun.all ((a :: l).map f) = (f a).andThen (EncodeRun.all (l.map f)) := rfl
    rw [hall, List.reverse_cons, List.flatMap_append, List.flatMap_singleton]
    exact h.1.andThen (ih h.2)

/-- A loop from the last element to the first one. -/
theorem Puts.backwards {α : Type} {f : α → EncodeRun} {g : α → List UInt8} (l : List α)
    (h : ∀ a ∈ l, (f a).Puts (g a)) : (EncodeRun.all (l.reverse.map f)).Puts (l.flatMap g) := by
  have hall := Puts.all (f := f) (g := g) l.reverse fun a ha => h a (List.mem_reverse.mp ha)
  rwa [List.reverse_reverse] at hall

/-- A block between `pre_len` and its size. -/
theorem Puts.block {first last : List EncoderCall} {front back : List UInt8} (h : r.Puts text)
    (hfirst : Hpb.Puts first back) (hlast : Hpb.Puts last front) :
    ((EncodeRun.ofCalls (first ++ [.preLen])).andThen (r.andThen (.ofCalls (.size :: last)))).Puts
      (front ++ (varintOf text.length ++ text) ++ back) := by
  intro herr
  obtain ⟨-, herr⟩ := error_andThen.mp herr
  obtain ⟨hr, -⟩ := error_andThen.mp herr
  rw [andThen_of_none rfl, andThen_of_none hr]
  have hblock := hfirst.append ((h hr).block.append hlast)
  simpa [EncodeRun.ofCalls] using hblock

end EncodeRun

namespace Encode

open EncodeRun (Puts)

theorem delimited_puts {r : EncodeRun} {text : List UInt8} (h : r.Puts text) (number : Nat) :
    ((EncodeRun.ofCalls [.preLen]).andThen (r.andThen (.ofCalls [.size, tag number .delimited]))).Puts
      (WireText.delimited number text) := by
  have hblock := h.block .nil (puts_tag number .delimited)
  rwa [List.append_nil] at hblock

theorem framed_puts {r : EncodeRun} {text : List UInt8} (h : r.Puts text) (f : MiniTableField) :
    (framed f r).Puts (WireText.framed f text) := by
  unfold framed WireText.framed
  split
  · have hall := (Puts.ofCalls (puts_tag f.number .endGroup)).andThen
      (h.andThen (.ofCalls (puts_tag f.number .startGroup)))
    rwa [List.append_assoc] at hall
  · exact delimited_puts h f.number

theorem numberCall_puts (type : FieldType) (v : UInt64) : Hpb.Puts [numberCall type v] (WireText.number type v) := by
  unfold numberCall WireText.number
  cases type.wireType with
  | fixed64 => exact puts_cells fun _ => rfl
  | fixed32 => exact puts_cells fun _ => rfl
  | _ => exact puts_varint _

theorem encodeString_puts (number : Nat) (data : List UInt8) :
    ((encodeString data).andThen (.ofCalls [tag number .delimited])).Puts (WireText.delimited number data) := by
  unfold encodeString
  split
  next hlen => exact (Puts.ofCalls (puts_string ⟨data, hlen⟩)).andThen (.ofCalls (puts_tag number .delimited))
  next => exact Puts.stop _ _

theorem encodePlain_puts (f : MiniTableField) (s : Slot) : (encodePlain f s).Puts (WireText.plain f s) := by
  have hnumber : ∀ type v, (EncodeRun.ofCalls [numberCall type v, tag f.number type.wireType]).Puts
      (WireText.tag f.number type.wireType ++ WireText.number type v) := fun type v =>
    .ofCalls ((numberCall_puts type v).append (puts_tag f.number type.wireType))
  unfold encodePlain WireText.plain
  cases f.descriptortype with
  | group | message => exact Puts.nothing
  | string | bytes => exact encodeString_puts _ _
  | _ => exact hnumber _ _

/-- The wire form of the numbers of an array. -/
theorem numberArray_elems {type : FieldType} {vals : List UInt64} {arr : NumberArray}
    (h : numberArray type vals = some arr) (htype : type.isPackable = true) :
    arr.elems = vals.map (WireText.number type) ∧ arr.wireType = type.wireType.bits.toUInt8 := by
  unfold numberArray at h
  unfold WireText.number
  split at h
  next hwire =>
    split at h
    · cases h
      simp [NumberArray.elems, FixedElems.bytes, NumberArray.wireType, hwire, WireType.bits]
    · cases h
  next hwire =>
    dsimp only at h
    split at h
    · cases h
      simp [NumberArray.elems, FixedElems.bytes, NumberArray.wireType, hwire, WireType.bits]
    · cases h
  next h64 h32 =>
    cases h
    have hvarint : type.wireType = .varint := by
      cases type <;> first | rfl | exact absurd rfl h64 | exact absurd rfl h32 | cases htype
    simp [NumberArray.elems, NumberArray.wireType, hvarint, WireType.bits]

theorem tagText_elemTag {number : Nat} (hpos : 0 < number) (hlt : number < 2 ^ 29) (w : WireType) :
    tagText (elemTag false (.ofNat number) w.bits.toUInt8) = WireText.tag number w := by
  have htag : elemTag false (.ofNat number) w.bits.toUInt8 = makeTag number w := by
    cases w <;> rfl
  have hne : makeTag number w ≠ 0 := by
    have hbits : w.bits.toNat < 8 := by cases w <;> decide
    have hnat : (makeTag number w).toNat = number * 8 + w.bits.toNat := makeTag_toNat (by omega)
    intro h0
    rw [h0] at hnat
    have hzero : (0 : UInt32).toNat = 0 := rfl
    omega
  rw [tagText, htag, if_neg hne, WireText.tag]

/-- The elements of an array, the last one first. -/
theorem encodeElements_puts {f : MiniTableField} (hpos : 0 < f.number) (hlt : f.number < 2 ^ 29)
    (hsub : ¬f.isSubMessage) (xs : List Slot) : (encodeElements f xs).Puts (WireText.elements f xs) := by
  unfold encodeElements WireText.elements
  by_cases hstring : f.descriptortype = .string ∨ f.descriptortype = .bytes
  · rw [if_pos hstring, if_pos hstring]
    exact Puts.backwards xs fun x _ => encodeString_puts _ _
  · rw [if_neg hstring, if_neg hstring]
    split
    next arr harr =>
      have hpackable : f.descriptortype.isPackable = true := by
        cases htype : f.descriptortype <;> simp_all [MiniTableField.isSubMessage, FieldType.isPackable]
      obtain ⟨helems, hwire⟩ := numberArray_elems harr hpackable
      obtain ⟨ps, hps, htext⟩ := encodeElems_text (.ofNat f.number) f.isPacked arr
      have hputs : Hpb.Puts (encodeElems (.ofNat f.number) f.isPacked arr) _ := ⟨ps, hps, htext⟩
      rw [helems, List.map_map, List.flatMap_map, hwire] at hputs
      refine Puts.ofCalls ?_
      unfold Hpb.encodeArray
      by_cases hpacked : f.isPacked = true
      · rw [hpacked] at hputs ⊢
        rw [if_pos rfl, if_pos rfl]
        have hblock := hputs.block.append (puts_tag f.number .delimited)
        rw [List.append_assoc] at hblock
        exact hblock
      · rw [Bool.not_eq_true] at hpacked
        rw [hpacked, tagText_elemTag hpos hlt] at hputs
        rw [hpacked, if_neg (by decide), if_neg (by decide)]
        exact hputs
    next => exact Puts.stop _ _

theorem encodeMapentry_puts {value : EncodeRun} {text : List UInt8} (h : value.Puts text) (number : Nat)
    (key : MiniTableField) (k : MapKey) :
    (encodeMapentry number key k value).Puts (WireText.entry number key k text) := by
  have hbody := delimited_puts (h.andThen (encodePlain_puts key (keySlot k))) number
  rwa [EncodeRun.andThen_assoc] at hbody

theorem encodeMsgsetItem_puts {body : EncodeRun} {text : List UInt8} (h : body.Puts text) (number : Nat) :
    (encodeMsgsetItem number body).Puts (WireText.item number text) := by
  have hlast := (puts_tag Decoder.msgSetMessage .delimited).append ((puts_varint (.ofNat number)).append
    ((puts_tag Decoder.msgSetTypeId .varint).append (puts_tag Decoder.msgSetItem .startGroup)))
  have hblock := h.block (puts_tag Decoder.msgSetItem .endGroup) hlast
  simp only [List.append_assoc] at hblock
  simp only [WireText.item, WireText.group, WireText.delimited, List.append_assoc]
  exact hblock

theorem inOrder_puts {K : Type} [BEq K] {order : List K} {runs : List (K × EncodeRun)}
    {texts : List (K × List UInt8)}
    (h : ∀ k, ((runs.lookup k).getD .nothing).Puts ((texts.lookup k).getD [])) :
    (inOrder order runs).Puts (WireText.inOrder order texts) := Puts.all order fun k _ => h k

theorem lookup_cons_puts {K : Type} [BEq K] {runs : List (K × EncodeRun)} {texts : List (K × List UInt8)} {k : K}
    {run : EncodeRun} {text : List UInt8} (h : run.Puts text)
    (hrest : ∀ k, ((runs.lookup k).getD .nothing).Puts ((texts.lookup k).getD [])) (k' : K) :
    ((((k, run) :: runs).lookup k').getD .nothing).Puts ((((k, text) :: texts).lookup k').getD []) := by
  rw [List.lookup_cons, List.lookup_cons]
  split
  · exact h
  · exact hrest k'

theorem byMode_puts {f : MiniTableField} {array map scalar : EncodeRun} {array' map' scalar' : List UInt8}
    (harray : array.Puts array') (hmap : map.Puts map') (hscalar : scalar.Puts scalar') :
    (byMode f array map scalar).Puts (WireText.byMode f array' map' scalar') := by
  unfold byMode WireText.byMode
  split_ifs
  · exact harray
  · exact hmap
  · exact hscalar
  · exact Puts.stop _ _

theorem encodeUnknown_puts (opts : EncodeOptions) (unknown : List UInt8) :
    (encodeUnknown opts unknown).Puts (if opts.skipUnknown then [] else unknown) := by
  unfold encodeUnknown
  split_ifs with hskip hlen
  · exact Puts.nothing
  · exact Puts.ofCalls (puts_bytes ⟨unknown, hlen⟩)
  · exact Puts.stop _ _

end Encode

/-- The field numbers of a schema are those that a tag has room for. -/
structure Schema.Numbered (S : Schema) : Prop where
  field : ∀ t, ∀ f ∈ (S.table t).fields, 0 < f.number ∧ f.number < 2 ^ 29
  extension : ∀ id, 0 < (S.exts id).field.number ∧ (S.exts id).field.number < 2 ^ 29

namespace Encode

open EncodeRun (Puts)

section Message

variable {S : Schema} (opts : EncodeOptions) (visit : List MapKey → List MapKey)

mutual

theorem encodeScalar_puts (hS : S.Numbered) (depth : Nat) (sub : MiniTableSub) (f : MiniTableField) : ∀ s : Slot,
    (encodeScalar S opts visit depth sub f s).Puts
      (WireText.scalar S (mapOrder opts visit) (extOrder S opts) opts.skipUnknown sub f s)
  | .msg isEmpty m => by
    have hm := encodeMessage_puts hS (depth - 1) (Copy.subTable sub isEmpty) m
    rw [encodeScalar, WireText.scalar]
    split
    · exact Puts.stop _ _
    · exact framed_puts hm f
  | .zero | .scalar _ | .str _ | .arr _ | .map _ => by
    rw [encodeScalar, WireText.scalar] <;> first | exact encodePlain_puts f _ | nofun

theorem encodeArray_puts (hS : S.Numbered) (depth : Nat) (sub : MiniTableSub) {f : MiniTableField} (hpos : 0 < f.number)
    (hlt : f.number < 2 ^ 29) : ∀ s : Slot,
    (encodeArray S opts visit depth sub f s).Puts
      (WireText.array S (mapOrder opts visit) (extOrder S opts) opts.skipUnknown sub f s)
  | .arr xs => by
    have hxs := encodeMessages_puts hS (depth - 1) sub f xs
    rw [encodeArray, WireText.array]
    split_ifs with hnil hsub hdepth
    · exact Puts.nothing
    · exact Puts.stop _ _
    · exact hxs
    · exact encodeElements_puts hpos hlt hsub xs
  | .zero | .scalar _ | .str _ | .msg _ _ | .map _ => by
    rw [encodeArray, WireText.array] <;> first | exact Puts.nothing | nofun

theorem encodeMessages_puts (hS : S.Numbered) (depth : Nat) (sub : MiniTableSub) (f : MiniTableField) : ∀ xs : List Slot,
    (encodeMessages S opts visit depth sub f xs).Puts
      (WireText.messages S (mapOrder opts visit) (extOrder S opts) opts.skipUnknown sub f xs)
  | [] => by
    rw [encodeMessages, WireText.messages]
    exact Puts.nothing
  | .msg isEmpty m :: xs => by
    have hm := encodeMessage_puts hS depth (Copy.subTable sub isEmpty) m
    have hxs := encodeMessages_puts hS depth sub f xs
    rw [encodeMessages, WireText.messages]
    exact hxs.andThen (framed_puts hm f)
  | .zero :: xs | .scalar _ :: xs | .str _ :: xs | .arr _ :: xs | .map _ :: xs => by
    have hxs := encodeMessages_puts hS depth sub f xs
    rw [encodeMessages, WireText.messages] <;> first | exact hxs.andThen (Puts.stop _ []) | nofun

theorem encodeMap_puts (hS : S.Numbered) (depth : Nat) (sub : MiniTableSub) (f : MiniTableField) : ∀ s : Slot,
    (encodeMap S opts visit depth sub f s).Puts
      (WireText.map S (mapOrder opts visit) (extOrder S opts) opts.skipUnknown sub f s)
  | .map es => by
    have hes := fun sub key val => encodeEntries_puts hS depth sub f.number key val es
    rw [encodeMap, WireText.map]
    generalize (S.table sub.tableRef).fields = fields
    rcases fields with _ | ⟨key, _ | ⟨val, _ | ⟨f', fields⟩⟩⟩
    · exact Puts.stop _ _
    · exact Puts.stop _ _
    · exact inOrder_puts (hes _ key val)
    · exact Puts.stop _ _
  | .zero | .scalar _ | .str _ | .msg _ _ | .arr _ => by
    rw [encodeMap, WireText.map] <;> first | exact Puts.nothing | nofun

theorem encodeEntries_puts (hS : S.Numbered) (depth : Nat) (sub : MiniTableSub) (number : Nat) (key val : MiniTableField) :
    ∀ (es : List (MapKey × Slot)) (k : MapKey),
    (((encodeEntries S opts visit depth sub number key val es).lookup k).getD .nothing).Puts
      (((WireText.entries S (mapOrder opts visit) (extOrder S opts) opts.skipUnknown sub number key val es).lookup
        k).getD [])
  | [] => fun _ => Puts.nothing
  | (k, s) :: es => by
    have hs := encodeScalar_puts hS depth sub val s
    have hes := encodeEntries_puts hS depth sub number key val es
    rw [encodeEntries, WireText.entries]
    exact lookup_cons_puts (encodeMapentry_puts hs number key k) hes

theorem encodeExts_puts (hS : S.Numbered) (depth : Nat) (isMessageSet : Bool) : ∀ (exts : List (Nat × Slot)) (id : Nat),
    (((encodeExts S opts visit depth isMessageSet exts).lookup id).getD .nothing).Puts
      (((WireText.extensions S (mapOrder opts visit) (extOrder S opts) opts.skipUnknown isMessageSet exts).lookup
        id).getD [])
  | [] => fun _ => Puts.nothing
  | (id, s) :: exts => by
    have hext := hS.extension id
    have hitem := encodeItem_puts hS depth (S.exts id) s
    have harray := encodeArray_puts hS depth (S.exts id).sub hext.1 hext.2 s
    have hmap := encodeMap_puts hS depth (S.exts id).sub (S.exts id).field s
    have hscalar := encodeScalar_puts hS depth (S.exts id).sub (S.exts id).field s
    have hexts := encodeExts_puts hS depth isMessageSet exts
    rw [encodeExts, WireText.extensions]
    refine lookup_cons_puts ?_ hexts
    split_ifs
    · exact hitem
    · exact byMode_puts harray hmap hscalar

theorem encodeItem_puts (hS : S.Numbered) (depth : Nat) (ext : MiniTableExtension) : ∀ s : Slot,
    (encodeItem S opts visit depth ext s).Puts
      (WireText.itemOf S (mapOrder opts visit) (extOrder S opts) opts.skipUnknown ext s)
  | .msg false m => by
    have hm := encodeMessage_puts hS depth ext.sub.tableRef m
    rw [encodeItem, WireText.itemOf]
    exact encodeMsgsetItem_puts hm _
  | .msg true _ | .zero | .scalar _ | .str _ | .arr _ | .map _ => by
    rw [encodeItem, WireText.itemOf] <;> first | exact Puts.stop _ _ | nofun

/-- **`encode_message` puts the text of the message**, if it does not fail. -/
theorem encodeMessage_puts (hS : S.Numbered) (depth : Nat) (t : TableRef) : ∀ m : Message,
    (encodeMessage S opts visit depth t m).Puts
      (WireText.message S (mapOrder opts visit) (extOrder S opts) opts.skipUnknown t m)
  | ⟨hasbits, oneofCase, data, unknown, exts⟩ => by
    have harray := fun (f : MiniTableField) hpos hlt =>
      encodeArray_puts hS depth ((S.table t).sub f) (f := f) hpos hlt (data f.offset)
    have hmap := fun f => encodeMap_puts hS depth ((S.table t).sub f) f (data f.offset)
    have hscalar := fun f => encodeScalar_puts hS depth ((S.table t).sub f) f (data f.offset)
    have hexts := encodeExts_puts hS depth ((S.table t).ext = ExtMode.isMessageSet) exts
    rw [encodeMessage, WireText.message]
    dsimp only
    split
    · exact Puts.stop _ _
    rw [← List.append_assoc]
    refine (encodeUnknown_puts opts unknown).andThen (Puts.andThen ?_ (Puts.backwards _ fun f hf => ?_))
    · split
      · exact Puts.nothing
      · exact inOrder_puts hexts
    · obtain ⟨hpos, hlt⟩ := hS.field t f hf
      split
      · exact byMode_puts (harray f hpos hlt) (hmap f) (hscalar f)
      · exact Puts.nothing

end

end Message

end Encode

/-- **The text of `hpb_Encode`**: when it is done, the buffer holds the text of the message, whatever the memory that
the buffer grew in, and the allocations of others hold what they held. -/
theorem hpbEncode_text {heap : Arena → Nat → Option Nat} (hl : ∀ a, Arena.HeapLegal a.owned (heap a)) {arena : Arena}
    {others : List LiveAlloc} (ha : (Arena.calls fun a size _ => a.Sized size).Reached Arena.Fresh (arena, others))
    {S : Schema} (hS : S.Numbered) {opts : EncodeOptions} {visit : List MapKey → List MapKey} {t : TableRef} {m : Message}
    {e : EncState} (h : hpbEncode heap arena S opts visit t m = some (.ok e)) :
    e.contents =
        WireText.message S (Encode.mapOrder opts visit) (Encode.extOrder S opts) opts.skipUnknown t m ∧
      Arena.KeepsBytes others arena.mem e.arena.mem := by
  have hinv := Arena.calls_reached (fun _ _ _ hs => hs) ha
  unfold hpbEncode at h
  dsimp only at h
  cases hrun : (Encoder.start arena).run heap (Encode.encodeMessage S opts visit opts.depthLimit t m).calls with
  | error stop => cases stop <;> rw [hrun] at h <;> cases h
  | ok s =>
    rw [hrun] at h
    cases herr : (Encode.encodeMessage S opts visit opts.depthLimit t m).error with
    | some err =>
      rw [herr] at h
      cases h
    | none =>
      rw [herr] at h
      cases h
      have htext := Encode.encodeMessage_puts opts visit hS opts.depthLimit t m herr
      exact ⟨htext.contents hl hinv hrun, (Encoder.run_follows hl hinv _ hrun).holds.others⟩

/-- An `int32` in a message, in front of an unknown field. -/
def nestedMessage : Message where
  hasbits i := i = 1
  oneofCase _ := 0
  data offset := if offset = 8 then .msg false ⟨fun i => i = 1, fun _ => 0, fun _ => .scalar 150, [], []⟩ else .zero
  unknown := [16, 1]
  exts := []

theorem nested_numbered : Schema.nested.Numbered where
  field
    | .empty, _, hf => absurd hf List.not_mem_nil
    | .table id, f, hf => by
      obtain rfl := List.mem_singleton.mp hf
      dsimp only
      split <;> decide
  extension _ := ⟨Nat.one_pos, (by decide : 1 < 2 ^ 29)⟩

theorem hpbEncode_text_nested : ∃ e, hpbEncode (fun _ _ => none) Arena.small Schema.nested ⟨true, false, true, 0⟩ id (.table 0)
    nestedMessage = some (.ok e) ∧ e.contents = [10, 3, 8, 150, 1, 16, 1] := by
  have hok : (hpbEncode (fun _ _ => none) Arena.small Schema.nested ⟨true, false, true, 0⟩ id (.table 0)
      nestedMessage).any (EncodeResult.rec (motive := fun _ => Bool) (fun _ => true) false fun _ => false) = true := by
    decide
  obtain ⟨r, he, hr⟩ := (Option.any_eq_true _ _).mp hok
  cases r with
  | outOfMemory => cases hr
  | failed _ => cases hr
  | ok e =>
    have hnone : ∀ a : Arena, Arena.HeapLegal a.owned fun _ => none := by
      intro a
      constructor <;> rintro _ _ ⟨⟩
    refine ⟨e, he, ?_⟩
    rw [(hpbEncode_text hnone (.start Arena.small_fresh) nested_numbered he).1]
    decide

end Hpb
