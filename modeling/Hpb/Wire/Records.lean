import Hpb.Wire.SkipValueSpec

/-!
# Sequences of records

A record is a tag and a value, as bytes of their own (`Record`). The unknown fields of a message are the bytes of a
list of records (`bytesOf`); each of them is a record of the whole, at the place where the bytes before it end.
-/

namespace Hpb

section Shift

variable {buf buf' : List UInt8} {len pos stop val a b : Nat}

/-- The bytes from `pos` to `stop` are those of `buf'` that lie as far from `b` as they lie from `a`. -/
def Shifted (buf buf' : List UInt8) (a b pos stop : Nat) : Prop :=
  a ≤ pos ∧ ∀ i, pos ≤ i → i < stop → buf'.getD (i - a + b) 0 = buf.getD i 0

theorem Shifted.mono {pos' stop' : Nat} (h : Shifted buf buf' a b pos stop) (hpos : pos ≤ pos') (hstop : stop' ≤ stop) :
    Shifted buf buf' a b pos' stop' :=
  ⟨Nat.le_trans h.1 hpos, fun i hi hi' => h.2 i (Nat.le_trans hpos hi) (Nat.lt_of_lt_of_le hi' hstop)⟩

theorem VarintAt.shift (h : VarintAt buf len pos stop val) (hs : Shifted buf buf' a b pos stop) :
    VarintAt buf' len (pos - a + b) (stop - a + b) val := by
  obtain ⟨n, hn, hends, rfl, hval⟩ := h
  obtain ⟨ha, hbyte⟩ := hs
  have hsame : ∀ i ≤ n, bytesFrom buf' (pos - a + b) i = bytesFrom buf pos i := by
    intro i hi
    have hb := hbyte (pos + i) (by omega) (by omega)
    rwa [show pos + i - a + b = pos - a + b + i by omega] at hb
  have hsept : ∀ k ≤ n + 1, septets (bytesFrom buf' (pos - a + b)) k = septets (bytesFrom buf pos) k := by
    intro k hk
    induction k with
    | zero => rfl
    | succ k ih => rw [septets, septets, ih (by omega), hsame k (by omega)]
  refine ⟨n, hn, ⟨fun i hi => ?_, ?_⟩, by omega, ?_⟩
  · rw [hsame i (by omega)]
    exact hends.1 i hi
  · rw [hsame n (Nat.le_refl _)]
    exact hends.2
  · rw [hsept _ (Nat.le_refl _)]
    exact hval

theorem TagAt.shift {number : Nat} {w : WireType} (h : TagAt buf pos stop number w) (hs : Shifted buf buf' a b pos stop) :
    TagAt buf' (pos - a + b) (stop - a + b) number w :=
  ⟨h.1.shift hs, h.2⟩

mutual

/-- A value elsewhere. -/
theorem ValueIn.shift : ∀ {levels : Option Nat} {number pos stop : Nat} {w : WireType},
    ValueIn buf levels number w pos stop → Shifted buf buf' a b pos stop →
      ValueIn buf' levels number w (pos - a + b) (stop - a + b)
  | _, _, _, _, _, .varint h, hs => .varint (h.shift hs)
  | levels, number, pos, _, _, .fixed32 _ _ _, hs => by
    have ha := hs.1
    rw [show pos + 4 - a + b = pos - a + b + 4 by omega]
    exact .fixed32 levels number _
  | levels, number, pos, _, _, .fixed64 _ _ _, hs => by
    have ha := hs.1
    rw [show pos + 8 - a + b = pos - a + b + 8 by omega]
    exact .fixed64 levels number _
  | _, _, _, _, _, @ValueIn.delimited _ _ _ pos start size h, hs => by
    have ha := hs.1
    have hlt := h.lt
    rw [show start + size - a + b = start - a + b + size by omega]
    exact .delimited (h.shift (hs.mono (Nat.le_refl _) (Nat.le_add_right _ _)))
  | _, _, _, _, _, .group hlevels hfields hend, hs =>
    .group hlevels (hfields.shift (hs.mono (Nat.le_refl _) (Nat.le_of_lt hend.lt)))
      (hend.shift (hs.mono hfields.le (Nat.le_refl _)))

theorem FieldsIn.shift : ∀ {levels : Option Nat} {pos stop : Nat},
    FieldsIn buf levels pos stop → Shifted buf buf' a b pos stop →
      FieldsIn buf' levels (pos - a + b) (stop - a + b)
  | _, _, _, .nil _ _, _ => .nil _ _
  | _, _, _, .cons htag hvalue hfields, hs =>
    .cons (htag.shift (hs.mono (Nat.le_refl _) (Nat.le_trans hvalue.le hfields.le)))
      (hvalue.shift (hs.mono (Nat.le_of_lt htag.lt) hfields.le))
      (hfields.shift (hs.mono (Nat.le_trans (Nat.le_of_lt htag.lt) hvalue.le) (Nat.le_refl _)))

end

end Shift

/-- A record from `pos` to `stop` with at most so many groups inside one another. -/
def RecordIn (buf : List UInt8) (levels : Option Nat) (pos stop number : Nat) (w : WireType) : Prop :=
  ∃ start, TagAt buf pos start number w ∧ ValueIn buf levels number w start stop

/-- The bytes of one record. -/
structure Record where
  number : Nat
  wireType : WireType
  bytes : List UInt8
  wf : RecordIn bytes none 0 bytes.length number wireType

/-- The bytes of a list of records. -/
def bytesOf (records : List Record) : List UInt8 := records.flatMap Record.bytes

/-- The record has at most so many groups inside one another. -/
def Record.Within (r : Record) (levels : Option Nat) : Prop := RecordIn r.bytes levels 0 r.bytes.length r.number r.wireType

section Records

variable {buf : List UInt8} {levels levels' : Option Nat} {pos stop number number' : Nat} {w w' : WireType}

theorem RecordIn.lt (h : RecordIn buf levels pos stop number w) : pos < stop := by
  obtain ⟨start, htag, hvalue⟩ := h
  exact Nat.lt_of_lt_of_le htag.lt hvalue.le

theorem RecordIn.unique {stop' : Nat} (h : RecordIn buf levels pos stop number w)
    (h' : RecordIn buf levels' pos stop' number' w') : stop = stop' ∧ number = number' ∧ w = w' := by
  obtain ⟨start, htag, hvalue⟩ := h
  obtain ⟨start', htag', hvalue'⟩ := h'
  obtain ⟨rfl, rfl, rfl⟩ := htag.unique htag'
  exact ⟨hvalue.unique hvalue', rfl, rfl⟩

theorem RecordIn.shift {buf' : List UInt8} {a b : Nat} (h : RecordIn buf levels pos stop number w)
    (hs : Shifted buf buf' a b pos stop) : RecordIn buf' levels (pos - a + b) (stop - a + b) number w := by
  obtain ⟨start, htag, hvalue⟩ := h
  exact ⟨_, htag.shift (hs.mono (Nat.le_refl _) hvalue.le), hvalue.shift (hs.mono (Nat.le_of_lt htag.lt) (Nat.le_refl _))⟩

theorem bytesOf_append (rs rs' : List Record) : bytesOf (rs ++ rs') = bytesOf rs ++ bytesOf rs' := List.flatMap_append

theorem bytesOf_cons (r : Record) (rs : List Record) : bytesOf (r :: rs) = r.bytes ++ bytesOf rs := List.flatMap_cons

/-- The bytes in the middle. -/
theorem shifted_middle (before bytes after : List UInt8) :
    Shifted bytes (before ++ bytes ++ after) 0 before.length 0 bytes.length := by
  refine ⟨Nat.le_refl _, fun i _ hi => ?_⟩
  rw [Nat.sub_zero, List.getD_append _ _ _ _ (by rw [List.length_append]; omega),
    List.getD_append_right _ _ _ _ (by omega), Nat.add_sub_cancel]

theorem shifted_middle' (before bytes after : List UInt8) :
    Shifted (before ++ bytes ++ after) bytes before.length 0 before.length (before.length + bytes.length) := by
  refine ⟨Nat.le_refl _, fun i hi hi' => ?_⟩
  have hs := (shifted_middle before bytes after).2 (i - before.length) (Nat.zero_le _) (by omega)
  rw [Nat.sub_zero, Nat.sub_add_cancel hi] at hs
  exact hs.symm

/-- **A record in its place**, with as many groups inside one another as it has on its own. -/
theorem Record.within_iff (r : Record) (before after : List UInt8) :
    RecordIn (before ++ r.bytes ++ after) levels before.length (before.length + r.bytes.length) r.number r.wireType ↔
      r.Within levels := by
  constructor
  · intro h
    have hs := h.shift (shifted_middle' before r.bytes after)
    rwa [Nat.sub_self, Nat.add_sub_cancel_left] at hs
  · intro h
    have hs := h.shift (shifted_middle before r.bytes after)
    rwa [Nat.sub_zero, Nat.sub_zero, Nat.zero_add, Nat.add_comm] at hs

/-- A record that is part of some bytes. -/
def Record.slice (h : RecordIn buf none pos stop number w) (hle : stop ≤ buf.length) : Record where
  number := number
  wireType := w
  bytes := (buf.drop pos).take (stop - pos)
  wf := by
    have hlt := h.lt
    have hlen : ((buf.drop pos).take (stop - pos)).length = stop - pos := by
      rw [List.length_take, List.length_drop]
      omega
    have hs : Shifted buf ((buf.drop pos).take (stop - pos)) pos 0 pos stop := by
      refine ⟨Nat.le_refl _, fun i hi hi' => ?_⟩
      rw [Nat.add_zero, List.getD_eq_getElem?_getD, List.getD_eq_getElem?_getD, List.getElem?_take_of_lt (by omega),
        List.getElem?_drop, Nat.add_sub_cancel' hi]
    have hshift := h.shift hs
    rw [Nat.sub_self, Nat.add_zero, Nat.add_zero] at hshift
    rw [hlen]
    exact hshift

end Records

end Hpb
