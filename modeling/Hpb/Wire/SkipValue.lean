import Hpb.Util.CompareSpec
import Hpb.Wire.EpsCopyAliasing

/-!
# Skipping a value (`hpb/wire/reader.h`, `reader.c`)

`_hpb_WireReader_SkipValue` and `_hpb_WireReader_SkipGroup` on an input stream. A reader needs ten bytes at its
pointer, as the source requires of its callers; without them the result is `none`, an invalid access. In a result
`some (e, ptr)` the pointer is `none` for `NULL`.

* `ValueIn`, `FieldsIn`: the grammar of values with a bound on the groups inside one another.
* `OpenAt`: the places where a record of a group, or of a group inside it, begins.
-/

namespace Hpb

open EpsCopyInputStream

namespace WireReader

/-- The ten bytes at a pointer. -/
def bytesAt (fr : Frame) (e : EpsCopyInputStream) (ptr : Int) : Option (Nat → UInt8) :=
  (loadN fr e ptr 10).map memoryOf

mutual

/-- `_hpb_WireReader_SkipValue`. -/
def skipValue (fr : Frame) : Nat → Int → Nat → EpsCopyInputStream → Int → Option (EpsCopyInputStream × Option Int)
  | 0, _, _, _, _ => none
  | fuel + 1, depthLimit, tag, e, ptr =>
    match tag % 8 with
    | 0 => do
      let mem ← bytesAt fr e ptr
      return (e, (readVarint mem).map fun r => ptr + r.1)
    | 5 => some (e, some (ptr + 4))
    | 1 => some (e, some (ptr + 8))
    | 2 => do
      let mem ← bytesAt fr e ptr
      return (e, (UnknownField.readSize mem).map fun r => ptr + r.1 + r.2)
    | 3 => skipGroup fr fuel depthLimit tag e ptr
    | _ => some (e, none)

/-- `_hpb_WireReader_SkipGroup`. The depth limit is an `int`; it is not decremented as often as it would take to
overflow. -/
def skipGroup (fr : Frame) : Nat → Int → Nat → EpsCopyInputStream → Int → Option (EpsCopyInputStream × Option Int)
  | 0, _, _, _, _ => none
  | fuel + 1, depthLimit, tag, e, ptr =>
    if depthLimit - 1 = 0 then some (e, none) else skipRecords fr fuel (depthLimit - 1) (tag / 8 * 8 + 4) e ptr

/-- The loop of `_hpb_WireReader_SkipGroup`. -/
def skipRecords (fr : Frame) : Nat → Int → Nat → EpsCopyInputStream → Int → Option (EpsCopyInputStream × Option Int)
  | 0, _, _, _, _ => none
  | fuel + 1, depthLimit, endGroupTag, e, ptr => do
    match ← isDone fr e ptr with
    | (true, e, ptr) => return (e, ptr)
    | (false, _, none) => none
    | (false, e, some ptr) =>
      match UnknownField.readTag (← bytesAt fr e ptr) with
      | none => return (e, none)
      | some (n, tag) =>
        if tag = endGroupTag then return (e, some (ptr + n))
        else
          match ← skipValue fr fuel depthLimit tag e (ptr + n) with
          | (e, none) => return (e, none)
          | (e, some ptr) => skipRecords fr fuel depthLimit endGroupTag e ptr

end

end WireReader

/-! ### The grammar with a bound on nested groups -/

/-- One group fewer. -/
def fewer (levels : Option Nat) : Option Nat := levels.map (· - 1)

mutual

/-- A value from `pos` to `stop` with at most so many groups inside one another; `none` is no bound. -/
inductive ValueIn (buf : List UInt8) : Option Nat → Nat → WireType → Nat → Nat → Prop where
  | varint {levels : Option Nat} {number pos stop val : Nat} (h : VarintAt buf 10 pos stop val) :
      ValueIn buf levels number .varint pos stop
  | fixed32 (levels : Option Nat) (number pos : Nat) : ValueIn buf levels number .fixed32 pos (pos + 4)
  | fixed64 (levels : Option Nat) (number pos : Nat) : ValueIn buf levels number .fixed64 pos (pos + 8)
  | delimited {levels : Option Nat} {number pos start size : Nat} (h : VarintAt buf 10 pos start size) :
      ValueIn buf levels number .delimited pos (start + size)
  | group {levels : Option Nat} {number pos mid stop : Nat} (hlevels : levels ≠ some 0)
      (hfields : FieldsIn buf (fewer levels) pos mid) (hend : TagAt buf mid stop number .endGroup) :
      ValueIn buf levels number .startGroup pos stop

/-- Fields from `pos` to `stop`. -/
inductive FieldsIn (buf : List UInt8) : Option Nat → Nat → Nat → Prop where
  | nil (levels : Option Nat) (pos : Nat) : FieldsIn buf levels pos pos
  | cons {levels : Option Nat} {pos start mid stop number : Nat} {w : WireType} (htag : TagAt buf pos start number w)
      (hvalue : ValueIn buf levels number w start mid) (hfields : FieldsIn buf levels mid stop) :
      FieldsIn buf levels pos stop

end

/-- From `pos` on, where the records of a group begin, a record of it or of a group inside it begins at `rec`. -/
inductive OpenAt (buf : List UInt8) : Option Nat → Nat → Nat → Prop where
  | here {levels : Option Nat} {pos rec : Nat} (h : FieldsIn buf levels pos rec) : OpenAt buf levels pos rec
  | inside {levels : Option Nat} {pos mid start rec number : Nat} (h : FieldsIn buf levels pos mid)
      (htag : TagAt buf mid start number .startGroup) (hlevels : levels ≠ some 0)
      (hopen : OpenAt buf (fewer levels) start rec) : OpenAt buf levels pos rec

section Grammar

variable {buf : List UInt8} {levels levels' : Option Nat} {pos mid stop rec number : Nat} {w : WireType}

mutual

/-- A value of the grammar without a bound. -/
theorem ValueIn.valueAt : ∀ {levels : Option Nat} {number pos stop : Nat} {w : WireType},
    ValueIn buf levels number w pos stop → ValueAt buf number w pos stop
  | _, _, _, _, _, .varint h => .varint h
  | _, _, _, _, _, .fixed32 _ _ _ => .fixed32 _ _
  | _, _, _, _, _, .fixed64 _ _ _ => .fixed64 _ _
  | _, _, _, _, _, .delimited h => .delimited h
  | _, _, _, _, _, .group _ hfields hend => .group hfields.fieldsAt hend

theorem FieldsIn.fieldsAt : ∀ {levels : Option Nat} {pos stop : Nat},
    FieldsIn buf levels pos stop → FieldsAt buf pos stop
  | _, _, _, .nil _ _ => .nil _
  | _, _, _, .cons htag hvalue hfields => .cons htag hvalue.valueAt hfields.fieldsAt

end

theorem ValueIn.unique {stop' number' : Nat} (h : ValueIn buf levels number w pos stop)
    (h' : ValueIn buf levels' number' w pos stop') : stop = stop' :=
  h.valueAt.unique h'.valueAt

theorem ValueIn.ne_endGroup (h : ValueIn buf levels number w pos stop) : w ≠ .endGroup := h.valueAt.ne_endGroup

theorem ValueIn.le (h : ValueIn buf levels number w pos stop) : pos ≤ stop := h.valueAt.le

theorem FieldsIn.le (h : FieldsIn buf levels pos stop) : pos ≤ stop := h.fieldsAt.le

theorem OpenAt.le (h : OpenAt buf levels pos rec) : pos ≤ rec := by
  induction h with
  | here h => exact h.le
  | inside h htag _ _ ih =>
    have := h.le
    have := htag.lt
    omega

/-- A record before. -/
theorem OpenAt.cons {start : Nat} (htag : TagAt buf pos start number w) (hvalue : ValueIn buf levels number w start mid)
    (h : OpenAt buf levels mid rec) : OpenAt buf levels pos rec := by
  cases h with
  | here h => exact .here (.cons htag hvalue h)
  | inside h htag' hlevels hopen => exact .inside (.cons htag hvalue h) htag' hlevels hopen

/-- The places from a record on: its start, those in its value if it is a group, and those after it. -/
theorem OpenAt.cases_tag {start : Nat} (h : OpenAt buf levels pos rec) (htag : TagAt buf pos start number w) :
    rec = pos ∨ (w = .startGroup ∧ levels ≠ some 0 ∧ OpenAt buf (fewer levels) start rec) ∨
      ∃ mid, ValueIn buf levels number w start mid ∧ OpenAt buf levels mid rec := by
  cases h with
  | here h =>
    cases h with
    | nil => exact .inl rfl
    | cons htag' hvalue hfields =>
      obtain ⟨rfl, rfl, rfl⟩ := htag'.unique htag
      exact .inr (.inr ⟨_, hvalue, .here hfields⟩)
  | inside h htag' hlevels hopen =>
    cases h with
    | nil =>
      obtain ⟨rfl, rfl, rfl⟩ := htag'.unique htag
      exact .inr (.inl ⟨rfl, hlevels, hopen⟩)
    | cons htag'' hvalue hfields =>
      obtain ⟨rfl, rfl, rfl⟩ := htag''.unique htag
      exact .inr (.inr ⟨_, hvalue, .inside hfields htag' hlevels hopen⟩)

/-- There is no record at an end tag. -/
theorem OpenAt.eq_of_endGroup {start : Nat} (h : OpenAt buf levels pos rec)
    (htag : TagAt buf pos start number .endGroup) : rec = pos := by
  obtain h | ⟨hw, -⟩ | ⟨mid, hvalue, -⟩ := h.cases_tag htag
  · exact h
  · cases hw
  · exact absurd rfl hvalue.ne_endGroup

mutual

/-- No record of a group that is closed begins behind its end tag. -/
theorem ValueIn.open_lt : ∀ {levels levels' : Option Nat} {number pos stop rec : Nat} {w : WireType},
    ValueIn buf levels number w pos stop → w = .startGroup → OpenAt buf levels' pos rec → rec < stop
  | _, _, _, _, _, _, _, .group _ hfields hend, _, hopen =>
    Nat.lt_of_le_of_lt (hfields.open_le hend hopen) hend.lt

theorem FieldsIn.open_le : ∀ {levels levels' : Option Nat} {number pos mid stop rec : Nat},
    FieldsIn buf levels pos mid → TagAt buf mid stop number .endGroup → OpenAt buf levels' pos rec → rec ≤ mid
  | _, _, _, _, _, _, _, .nil _ _, hend, hopen => Nat.le_of_eq (hopen.eq_of_endGroup hend)
  | _, _, _, _, _, _, _, .cons htag hvalue hfields, hend, hopen => by
    obtain hrec | ⟨hw, -, hinner⟩ | ⟨mid, hvalue', hrest⟩ := hopen.cases_tag htag
    · rw [hrec]
      exact Nat.le_trans (Nat.le_of_lt htag.lt) (Nat.le_trans hvalue.le hfields.le)
    · exact Nat.le_trans (Nat.le_of_lt (hvalue.open_lt hw hinner)) hfields.le
    · exact hfields.open_le hend (hvalue.unique hvalue' ▸ hrest)

end

mutual

/-- In a group that is closed, what begins behind a tag is a value. -/
theorem ValueIn.open_value : ∀ {levels levels' : Option Nat} {number number' pos start stop rec : Nat} {w w' : WireType},
    ValueIn buf levels number w pos stop → w = .startGroup → OpenAt buf levels' pos rec →
      TagAt buf rec start number' w' → w' ≠ .endGroup → ∃ mid ≤ stop, ValueAt buf number' w' start mid
  | _, _, _, _, _, _, _, _, _, _, .group _ hfields hend, _, hopen, htag, hw => by
    obtain ⟨mid, hle, hvalue⟩ := hfields.open_value hend hopen htag hw
    exact ⟨mid, Nat.le_trans hle (Nat.le_of_lt hend.lt), hvalue⟩

theorem FieldsIn.open_value : ∀ {levels levels' : Option Nat} {number number' pos mid start stop rec : Nat} {w' : WireType},
    FieldsIn buf levels pos mid → TagAt buf mid stop number .endGroup → OpenAt buf levels' pos rec →
      TagAt buf rec start number' w' → w' ≠ .endGroup → ∃ last ≤ mid, ValueAt buf number' w' start last
  | _, _, _, _, _, _, _, _, _, _, .nil _ _, hend, hopen, htag, hw => by
    rw [hopen.eq_of_endGroup hend] at htag
    exact absurd (htag.unique hend).2.2 hw
  | _, _, _, _, _, _, _, _, _, _, .cons htag' hvalue hfields, hend, hopen, htag, hw => by
    obtain hrec | ⟨hgroup, -, hinner⟩ | ⟨mid, hvalue', hrest⟩ := hopen.cases_tag htag'
    · rw [hrec] at htag
      obtain ⟨heq, hnumber, hw'⟩ := htag.unique htag'
      rw [heq, hnumber, hw']
      exact ⟨_, hfields.le, hvalue.valueAt⟩
    · obtain ⟨last, hle, hvalue'⟩ := hvalue.open_value hgroup hinner htag hw
      exact ⟨last, Nat.le_trans hle hfields.le, hvalue'⟩
    · exact hfields.open_value hend (hvalue.unique hvalue' ▸ hrest) htag hw

end

end Grammar

end Hpb
