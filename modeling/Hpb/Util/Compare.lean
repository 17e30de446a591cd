import Hpb.Lib.Reorder
import Hpb.Wire.Grammar

/-!
# Comparing unknown fields (`hpb/util/compare.c`)

Two buffers of unknown fields are each read into a tree of fields, in which the fields of every group are
sorted by their tags if they do not come in this order, and the trees are compared.

The buffer is read at positions, as `hpb_EpsCopyInputStream` shows it; past its end there are zeros. An array
segment is a list, since the parts of an array that the sort works on do not overlap. Allocation does not
fail.

* `buildLoop`, `sortRecursive`, `merge`, `isEqual`: the steps of the comparison.
* `unknownFieldsAreEqual`: the comparison.
* `FieldsAt`: what a buffer spells.
* `Same`: fields that are equal up to the order of those with different tags.
-/

namespace Hpb

/-- `hpb_UnknownField`; its tag is its number and the wire type. -/
inductive UnknownField where
  | varint (number : Nat) (val : UInt64)
  | fixed64 (number : Nat) (bytes : List UInt8)
  | delimited (number : Nat) (bytes : List UInt8)
  | group (number : Nat) (fields : List UnknownField)
  | fixed32 (number : Nat) (bytes : List UInt8)
  deriving Repr

/-- `hpb_UnknownCompareResult`. -/
inductive UnknownCompareResult where
  | equal | notEqual | outOfMemory | maxDepthExceeded
  deriving DecidableEq, Repr

namespace UnknownField

/-- `field->tag`. -/
def tag : UnknownField → Nat
  | varint number _ => number * 8
  | fixed64 number _ => number * 8 + 1
  | delimited number _ => number * 8 + 2
  | group number _ => number * 8 + 3
  | fixed32 number _ => number * 8 + 5

/-! ### The sort -/

/-- The loop of `hpb_UnknownFields_Merge` and what follows it. If fields remain in the right half, their
number of fields is copied from `ptr1`, the start of this half. -/
def mergeLoop (right : List UnknownField) : List UnknownField → List UnknownField → List UnknownField
  | [], rest => right.take rest.length
  | f :: fs, [] => f :: fs
  | f :: fs, g :: gs =>
    if f.tag ≤ g.tag then f :: mergeLoop right fs (g :: gs) else g :: mergeLoop right (f :: fs) gs
termination_by fs gs => fs.length + gs.length

/-- `hpb_UnknownFields_Merge`. -/
def merge (left right : List UnknownField) : List UnknownField := mergeLoop right left right

/-- `hpb_UnknownFields_SortRecursive`. The halves are shorter, so as much fuel as there are fields is not
used up. -/
def sortRecursive : Nat → List UnknownField → List UnknownField
  | 0, fields => fields
  | fuel + 1, fields =>
    if fields.length > 1 then
      let mid := fields.length / 2
      merge (sortRecursive fuel (fields.take mid)) (sortRecursive fuel (fields.drop mid))
    else fields

/-- The flag `sorted` of `hpb_UnknownFields_DoBuild`. -/
def isSorted : Nat → List UnknownField → Bool
  | _, [] => true
  | lastTag, f :: fs => !decide (f.tag < lastTag) && isSorted f.tag fs

/-- The fields of one group at the end of `hpb_UnknownFields_DoBuild`. -/
def sort (fields : List UnknownField) : List UnknownField :=
  if isSorted 0 fields then fields else sortRecursive fields.length fields

/-! ### The reader -/

/-- Why there is no tree: the data is not well formed, for which nothing is promised, or the depth. -/
inductive Stop where
  | malformed | maxDepthExceeded
  deriving DecidableEq, Repr

/-- `hpb_WireReader_ReadTag`. -/
def readTag (mem : Nat → UInt8) : Option (Nat × Nat) :=
  (WireReader.readVarintUpTo mem 5 4294967295).map fun (n, val) => (n, val.toNat)

/-- `hpb_WireReader_ReadSize`. -/
def readSize (mem : Nat → UInt8) : Option (Nat × Nat) :=
  match WireReader.readVarint mem with
  | some (n, size) => if size.toNat ≥ int32Max then none else some (n, size.toNat)
  | none => none

/-- The `n` bytes of the buffer from a position on. -/
def slice (buf : List UInt8) (pos n : Nat) : List UInt8 := (List.range n).map (bytesFrom buf pos)

/-- `hpb_UnknownFields_DoBuild`, up to the sort: the fields from a position on and the position after them.
Each round reads a byte or more. -/
def buildLoop (buf : List UInt8) : Nat → Int → Nat → List UnknownField →
    Except Stop (List UnknownField × Nat)
  | 0, _, _, _ => .error .malformed
  | fuel + 1, depth, pos, fields =>
    if buf.length ≤ pos then .ok (fields, pos)
    else match readTag (bytesFrom buf pos) with
      | none => .error .malformed
      | some (n, tag) =>
        let start := pos + n
        let number := tag / 8
        match tag % 8 with
        | 0 => match WireReader.readVarint (bytesFrom buf start) with
          | none => .error .malformed
          | some (n, val) => buildLoop buf fuel depth (start + n) (fields ++ [varint number val])
        | 1 => buildLoop buf fuel depth (start + 8) (fields ++ [fixed64 number (slice buf start 8)])
        | 2 => match readSize (bytesFrom buf start) with
          | none => .error .malformed
          | some (n, size) =>
            if start + n + size ≤ buf.length then
              buildLoop buf fuel depth (start + n + size)
                (fields ++ [delimited number (slice buf (start + n) size)])
            else .error .malformed
        | 3 =>
          if depth - 1 = 0 then .error .maxDepthExceeded
          else match buildLoop buf fuel (depth - 1) start [] with
            | .error stop => .error stop
            | .ok (inner, stop) => buildLoop buf fuel depth stop (fields ++ [group number (sort inner)])
        | 4 => .ok (fields, start)
        | 5 => buildLoop buf fuel depth (start + 4) (fields ++ [fixed32 number (slice buf start 4)])
        | _ => .error .malformed

/-- `hpb_UnknownFields_Build`. -/
def build (buf : List UInt8) (depth : Int) : Except Stop (List UnknownField) :=
  match buildLoop buf (buf.length + 1) depth 0 [] with
  | .error stop => .error stop
  | .ok (fields, pos) => if pos = buf.length then .ok (sort fields) else .error .malformed

/-! ### The comparison -/

mutual

/-- The body of the loop in `hpb_UnknownFields_IsEqual`. -/
def fieldIsEqual : UnknownField → UnknownField → Bool
  | varint n val, varint n' val' => n == n' && val == val'
  | fixed64 n bytes, fixed64 n' bytes' => n == n' && bytes == bytes'
  | delimited n bytes, delimited n' bytes' => n == n' && bytes == bytes'
  | group n fields, group n' fields' => n == n' && isEqual fields fields'
  | fixed32 n bytes, fixed32 n' bytes' => n == n' && bytes == bytes'
  | _, _ => false

/-- `hpb_UnknownFields_IsEqual`. -/
def isEqual : List UnknownField → List UnknownField → Bool
  | [], [] => true
  | f :: fs, g :: gs => fieldIsEqual f g && isEqual fs gs
  | _, _ => false

end

/-- `memcmp(buf1, buf2, size1) == 0`; `after` is the memory after the second buffer. -/
def memcmpIsZero (buf1 buf2 : List UInt8) (after : Nat → UInt8) : Bool :=
  (List.range buf1.length).all fun i =>
    buf1.getD i 0 == if i < buf2.length then buf2.getD i 0 else after (i - buf2.length)

/-- `hpb_Message_UnknownFieldsAreEqual`; there is no result if a buffer is not well formed. -/
def unknownFieldsAreEqual (buf1 buf2 : List UInt8) (after : Nat → UInt8) (maxDepth : Int) :
    Option UnknownCompareResult :=
  if buf1 = [] ∧ buf2 = [] then some .equal
  else if buf1 = [] ∨ buf2 = [] then some .notEqual
  else if memcmpIsZero buf1 buf2 after then some .equal
  else match build buf1 maxDepth with
    | .error .malformed => none
    | .error .maxDepthExceeded => some .maxDepthExceeded
    | .ok uf1 => match build buf2 maxDepth with
      | .error .malformed => none
      | .error .maxDepthExceeded => some .maxDepthExceeded
      | .ok uf2 => some (if isEqual uf1 uf2 then .equal else .notEqual)

/-! ### What is compared -/

mutual

/-- A field from `pos` to `stop`. -/
inductive FieldAt (buf : List UInt8) : Nat → Nat → UnknownField → Prop where
  | varint {pos start stop number : Nat} {val : UInt64} (htag : TagAt buf pos start number .varint)
      (hval : VarintAt buf 10 start stop val.toNat) : FieldAt buf pos stop (.varint number val)
  | fixed64 {pos start number : Nat} (htag : TagAt buf pos start number .fixed64) :
      FieldAt buf pos (start + 8) (.fixed64 number (slice buf start 8))
  | delimited {pos start mid number size : Nat} (htag : TagAt buf pos start number .delimited)
      (hsize : VarintAt buf 10 start mid size) (hmax : size < int32Max) :
      FieldAt buf pos (mid + size) (.delimited number (slice buf mid size))
  | group {pos start mid stop number : Nat} {fields : List UnknownField}
      (htag : TagAt buf pos start number .startGroup) (hfields : FieldsAt buf start mid fields)
      (hend : TagAt buf mid stop number .endGroup) : FieldAt buf pos stop (.group number fields)
  | fixed32 {pos start number : Nat} (htag : TagAt buf pos start number .fixed32) :
      FieldAt buf pos (start + 4) (.fixed32 number (slice buf start 4))

/-- Fields from `pos` to `stop`. -/
inductive FieldsAt (buf : List UInt8) : Nat → Nat → List UnknownField → Prop where
  | nil (pos : Nat) : FieldsAt buf pos pos []
  | cons {pos mid stop : Nat} {f : UnknownField} {fs : List UnknownField} (hf : FieldAt buf pos mid f)
      (hfs : FieldsAt buf mid stop fs) : FieldsAt buf pos stop (f :: fs)

end

mutual

/-- Fields of the same tag that are equal, but for the order in a group. -/
inductive SameField : UnknownField → UnknownField → Prop where
  | varint (number : Nat) (val : UInt64) : SameField (.varint number val) (.varint number val)
  | fixed64 (number : Nat) (bytes : List UInt8) : SameField (.fixed64 number bytes) (.fixed64 number bytes)
  | delimited (number : Nat) (bytes : List UInt8) :
      SameField (.delimited number bytes) (.delimited number bytes)
  | group (number : Nat) {fs gs : List UnknownField} (h : Same fs gs) :
      SameField (.group number fs) (.group number gs)
  | fixed32 (number : Nat) (bytes : List UInt8) : SameField (.fixed32 number bytes) (.fixed32 number bytes)

/-- Fields that are equal up to the order of those with different tags, also in groups. -/
inductive Same : List UnknownField → List UnknownField → Prop where
  | nil : Same [] []
  | cons {f g : UnknownField} {fs gs : List UnknownField} (h : SameField f g) (hs : Same fs gs) :
      Same (f :: fs) (g :: gs)
  | swap {f g : UnknownField} (h : f.tag ≠ g.tag) (fs : List UnknownField) :
      Same (f :: g :: fs) (g :: f :: fs)
  | trans {fs gs hs : List UnknownField} (h : Same fs gs) (h' : Same gs hs) : Same fs hs

end

mutual

/-- The number of groups that are nested in a field. -/
def nesting : UnknownField → Nat
  | group _ fields => nestingIn fields + 1
  | _ => 0

def nestingIn : List UnknownField → Nat
  | [] => 0
  | f :: fs => max (nesting f) (nestingIn fs)

end

end UnknownField

end Hpb
