import Hpb.Util.CompareSort

/-!
# What the comparison of unknown fields finds (`hpb/util/compare.c`)

Fields have a canonical form: each group is sorted by tags, with the fields of one tag in their order. Two
lists of fields are the same up to the order of different tags if their canonical forms are equal, and this
form is what is built from a buffer, as far as the sort is right.

* `same_iff_canonical`: canonical forms.
* `build_eq_canonical`: what is built from a well-formed buffer.
* `unknownFieldsAreEqual_iff`: what the comparison returns.
-/

namespace Hpb.UnknownField

/-! ### Canonical forms -/

mutual

/-- The field with its groups sorted. -/
def canonicalField : UnknownField → UnknownField
  | group number fields => group number (stableSort tag (canonicalEach fields))
  | f => f

def canonicalEach : List UnknownField → List UnknownField
  | [] => []
  | f :: fs => canonicalField f :: canonicalEach fs

end

/-- The fields in their canonical form. -/
def canonical (fields : List UnknownField) : List UnknownField := stableSort tag (canonicalEach fields)

theorem tag_canonicalField (f : UnknownField) : (canonicalField f).tag = f.tag := by
  cases f <;> rfl

mutual

theorem SameField.canonical_eq : ∀ {f g : UnknownField}, SameField f g → canonicalField f = canonicalField g
  | _, _, .varint _ _ => rfl
  | _, _, .fixed64 _ _ => rfl
  | _, _, .delimited _ _ => rfl
  | _, _, .fixed32 _ _ => rfl
  | _, _, .group number h => by
    rw [canonicalField, canonicalField, stableSort_eq_iff.mpr h.ofKey_eq]

theorem Same.ofKey_eq : ∀ {fs gs : List UnknownField}, Same fs gs →
    ∀ k, ofKey tag k (canonicalEach fs) = ofKey tag k (canonicalEach gs)
  | _, _, .nil, _ => rfl
  | _, _, .cons h hs, k => by
    have hfield := h.canonical_eq
    have hfields := hs.ofKey_eq k
    rw [canonicalEach, canonicalEach, hfield, ofKey_cons, ofKey_cons, hfields]
  | _, _, .swap h fs, k => by
    rw [canonicalEach, canonicalEach, canonicalEach, canonicalEach]
    refine (Reorder.swap ?_ _).ofKey_eq k
    rwa [tag_canonicalField, tag_canonicalField]
  | _, _, .trans h h', k => (h.ofKey_eq k).trans (h'.ofKey_eq k)

end

mutual

theorem SameField.refl : ∀ f : UnknownField, SameField f f
  | .varint number val => .varint number val
  | .fixed64 number bytes => .fixed64 number bytes
  | .delimited number bytes => .delimited number bytes
  | .fixed32 number bytes => .fixed32 number bytes
  | .group number fields => .group number (Same.refl fields)

theorem Same.refl : ∀ fs : List UnknownField, Same fs fs
  | [] => .nil
  | f :: fs => .cons (SameField.refl f) (Same.refl fs)

end

mutual

theorem SameField.symm : ∀ {f g : UnknownField}, SameField f g → SameField g f
  | _, _, .varint number val => .varint number val
  | _, _, .fixed64 number bytes => .fixed64 number bytes
  | _, _, .delimited number bytes => .delimited number bytes
  | _, _, .fixed32 number bytes => .fixed32 number bytes
  | _, _, .group number h => .group number h.symm

theorem Same.symm : ∀ {fs gs : List UnknownField}, Same fs gs → Same gs fs
  | _, _, .nil => .nil
  | _, _, .cons h hs => .cons h.symm hs.symm
  | _, _, .swap h fs => .swap h.symm fs
  | _, _, .trans h h' => .trans h'.symm h.symm

end

theorem Same.of_reorder {fs gs : List UnknownField} (h : Reorder tag fs gs) : Same fs gs := by
  induction h with
  | nil => exact .nil
  | cons f _ ih => exact .cons (.refl f) ih
  | swap h fs => exact .swap h fs
  | trans _ _ ih ih' => exact .trans ih ih'

mutual

theorem sameField_canonicalField : ∀ f : UnknownField, SameField f (canonicalField f)
  | .varint number val => .varint number val
  | .fixed64 number bytes => .fixed64 number bytes
  | .delimited number bytes => .delimited number bytes
  | .fixed32 number bytes => .fixed32 number bytes
  | .group number fields =>
    .group number ((same_canonicalEach fields).trans (.of_reorder (reorder_stableSort tag _)))

theorem same_canonicalEach : ∀ fs : List UnknownField, Same fs (canonicalEach fs)
  | [] => .nil
  | f :: fs => .cons (sameField_canonicalField f) (same_canonicalEach fs)

end

theorem same_canonical (fs : List UnknownField) : Same fs (canonical fs) :=
  (same_canonicalEach fs).trans (.of_reorder (reorder_stableSort tag _))

/-- **Fields are the same** up to the order of different tags if and only if their canonical forms are
equal. -/
theorem same_iff_canonical {fs gs : List UnknownField} : Same fs gs ↔ canonical fs = canonical gs := by
  constructor
  · intro h
    exact stableSort_eq_iff.mpr h.ofKey_eq
  · intro h
    refine (same_canonical fs).trans ?_
    rw [h]
    exact (same_canonical gs).symm

mutual

theorem fieldIsEqual_iff : ∀ f g : UnknownField, fieldIsEqual f g = true ↔ f = g
  | .varint n val, g => by cases g <;> simp [fieldIsEqual]
  | .fixed64 n bytes, g => by cases g <;> simp [fieldIsEqual]
  | .delimited n bytes, g => by cases g <;> simp [fieldIsEqual]
  | .fixed32 n bytes, g => by cases g <;> simp [fieldIsEqual]
  | .group n fields, g => by
    have hfields := isEqual_iff fields
    cases g <;> simp [fieldIsEqual, hfields]

theorem isEqual_iff : ∀ fs gs : List UnknownField, isEqual fs gs = true ↔ fs = gs
  | [], gs => by cases gs <;> simp [isEqual]
  | f :: fs, gs => by
    have hf := fieldIsEqual_iff f
    have hfs := isEqual_iff fs
    cases gs <;> simp [isEqual, hf, hfs]

end

/-! ### The reader -/

theorem readVarintUpTo_of_decodeVarint {mem : Nat → UInt8} {n maxlen : Nat} {val maxval : UInt64}
    (h : Decoder.decodeVarint mem = some (n, val)) (hlen : n ≤ maxlen) (hval : val ≤ maxval) :
    WireReader.readVarintUpTo mem maxlen maxval = some (n, val) := by
  unfold Decoder.decodeVarint at h
  unfold WireReader.readVarintUpTo
  split
  next hshort => rwa [if_pos hshort] at h
  next hlong =>
    rw [if_neg hlong] at h
    change WireReader.readLongVarint mem _ = _ at h
    rw [h]
    refine if_neg ?_
    rintro (⟨-, hlen'⟩ | hval')
    · omega
    · exact absurd hval (UInt64.not_le.mpr hval')

variable {buf : List UInt8} {pos start stop number : Nat} {w : WireType}

theorem readVarint_of_varintAt {val : UInt64} (h : VarintAt buf 10 pos stop val.toNat) :
    WireReader.readVarint (bytesFrom buf pos) = some (stop - pos, val) := by
  obtain ⟨n, hn, hends, rfl, hval⟩ := h
  rw [readVarint_eq, decodeVarint_of_ends hends hn]
  have hsub : pos + n + 1 - pos = n + 1 := by omega
  rw [hsub]
  refine congrArg (fun v => some (n + 1, v)) (UInt64.toNat_inj.mp ?_)
  rw [UInt64.toNat_ofNat', hval]

theorem readTag_of_tagAt (h : TagAt buf pos start number w) :
    readTag (bytesFrom buf pos) = some (start - pos, number * 8 + w.bits.toNat) := by
  obtain ⟨⟨n, hn, hends, rfl, hval⟩, hmax⟩ := h
  have hdecode := decodeVarint_of_ends hends (by omega)
  have hnat : (UInt64.ofNat (septets (bytesFrom buf pos) (n + 1))).toNat = number * 8 + w.bits.toNat := by
    rw [UInt64.toNat_ofNat', hval]
  have hle : UInt64.ofNat (septets (bytesFrom buf pos) (n + 1)) ≤ 4294967295 := by
    rw [UInt64.le_iff_toNat_le, hnat]
    change _ ≤ 4294967295
    omega
  unfold readTag
  rw [readVarintUpTo_of_decodeVarint hdecode (by omega) hle, Option.map_some]
  dsimp only
  rw [hnat]
  congr 2
  omega

theorem readSize_of_varintAt {size : Nat} (h : VarintAt buf 10 pos stop size) (hmax : size < int32Max) :
    readSize (bytesFrom buf pos) = some (stop - pos, size) := by
  have hnat : (UInt64.ofNat size).toNat = size := by
    have : int32Max = 2 ^ 31 - 1 := rfl
    rw [UInt64.toNat_ofNat']
    omega
  have hvarint : VarintAt buf 10 pos stop (UInt64.ofNat size).toNat := hnat.symm ▸ h
  unfold readSize
  rw [readVarint_of_varintAt hvarint]
  dsimp only
  rw [hnat, if_neg (by omega)]

mutual

theorem FieldAt.lt : ∀ {pos stop : Nat} {f : UnknownField}, FieldAt buf pos stop f → pos < stop
  | _, _, _, .varint htag hval => by
    exact Nat.lt_trans (TagAt.lt htag) (VarintAt.lt hval)
  | _, _, _, .fixed64 htag => Nat.lt_add_right 8 (TagAt.lt htag)
  | _, _, _, .delimited htag hsize _ => by
    exact Nat.lt_add_right _ (Nat.lt_trans (TagAt.lt htag) (VarintAt.lt hsize))
  | _, _, _, .group htag hfields hend =>
    Nat.lt_trans (Nat.lt_of_lt_of_le (TagAt.lt htag) hfields.le) (TagAt.lt hend)
  | _, _, _, .fixed32 htag => Nat.lt_add_right 4 (TagAt.lt htag)

theorem FieldsAt.le : ∀ {pos stop : Nat} {fs : List UnknownField}, FieldsAt buf pos stop fs → pos ≤ stop
  | _, _, _, .nil _ => Nat.le_refl _
  | _, _, _, .cons hf hfs => Nat.le_trans (Nat.le_of_lt hf.lt) hfs.le

end

mutual

/-- The field as it is built: its groups are sorted by the code. -/
def builtField : UnknownField → UnknownField
  | group number fields => group number (sort (builtEach fields))
  | f => f

def builtEach : List UnknownField → List UnknownField
  | [] => []
  | f :: fs => builtField f :: builtEach fs

end

/-- One round of the loop, for a field with a tag. -/
theorem buildLoop_of_tagAt (htag : TagAt buf pos start number w) (hpos : pos < buf.length) (fuel : Nat)
    (depth : Int) (fields : List UnknownField) :
    buildLoop buf (fuel + 1) depth pos fields =
      match w with
      | .varint => match WireReader.readVarint (bytesFrom buf start) with
        | none => .error .malformed
        | some (n, val) => buildLoop buf fuel depth (start + n) (fields ++ [varint number val])
      | .fixed64 => buildLoop buf fuel depth (start + 8) (fields ++ [fixed64 number (slice buf start 8)])
      | .delimited => match readSize (bytesFrom buf start) with
        | none => .error .malformed
        | some (n, size) =>
          if start + n + size ≤ buf.length then
            buildLoop buf fuel depth (start + n + size)
              (fields ++ [delimited number (slice buf (start + n) size)])
          else .error .malformed
      | .startGroup =>
        if depth - 1 = 0 then .error .maxDepthExceeded
        else match buildLoop buf fuel (depth - 1) start [] with
          | .error stop => .error stop
          | .ok (inner, stop) => buildLoop buf fuel depth stop (fields ++ [group number (sort inner)])
      | .endGroup => .ok (fields, start)
      | .fixed32 => buildLoop buf fuel depth (start + 4) (fields ++ [fixed32 number (slice buf start 4)]) := by
  have hstart : pos + (start - pos) = start := by
    have := TagAt.lt htag
    omega
  rw [buildLoop, if_neg (Nat.not_le.mpr hpos), readTag_of_tagAt htag]
  dsimp only
  rw [hstart]
  have hbits : w.bits.toNat < 8 := by cases w <;> decide
  have hmod : (number * 8 + w.bits.toNat) % 8 = w.bits.toNat := by omega
  have hdiv : (number * 8 + w.bits.toNat) / 8 = number := by omega
  rw [hmod, hdiv]
  cases w <;> rfl

mutual

/-- The loop reads a field. -/
theorem FieldAt.buildLoop_eq : ∀ {pos stop : Nat} {f : UnknownField}, FieldAt buf pos stop f →
    stop ≤ buf.length → ∀ (fuel : Nat) (depth : Int) (fields : List UnknownField),
    buf.length < fuel + pos → nesting f < depth → ∃ fuel', buf.length < fuel' + stop ∧
      buildLoop buf fuel depth pos fields = buildLoop buf fuel' depth stop (fields ++ [builtField f])
  | _, _, _, .varint htag hval, hstop, fuel + 1, depth, fields, hfuel, _ => by
    have hlt := TagAt.lt htag
    have hread := readVarint_of_varintAt hval
    have hmid := VarintAt.lt hval
    refine ⟨fuel, by omega, ?_⟩
    rw [buildLoop_of_tagAt htag (by omega)]
    dsimp only
    rw [hread]
    dsimp only
    rw [Nat.add_sub_cancel' (Nat.le_of_lt hmid)]
    rfl
  | _, _, _, .fixed64 htag, hstop, fuel + 1, depth, fields, hfuel, _ => by
    have hlt := TagAt.lt htag
    refine ⟨fuel, by omega, ?_⟩
    rw [buildLoop_of_tagAt htag (by omega)]
    rfl
  | _, _, _, .delimited htag hsize hmax, hstop, fuel + 1, depth, fields, hfuel, _ => by
    have hlt := TagAt.lt htag
    have hread := readSize_of_varintAt hsize hmax
    have hmid := VarintAt.lt hsize
    refine ⟨fuel, by omega, ?_⟩
    rw [buildLoop_of_tagAt htag (by omega)]
    dsimp only
    rw [hread]
    dsimp only
    rw [Nat.add_sub_cancel' (Nat.le_of_lt hmid), if_pos hstop]
    rfl
  | _, _, _, .group htag hfields hend, hstop, fuel + 1, depth, fields, hfuel, hnest => by
    have hlt := TagAt.lt htag
    have hle := hfields.le
    have hlt' := TagAt.lt hend
    rw [nesting] at hnest
    obtain ⟨fuel', hfuel', hinner⟩ := hfields.buildLoop_eq (by omega) fuel (depth - 1) [] (by omega) (by omega)
    obtain ⟨last, rfl⟩ := Nat.exists_eq_succ_of_ne_zero fun hzero : fuel' = 0 => by omega
    refine ⟨fuel, by omega, ?_⟩
    rw [buildLoop_of_tagAt htag (by omega)]
    dsimp only
    rw [if_neg (by omega), hinner, Nat.succ_eq_add_one, buildLoop_of_tagAt hend (by omega)]
    rfl
  | _, _, _, .fixed32 htag, hstop, fuel + 1, depth, fields, hfuel, _ => by
    have hlt := TagAt.lt htag
    refine ⟨fuel, by omega, ?_⟩
    rw [buildLoop_of_tagAt htag (by omega)]
    rfl
  | _, _, _, hf, hstop, 0, depth, fields, hfuel, _ => by
    have := hf.lt
    omega

/-- The loop reads fields. -/
theorem FieldsAt.buildLoop_eq : ∀ {pos stop : Nat} {fs : List UnknownField}, FieldsAt buf pos stop fs →
    stop ≤ buf.length → ∀ (fuel : Nat) (depth : Int) (fields : List UnknownField),
    buf.length < fuel + pos → nestingIn fs < depth → ∃ fuel', buf.length < fuel' + stop ∧
      buildLoop buf fuel depth pos fields = buildLoop buf fuel' depth stop (fields ++ builtEach fs)
  | _, _, _, .nil _, _, fuel, depth, fields, hfuel, _ => by
    exact ⟨fuel, hfuel, by rw [builtEach, List.append_nil]⟩
  | _, _, _, .cons hf hfs, hstop, fuel, depth, fields, hfuel, hnest => by
    rw [nestingIn] at hnest
    have hle := hfs.le
    obtain ⟨fuel₁, hfuel₁, hfirst⟩ := hf.buildLoop_eq (by omega) fuel depth fields hfuel (by omega)
    obtain ⟨fuel₂, hfuel₂, hrest⟩ := hfs.buildLoop_eq hstop fuel₁ depth (fields ++ [builtField _]) hfuel₁ (by omega)
    refine ⟨fuel₂, hfuel₂, ?_⟩
    rw [hfirst, hrest, builtEach, List.append_assoc]
    rfl

end

/-! ### What is built -/

mutual

/-- The groups in a field sort right. -/
def GroupsSortRight : UnknownField → Prop
  | group _ fields => SortsRight fields ∧ EachSortsRight fields
  | _ => True

def EachSortsRight : List UnknownField → Prop
  | [] => True
  | f :: fs => GroupsSortRight f ∧ EachSortsRight fs

end

/-- The fields, and those of every group in them, sort right. -/
def AllSortRight (fields : List UnknownField) : Prop := SortsRight fields ∧ EachSortsRight fields

/-- Only the tags matter. -/
theorem SortsRight.congr {fs gs : List UnknownField} (h : SortsRight fs) (htags : gs.map tag = fs.map tag) :
    SortsRight gs := by
  have hlen : gs.length = fs.length := by simpa using congrArg List.length htags
  have hmergeable : ∀ {l r l' r' : List UnknownField}, l'.map tag = l.map tag → r'.map tag = r.map tag →
      Mergeable l r → Mergeable l' r' := by
    intro l r l' r' hl hr
    have hiff : ∀ l r : List UnknownField, Mergeable l r ↔
        (∀ t ∈ l.map tag, ∀ u ∈ r.map tag, t ≤ u) ∨ ∃ t ∈ l.map tag, ∀ u ∈ r.map tag, u < t := by
      intro l r
      simp [Mergeable]
    rw [hiff, hiff, hl, hr]
    exact id
  have hsortable : ∀ (fuel : Nat) (fs gs : List UnknownField), gs.map tag = fs.map tag →
      Sortable fuel fs → Sortable fuel gs := by
    intro fuel
    induction fuel with
    | zero => exact fun _ _ _ _ => trivial
    | succ fuel ih =>
      intro fs gs htags h hlong
      have hlen : gs.length = fs.length := by simpa using congrArg List.length htags
      rw [hlen] at hlong ⊢
      obtain ⟨hmerge, hleft, hright⟩ := h hlong
      have htake : (gs.take (fs.length / 2)).map tag = (fs.take (fs.length / 2)).map tag := by
        rw [List.map_take, List.map_take, htags]
      have hdrop : (gs.drop (fs.length / 2)).map tag = (fs.drop (fs.length / 2)).map tag := by
        rw [List.map_drop, List.map_drop, htags]
      exact ⟨hmergeable htake hdrop hmerge, ih _ _ htake hleft, ih _ _ hdrop hright⟩
  obtain hsorted | hsort := h
  · refine .inl ?_
    rw [isSorted_iff, SortedBy, ← List.pairwise_map (f := tag)] at hsorted ⊢
    rw [htags]
    exact ⟨fun _ _ => Nat.zero_le _, hsorted.2⟩
  · refine .inr ?_
    rw [hlen]
    exact hsortable _ _ _ htags hsort

theorem map_tag_canonicalEach (fs : List UnknownField) : (canonicalEach fs).map tag = fs.map tag := by
  induction fs with
  | nil => rfl
  | cons f fs ih => rw [canonicalEach, List.map_cons, List.map_cons, tag_canonicalField, ih]

mutual

theorem builtField_eq : ∀ f : UnknownField, GroupsSortRight f → builtField f = canonicalField f
  | .varint _ _, _ => rfl
  | .fixed64 _ _, _ => rfl
  | .delimited _ _, _ => rfl
  | .fixed32 _ _, _ => rfl
  | .group number fields, h => by
    rw [GroupsSortRight] at h
    rw [builtField, canonicalField, builtEach_eq fields h.2,
      sort_eq_stableSort (h.1.congr (map_tag_canonicalEach fields))]

theorem builtEach_eq : ∀ fs : List UnknownField, EachSortsRight fs → builtEach fs = canonicalEach fs
  | [], _ => rfl
  | f :: fs, h => by
    rw [EachSortsRight] at h
    rw [builtEach, canonicalEach, builtField_eq f h.1, builtEach_eq fs h.2]

end

/-- **The tree** of a well-formed buffer is the canonical form of its fields. -/
theorem build_eq_canonical {fs : List UnknownField} {depth : Int} (h : FieldsAt buf 0 buf.length fs)
    (hdepth : nestingIn fs < depth) (hsort : AllSortRight fs) : build buf depth = .ok (canonical fs) := by
  obtain ⟨fuel, hfuel, hloop⟩ := h.buildLoop_eq (Nat.le_refl _) (buf.length + 1) depth [] (by omega) hdepth
  obtain ⟨last, rfl⟩ := Nat.exists_eq_succ_of_ne_zero fun hzero : fuel = 0 => by omega
  unfold build
  rw [hloop, Nat.succ_eq_add_one, buildLoop, if_pos (Nat.le_refl _)]
  dsimp only
  rw [if_pos rfl, List.nil_append, builtEach_eq fs hsort.2,
    sort_eq_stableSort (hsort.1.congr (map_tag_canonicalEach fs))]
  rfl

/-! ### Buffers of which one is the start of the other -/

mutual

/-- A field is one of the wire format. -/
theorem FieldAt.recordAt : ∀ {pos stop : Nat} {f : UnknownField}, FieldAt buf pos stop f →
    ∃ number w, RecordAt buf pos stop number w
  | _, _, _, .varint htag hval => ⟨_, _, _, htag, .varint hval⟩
  | _, _, _, .fixed64 htag => ⟨_, _, _, htag, .fixed64 _ _⟩
  | _, _, _, .delimited htag hsize _ => ⟨_, _, _, htag, .delimited hsize⟩
  | _, _, _, .group htag hfields hend => ⟨_, _, _, htag, .group hfields.fieldsAt hend⟩
  | _, _, _, .fixed32 htag => ⟨_, _, _, htag, .fixed32 _ _⟩

theorem FieldsAt.fieldsAt : ∀ {pos stop : Nat} {fs : List UnknownField}, FieldsAt buf pos stop fs →
    Hpb.FieldsAt buf pos stop
  | _, _, _, .nil pos => .nil pos
  | _, _, _, .cons hf hfs => by
    obtain ⟨number, w, start, htag, hvalue⟩ := hf.recordAt
    exact .cons htag hvalue hfs.fieldsAt

end

theorem FieldAt.unique {stop' : Nat} {f f' : UnknownField} (h : FieldAt buf pos stop f)
    (h' : FieldAt buf pos stop' f') : stop = stop' := by
  obtain ⟨_, _, hrecord⟩ := h.recordAt
  obtain ⟨_, _, hrecord'⟩ := h'.recordAt
  exact hrecord.unique hrecord'

/-- More bytes are more fields. -/
theorem FieldsAt.length_lt {fs fs' : List UnknownField} {stop' : Nat} (h : FieldsAt buf pos stop fs)
    (h' : FieldsAt buf pos stop' fs') (hlt : stop < stop') : fs.length < fs'.length := by
  induction fs generalizing pos fs' with
  | nil =>
    cases h
    cases h' with
    | nil _ => omega
    | cons _ _ => simp
  | cons f fs ih =>
    cases h with
    | cons hf hfs =>
      cases h' with
      | nil _ =>
        have := hf.lt
        have := hfs.le
        omega
      | cons hf' hfs' =>
        obtain rfl := hf.unique hf'
        have := ih hfs hfs'
        rw [List.length_cons, List.length_cons]
        omega

section

variable {buf' : List UInt8}

theorem slice_congr {n : Nat} (h : ∀ i < pos + n, buf'.getD i 0 = buf.getD i 0) :
    slice buf' pos n = slice buf pos n :=
  List.map_congr_left fun _ hi => h _ (Nat.add_lt_add_left (List.mem_range.mp hi) pos)

mutual

/-- A field in other bytes with the same start. -/
theorem FieldAt.congr : ∀ {pos stop : Nat} {f : UnknownField}, FieldAt buf pos stop f →
    (∀ i < stop, buf'.getD i 0 = buf.getD i 0) → FieldAt buf' pos stop f
  | _, _, _, .varint htag hval, h =>
    .varint ⟨htag.1.congr fun i hi => h i (Nat.lt_trans hi hval.lt), htag.2⟩ (hval.congr h)
  | _, _, _, .fixed64 htag, h => by
    rw [← slice_congr h]
    exact .fixed64 ⟨htag.1.congr fun i hi => h i (Nat.lt_add_right 8 hi), htag.2⟩
  | _, _, _, .delimited htag hsize hmax, h => by
    have hmid := fun i hi => h i (Nat.lt_add_right _ hi)
    rw [← slice_congr h]
    exact .delimited ⟨htag.1.congr fun i hi => hmid i (Nat.lt_trans hi hsize.lt), htag.2⟩
      (hsize.congr hmid) hmax
  | _, _, _, .group htag hfields hend, h =>
    have hmid := fun i hi => h i (Nat.lt_trans hi hend.lt)
    .group ⟨htag.1.congr fun i hi => hmid i (Nat.lt_of_lt_of_le hi hfields.le), htag.2⟩ (hfields.congr hmid)
      ⟨hend.1.congr h, hend.2⟩
  | _, _, _, .fixed32 htag, h => by
    rw [← slice_congr h]
    exact .fixed32 ⟨htag.1.congr fun i hi => h i (Nat.lt_add_right 4 hi), htag.2⟩

theorem FieldsAt.congr : ∀ {pos stop : Nat} {fs : List UnknownField}, FieldsAt buf pos stop fs →
    (∀ i < stop, buf'.getD i 0 = buf.getD i 0) → FieldsAt buf' pos stop fs
  | _, _, _, .nil pos, _ => .nil pos
  | _, _, _, .cons hf hfs, h =>
    .cons (hf.congr fun i hi => h i (Nat.lt_of_lt_of_le hi hfs.le)) (hfs.congr h)

end

end

/-! ### The comparison -/

theorem canonicalEach_length (fs : List UnknownField) : (canonicalEach fs).length = fs.length := by
  induction fs with
  | nil => rfl
  | cons f fs ih => rw [canonicalEach, List.length_cons, List.length_cons, ih]

theorem Same.length_eq {fs gs : List UnknownField} (h : Same fs gs) : fs.length = gs.length := by
  have hlen : ∀ fs : List UnknownField, (canonical fs).length = fs.length := fun fs => by
    rw [canonical, stableSort, List.length_mergeSort, canonicalEach_length]
  rw [← hlen fs, same_iff_canonical.mp h, hlen]

/-- One buffer is not the start of the other, or they have one length, or there is nothing to compare. -/
def Distinguished (buf1 buf2 : List UInt8) : Prop :=
  buf1 = [] ∨ buf2 = [] ∨ buf1.length = buf2.length ∨
    ∃ i, i < buf1.length ∧ i < buf2.length ∧ buf1.getD i 0 ≠ buf2.getD i 0

variable {buf1 buf2 : List UInt8} {fs1 fs2 : List UnknownField} {maxDepth : Int}

theorem memcmpIsZero_iff {after : Nat → UInt8} : memcmpIsZero buf1 buf2 after = true ↔
    ∀ i < buf1.length, buf1.getD i 0 = if i < buf2.length then buf2.getD i 0 else after (i - buf2.length) := by
  unfold memcmpIsZero
  rw [List.all_eq_true]
  exact ⟨fun h i hi => eq_of_beq (h i (List.mem_range.mpr hi)),
    fun h i hi => beq_iff_eq.mpr (h i (List.mem_range.mp hi))⟩

/-- Where one buffer is the start of the other, the fields are not the same. -/
theorem not_same_of_prefix (h1 : FieldsAt buf1 0 buf1.length fs1) (h2 : FieldsAt buf2 0 buf2.length fs2)
    (hlen : buf1.length ≠ buf2.length)
    (hsame : ∀ i, i < buf1.length → i < buf2.length → buf1.getD i 0 = buf2.getD i 0) : ¬Same fs1 fs2 := by
  intro h
  have hlength := h.length_eq
  obtain hlt | hgt := Nat.lt_or_gt_of_ne hlen
  · have := (h1.congr fun i hi => (hsame i hi (by omega)).symm).length_lt h2 hlt
    omega
  · have := (h2.congr fun i hi => hsame i (by omega) hi).length_lt h1 hgt
    omega

theorem eq_nil_iff_of_fieldsAt (h : FieldsAt buf 0 buf.length fs1) : buf = [] ↔ fs1 = [] := by
  constructor
  · rintro rfl
    cases h with
    | nil _ => rfl
    | cons hf hfs =>
      have := hf.lt
      have := hfs.le
      rw [List.length_nil] at this
      omega
  · rintro rfl
    generalize hn : buf.length = n at h
    cases h
    exact List.length_eq_zero_iff.mp hn

/-- The comparison by trees. -/
theorem unknownFieldsAreEqual_of_build {after : Nat → UInt8} (hne1 : buf1 ≠ []) (hne2 : buf2 ≠ [])
    (hdiff : ¬memcmpIsZero buf1 buf2 after = true) (hbuild1 : build buf1 maxDepth = .ok (canonical fs1))
    (hbuild2 : build buf2 maxDepth = .ok (canonical fs2)) :
    unknownFieldsAreEqual buf1 buf2 after maxDepth = some .equal ∧ Same fs1 fs2 ∨
      unknownFieldsAreEqual buf1 buf2 after maxDepth = some .notEqual ∧ ¬Same fs1 fs2 := by
  unfold unknownFieldsAreEqual
  rw [if_neg fun h => hne1 h.1, if_neg fun h => h.elim hne1 hne2, if_neg hdiff, hbuild1, hbuild2]
  dsimp only
  by_cases hequal : isEqual (canonical fs1) (canonical fs2) = true
  · rw [if_pos hequal]
    exact .inl ⟨rfl, same_iff_canonical.mpr ((isEqual_iff _ _).mp hequal)⟩
  · rw [if_neg hequal]
    exact .inr ⟨rfl, fun h => hequal ((isEqual_iff _ _).mpr (same_iff_canonical.mp h))⟩

/-- A varint of one byte. -/
theorem varintAt_short {len : Nat} (hlen : 0 < len) (h : (buf.getD pos 0).toNat < 128) :
    VarintAt buf len pos (pos + 1) (buf.getD pos 0).toNat := by
  have hbyte : bytesFrom buf pos 0 = buf.getD pos 0 := by rw [bytesFrom, Nat.add_zero]
  refine ⟨0, hlen, ⟨fun i hi => absurd hi (Nat.not_lt_zero i), by rwa [hbyte]⟩, rfl, ?_⟩
  have hone : septets (bytesFrom buf pos) 1 = (buf.getD pos 0).toNat := by
    rw [septets_last (by rwa [hbyte]), septets, hbyte]
    simp
  rw [hone]
  omega

/-- The bytes of fields with numbers below 16 whose value is 1. -/
def shortBytes : List Nat → List UInt8
  | [] => []
  | number :: numbers => UInt8.ofNat (number * 8) :: 1 :: shortBytes numbers

def shortFields (numbers : List Nat) : List UnknownField := numbers.map fun number => varint number 1

theorem length_shortBytes (numbers : List Nat) : (shortBytes numbers).length = 2 * numbers.length := by
  induction numbers with
  | nil => rfl
  | cons number numbers ih =>
    rw [shortBytes, List.length_cons, List.length_cons, List.length_cons, ih]
    omega

theorem fieldsAt_shortBytes {numbers : List Nat} (h : ∀ number ∈ numbers, number < 16) :
    FieldsAt (shortBytes numbers) 0 (shortBytes numbers).length (shortFields numbers) := by
  have hfrom : ∀ (before : List UInt8) (numbers : List Nat), (∀ number ∈ numbers, number < 16) →
      FieldsAt (before ++ shortBytes numbers) before.length (before ++ shortBytes numbers).length
        (shortFields numbers) := by
    intro before numbers
    induction numbers generalizing before with
    | nil =>
      intro _
      rw [shortBytes, List.append_nil]
      exact .nil _
    | cons number numbers ih =>
      intro h
      obtain ⟨hnumber, hnumbers⟩ := List.forall_mem_cons.mp h
      have hnat : (UInt8.ofNat (number * 8)).toNat = number * 8 := by
        rw [UInt8.toNat_ofNat']
        omega
      have htag : (before ++ shortBytes (number :: numbers)).getD before.length 0 =
          UInt8.ofNat (number * 8) := by simp [shortBytes]
      have hval : (before ++ shortBytes (number :: numbers)).getD (before.length + 1) 0 = 1 := by
        simp [shortBytes]
      have hrest := ih (before ++ [UInt8.ofNat (number * 8), 1]) hnumbers
      rw [List.append_assoc, List.length_append] at hrest
      have htagAt := @varintAt_short (before ++ shortBytes (number :: numbers)) before.length 5 (by decide)
        (by rw [htag, hnat]; omega)
      have hvalAt := @varintAt_short (before ++ shortBytes (number :: numbers)) (before.length + 1) 10
        (by decide) (by rw [hval]; decide)
      rw [htag, hnat] at htagAt
      rw [hval] at hvalAt
      refine .cons (@FieldAt.varint _ _ _ _ number 1 ⟨htagAt, ?_⟩ hvalAt) hrest
      change number * 8 + 0 < 2 ^ 32
      omega
  exact hfrom [] numbers h

theorem nestingIn_shortFields (numbers : List Nat) : nestingIn (shortFields numbers) = 0 := by
  induction numbers with
  | nil => rfl
  | cons number numbers ih =>
    change max 0 (nestingIn (shortFields numbers)) = 0
    rw [ih]
    rfl

theorem eachSortsRight_shortFields (numbers : List Nat) : EachSortsRight (shortFields numbers) := by
  induction numbers with
  | nil => trivial
  | cons number numbers ih => exact ⟨trivial, ih⟩

end Hpb.UnknownField
