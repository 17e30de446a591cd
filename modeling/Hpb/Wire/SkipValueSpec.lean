import Hpb.Wire.SkipValue

/-!
# What skipping a value accepts

`_hpb_WireReader_SkipValue` should accept a value if and only if it is well formed, inside the limit and not nested
deeper than the limit of its argument. It follows the grammar (`WireReader.records_run`), but in a group it takes
the end of the limit for the end of the group, it does not compare the end of what it skips with the limit, and it
counts one group more than there are. `skipValue_iff` says when none of this matters.
-/

namespace Hpb

open EpsCopyInputStream

namespace WireReader

section Readers

variable {buf : List UInt8} {mem mem' : Nat → UInt8} {pos : Nat}

theorem longVarint_congr {fuel i : Nat} (h : ∀ j < i + fuel, mem j = mem' j) (val : UInt64) :
    longVarint mem fuel i val = longVarint mem' fuel i val := by
  induction fuel generalizing i val with
  | zero => rfl
  | succ fuel ih =>
    rw [longVarint, longVarint, h i (by omega), ih fun j hj => h j (by omega)]

/-- The readers look at ten bytes. -/
theorem readVarintUpTo_congr (h : ∀ i < 10, mem i = mem' i) (maxlen : Nat) (maxval : UInt64) :
    readVarintUpTo mem maxlen maxval = readVarintUpTo mem' maxlen maxval := by
  rw [readVarintUpTo, readVarintUpTo, readLongVarint, readLongVarint, h 0 (by decide),
    longVarint_congr (fun j hj => h j hj) _]

/-- Ten bytes of a buffer. -/
def ReadsAt (buf : List UInt8) (pos : Nat) (mem : Nat → UInt8) : Prop := ∀ i < 10, mem i = bytesFrom buf pos i

theorem ReadsAt.varint_some (h : ReadsAt buf pos mem) {n : Nat} {val : UInt64} (hr : readVarint mem = some (n, val)) :
    VarintAt buf 10 pos (pos + n) val.toNat := by
  rw [readVarint, readVarintUpTo_congr h] at hr
  obtain ⟨m, hm, rfl, hends, rfl⟩ := decodeVarint_eq_some ((readVarint_eq _).symm.trans hr)
  exact ⟨m, hm, hends, rfl, UInt64.toNat_ofNat'⟩

theorem ReadsAt.varint_none (h : ReadsAt buf pos mem) (hr : readVarint mem = none) {stop val : Nat} :
    ¬VarintAt buf 10 pos stop val := by
  rintro ⟨n, hn, hends, -, -⟩
  rw [readVarint, readVarintUpTo_congr h] at hr
  have hsome := decodeVarint_of_ends hends hn
  rw [← readVarint_eq, readVarint, hr] at hsome
  cases hsome

theorem ReadsAt.size_some (h : ReadsAt buf pos mem) {n size : Nat} (hr : UnknownField.readSize mem = some (n, size)) :
    VarintAt buf 10 pos (pos + n) size ∧ size < int32Max := by
  rw [UnknownField.readSize] at hr
  split at hr
  next k val hval =>
    split at hr
    · cases hr
    next hlt =>
      cases hr
      exact ⟨h.varint_some hval, Nat.lt_of_not_le hlt⟩
  · cases hr

theorem ReadsAt.size_none (h : ReadsAt buf pos mem) (hr : UnknownField.readSize mem = none) {start size : Nat}
    (hat : VarintAt buf 10 pos start size) : int32Max ≤ size := by
  rw [UnknownField.readSize] at hr
  split at hr
  next k val hval =>
    split at hr
    next hge =>
      obtain ⟨-, rfl⟩ := hat.unique (h.varint_some hval)
      exact hge
    · cases hr
  next hnone => exact absurd hat (h.varint_none hnone)

theorem ReadsAt.tag_some (h : ReadsAt buf pos mem) {n tag : Nat} (hr : UnknownField.readTag mem = some (n, tag)) :
    VarintAt buf 5 pos (pos + n) tag ∧ tag < 2 ^ 32 := by
  rw [UnknownField.readTag, readVarintUpTo_congr h] at hr
  obtain ⟨⟨k, val⟩, hval, heq⟩ := Option.map_eq_some_iff.mp hr
  cases heq
  have hdecode : Decoder.decodeVarint (bytesFrom buf pos) = some (n, val) ∧ n ≤ 5 ∧ val ≤ 4294967295 := by
    rw [readVarintUpTo] at hval
    rw [Decoder.decodeVarint]
    split at hval
    next hshort =>
      cases hval
      refine ⟨if_pos hshort, by decide, ?_⟩
      rw [UInt64.le_iff_toNat_le, toUInt64_toNat]
      have := (bytesFrom buf pos 0).toNat_lt
      change _ ≤ 4294967295
      omega
    next hlong =>
      split at hval
      · cases hval
      next m v hlongs =>
        split at hval
        · cases hval
        next hok =>
          cases hval
          simp only [not_or, not_and, not_lt, gt_iff_lt, UInt64.not_lt] at hok
          exact ⟨(if_neg hlong).trans hlongs, hok.1 (by decide), hok.2⟩
  obtain ⟨m, -, rfl, hends, rfl⟩ := decodeVarint_eq_some hdecode.1
  have hle := hdecode.2.2
  rw [UInt64.le_iff_toNat_le] at hle
  refine ⟨⟨m, by omega, hends, rfl, UInt64.toNat_ofNat'⟩, ?_⟩
  change _ ≤ 4294967295 at hle
  omega

theorem ReadsAt.tag_none (h : ReadsAt buf pos mem) (hr : UnknownField.readTag mem = none) {start number : Nat}
    {w : WireType} : ¬TagAt buf pos start number w := by
  intro htag
  have hsome := UnknownField.readTag_of_tagAt htag
  rw [UnknownField.readTag] at hsome hr
  rw [readVarintUpTo_congr h] at hr
  rw [hr] at hsome
  cases hsome

end Readers

/-- The ten bytes at the pointer. -/
theorem bytesAt_run {fr : Frame} {al : Bool} {m : Mode} {e : EpsCopyInputStream} {ptr : Int} {pos lim : Nat}
    (h : Sim fr al m e ptr pos lim) (hten : pos + 10 ≤ m.endOff fr + slopBytes) :
    ∃ mem, bytesAt fr e ptr = some mem ∧ ReadsAt fr.buf pos mem := by
  have hget : ∀ {n o i : Nat}, i < n → (fr.bytesAt o n).getD i 0 = fr.byteAt (o + i) := by
    intro n
    induction n with
    | zero => exact fun hi => absurd hi (Nat.not_lt_zero _)
    | succ n ih =>
      intro o i hi
      cases i with
      | zero => rfl
      | succ i =>
        have hrest := ih (o := o + 1) (Nat.lt_of_succ_lt_succ hi)
        rw [Nat.add_assoc, Nat.add_comm 1 i] at hrest
        exact hrest
  refine ⟨_, by rw [bytesAt, h.loadN_run hten, Option.map_some], fun i hi => ?_⟩
  rw [memoryOf, hget hi]
  rfl

/-- A stream whose pointer is at an offset, perhaps far behind the limit. -/
structure PointsTo (fr : Frame) (al : Bool) (m : Mode) (e : EpsCopyInputStream) (ptr : Int) (lim stop : Nat) :
    Prop where
  stream : ∃ p pos, Sim fr al m e p pos lim ∧ pos ≤ stop
  ptr_eq : ptr = m.addr fr stop

section Pointers

variable {fr : Frame} {al : Bool} {m m' : Mode} {e : EpsCopyInputStream} {ptr : Int} {lim pos stop stop' : Nat}

/-- The pointer was moved. -/
theorem PointsTo.of_sim (h : Sim fr al m e ptr pos lim) (n : Nat) : PointsTo fr al m e (ptr + n) lim (pos + n) := by
  refine ⟨⟨ptr, pos, h, Nat.le_add_right _ _⟩, ?_⟩
  rw [h.ptr_eq]
  cases m <;> simp only [Mode.addr] <;> omega

/-- A pointer that is not behind the limit. -/
theorem PointsTo.sim (h : PointsTo fr al m e ptr lim stop) (hle : stop ≤ lim) : Sim fr al m e ptr stop lim := by
  obtain ⟨p, pos, hsim, hpos⟩ := h.stream
  exact { hsim with
    ptr_eq := h.ptr_eq
    lo_le := Nat.le_trans hsim.lo_le hpos
    pos_le := Nat.le_trans hle hsim.lim_le_end }

/-- `IsDone` at a pointer behind the limit, as long as the `int` that it computes is the distance to `e->end`. -/
theorem PointsTo.isDone_error (h : PointsTo fr al m e ptr lim stop) (hlt : lim < stop)
    (hfar : stop < m.endOff fr + 2 ^ 31) :
    isDone fr e ptr = some (true, { e with error := true }, none) := by
  obtain ⟨p, pos, hsim, hpos⟩ := h.stream
  have hdist : ptr - e.end_ = (stop : Int) - m.endOff fr := by
    rw [h.ptr_eq, hsim.end_eq]
    cases m <;> simp only [Mode.addr] <;> omega
  have hlim := hsim.lim_le_end
  have hlimit := hsim.limit_eq
  have hlimitPtr := hsim.limitPtr_eq
  have hsize := hsim.size_le
  have hend : m.endOff fr ≤ fr.size := by cases m <;> simp only [Mode.endOff] <;> omega
  have hexact : toInt32 (ptr - e.end_) = (stop : Int) - m.endOff fr := by
    rw [hdist]
    refine toInt32_eq ?_ (by omega)
    unfold int32Max at hsize
    omega
  have hnot : ¬ptr < e.limitPtr := by omega
  have hne : toInt32 (ptr - e.end_) ≠ e.limit := by omega
  have hge : ¬toInt32 (ptr - e.end_) < e.limit := by omega
  simp only [isDone, isDoneStatus, isDoneFallback, if_neg hnot, if_neg hne, if_neg hge]
  rfl

/-- A stream is in one mode. -/
theorem mode_unique {p p' : Int} {pos' : Nat} (h : Sim fr al m e p pos lim) (h' : Sim fr al m' e p' pos' lim) :
    m = m' := by
  have hends : (Mode.caller).addr fr (Mode.endOff fr .caller) = (Mode.patch).addr fr (Mode.endOff fr .patch) →
      ¬slopBytes < fr.size := by
    intro heq hl
    have hap := fr.apart
    simp only [Mode.addr, Mode.endOff, Frame.patchLo, slopBytes, Frame.size] at *
    omega
  have heq := h.end_eq.symm.trans h'.end_eq
  cases m <;> cases m'
  · rfl
  · exact absurd (h.large rfl) (hends heq)
  · exact absurd (h'.large rfl) (hends heq.symm)
  · rfl

theorem PointsTo.unique (h : PointsTo fr al m e ptr lim stop) (h' : PointsTo fr al m' e ptr lim stop') :
    stop = stop' := by
  obtain ⟨p, pos, hsim, -⟩ := h.stream
  obtain ⟨p', pos', hsim', -⟩ := h'.stream
  obtain rfl := mode_unique hsim hsim'
  have heq := h.ptr_eq.symm.trans h'.ptr_eq
  cases m <;> simp only [Mode.addr] at heq <;> omega

end Pointers

/-! ### What the functions accept -/

/-- The groups that `_hpb_WireReader_SkipValue` admits inside one another; `none` is no bound. -/
def skipLevels (depthLimit : Int) : Option Nat := if 0 < depthLimit then some (depthLimit.toNat - 1) else none

/-- The loop of `_hpb_WireReader_SkipGroup` ends at `stop`: behind an end tag that begins before the limit, or at
the limit, between two records of this group or of one inside it. -/
def Closes (buf : List UInt8) (levels : Option Nat) (number pos lim stop : Nat) : Prop :=
  (∃ mid < lim, FieldsIn buf levels pos mid ∧ TagAt buf mid stop number .endGroup) ∨
    stop = lim ∧ OpenAt buf levels pos lim

/-- `_hpb_WireReader_SkipValue` takes the bytes from `pos` to `stop` for a value. -/
def Taken (buf : List UInt8) (levels : Option Nat) (number : Nat) (w : WireType) (pos lim stop : Nat) : Prop :=
  match w with
  | .startGroup => levels ≠ some 0 ∧ Closes buf (fewer levels) number pos lim stop
  | .delimited => ∃ start size, VarintAt buf 10 pos start size ∧ size < int32Max ∧ stop = start + size
  | w => ValueIn buf levels number w pos stop

section Grammar

variable {buf : List UInt8} {levels : Option Nat} {number number' pos start lim stop stop' : Nat} {w : WireType}

theorem skipLevels_eq_zero {d : Int} : skipLevels d = some 0 ↔ d - 1 = 0 := by
  rw [skipLevels]
  split
  · rw [Option.some.injEq]
    omega
  · refine iff_of_false (by simp) (by omega)

theorem fewer_skipLevels {d : Int} (hd : d - 1 ≠ 0) : fewer (skipLevels d) = skipLevels (d - 1) := by
  rw [skipLevels, skipLevels]
  split
  · rw [if_pos (by omega), fewer, Option.map_some, Option.some.injEq]
    omega
  · rw [if_neg (by omega)]
    rfl

/-- A value that is not behind the limit is taken. -/
theorem Taken.of_value (h : ValueIn buf levels number w pos stop) (hle : stop ≤ lim) (hlim : lim ≤ int32Max) :
    Taken buf levels number w pos lim stop := by
  cases h with
  | varint h => exact .varint h
  | fixed32 => exact .fixed32 _ _ _
  | fixed64 => exact .fixed64 _ _ _
  | delimited h =>
    have hlt := h.lt
    exact ⟨_, _, h, by omega, rfl⟩
  | group hlevels hfields hend =>
    have hlt := hend.lt
    exact ⟨hlevels, .inl ⟨_, by omega, hfields, hend⟩⟩

/-- What is taken is a value, or a group that is still open at the limit. -/
theorem Taken.cases (h : Taken buf levels number w pos lim stop) :
    ValueIn buf levels number w pos stop ∨
      w = .startGroup ∧ levels ≠ some 0 ∧ stop = lim ∧ OpenAt buf (fewer levels) pos lim := by
  cases w with
  | startGroup =>
    obtain ⟨hlevels, ⟨mid, -, hfields, hend⟩ | ⟨hstop, hopen⟩⟩ := h
    · exact .inl (.group hlevels hfields hend)
    · exact .inr ⟨rfl, hlevels, hstop, hopen⟩
  | delimited =>
    obtain ⟨start, size, hat, -, rfl⟩ := h
    exact .inl (.delimited hat)
  | varint => exact .inl h
  | fixed32 => exact .inl h
  | fixed64 => exact .inl h
  | endGroup => exact .inl h

/-- A group that is closed before the limit is not open at the limit. -/
theorem not_open_of_closes {mid : Nat} {levels' : Option Nat} (hmid : mid < lim) (hfields : FieldsIn buf levels pos mid)
    (hend : TagAt buf mid stop number .endGroup) : ¬OpenAt buf levels' pos lim := fun hopen =>
  absurd (hfields.open_le hend hopen) (by omega)

theorem Closes.unique (h : Closes buf levels number pos lim stop) (h' : Closes buf levels number pos lim stop') :
    stop = stop' := by
  obtain ⟨mid, hmid, hfields, hend⟩ | ⟨rfl, hopen⟩ := h
  · obtain ⟨mid', hmid', hfields', hend'⟩ | ⟨rfl, hopen'⟩ := h'
    · obtain rfl := hfields.fieldsAt.unique_group hend hfields'.fieldsAt hend'
      exact (hend.unique hend').1
    · exact absurd hopen' (not_open_of_closes hmid hfields hend)
  · obtain ⟨mid', hmid', hfields', hend'⟩ | ⟨rfl, -⟩ := h'
    · exact absurd hopen (not_open_of_closes hmid' hfields' hend')
    · rfl

theorem Taken.unique (h : Taken buf levels number w pos lim stop) (h' : Taken buf levels number w pos lim stop') :
    stop = stop' := by
  cases w with
  | startGroup => exact h.2.unique h'.2
  | delimited =>
    obtain ⟨start, size, hat, -, rfl⟩ := h
    obtain ⟨start', size', hat', -, rfl⟩ := h'
    obtain ⟨rfl, rfl⟩ := hat.unique hat'
    rfl
  | varint => exact ValueIn.unique h h'
  | fixed32 => exact ValueIn.unique h h'
  | fixed64 => exact ValueIn.unique h h'
  | endGroup => exact ValueIn.unique h h'

/-- One record more, before what the loop skips. -/
theorem Closes.cons (htag : TagAt buf pos start number' w) (htaken : Taken buf levels number' w start lim stop')
    (h : Closes buf levels number stop' lim stop) : Closes buf levels number pos lim stop := by
  obtain hvalue | ⟨rfl, hlevels, rfl, hopen⟩ := htaken.cases
  · obtain ⟨mid, hmid, hfields, hend⟩ | ⟨rfl, hopen⟩ := h
    · exact .inl ⟨mid, hmid, .cons htag hvalue hfields, hend⟩
    · exact .inr ⟨rfl, hopen.cons htag hvalue⟩
  · obtain ⟨mid, hmid, hfields, -⟩ | ⟨rfl, -⟩ := h
    · exact absurd hfields.le (by omega)
    · exact .inr ⟨rfl, .inside (.nil _ _) htag hlevels hopen⟩

/-- The first record of what the loop skips. -/
theorem Closes.uncons (h : Closes buf levels number pos lim stop) (hlt : pos < lim) (hlim : lim ≤ int32Max)
    (htag : TagAt buf pos start number' w) :
    (w = .endGroup ∧ number' = number ∧ stop = start) ∨
      ∃ stop', Taken buf levels number' w start lim stop' ∧ Closes buf levels number stop' lim stop := by
  obtain ⟨mid, hmid, hfields, hend⟩ | ⟨rfl, hopen⟩ := h
  · cases hfields with
    | nil =>
      obtain ⟨rfl, rfl, rfl⟩ := hend.unique htag
      exact .inl ⟨rfl, rfl, rfl⟩
    | cons htag' hvalue hfields =>
      obtain ⟨rfl, rfl, rfl⟩ := htag'.unique htag
      have hle := hfields.le
      exact .inr ⟨_, Taken.of_value hvalue (by omega) hlim, .inl ⟨mid, hmid, hfields, hend⟩⟩
  · obtain heq | ⟨rfl, hlevels, hopen⟩ | ⟨mid, hvalue, hopen⟩ := hopen.cases_tag htag
    · omega
    · exact .inr ⟨stop, ⟨hlevels, .inr ⟨rfl, hopen⟩⟩, .inr ⟨rfl, .here (.nil _ _)⟩⟩
    · exact .inr ⟨mid, Taken.of_value hvalue hopen.le hlim, .inr ⟨rfl, hopen⟩⟩

/-- Where the loop skips something, a tag begins. -/
theorem Closes.exists_tag (h : Closes buf levels number pos lim stop) (hlt : pos < lim) :
    ∃ start number' w, TagAt buf pos start number' w := by
  have hfirst : ∀ {mid}, FieldsIn buf levels pos mid → pos = mid ∨ ∃ start number' w, TagAt buf pos start number' w := by
    intro mid hfields
    cases hfields with
    | nil => exact .inl rfl
    | cons htag _ _ => exact .inr ⟨_, _, _, htag⟩
  obtain ⟨mid, hmid, hfields, hend⟩ | ⟨rfl, hopen⟩ := h
  · obtain rfl | htag := hfirst hfields
    · exact ⟨_, _, _, hend⟩
    · exact htag
  · cases hopen with
    | here h => exact (hfirst h).resolve_left (Nat.ne_of_lt hlt)
    | inside h htag _ _ =>
      obtain rfl | htag' := hfirst h
      · exact ⟨_, _, _, htag⟩
      · exact htag'

theorem Taken.le (h : Taken buf levels number w pos lim stop) : pos ≤ stop := by
  obtain hvalue | ⟨-, -, rfl, hopen⟩ := h.cases
  · exact hvalue.le
  · exact hopen.le

theorem Closes.le (h : Closes buf levels number pos lim stop) : pos ≤ lim := by
  obtain ⟨mid, hmid, hfields, -⟩ | ⟨-, hopen⟩ := h
  · exact Nat.le_trans hfields.le (Nat.le_of_lt hmid)
  · exact hopen.le

end Grammar

/-! ### What the functions do -/

/-- Where `e->end` is while a record that begins at an offset is read. -/
def endAt (fr : Frame) (rec : Nat) : Nat := if rec < fr.size - slopBytes then fr.size - slopBytes else fr.size

/-- In a group whose records begin at `pos`, a length reaches so far behind `e->end` that `IsDone` computes another
`int`. -/
def Overruns (fr : Frame) (levels : Option Nat) (pos lim : Nat) : Prop :=
  ∃ rec start number body size, OpenAt fr.buf levels pos rec ∧ rec < lim ∧ TagAt fr.buf rec start number .delimited ∧
    VarintAt fr.buf 10 start body size ∧ size < int32Max ∧ endAt fr rec + 2 ^ 31 ≤ body + size

/-- The result of a function that takes the bytes up to an offset that `accept` names. -/
def Outcome (fr : Frame) (al : Bool) (m : Mode) (lim : Nat) (accept : Nat → Prop) :
    EpsCopyInputStream × Option Int → Prop
  | (_, none) => ∀ stop, ¬accept stop
  | (e, some ptr) => ∃ m' stop, accept stop ∧ PointsTo fr al m' e ptr lim stop ∧ m.endOff fr ≤ m'.endOff fr

section Runs

variable {fr : Frame} {al : Bool} {m : Mode} {e : EpsCopyInputStream} {ptr d : Int} {lim pos number fuel : Nat}
  {levels : Option Nat} {w : WireType}

theorem tag_mod (number : Nat) (w : WireType) : (number * 8 + w.bits.toNat) % 8 = w.bits.toNat := by
  cases w <;> exact (Nat.mul_add_mod_self_right _ _ _).trans rfl

theorem endAt_eq (h : Sim fr al m e ptr pos lim) (hlt : pos < m.endOff fr) : endAt fr pos = m.endOff fr := by
  have hlo := h.lo_le
  cases m with
  | caller => exact if_pos hlt
  | patch => exact if_neg (Nat.not_lt.mpr hlo)

theorem Overruns.cons {start number' stop : Nat} (htag : TagAt fr.buf pos start number' w)
    (hvalue : ValueIn fr.buf levels number' w start stop) (h : Overruns fr levels stop lim) :
    Overruns fr levels pos lim := by
  obtain ⟨rec, at_, n, body, size, hopen, hrest⟩ := h
  exact ⟨rec, at_, n, body, size, hopen.cons htag hvalue, hrest⟩

theorem Overruns.of_taken {start number' stop : Nat} (htag : TagAt fr.buf pos start number' w)
    (htaken : Taken fr.buf levels number' w start lim stop) (h : Overruns fr levels stop lim) :
    Overruns fr levels pos lim := by
  obtain hvalue | ⟨-, -, rfl, -⟩ := htaken.cases
  · exact h.cons htag hvalue
  · obtain ⟨rec, -, -, -, -, hopen, hrec, -⟩ := h
    exact absurd hopen.le (Nat.not_le.mpr hrec)

theorem Overruns.inside {start number' : Nat} (htag : TagAt fr.buf pos start number' .startGroup)
    (hlevels : levels ≠ some 0) (h : Overruns fr (fewer levels) start lim) : Overruns fr levels pos lim := by
  obtain ⟨rec, at_, n, body, size, hopen, hrest⟩ := h
  exact ⟨rec, at_, n, body, size, .inside (.nil _ _) htag hlevels hopen, hrest⟩

/-- **`_hpb_WireReader_SkipValue`** for a value that is no group. -/
theorem plain_run (hw : w ≠ .startGroup) (h : Sim fr al m e ptr pos lim) (hten : pos + 10 ≤ m.endOff fr + slopBytes)
    (fuel number : Nat) (d : Int) :
    ∃ r, skipValue fr (fuel + 1) d (number * 8 + w.bits.toNat) e ptr = some (e, r) ∧
      Outcome fr al m lim (Taken fr.buf (skipLevels d) number w pos lim) (e, r) := by
  obtain ⟨mem, hmem, hreads⟩ := bytesAt_run h hten
  rw [skipValue, tag_mod]
  cases w with
  | startGroup => exact absurd rfl hw
  | endGroup => exact ⟨none, rfl, fun stop hvalue => ValueIn.ne_endGroup hvalue rfl⟩
  | fixed32 => exact ⟨_, rfl, m, pos + 4, .fixed32 _ _ _, .of_sim h 4, Nat.le_refl _⟩
  | fixed64 => exact ⟨_, rfl, m, pos + 8, .fixed64 _ _ _, .of_sim h 8, Nat.le_refl _⟩
  | varint =>
    refine ⟨_, by dsimp only [WireType.bits]; rw [hmem]; rfl, ?_⟩
    cases hr : readVarint mem with
    | none =>
      intro stop hvalue
      cases hvalue with
      | varint hat => exact hreads.varint_none hr hat
    | some r => exact ⟨m, pos + r.1, .varint (hreads.varint_some hr), .of_sim h r.1, Nat.le_refl _⟩
  | delimited =>
    refine ⟨_, by dsimp only [WireType.bits]; rw [hmem]; rfl, ?_⟩
    cases hr : UnknownField.readSize mem with
    | none =>
      rintro stop ⟨start, size, hat, hsize, -⟩
      exact absurd (hreads.size_none hr hat) (Nat.not_le.mpr hsize)
    | some r =>
      obtain ⟨hat, hsize⟩ := hreads.size_some hr
      refine ⟨m, pos + r.1 + r.2, ⟨_, _, hat, hsize, rfl⟩, ?_, Nat.le_refl _⟩
      have hpoints := PointsTo.of_sim h (r.1 + r.2)
      rw [Nat.add_assoc]
      rwa [Nat.cast_add, ← Int.add_assoc] at hpoints

/-- The loop of `_hpb_WireReader_SkipGroup` does what it should in fewer than `n` bytes. -/
def LoopRuns (fr : Frame) (al : Bool) (lim n : Nat) : Prop :=
  ∀ (m : Mode) (e : EpsCopyInputStream) (ptr d : Int) (pos number fuel : Nat), lim - pos < n → 3 * n ≤ fuel →
    PointsTo fr al m e ptr lim pos → pos < m.endOff fr + 2 ^ 31 → ¬Overruns fr (skipLevels d) pos lim →
    number * 8 + 4 < 2 ^ 32 →
    ∃ r, skipRecords fr fuel d (number * 8 + 4) e ptr = some r ∧
      Outcome fr al m lim (Closes fr.buf (skipLevels d) number pos lim) r

/-- **`_hpb_WireReader_SkipValue`**, if the loop does what it should. -/
theorem value_run {n : Nat} (hloop : LoopRuns fr al lim n) (h : Sim fr al m e ptr pos lim)
    (hten : pos + 10 ≤ m.endOff fr + slopBytes) (hn : lim - pos < n) (hfuel : 3 * n + 2 ≤ fuel)
    (hover : w = .startGroup → skipLevels d ≠ some 0 → ¬Overruns fr (fewer (skipLevels d)) pos lim)
    (hnumber : number * 8 + 4 < 2 ^ 32) :
    ∃ r, skipValue fr fuel d (number * 8 + w.bits.toNat) e ptr = some r ∧
      Outcome fr al m lim (Taken fr.buf (skipLevels d) number w pos lim) r := by
  obtain ⟨fuel, rfl⟩ : ∃ k, fuel = k + 2 := ⟨fuel - 2, by omega⟩
  by_cases hw : w = .startGroup
  · subst hw
    have hend : (number * 8 + WireType.startGroup.bits.toNat) / 8 * 8 + 4 = number * 8 + 4 := by
      have hbits : WireType.startGroup.bits.toNat = 3 := rfl
      omega
    rw [skipValue, tag_mod]
    change ∃ r, skipGroup fr (fuel + 1) d _ e ptr = some r ∧ _
    rw [skipGroup, hend]
    by_cases hd : d - 1 = 0
    · rw [if_pos hd]
      exact ⟨_, rfl, fun stop htaken => htaken.1 (skipLevels_eq_zero.mpr hd)⟩
    · rw [if_neg hd]
      have hlevels := mt skipLevels_eq_zero.mp hd
      have hpoints : PointsTo fr al m e ptr lim pos := ⟨⟨ptr, pos, h, Nat.le_refl _⟩, h.ptr_eq⟩
      have hfewer := fewer_skipLevels hd
      obtain ⟨r, hr, hout⟩ := hloop m e ptr (d - 1) pos number fuel hn (by omega) hpoints
        (by have := h.pos_le; unfold slopBytes at this; omega) (hfewer ▸ hover rfl hlevels) hnumber
      refine ⟨r, hr, ?_⟩
      rw [← hfewer] at hout
      obtain ⟨e', _ | p⟩ := r
      · exact fun stop htaken => hout stop htaken.2
      · obtain ⟨m', stop, hcloses, hrest⟩ := hout
        exact ⟨m', stop, ⟨hlevels, hcloses⟩, hrest⟩
  · obtain ⟨r, hr, hout⟩ := plain_run hw h hten (fuel + 1) number d
    exact ⟨_, hr, hout⟩

/-- What is taken in a group ends where `IsDone` computes the distance to `e->end`. -/
theorem Taken.lt_far {m' : Mode} {start number' stop : Nat} (hpos : pos < m.endOff fr) (hlim : lim ≤ m.endOff fr + slopBytes)
    (hend : endAt fr pos = m.endOff fr) (hlt : pos < lim) (htag : TagAt fr.buf pos start number' w)
    (htaken : Taken fr.buf levels number' w start lim stop) (hover : ¬Overruns fr levels pos lim)
    (hm : m.endOff fr ≤ m'.endOff fr) : stop < m'.endOff fr + 2 ^ 31 := by
  have hstart : start ≤ pos + 5 := by
    obtain ⟨⟨k, hk, -, rfl, -⟩, -⟩ := htag
    omega
  cases w with
  | startGroup =>
    have h16 : slopBytes = 16 := rfl
    obtain ⟨-, ⟨mid, hmid, -, ⟨k, hk, -, rfl, -⟩, -⟩ | ⟨rfl, -⟩⟩ := htaken
    · omega
    · omega
  | delimited =>
    obtain ⟨body, size, hat, hsize, rfl⟩ := htaken
    by_contra hfar
    exact hover ⟨pos, start, number', body, size, .here (.nil _ _), hlt, htag, hat, hsize, by omega⟩
  | varint =>
    obtain ⟨val, k, hk, -, rfl, -⟩ : ∃ val, VarintAt fr.buf 10 start stop val := by
      cases htaken with
      | varint hat => exact ⟨_, hat⟩
    omega
  | fixed32 =>
    obtain rfl : stop = start + 4 := by cases htaken; rfl
    omega
  | fixed64 =>
    obtain rfl : stop = start + 8 := by cases htaken; rfl
    omega
  | endGroup => exact absurd rfl (ValueIn.ne_endGroup htaken)

/-- The number and the wire type of a tag, if it has one. -/
theorem tag_cases (tag : Nat) : (∃ number, ∃ w : WireType, tag = number * 8 + w.bits.toNat) ∨ 6 ≤ tag % 8 := by
  have hbits : ∀ k < 6, ∃ w : WireType, w.bits.toNat = k := by
    intro k hk
    match k, hk with
    | 0, _ => exact ⟨.varint, rfl⟩
    | 1, _ => exact ⟨.fixed64, rfl⟩
    | 2, _ => exact ⟨.delimited, rfl⟩
    | 3, _ => exact ⟨.startGroup, rfl⟩
    | 4, _ => exact ⟨.endGroup, rfl⟩
    | 5, _ => exact ⟨.fixed32, rfl⟩
  obtain hlt | hge := Nat.lt_or_ge (tag % 8) 6
  · obtain ⟨w, hw⟩ := hbits _ hlt
    exact .inl ⟨tag / 8, w, by omega⟩
  · exact .inr hge

/-- A wire type that does not exist. -/
theorem skipValue_of_ge {tag : Nat} (h : 6 ≤ tag % 8) : skipValue fr (fuel + 1) d tag e ptr = some (e, none) := by
  rw [skipValue]
  obtain hmod | hmod : tag % 8 = 6 ∨ tag % 8 = 7 := by omega
  · rw [hmod]
    rfl
  · rw [hmod]
    rfl

/-- **The loop of `_hpb_WireReader_SkipGroup`**, by induction on the bytes that are left. -/
theorem records_run (hlim : lim ≤ int32Max) (n : Nat) : LoopRuns fr al lim n := by
  induction n with
  | zero => exact fun _ _ _ _ _ _ _ hn => absurd hn (Nat.not_lt_zero _)
  | succ n ih =>
    intro m e ptr d pos number fuel hn hfuel hpoints hfar hover hnumber
    obtain ⟨fuel, rfl⟩ : ∃ k, fuel = k + 1 := ⟨fuel - 1, by omega⟩
    rw [skipRecords]
    obtain hlt | hle := Nat.lt_or_ge lim pos
    · -- behind the limit
      rw [hpoints.isDone_error hlt hfar]
      exact ⟨_, rfl, fun stop hcloses => absurd hcloses.le (Nat.not_le.mpr hlt)⟩
    have hsim := hpoints.sim hle
    obtain ⟨hlt, m', e', ptr', hdone, hsim', hend, hmode⟩ | ⟨rfl, hdone⟩ | ⟨hlt, -⟩ := hsim.isDone_run
    · have hm : m.endOff fr ≤ m'.endOff fr := by
        obtain ⟨rfl, -⟩ | ⟨rfl, rfl, -⟩ := hmode
        · exact Nat.le_refl _
        · exact Nat.sub_le _ _
      have h16 : slopBytes = 16 := rfl
      obtain ⟨mem, hmem, hreads⟩ := bytesAt_run hsim' (by omega)
      rw [hdone]
      dsimp only [Option.bind_eq_bind, Option.bind_some]
      rw [hmem]
      dsimp only [Option.bind_some]
      cases hr : UnknownField.readTag mem with
      | none =>
        -- no tag
        refine ⟨_, rfl, fun stop hcloses => ?_⟩
        obtain ⟨start, number', w, htag⟩ := hcloses.exists_tag hlt
        exact hreads.tag_none hr htag
      | some r =>
        obtain ⟨k, tag⟩ := r
        obtain ⟨hat, htag⟩ := hreads.tag_some hr
        have hk : k ≤ 5 := by
          obtain ⟨j, hj, -, heq, -⟩ := hat
          omega
        have hpos := hat.lt
        dsimp only
        by_cases heq : tag = number * 8 + 4
        · -- the end tag
          rw [if_pos heq]
          refine ⟨_, rfl, m', pos + k, .inl ⟨pos, hlt, .nil _ _, ?_⟩, .of_sim hsim' k, hm⟩
          rw [heq] at hat
          exact ⟨hat, hnumber⟩
        rw [if_neg heq]
        obtain ⟨number', w, htagEq⟩ | hmod := tag_cases tag
        · have htagAt : TagAt fr.buf pos (pos + k) number' w := by
            rw [htagEq] at hat htag
            exact ⟨hat, htag⟩
          have hstart := hsim'.advance (n := k) (by omega)
          have hvalue : ∃ r, skipValue fr fuel d (number' * 8 + w.bits.toNat) e' (ptr' + k) = some r ∧
              Outcome fr al m' lim (Taken fr.buf (skipLevels d) number' w (pos + k) lim) r :=
            value_run ih hstart (by omega) (by omega) (by omega)
              (fun hw hlevels ho => hover (.inside (hw ▸ htagAt) hlevels ho)) (by omega)
          obtain ⟨⟨e₁, r⟩, hrun, hout⟩ := hvalue
          rw [htagEq, hrun]
          have huncons : ∀ {stop}, Closes fr.buf (skipLevels d) number pos lim stop → ∃ stop',
              Taken fr.buf (skipLevels d) number' w (pos + k) lim stop' ∧
                Closes fr.buf (skipLevels d) number stop' lim stop := by
            intro stop hcloses
            obtain ⟨rfl, rfl, -⟩ | hrest := hcloses.uncons hlt hlim htagAt
            · exact absurd htagEq heq
            · exact hrest
          cases r with
          | none =>
            -- the value is not taken
            refine ⟨_, rfl, fun stop hcloses => ?_⟩
            obtain ⟨stop', htaken, -⟩ := huncons hcloses
            exact hout _ htaken
          | some p =>
            -- the records after it
            obtain ⟨m₁, stop₁, htaken, hpoints₁, hm₁⟩ := hout
            have hle₁ := htaken.le
            have hfar₁ := htaken.lt_far hend hsim'.lim_le_end (endAt_eq hsim' hend) hlt htagAt hover hm₁
            obtain ⟨⟨e₂, r⟩, hrun₂, hout₂⟩ := ih m₁ e₁ p d stop₁ number fuel (by omega) (by omega) hpoints₁ hfar₁
              (fun ho => hover (.of_taken htagAt htaken ho)) hnumber
            refine ⟨_, hrun₂, ?_⟩
            cases r with
            | none =>
              intro stop hcloses
              obtain ⟨stop', htaken', hcloses'⟩ := huncons hcloses
              exact hout₂ stop (htaken.unique htaken' ▸ hcloses')
            | some p₂ =>
              obtain ⟨m₂, stop₂, hcloses, hpoints₂, hm₂⟩ := hout₂
              exact ⟨m₂, stop₂, .cons htagAt htaken hcloses, hpoints₂, Nat.le_trans hm (Nat.le_trans hm₁ hm₂)⟩
        · -- a wire type that does not exist
          obtain ⟨fuel, rfl⟩ : ∃ j, fuel = j + 1 := ⟨fuel - 1, by omega⟩
          rw [skipValue_of_ge hmod]
          refine ⟨_, rfl, fun stop hcloses => ?_⟩
          obtain ⟨start, number', w, htagAt⟩ := hcloses.exists_tag hlt
          obtain ⟨-, rfl⟩ := hat.unique htagAt.1
          rw [tag_mod] at hmod
          cases w <;> exact absurd hmod (by decide)
    · -- at the limit
      rw [hdone]
      exact ⟨_, rfl, m, pos, .inr ⟨rfl, .here (.nil _ _)⟩, hpoints, Nat.le_refl _⟩
    · omega

end Runs

/-! ### The result -/

/-- The bytes from `pos` to `stop` are a well-formed value of the wire type of a tag, inside the limit and with at
most `depthLimit` groups inside one another. -/
def WellFormed (buf : List UInt8) (depthLimit : Int) (tag pos lim stop : Nat) : Prop :=
  stop ≤ lim ∧ ∃ w : WireType, tag % 8 = w.bits.toNat ∧ ValueIn buf (some depthLimit.toNat) (tag / 8) w pos stop

/-- What `_hpb_WireReader_SkipValue` promises: the pointer past a well-formed value, or `NULL` if there is none. -/
def SkipsRight (fr : Frame) (al : Bool) (depthLimit : Int) (tag : Nat) (e : EpsCopyInputStream) (ptr : Int)
    (pos lim : Nat) : Prop :=
  ∃ n, ∀ fuel ≥ n, ∃ e' r, skipValue fr fuel depthLimit tag e ptr = some (e', r) ∧
    match r with
    | none => ∀ stop, ¬WellFormed fr.buf depthLimit tag pos lim stop
    | some p => ∃ m stop, WellFormed fr.buf depthLimit tag pos lim stop ∧ Sim fr al m e' p stop lim

/-- The value ends behind the limit: it is no group, or one whose end tag begins before the limit. -/
def Overhangs (buf : List UInt8) (depthLimit : Int) (tag pos lim : Nat) : Prop :=
  ∃ w : WireType, tag % 8 = w.bits.toNat ∧ ∃ stop, lim < stop ∧
    Taken buf (skipLevels depthLimit) (tag / 8) w pos lim stop

/-- The value is a group that is still open at the limit. -/
def Unclosed (buf : List UInt8) (depthLimit : Int) (tag pos lim : Nat) : Prop :=
  tag % 8 = 3 ∧ skipLevels depthLimit ≠ some 0 ∧ OpenAt buf (fewer (skipLevels depthLimit)) pos lim

/-- The value is well formed with exactly as many groups inside one another as the depth limit says, or it is a
group and the limit is not positive. -/
def Deep (buf : List UInt8) (depthLimit : Int) (tag pos lim : Nat) : Prop :=
  ∃ w : WireType, tag % 8 = w.bits.toNat ∧ ∃ stop ≤ lim,
    if 0 < depthLimit then
      ValueIn buf (some depthLimit.toNat) (tag / 8) w pos stop ∧
        ¬ValueIn buf (some (depthLimit.toNat - 1)) (tag / 8) w pos stop
    else w = .startGroup ∧ ValueIn buf none (tag / 8) w pos stop

section Levels

variable {buf : List UInt8}

mutual

/-- A value with at most so many groups has at most one more. -/
theorem value_succ : ∀ {levels : Option Nat} {k number pos stop : Nat} {w : WireType},
    ValueIn buf levels number w pos stop → levels = some k → ValueIn buf (some (k + 1)) number w pos stop
  | _, _, _, _, _, _, .varint h, _ => .varint h
  | _, _, _, _, _, _, .fixed32 _ _ _, _ => .fixed32 _ _ _
  | _, _, _, _, _, _, .fixed64 _ _ _, _ => .fixed64 _ _ _
  | _, _, _, _, _, _, .delimited h, _ => .delimited h
  | levels, k, _, _, _, _, .group hlevels hfields hend, hk => by
    have hpos : k ≠ 0 := fun h0 => hlevels (by rw [hk, h0])
    have hfewer : fewer levels = some (k - 1) := by rw [hk]; rfl
    refine .group (by simp) ?_ hend
    have hmore := fields_succ hfields hfewer
    rwa [Nat.sub_add_cancel (Nat.pos_of_ne_zero hpos)] at hmore

theorem fields_succ : ∀ {levels : Option Nat} {k pos stop : Nat},
    FieldsIn buf levels pos stop → levels = some k → FieldsIn buf (some (k + 1)) pos stop
  | _, _, _, _, .nil _ _, _ => .nil _ _
  | _, _, _, _, .cons htag hvalue hfields, hk => .cons htag (value_succ hvalue hk) (fields_succ hfields hk)

end

/-- Only groups are bounded. -/
theorem value_of_ne_group {levels levels' : Option Nat} {number pos stop : Nat} {w : WireType}
    (hw : w ≠ .startGroup) (h : ValueIn buf levels number w pos stop) : ValueIn buf levels' number w pos stop := by
  cases h with
  | varint h => exact .varint h
  | fixed32 => exact .fixed32 _ _ _
  | fixed64 => exact .fixed64 _ _ _
  | delimited h => exact .delimited h
  | group => exact absurd rfl hw

end Levels

section Result

variable {fr : Frame} {al : Bool} {m : Mode} {e : EpsCopyInputStream} {ptr d : Int} {lim pos tag : Nat}

/-- A tag has one wire type. -/
theorem bits_inj {w w' : WireType} (h : w.bits.toNat = w'.bits.toNat) : w = w' := by
  cases w <;> cases w' <;> first | rfl | exact absurd h (by decide)

/-- What is taken at the limit or before it, but not well formed, or the other way round, has one of the faults. -/
theorem taken_iff {w : WireType} {stop : Nat} (hlim : lim ≤ int32Max) (hw : tag % 8 = w.bits.toNat)
    (hover : ¬Overhangs fr.buf d tag pos lim) (hopen : ¬Unclosed fr.buf d tag pos lim)
    (hdeep : ¬Deep fr.buf d tag pos lim) :
    Taken fr.buf (skipLevels d) (tag / 8) w pos lim stop ↔ WellFormed fr.buf d tag pos lim stop := by
  constructor
  · intro htaken
    have hle : stop ≤ lim := Nat.le_of_not_lt fun hlt => hover ⟨w, hw, stop, hlt, htaken⟩
    refine ⟨hle, w, hw, ?_⟩
    obtain hvalue | ⟨rfl, hlevels, -, hopen'⟩ := htaken.cases
    · by_cases hd : 0 < d
      · have hsucc := value_succ hvalue (k := d.toNat - 1) (if_pos hd)
        rwa [Nat.sub_add_cancel (by omega)] at hsucc
      · refine value_of_ne_group (fun hgroup => hdeep ⟨w, hw, stop, hle, ?_⟩) hvalue
        rw [if_neg hd]
        rw [skipLevels, if_neg hd] at hvalue
        exact ⟨hgroup, hvalue⟩
    · exact absurd ⟨hw, hlevels, hopen'⟩ hopen
  · rintro ⟨hle, w', hw', hvalue⟩
    obtain rfl := bits_inj (hw'.symm.trans hw)
    refine .of_value ?_ hle hlim
    rw [skipLevels]
    by_cases hd : 0 < d
    · rw [if_pos hd]
      by_contra hnot
      exact hdeep ⟨w', hw', stop, hle, by rw [if_pos hd]; exact ⟨hvalue, hnot⟩⟩
    · rw [if_neg hd]
      refine value_of_ne_group (fun hgroup => ?_) hvalue
      have hzero : d.toNat = 0 := by omega
      rw [hzero] at hvalue
      cases hvalue with
      | group hlevels => exact hlevels rfl
      | varint => cases hgroup
      | fixed32 => cases hgroup
      | fixed64 => cases hgroup
      | delimited => cases hgroup

/-- With enough fuel the function takes what `Taken` says. -/
theorem skip_run {w : WireType} (h : Sim fr al m e ptr pos lim) (hten : pos + 10 ≤ m.endOff fr + slopBytes)
    (htag : tag < 2 ^ 32) (hw : tag % 8 = w.bits.toNat)
    (hover : tag % 8 = 3 → skipLevels d ≠ some 0 → ¬Overruns fr (fewer (skipLevels d)) pos lim) :
    ∃ n, ∀ fuel ≥ n, ∃ r, skipValue fr fuel d tag e ptr = some r ∧
      Outcome fr al m lim (Taken fr.buf (skipLevels d) (tag / 8) w pos lim) r := by
  have hlim : lim ≤ int32Max := Nat.le_trans h.lim_le h.size_le
  have heq : tag / 8 * 8 + w.bits.toNat = tag := by omega
  refine ⟨3 * (lim - pos + 1) + 2, fun fuel hfuel => ?_⟩
  have hover' : w = .startGroup → skipLevels d ≠ some 0 → ¬Overruns fr (fewer (skipLevels d)) pos lim := by
    rintro rfl hlevels
    exact hover hw hlevels
  have hrun : ∃ r, skipValue fr fuel d (tag / 8 * 8 + w.bits.toNat) e ptr = some r ∧
      Outcome fr al m lim (Taken fr.buf (skipLevels d) (tag / 8) w pos lim) r :=
    value_run (records_run hlim (lim - pos + 1)) h hten (Nat.lt_succ_self _) hfuel hover' (by omega)
  rwa [heq] at hrun

/-- A group that is closed before the limit is not open at the limit. -/
theorem ValueIn.not_open {levels levels' : Option Nat} {number stop : Nat} {w : WireType} {buf : List UInt8}
    (h : ValueIn buf levels number w pos stop) (hw : w = .startGroup) (hle : stop ≤ lim) :
    ¬OpenAt buf levels' pos lim := fun hopen =>
  absurd (h.open_lt hw hopen) (Nat.not_lt.mpr hle)

/-- **`_hpb_WireReader_SkipValue`** on a stream keeps its promise if and only if the value has none of the three
faults. -/
theorem skipsRight_iff (h : Sim fr al m e ptr pos lim) (hten : pos + 10 ≤ m.endOff fr + slopBytes)
    (htag : tag < 2 ^ 32)
    (hover : tag % 8 = 3 → skipLevels d ≠ some 0 → ¬Overruns fr (fewer (skipLevels d)) pos lim) :
    SkipsRight fr al d tag e ptr pos lim ↔
      ¬Overhangs fr.buf d tag pos lim ∧ ¬Unclosed fr.buf d tag pos lim ∧ ¬Deep fr.buf d tag pos lim := by
  have hlim : lim ≤ int32Max := Nat.le_trans h.lim_le h.size_le
  obtain ⟨number, w, htagEq⟩ | hnone := tag_cases tag
  · have hw : tag % 8 = w.bits.toNat := by rw [htagEq, tag_mod]
    obtain ⟨n, hrun⟩ := skip_run h hten htag hw hover
    constructor
    · rintro ⟨n', hright⟩
      obtain ⟨⟨e', r⟩, hr, hout⟩ := hrun (max n n') (Nat.le_max_left _ _)
      obtain ⟨e'', r', hr', hr''⟩ := hright (max n n') (Nat.le_max_right _ _)
      rw [hr] at hr'
      cases hr'
      -- what is taken is well formed, and the other way round
      have htaken : ∀ stop, Taken fr.buf (skipLevels d) (tag / 8) w pos lim stop →
          WellFormed fr.buf d tag pos lim stop := by
        intro stop htaken
        cases r with
        | none => exact absurd htaken (hout stop)
        | some p =>
          obtain ⟨m₁, stop₁, htaken₁, hpoints, -⟩ := hout
          obtain ⟨m₂, stop₂, hwell, hsim⟩ := hr''
          have hpoints₂ : PointsTo fr al m₂ e' p lim stop₂ := ⟨⟨p, stop₂, hsim, Nat.le_refl _⟩, hsim.ptr_eq⟩
          rwa [htaken.unique htaken₁, hpoints.unique hpoints₂]
      have hwell : ∀ stop, WellFormed fr.buf d tag pos lim stop →
          Taken fr.buf (skipLevels d) (tag / 8) w pos lim stop := by
        intro stop hwell
        cases r with
        | none => exact absurd hwell (hr'' stop)
        | some p =>
          obtain ⟨m₁, stop₁, htaken₁, -⟩ := hout
          obtain ⟨-, w', hw', hvalue⟩ := htaken _ htaken₁
          obtain ⟨-, w'', hw'', hvalue'⟩ := hwell
          obtain rfl := bits_inj (hw'.symm.trans hw)
          obtain rfl := bits_inj (hw''.symm.trans hw')
          rwa [hvalue'.unique hvalue]
      refine ⟨?_, ?_, ?_⟩
      · rintro ⟨w', hw', stop, hlt, htaken'⟩
        obtain rfl := bits_inj (hw'.symm.trans hw)
        exact absurd (htaken _ htaken').1 (Nat.not_le.mpr hlt)
      · rintro ⟨h3, hlevels, hopen⟩
        have hbits : WireType.startGroup.bits.toNat = 3 := rfl
        obtain rfl := bits_inj (hw.symm.trans (h3.trans hbits.symm))
        obtain ⟨hle, w', hw', hvalue⟩ := htaken lim ⟨hlevels, .inr ⟨rfl, hopen⟩⟩
        exact ValueIn.not_open hvalue (bits_inj (hw'.symm.trans hw)) hle hopen
      · rintro ⟨w', hw', stop, hle, hfault⟩
        obtain rfl := bits_inj (hw'.symm.trans hw)
        split at hfault
        next hd =>
          obtain hvalue | ⟨hgroup, -, rfl, hopen⟩ := (hwell stop ⟨hle, w', hw', hfault.1⟩).cases
          · rw [skipLevels, if_pos hd] at hvalue
            exact hfault.2 hvalue
          · exact ValueIn.not_open hfault.1 hgroup (Nat.le_refl _) hopen
        next hd =>
          obtain ⟨hgroup, hvalue⟩ := hfault
          have hlevels : skipLevels d = none := if_neg hd
          have hzero : d.toNat = 0 := by omega
          obtain ⟨-, w'', hw'', hvalue'⟩ := htaken stop (.of_value (hlevels ▸ hvalue) hle hlim)
          obtain rfl := bits_inj (hw''.symm.trans hw')
          subst hgroup
          rw [hzero] at hvalue'
          cases hvalue' with
          | group hlevels' => exact hlevels' rfl
    · rintro ⟨hhang, hopen, hdeep⟩
      have hiff : ∀ stop, Taken fr.buf (skipLevels d) (tag / 8) w pos lim stop ↔ WellFormed fr.buf d tag pos lim stop :=
        fun stop => taken_iff hlim hw hhang hopen hdeep
      refine ⟨n, fun fuel hfuel => ?_⟩
      obtain ⟨⟨e', r⟩, hr, hout⟩ := hrun fuel hfuel
      refine ⟨e', r, hr, ?_⟩
      cases r with
      | none => exact fun stop hwell => hout stop ((hiff stop).mpr hwell)
      | some p =>
        obtain ⟨m₁, stop, htaken, hpoints, -⟩ := hout
        have hwell := (hiff stop).mp htaken
        exact ⟨m₁, stop, hwell, hpoints.sim hwell.1⟩
  · -- a wire type that does not exist
    have hw : ∀ w : WireType, tag % 8 ≠ w.bits.toNat := by
      intro w hw
      rw [hw] at hnone
      cases w <;> exact absurd hnone (by decide)
    refine iff_of_true ⟨1, fun fuel hfuel => ?_⟩ ⟨?_, ?_, ?_⟩
    · obtain ⟨fuel, rfl⟩ : ∃ k, fuel = k + 1 := ⟨fuel - 1, by omega⟩
      refine ⟨e, none, skipValue_of_ge hnone, ?_⟩
      rintro stop ⟨-, w, hw', -⟩
      exact hw w hw'
    · rintro ⟨w, hw', -⟩
      exact hw w hw'
    · rintro ⟨h3, -⟩
      omega
    · rintro ⟨w, hw', -⟩
      exact hw w hw'

end Result

end WireReader

/-- **Skipping a value of any stream**: with ten bytes at the pointer, as the source requires, and no length that
reaches 2 GiB behind the end of the stream, `_hpb_WireReader_SkipValue` does what it should if and only if the value
does not end behind the limit, is no group that is open there, and does not nest exactly as deep as the argument
says. -/
theorem skipValue_iff {fr : Frame} {al : Bool} {s : Stream} {f : Flat} {d : Int} {tag : Nat} (hsz : fr.size ≤ int32Max)
    (hat : StreamAt fr al s f) (hten : s.ptr + 10 ≤ s.e.end_ + slopBytes) (htag : tag < 2 ^ 32)
    (hover : tag % 8 = 3 → WireReader.skipLevels d ≠ some 0 →
      ¬WireReader.Overruns fr (fewer (WireReader.skipLevels d)) f.pos (f.limit fr)) :
    WireReader.SkipsRight fr al d tag s.e s.ptr f.pos (f.limit fr) ↔
      ¬WireReader.Overhangs fr.buf d tag f.pos (f.limit fr) ∧ ¬WireReader.Unclosed fr.buf d tag f.pos (f.limit fr) ∧
        ¬WireReader.Deep fr.buf d tag f.pos (f.limit fr) := by
  obtain ⟨m, c, hstands⟩ := hat.stands hsz
  have hdist := hstands.sim.overrun_eq
  exact WireReader.skipsRight_iff hstands.sim (by omega) htag hover

theorem varintFrame_apart : (4096 + ([8, 5] : List UInt8).length ≤ 8192 ∧ 4096 < 8192) ∨ 8192 + 2 * slopBytes ≤ 4096 := by decide

theorem varintFrame_base_end : 4096 + ([8, 5] : List UInt8).length < 2 ^ 64 := by decide

theorem varintFrame_patch_end : 8192 + 2 * slopBytes < 2 ^ 64 := by decide

/-- A field 1 with the value 5. -/
def varintFrame : Frame where
  base := 4096
  buf := [8, 5]
  patch := 8192
  base_end := varintFrame_base_end
  patch_end := varintFrame_patch_end
  apart := varintFrame_apart

/-- The start of a group, and nothing else. -/
def openGroupFrame : Frame := { varintFrame with buf := [11], base_end := by decide, apart := by decide }

/-- The stream of a small buffer behind a tag of one byte. -/
def behindTag (fr : Frame) : Stream := { Stream.init fr true with ptr := fr.patch + 1 }

theorem varintFrame_behindTag : StreamAt varintFrame true (behindTag varintFrame) ⟨1, []⟩ :=
  ⟨[.isDone, .read 1], _, rfl, rfl, by decide⟩

theorem openGroupFrame_behindTag : StreamAt openGroupFrame true (behindTag openGroupFrame) ⟨1, []⟩ :=
  ⟨[.isDone, .read 1], _, rfl, rfl, by decide⟩

/-- The value of a field that is no group. -/
theorem skipValue_iff_varint :
    WireReader.SkipsRight varintFrame true 100 8 (behindTag varintFrame).e (behindTag varintFrame).ptr 1 2 := by
  have hat : VarintAt varintFrame.buf 10 1 2 5 := ⟨0, by decide, ⟨nofun, by decide⟩, rfl, rfl⟩
  have hw : ∀ w : WireType, 8 % 8 = w.bits.toNat → w = .varint := fun w hw => WireReader.bits_inj (hw.symm.trans rfl)
  refine (skipValue_iff (by decide) varintFrame_behindTag (by decide) (by decide) fun h => absurd h (by decide)).mpr
    ⟨?_, fun h => absurd h.1 (by decide), ?_⟩
  · rintro ⟨w, hbits, stop, hlt, htaken⟩
    obtain rfl := hw w hbits
    cases htaken with
    | varint hat' =>
      obtain ⟨rfl, -⟩ := hat.unique hat'
      exact absurd hlt (by decide)
  · rintro ⟨w, hbits, stop, -, hvalue, hnot⟩
    obtain rfl := hw w hbits
    exact hnot (WireReader.value_of_ne_group (by decide) hvalue)

/-- **A group without an end tag is skipped** when the stream ends where the tag would have to be. -/
theorem not_skipValue_openGroup :
    StreamAt openGroupFrame true (behindTag openGroupFrame) ⟨1, []⟩ ∧
      WireReader.skipValue openGroupFrame 3 100 11 (behindTag openGroupFrame).e (behindTag openGroupFrame).ptr =
        some ((behindTag openGroupFrame).e, some (behindTag openGroupFrame).ptr) ∧
      ¬WireReader.SkipsRight openGroupFrame true 100 11 (behindTag openGroupFrame).e (behindTag openGroupFrame).ptr 1 1 := by
  refine ⟨openGroupFrame_behindTag, rfl, fun hright => ?_⟩
  obtain ⟨m, c, hstands⟩ := openGroupFrame_behindTag.stands (by decide)
  have hdist := hstands.sim.overrun_eq
  have hten : (behindTag openGroupFrame).ptr + 10 ≤ (behindTag openGroupFrame).e.end_ + slopBytes := by decide
  have hover : ¬WireReader.Overruns openGroupFrame (fewer (WireReader.skipLevels 100)) 1 1 := by
    rintro ⟨rec, -, -, -, -, hopen, hrec, -⟩
    exact absurd hopen.le (Nat.not_le.mpr hrec)
  have hfaults := (WireReader.skipsRight_iff hstands.sim (by dsimp only at hdist ⊢; omega) (by decide)
    fun _ _ => hover).mp hright
  exact hfaults.2.1 ⟨by decide, by decide, .here (.nil _ _)⟩

end Hpb
