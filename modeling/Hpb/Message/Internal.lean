import Hpb.Hash.Table
import Hpb.Lib.Block
import Hpb.Lib.Listing

/-!
# Unknown fields and extensions in one block (`hpb/message/message.c`, `internal/message.h`)

The internal data of a message is a block of bytes. Unknown fields grow up from its header to
`unknownEnd`, the records of extensions grow down from its end to `extBegin`, and when they meet the block
is reallocated and the records are moved to its new end.

Offsets are from the start of the block. Its first bytes are the header, whose three `uint32_t` are fields
here. A record is the pointer to an extension's table, of `w` bytes, and `2 * w` bytes of data. What is in
new memory is not known (`junk`). Allocation does not fail.

* `Contents`: what the block is for, the unknown bytes and the data of each extension.
* `Run`: the operations on one message, one after the other.
* `run_contents`: after every run the block holds its contents and its two halves do not overlap.
-/

namespace Hpb

/-- `overhead`, the size of the header. -/
def overhead : Nat := 12

/-- `sizeof(hpb_Message_Extension)`, for pointers of `w` bytes. -/
def extensionSize (w : Nat) : Nat := 3 * w

/-- `hpb_Log2CeilingSize`. -/
def log2CeilingSize (x : Nat) : Nat := 2 ^ log2Ceiling x

/-- `hpb_Message_InternalData`. -/
structure InternalData where
  size : Nat
  unknownEnd : Nat
  extBegin : Nat
  bytes : List UInt8
  deriving DecidableEq, Repr

namespace InternalData

variable (w : Nat)

/-- The bytes of new memory. -/
def fresh (junk : Nat → UInt8) (n : Nat) : List UInt8 := (List.range n).map junk

/-- `ext_begin - unknown_end < need`, in `uint32_t`. -/
def tooSmall (need : Nat) (d : InternalData) : Prop := (d.extBegin + 2 ^ 32 - d.unknownEnd) % 2 ^ 32 < need
  deriving Decidable

/-- The size of the block after `realloc_internal`. -/
def sizeFor (need : Nat) : Option InternalData → Nat
  | none => max 128 (log2CeilingSize (need + overhead))
  | some d => if tooSmall need d then log2CeilingSize (d.size + need) else d.size

/-- `realloc_internal`. -/
def reallocInternal (mem : Option (Nat → UInt8)) (need : Nat) : Option InternalData → Option InternalData
  | none => mem.map fun junk =>
    let size := sizeFor need none
    ⟨size % 2 ^ 32, overhead, size % 2 ^ 32, fresh junk size⟩
  | some d =>
    if tooSmall need d then mem.map fun junk =>
      let newSize := sizeFor need (some d)
      let extBytes := d.size - d.extBegin
      let newExtBegin := newSize - extBytes
      let bytes := d.bytes ++ fresh junk (newSize - d.size)
      -- the extension data moves to the end
      let bytes := if extBytes = 0 then bytes
        else overwrite bytes newExtBegin (readAt bytes d.extBegin extBytes)
      ⟨newSize % 2 ^ 32, d.unknownEnd, newExtBegin % 2 ^ 32, bytes⟩
    else some d

/-- `_hpb_Message_AddUnknown`. -/
def addUnknown (mem : Option (Nat → UInt8)) (data : List UInt8) (d : Option InternalData) :
    Bool × Option InternalData :=
  match reallocInternal mem data.length d with
  | none => (false, d)
  | some d => (true, some { d with
      bytes := overwrite d.bytes d.unknownEnd data
      unknownEnd := (d.unknownEnd + data.length) % 2 ^ 32 })

/-- `_hpb_Message_DiscardUnknown_shallow`. -/
def discardUnknown (d : Option InternalData) : Option InternalData :=
  d.map fun d => { d with unknownEnd := overhead }

/-- `hpb_Message_GetUnknown`. -/
def getUnknown : Option InternalData → List UInt8
  | none => []
  | some d => readAt d.bytes overhead (d.unknownEnd - overhead)

/-- `hpb_Message_DeleteUnknown`, of `len` bytes from an offset in the unknown bytes on. -/
def deleteUnknown (off len : Nat) (d : Option InternalData) : Option InternalData :=
  d.map fun d =>
    let data := overhead + off
    let bytes := if data + len = d.unknownEnd then d.bytes
      else overwrite d.bytes data (readAt d.bytes (data + len) (d.unknownEnd - data - len))
    { d with bytes, unknownEnd := d.unknownEnd - len }

/-- `_hpb_Message_Getexts`. -/
def getexts : Option InternalData → List (List UInt8)
  | none => []
  | some d => recordsAt d.bytes (extensionSize w) d.extBegin ((d.size - d.extBegin) / extensionSize w)

/-- `ext[i].ext == e`. -/
def isRecordOf (e : List UInt8) (record : List UInt8) : Bool := record.take w == e

/-- `_hpb_Message_Getext`: the index of the record. -/
def getext (e : List UInt8) (d : Option InternalData) : Option Nat := (getexts w d).findIdx? (isRecordOf w e)

/-- The bytes of the data of an extension. -/
def dataSize : Nat := 2 * w

/-- `_hpb_Message_GetOrCreateExtension`: the index of the record, and the block. -/
def getOrCreateExtension (mem : Option (Nat → UInt8)) (e : List UInt8) (d : Option InternalData) :
    Option Nat × Option InternalData :=
  match getext w e d with
  | some i => (some i, d)
  | none =>
    match reallocInternal mem (extensionSize w) d with
    | none => (none, d)
    | some d =>
      let extBegin := d.extBegin - extensionSize w
      let record := e ++ List.replicate (dataSize w) 0
      (some 0, some { d with extBegin, bytes := overwrite d.bytes extBegin record })

/-- A write to the data of record `i`. -/
def writeRecord (i : Nat) (val : List UInt8) (d : InternalData) : InternalData :=
  { d with bytes := overwrite d.bytes (d.extBegin + i * extensionSize w + w) val }

/-- A write of an extension, as in `_hpb_Message_SetExtensionField`. -/
def writeExtension (mem : Option (Nat → UInt8)) (e : List UInt8) (val : List UInt8)
    (d : Option InternalData) : Bool × Option InternalData :=
  match getOrCreateExtension w mem e d with
  | (none, d) => (false, d)
  | (some i, d) => (true, d.map (writeRecord w i val))

/-- `_hpb_Message_ClearExtensionField`. -/
def clearExtension (e : List UInt8) (d : Option InternalData) : Option InternalData :=
  match d, getext w e d with
  | some d, some i =>
    some { d with
      bytes := overwrite d.bytes (d.extBegin + i * extensionSize w)
        (readAt d.bytes d.extBegin (extensionSize w))
      extBegin := d.extBegin + extensionSize w }
  | d, _ => d

/-! ### What the block holds -/

/-- The two halves of the block do not overlap. -/
structure Sound (d : InternalData) : Prop where
  low : overhead ≤ d.unknownEnd
  mid : d.unknownEnd ≤ d.extBegin
  high : d.extBegin ≤ d.size
  bytes : d.bytes.length = d.size
  bound : d.size ≤ 2 ^ 30
  records : extensionSize w ∣ d.size - d.extBegin

variable {w} {d : InternalData} {e : List UInt8}

/-- The number of records. -/
def extCount (w : Nat) (d : InternalData) : Nat := (d.size - d.extBegin) / extensionSize w

theorem Sound.extCount_mul (h : Sound w d) : extCount w d * extensionSize w = d.size - d.extBegin :=
  Nat.div_mul_cancel h.records

theorem getexts_some (d : InternalData) :
    getexts w (some d) = recordsAt d.bytes (extensionSize w) d.extBegin (extCount w d) := rfl

theorem le_log2CeilingSize (x : Nat) : x ≤ log2CeilingSize x := by
  unfold log2CeilingSize log2Ceiling
  split
  next h => omega
  next h =>
    have := Nat.lt_log2_self (n := ((x : Int) - 1).toNat)
    omega

theorem length_fresh (junk : Nat → UInt8) (n : Nat) : (fresh junk n).length = n := by simp [fresh]

/-- What an operation on one half of the block leaves: the block is sound and the other half as it was. -/
structure Realloc (w need : Nat) (d : Option InternalData) (d' : InternalData) : Prop where
  sound : Sound w d'
  room : d'.unknownEnd + need ≤ d'.extBegin
  unknown : getUnknown (some d') = getUnknown d
  exts : getexts w (some d') = getexts w d

theorem reallocInternal_new (junk : Nat → UInt8) {need : Nat} (hfit : sizeFor need none ≤ 2 ^ 30) :
    Realloc w need none
      ⟨sizeFor need none % 2 ^ 32, overhead, sizeFor need none % 2 ^ 32, fresh junk (sizeFor need none)⟩ := by
  have hle : need + overhead ≤ sizeFor need none :=
    Nat.le_trans (le_log2CeilingSize _) (Nat.le_max_right _ _)
  rw [Nat.mod_eq_of_lt (by omega)]
  refine ⟨⟨Nat.le_refl _, by dsimp only; omega, Nat.le_refl _, length_fresh .., hfit, ?_⟩,
    by dsimp only; omega, ?_, ?_⟩
  · exact ⟨0, by simp⟩
  · simp [getUnknown, readAt]
  · rw [getexts_some, extCount, Nat.sub_self, Nat.zero_div]
    rfl

/-- The block with its records at the end of more memory. -/
theorem reallocInternal_move (h : Sound w d) (junk : Nat → UInt8) {need newSize : Nat}
    (hgrow : d.size + need ≤ newSize) (hfit : newSize ≤ 2 ^ 30) :
    Realloc w need (some d) ⟨newSize, d.unknownEnd, newSize - (d.size - d.extBegin),
      if d.size - d.extBegin = 0 then d.bytes ++ fresh junk (newSize - d.size)
      else overwrite (d.bytes ++ fresh junk (newSize - d.size)) (newSize - (d.size - d.extBegin))
        (readAt (d.bytes ++ fresh junk (newSize - d.size)) d.extBegin (d.size - d.extBegin))⟩ := by
  obtain ⟨hlow, hmid, hhigh, hbytes, hsize, -⟩ := id h
  have hlen : (d.bytes ++ fresh junk (newSize - d.size)).length = newSize := by
    rw [List.length_append, length_fresh, hbytes]
    omega
  have hread : ∀ off n, off + n ≤ d.size →
      readAt (d.bytes ++ fresh junk (newSize - d.size)) off n = readAt d.bytes off n :=
    fun off n hn => readAt_append_left (by omega)
  have hext : newSize - (newSize - (d.size - d.extBegin)) = d.size - d.extBegin := by omega
  generalize d.bytes ++ fresh junk (newSize - d.size) = grown at hlen hread ⊢
  -- the moved records, also where there are none
  have hmove : ∀ bytes, bytes.length = newSize →
      (∀ off n, off + n ≤ d.unknownEnd → readAt bytes off n = readAt grown off n) →
      readAt bytes (newSize - (d.size - d.extBegin)) (d.size - d.extBegin) =
        readAt grown d.extBegin (d.size - d.extBegin) →
      Realloc w need (some d) ⟨newSize, d.unknownEnd, newSize - (d.size - d.extBegin), bytes⟩ := by
    intro bytes hsame hbefore hmoved
    refine ⟨⟨hlow, by dsimp only; omega, by dsimp only; omega, hsame, hfit, ?_⟩, by dsimp only; omega, ?_, ?_⟩
    · dsimp only
      rw [hext]
      exact h.records
    · unfold getUnknown
      dsimp only
      rw [hbefore _ _ (by omega), hread _ _ (by omega)]
    · have hcount : extCount w ⟨newSize, d.unknownEnd, newSize - (d.size - d.extBegin), bytes⟩ =
          extCount w d := by
        unfold extCount
        dsimp only
        rw [hext]
      rw [getexts_some, getexts_some, hcount]
      refine recordsAt_congr ?_
      rw [h.extCount_mul, hmoved, hread _ _ (by omega)]
  split
  next hzero =>
    refine hmove grown hlen (fun _ _ _ => rfl) ?_
    rw [hzero]
    simp [readAt]
  next hzero =>
    have hcells : (readAt grown d.extBegin (d.size - d.extBegin)).length = d.size - d.extBegin :=
      length_readAt (by omega)
    refine hmove _ ?_ (fun off n hn => readAt_overwrite_before (by omega) (by omega)) ?_
    · rw [length_overwrite (by omega), hlen]
    · have hself := @readAt_overwrite_self _ grown (readAt grown d.extBegin (d.size - d.extBegin))
        (newSize - (d.size - d.extBegin)) (by omega)
      rw [hcells] at hself
      exact hself

/-- **Reallocation** makes room and keeps what the block holds. -/
theorem reallocInternal_spec {d : Option InternalData} {d' : InternalData} {mem : Option (Nat → UInt8)}
    {need : Nat} (h : ∀ b ∈ d, Sound w b) (hfit : sizeFor need d ≤ 2 ^ 30)
    (hrun : reallocInternal mem need d = some d') : Realloc w need d d' := by
  cases d with
  | none =>
    obtain ⟨junk, -, rfl⟩ := Option.map_eq_some_iff.mp hrun
    exact reallocInternal_new junk hfit
  | some d =>
    have hs := h d rfl
    obtain ⟨hlow, hmid, hhigh, -, hsize, -⟩ := id hs
    have hroom : (d.extBegin + 2 ^ 32 - d.unknownEnd) % 2 ^ 32 = d.extBegin - d.unknownEnd := by omega
    unfold reallocInternal at hrun
    dsimp only at hrun
    split at hrun
    next hsmall =>
      obtain ⟨junk, -, rfl⟩ := Option.map_eq_some_iff.mp hrun
      have hgrow : d.size + need ≤ sizeFor need (some d) := by
        unfold sizeFor
        dsimp only
        rw [if_pos hsmall]
        exact le_log2CeilingSize _
      generalize sizeFor need (some d) = newSize at hfit hgrow ⊢
      rw [Nat.mod_eq_of_lt (by omega), Nat.mod_eq_of_lt (by omega)]
      exact reallocInternal_move hs junk hgrow hfit
    next hsmall =>
      obtain rfl := Option.some.inj hrun
      unfold tooSmall at hsmall
      exact ⟨hs, by omega, rfl, rfl⟩

theorem Sound.length_unknown (h : Sound w d) :
    (getUnknown (some d)).length = d.unknownEnd - overhead := by
  have := h.low
  have := h.mid
  have := h.high
  have := h.bytes
  exact length_readAt (by omega)

/-! ### The operations on the unknown bytes -/

/-- A new end of the unknown bytes, after a write below the records, keeps the records. -/
theorem Sound.setUnknown {off unknownEnd : Nat} {cells : List UInt8} (h : Sound w d)
    (hlow : overhead ≤ unknownEnd) (hend : unknownEnd ≤ d.extBegin) (hcells : off + cells.length ≤ d.extBegin) :
    Sound w { d with bytes := overwrite d.bytes off cells, unknownEnd } ∧
      getexts w (some { d with bytes := overwrite d.bytes off cells, unknownEnd }) = getexts w (some d) := by
  obtain ⟨-, -, hhigh, hbytes, hbound, hrec⟩ := id h
  refine ⟨⟨hlow, hend, hhigh, ?_, hbound, hrec⟩, ?_⟩
  · rw [length_overwrite (by omega), hbytes]
  · rw [getexts_some, getexts_some]
    refine recordsAt_congr ?_
    exact readAt_overwrite_after hcells (by omega)

theorem addUnknown_spec {mem : Option (Nat → UInt8)} {data : List UInt8} {d d' : Option InternalData}
    (h : ∀ b ∈ d, Sound w b) (hfit : sizeFor data.length d ≤ 2 ^ 30)
    (hrun : addUnknown mem data d = (true, d')) :
    (∀ b ∈ d', Sound w b) ∧ getUnknown d' = getUnknown d ++ data ∧ getexts w d' = getexts w d := by
  unfold addUnknown at hrun
  split at hrun
  next => simp at hrun
  next b hb =>
    obtain ⟨-, rfl⟩ := Prod.mk.inj hrun
    obtain ⟨hsound, hroom, hunknown, hexts⟩ := reallocInternal_spec h hfit hb
    obtain ⟨hlow, hmid, hhigh, hbytes, hbound, -⟩ := id hsound
    rw [Nat.mod_eq_of_lt (by omega)]
    obtain ⟨hsound', hexts'⟩ := @Sound.setUnknown w b b.unknownEnd (b.unknownEnd + data.length) data hsound
      (by omega) hroom hroom
    refine ⟨fun _ hmem => Option.some.inj hmem ▸ hsound', ?_, hexts'.trans hexts⟩
    rw [← hunknown]
    unfold getUnknown
    dsimp only
    rw [show b.unknownEnd + data.length - overhead = b.unknownEnd - overhead + data.length by omega,
      readAt_add, readAt_overwrite_before (by omega) (by omega),
      show overhead + (b.unknownEnd - overhead) = b.unknownEnd by omega,
      readAt_overwrite_self (by omega)]

theorem discardUnknown_spec {d : Option InternalData} (h : ∀ b ∈ d, Sound w b) :
    (∀ b ∈ discardUnknown d, Sound w b) ∧ getUnknown (discardUnknown d) = [] ∧
      getexts w (discardUnknown d) = getexts w d := by
  cases d with
  | none => exact ⟨h, rfl, rfl⟩
  | some d =>
    have hs := h d rfl
    refine ⟨fun _ hmem => Option.some.inj hmem ▸ ?_, ?_, rfl⟩
    · exact ⟨Nat.le_refl _, Nat.le_trans hs.low hs.mid, hs.high, hs.bytes, hs.bound, hs.records⟩
    · simp [discardUnknown, getUnknown, readAt]

theorem deleteUnknown_spec {off len : Nat} {d : Option InternalData} (h : ∀ b ∈ d, Sound w b)
    (hlen : off + len ≤ (getUnknown d).length) :
    (∀ b ∈ deleteUnknown off len d, Sound w b) ∧
      getUnknown (deleteUnknown off len d) = (getUnknown d).take off ++ (getUnknown d).drop (off + len) ∧
      getexts w (deleteUnknown off len d) = getexts w d := by
  cases d with
  | none => exact ⟨h, by simp [deleteUnknown, getUnknown], rfl⟩
  | some d =>
    have hs := h d rfl
    rw [hs.length_unknown] at hlen
    obtain ⟨hlow, hmid, hhigh, hbytes, hbound, hrec⟩ := id hs
    have htake : (getUnknown (some d)).take off = readAt d.bytes overhead off := by
      change (readAt d.bytes overhead (d.unknownEnd - overhead)).take off = _
      unfold readAt
      rw [List.take_take, Nat.min_eq_left (by omega)]
    have hdrop : (getUnknown (some d)).drop (off + len) =
        readAt d.bytes (overhead + off + len) (d.unknownEnd - (overhead + off) - len) := by
      change (readAt d.bytes overhead (d.unknownEnd - overhead)).drop (off + len) = _
      unfold readAt
      rw [List.drop_take, List.drop_drop, ← Nat.add_assoc]
      congr 1
      omega
    have hend : d.unknownEnd - len - overhead = off + (d.unknownEnd - (overhead + off) - len) := by omega
    rw [htake, hdrop]
    unfold deleteUnknown
    rw [Option.map_some]
    dsimp only
    split
    next hlast =>
      refine ⟨fun _ hmem => Option.some.inj hmem ▸ ?_, ?_, rfl⟩
      · exact ⟨by dsimp only; omega, by dsimp only; omega, hhigh, hbytes, hbound, hrec⟩
      · unfold getUnknown
        dsimp only
        rw [hend, show d.unknownEnd - (overhead + off) - len = 0 by omega]
        simp [readAt]
    next =>
      have hcells : (readAt d.bytes (overhead + off + len) (d.unknownEnd - (overhead + off) - len)).length =
          d.unknownEnd - (overhead + off) - len := length_readAt (by omega)
      obtain ⟨hsound', hexts'⟩ := @Sound.setUnknown w d (overhead + off) (d.unknownEnd - len)
        (readAt d.bytes (overhead + off + len) (d.unknownEnd - (overhead + off) - len)) hs
        (by omega) (by omega) (by omega)
      refine ⟨fun _ hmem => Option.some.inj hmem ▸ hsound', ?_, hexts'⟩
      unfold getUnknown
      dsimp only
      rw [hend, readAt_add, readAt_overwrite_before (by omega) (by omega)]
      have hself := @readAt_overwrite_self _ d.bytes
        (readAt d.bytes (overhead + off + len) (d.unknownEnd - (overhead + off) - len)) (overhead + off)
        (by omega)
      rw [hcells] at hself
      rw [hself]

/-! ### The operations on the extensions -/

/-- A new record comes first. -/
theorem createExtension_spec {mem : Option (Nat → UInt8)} {d : Option InternalData} {d' : InternalData}
    (h : ∀ b ∈ d, Sound w b) (he : e.length = w) (hw : 0 < w)
    (hfit : sizeFor (extensionSize w) d ≤ 2 ^ 30)
    (hrun : reallocInternal mem (extensionSize w) d = some d') :
    let d'' := { d' with
      extBegin := d'.extBegin - extensionSize w
      bytes := overwrite d'.bytes (d'.extBegin - extensionSize w) (e ++ List.replicate (dataSize w) 0) }
    Sound w d'' ∧ getUnknown (some d'') = getUnknown d ∧
      getexts w (some d'') = (e ++ List.replicate (dataSize w) 0) :: getexts w d := by
  intro d''
  obtain ⟨hsound, hroom, hunknown, hexts⟩ := reallocInternal_spec h hfit hrun
  obtain ⟨hlow, hmid, hhigh, hbytes, hbound, hrec⟩ := id hsound
  have hk : 0 < extensionSize w := by unfold extensionSize; omega
  have hlen : (e ++ List.replicate (dataSize w) 0).length = extensionSize w := by
    rw [List.length_append, List.length_replicate, he]
    unfold extensionSize dataSize
    omega
  have hsub : d'.size - (d'.extBegin - extensionSize w) = d'.size - d'.extBegin + extensionSize w := by omega
  refine ⟨⟨hlow, ?_, ?_, ?_, hbound, ?_⟩, ?_, ?_⟩
  · change d'.unknownEnd ≤ d'.extBegin - extensionSize w
    omega
  · change d'.extBegin - extensionSize w ≤ d'.size
    omega
  · exact (length_overwrite (by omega)).trans hbytes
  · change extensionSize w ∣ d'.size - (d'.extBegin - extensionSize w)
    rw [hsub]
    exact Nat.dvd_add hrec (Nat.dvd_refl _)
  · rw [← hunknown]
    change readAt (overwrite _ _ _) overhead (d'.unknownEnd - overhead) =
      readAt d'.bytes overhead (d'.unknownEnd - overhead)
    exact readAt_overwrite_before (by omega) (by omega)
  · rw [← hexts, getexts_some, getexts_some]
    have hcount : extCount w d'' = extCount w d' + 1 := by
      change (d'.size - (d'.extBegin - extensionSize w)) / extensionSize w = _
      rw [hsub, Nat.add_div_right _ hk]
      rfl
    rw [hcount, recordsAt_succ]
    have hself := @readAt_overwrite_self _ d'.bytes (e ++ List.replicate (dataSize w) 0)
      (d'.extBegin - extensionSize w) (by omega)
    rw [hlen] at hself
    rw [show d''.extBegin + extensionSize w = d'.extBegin from Nat.sub_add_cancel (by omega)]
    refine congrArg₂ List.cons hself (recordsAt_congr ?_)
    exact readAt_overwrite_after (by omega) (by omega)

theorem Sound.record_le (h : Sound w d) {i : Nat} (hi : i < (getexts w (some d)).length) :
    d.extBegin + i * extensionSize w + extensionSize w ≤ d.size := by
  rw [getexts_some, length_recordsAt] at hi
  have hle : i * extensionSize w + extensionSize w ≤ extCount w d * extensionSize w := by
    rw [← Nat.succ_mul]
    exact Nat.mul_le_mul_right _ hi
  rw [h.extCount_mul] at hle
  have := h.high
  omega

/-- One record replaced. -/
theorem Sound.setRecord (h : Sound w d) {i : Nat} {record : List UInt8}
    (hi : i < (getexts w (some d)).length) (hlen : record.length = extensionSize w) :
    let d' := { d with bytes := overwrite d.bytes (d.extBegin + i * extensionSize w) record }
    Sound w d' ∧ getUnknown (some d') = getUnknown (some d) ∧
      getexts w (some d') = (getexts w (some d)).set i record := by
  intro d'
  have hle := h.record_le hi
  obtain ⟨hlow, hmid, hhigh, hbytes, hbound, hrec⟩ := id h
  refine ⟨⟨hlow, hmid, hhigh, (length_overwrite (by omega)).trans hbytes, hbound, hrec⟩, ?_, ?_⟩
  · change readAt (overwrite _ _ _) overhead (d.unknownEnd - overhead) =
      readAt d.bytes overhead (d.unknownEnd - overhead)
    exact readAt_overwrite_before (by omega) (by omega)
  · rw [getexts_some, length_recordsAt] at hi
    rw [getexts_some, getexts_some]
    have hall : d.extBegin + extCount w d * extensionSize w ≤ d.bytes.length := by
      rw [h.extCount_mul]
      omega
    exact recordsAt_overwrite hi hlen hall

/-- A write to the data of a record. -/
theorem writeRecord_spec (h : Sound w d) {i : Nat} {record val : List UInt8}
    (hi : (getexts w (some d))[i]? = some record) (hval : val.length ≤ dataSize w) :
    Sound w (writeRecord w i val d) ∧ getUnknown (some (writeRecord w i val d)) = getUnknown (some d) ∧
      getexts w (some (writeRecord w i val d)) =
        (getexts w (some d)).set i (overwrite record w val) := by
  obtain ⟨hlt, -⟩ := List.getElem?_eq_some_iff.mp hi
  have hle := h.record_le hlt
  have hbytes := h.bytes
  have hfits : w + val.length ≤ extensionSize w := by
    unfold extensionSize dataSize at *
    omega
  rw [getexts_some, length_recordsAt] at hlt
  rw [getexts_some, getElem?_recordsAt hlt] at hi
  obtain rfl := Option.some.inj hi
  unfold writeRecord
  rw [overwrite_range (by omega) hfits]
  refine h.setRecord (by rwa [getexts_some, length_recordsAt]) ?_
  rw [length_overwrite (by rw [length_readAt (by omega)]; exact hfits), length_readAt (by omega)]

/-- A cleared record gives its place to the first one. -/
theorem clearRecord_spec (h : Sound w d) (hw : 0 < w) {i : Nat} (hi : i < (getexts w (some d)).length) :
    let d' := { d with
      bytes := overwrite d.bytes (d.extBegin + i * extensionSize w)
        (readAt d.bytes d.extBegin (extensionSize w))
      extBegin := d.extBegin + extensionSize w }
    Sound w d' ∧ getUnknown (some d') = getUnknown (some d) ∧
      ∃ first, (getexts w (some d))[0]? = some first ∧
        getexts w (some d') = ((getexts w (some d)).set i first).tail := by
  intro d'
  have hk : 0 < extensionSize w := by unfold extensionSize; omega
  have hle := h.record_le hi
  have hbytes := h.bytes
  have hlow := h.low
  have hmid := h.mid
  have hhigh := h.high
  have hfirst : d.extBegin + extensionSize w ≤ d.size := by
    have := Nat.zero_le (i * extensionSize w)
    omega
  have hpos : d.size - d.extBegin = d.size - (d.extBegin + extensionSize w) + extensionSize w := by omega
  have hlen : (readAt d.bytes d.extBegin (extensionSize w)).length = extensionSize w :=
    length_readAt (by omega)
  obtain ⟨hsound, hunknown, hset⟩ := h.setRecord hi hlen
  have hcount : extCount w d = extCount w d' + 1 := by
    change (d.size - d.extBegin) / extensionSize w = _
    rw [hpos, Nat.add_div_right _ hk]
    rfl
  refine ⟨⟨hlow, Nat.le_trans hmid (Nat.le_add_right _ _), ?_, hsound.bytes, h.bound, ?_⟩, hunknown,
    readAt d.bytes d.extBegin (extensionSize w), ?_, ?_⟩
  · change d.extBegin + extensionSize w ≤ d.size
    omega
  · have hdvd := h.records
    rw [hpos] at hdvd
    exact (Nat.dvd_add_iff_left (Nat.dvd_refl _)).mpr hdvd
  · rw [getexts_some, getElem?_recordsAt (by omega), Nat.zero_mul, Nat.add_zero]
  · rw [← hset, getexts_some, getexts_some]
    change _ = (recordsAt _ _ _ (extCount w d)).tail
    rw [hcount, recordsAt_succ]
    rfl

/-! ### Runs -/

/-- What the block is for. An extension is named by the pointer to its table. -/
structure Contents where
  unknown : List UInt8
  exts : Finmap fun _ : List UInt8 => List UInt8

/-- The operations. -/
inductive Op where
  | addUnknown (data : List UInt8)
  | deleteUnknown (off len : Nat)
  | discardUnknown
  | getOrCreateExtension (e : List UInt8)
  | writeExtension (e val : List UInt8)
  | clearExtension (e : List UInt8)
  deriving DecidableEq, Repr

/-- One operation on the block, and whether it succeeds. -/
def exec (w : Nat) (mem : Option (Nat → UInt8)) (d : Option InternalData) : Op → Bool × Option InternalData
  | .addUnknown data => addUnknown mem data d
  | .deleteUnknown off len => (true, deleteUnknown off len d)
  | .discardUnknown => (true, discardUnknown d)
  | .getOrCreateExtension e => ((getOrCreateExtension w mem e d).1.isSome, (getOrCreateExtension w mem e d).2)
  | .writeExtension e val => writeExtension w mem e val d
  | .clearExtension e => (true, clearExtension w e d)

/-- The data of an extension, zero before it is written. -/
def Contents.data (w : Nat) (c : Contents) (e : List UInt8) : List UInt8 :=
  (c.exts.lookup e).getD (List.replicate (dataSize w) 0)

/-- One operation on the contents. What is written replaces the data from its start on. -/
def Contents.exec (w : Nat) (c : Contents) : Op → Contents
  | .addUnknown data => { c with unknown := c.unknown ++ data }
  | .deleteUnknown off len => { c with unknown := c.unknown.take off ++ c.unknown.drop (off + len) }
  | .discardUnknown => { c with unknown := [] }
  | .getOrCreateExtension e => { c with exts := c.exts.insert e (c.data w e) }
  | .writeExtension e val => { c with exts := c.exts.insert e (overwrite (c.data w e) 0 val) }
  | .clearExtension e => { c with exts := c.exts.erase e }

/-- An operation that failed changes nothing. -/
def Contents.step (w : Nat) (c : Contents) (event : Op × Bool) : Contents :=
  if event.2 then c.exec w event.1 else c

/-- The arguments that an operation takes: a range of `hpb_Message_GetUnknown`, a pointer to a table and data
that fits a record, with the block within `2 ^ 30` bytes. -/
def Op.Valid (w : Nat) (d : Option InternalData) : Op → Prop
  | .addUnknown data => sizeFor data.length d ≤ 2 ^ 30
  | .deleteUnknown off len => off + len ≤ (getUnknown d).length
  | .discardUnknown => True
  | .getOrCreateExtension e => e.length = w ∧ (getext w e d = none → sizeFor (extensionSize w) d ≤ 2 ^ 30)
  | .writeExtension e val => e.length = w ∧ val.length ≤ dataSize w ∧
    (getext w e d = none → sizeFor (extensionSize w) d ≤ 2 ^ 30)
  | .clearExtension e => e.length = w

/-- The operations on one message, one after the other, with what each returned. -/
inductive Run (w : Nat) : List (Op × Bool) → Option InternalData → Prop
  | new : Run w [] none
  | step {events : List (Op × Bool)} {d d' : Option InternalData} {op : Op} {mem : Option (Nat → UInt8)}
    {ok : Bool} (run : Run w events d) (valid : op.Valid w d) (hexec : exec w mem d op = (ok, d')) :
    Run w (events ++ [(op, ok)]) d'

/-- The table and the data of a record. -/
def keyed (w : Nat) (record : List UInt8) : List UInt8 × List UInt8 := (record.take w, record.drop w)

/-- The block holds its contents. -/
structure Holds (w : Nat) (d : Option InternalData) (c : Contents) : Prop where
  sound : ∀ b ∈ d, Sound w b
  unknown : getUnknown d = c.unknown
  exts : Listing ((getexts w d).map (keyed w)) c.exts

variable {c : Contents} {D D' : Option InternalData} {mem : Option (Nat → UInt8)}

theorem getext_eq_some {i : Nat} (h : getext w e D = some i) :
    ∃ record, (getexts w D)[i]? = some record ∧ record.take w = e := by
  obtain ⟨hlt, hp, -⟩ := List.findIdx?_eq_some_iff_getElem.mp h
  exact ⟨_, List.getElem?_eq_getElem hlt, eq_of_beq hp⟩

theorem Holds.getext_eq_none (h : Holds w D c) : getext w e D = none ↔ e ∉ c.exts := by
  rw [getext, List.findIdx?_eq_none_iff, ← h.exts.mem_keys]
  simp only [List.map_map, List.mem_map, not_exists, not_and, isRecordOf, beq_eq_false_iff_ne]
  exact Iff.rfl

/-- The records but one. -/
theorem records_perm {i : Nat} {record : List UInt8} (hi : (getexts w D)[i]? = some record) :
    (getexts w D).Perm (record :: (getexts w D).eraseIdx i) := by
  obtain ⟨hlt, rfl⟩ := List.getElem?_eq_some_iff.mp hi
  exact (List.getElem_cons_eraseIdx_perm hlt).symm

theorem Holds.lookup_of_getElem? (h : Holds w D c) {i : Nat} {record : List UInt8}
    (hi : (getexts w D)[i]? = some record) : c.exts.lookup (record.take w) = some (record.drop w) :=
  (h.exts.mem_iff _ _).mp (List.mem_map.mpr ⟨record, List.mem_of_getElem? hi, rfl⟩)

theorem Holds.data_of_getElem? (h : Holds w D c) {i : Nat} {record : List UInt8}
    (hi : (getexts w D)[i]? = some record) : c.data w (record.take w) = record.drop w := by
  rw [Contents.data, h.lookup_of_getElem? hi, Option.getD_some]

/-- After `getOrCreateExtension` there is a record. -/
theorem Holds.getOrCreateExtension {i : Nat} (h : Holds w D c) (hw : 0 < w)
    (hvalid : (Op.getOrCreateExtension e).Valid w D)
    (hrun : InternalData.getOrCreateExtension w mem e D = (some i, D')) :
    Holds w D' (c.exec w (.getOrCreateExtension e)) ∧
      ∃ record, (getexts w D')[i]? = some record ∧ record.take w = e := by
  obtain ⟨hlen, hfit⟩ := hvalid
  unfold InternalData.getOrCreateExtension at hrun
  split at hrun
  next j hj =>
    obtain ⟨hij, rfl⟩ := Prod.mk.inj hrun
    obtain rfl := Option.some.inj hij
    obtain ⟨record, hrecord, rfl⟩ := getext_eq_some hj
    refine ⟨⟨h.sound, h.unknown, ?_⟩, record, hrecord, rfl⟩
    have hperm := (records_perm hrecord).map (keyed w)
    rw [List.map_cons, keyed, ← h.data_of_getElem? hrecord] at hperm
    exact h.exts.replace hperm hperm
  next hnone =>
    split at hrun
    next => simp at hrun
    next b hb =>
      obtain ⟨hi, rfl⟩ := Prod.mk.inj hrun
      obtain rfl := Option.some.inj hi
      obtain ⟨hsound, hunknown, hexts⟩ := createExtension_spec h.sound hlen hw (hfit hnone) hb
      have habsent := h.getext_eq_none.mp hnone
      have htake : (e ++ List.replicate (dataSize w) 0).take w = e := by rw [← hlen, List.take_left]
      have hdrop : (e ++ List.replicate (dataSize w) (0 : UInt8)).drop w = List.replicate (dataSize w) 0 := by
        rw [← hlen, List.drop_left]
      refine ⟨⟨fun _ hmem => Option.some.inj hmem ▸ hsound, hunknown.trans h.unknown, ?_⟩, _, ?_, htake⟩
      · refine h.exts.insert habsent ?_
        rw [hexts, List.map_cons, keyed, htake, hdrop, Contents.data, Finmap.lookup_eq_none.mpr habsent]
        exact List.Perm.refl _
      · rw [hexts]
        rfl

theorem getOrCreateExtension_none (hrun : InternalData.getOrCreateExtension w mem e D = (none, D')) :
    D' = D := by
  unfold InternalData.getOrCreateExtension at hrun
  split at hrun
  next => simp at hrun
  next =>
    split at hrun
    next => exact (Prod.mk.inj hrun).2.symm
    next => simp at hrun

theorem addUnknown_false {data : List UInt8} (hrun : addUnknown mem data D = (false, D')) : D' = D := by
  unfold addUnknown at hrun
  split at hrun
  next => exact (Prod.mk.inj hrun).2.symm
  next => simp at hrun

theorem writeExtension_false {val : List UInt8}
    (hrun : InternalData.writeExtension w mem e val D = (false, D')) : D' = D := by
  unfold InternalData.writeExtension at hrun
  split at hrun
  next hcreate =>
    obtain ⟨-, rfl⟩ := Prod.mk.inj hrun
    exact getOrCreateExtension_none hcreate
  next => simp at hrun

theorem Holds.writeExtension {val : List UInt8} (h : Holds w D c) (hw : 0 < w)
    (hvalid : (Op.writeExtension e val).Valid w D)
    (hrun : InternalData.writeExtension w mem e val D = (true, D')) :
    Holds w D' (c.exec w (.writeExtension e val)) := by
  obtain ⟨hlen, hval, hfit⟩ := hvalid
  unfold InternalData.writeExtension at hrun
  split at hrun
  next => simp at hrun
  next i b hb =>
    obtain ⟨-, rfl⟩ := Prod.mk.inj hrun
    obtain ⟨hh, record, hrecord, htake⟩ := h.getOrCreateExtension hw ⟨hlen, hfit⟩ hb
    cases b with
    | none => simp [getexts] at hrecord
    | some b =>
      have hs := hh.sound b rfl
      obtain ⟨hsound, hunknown, hexts⟩ := writeRecord_spec hs hrecord hval
      have hlong : w ≤ record.length := by
        obtain hmin := congrArg List.length htake
        rw [List.length_take, hlen] at hmin
        omega
      refine ⟨fun _ hmem => Option.some.inj hmem ▸ hsound, hunknown.trans hh.unknown, ?_⟩
      have hinsert : (c.exec w (.writeExtension e val)).exts =
          (c.exec w (.getOrCreateExtension e)).exts.insert e (overwrite (c.data w e) 0 val) :=
        (Finmap.insert_insert _).symm
      have hdata : record.drop w = c.data w e := by
        have hlook := hh.lookup_of_getElem? hrecord
        rw [htake] at hlook
        exact (Option.some.inj ((Finmap.lookup_insert _).symm.trans hlook)).symm
      obtain ⟨hlt, -⟩ := List.getElem?_eq_some_iff.mp hrecord
      have hold := (records_perm hrecord).map (keyed w)
      have hnew := (List.set_perm_cons_eraseIdx hlt (overwrite record w val)).map (keyed w)
      rw [List.map_cons, keyed, htake] at hold
      rw [List.map_cons, keyed, take_overwrite hlong, drop_overwrite hlong, htake, hdata] at hnew
      rw [hinsert, Option.map_some, hexts]
      exact hh.exts.replace hold hnew

theorem Holds.clearExtension (h : Holds w D c) (hw : 0 < w) :
    Holds w (InternalData.clearExtension w e D) (c.exec w (.clearExtension e)) := by
  cases hi : getext w e D with
  | none =>
    have habsent : e ∉ c.exts := h.getext_eq_none.mp hi
    have hsame : InternalData.clearExtension w e D = D := by
      unfold InternalData.clearExtension
      rw [hi]
      cases D <;> rfl
    rw [hsame]
    refine ⟨h.sound, h.unknown, ?_⟩
    change Listing _ (c.exts.erase e)
    rw [Finmap.erase_of_notMem habsent]
    exact h.exts
  | some i =>
    obtain ⟨record, hrecord, rfl⟩ := getext_eq_some hi
    obtain ⟨hlt, -⟩ := List.getElem?_eq_some_iff.mp hrecord
    cases D with
    | none => simp [getexts] at hlt
    | some d =>
      obtain ⟨hsound, hunknown, first, hfirst, hexts⟩ := clearRecord_spec (h.sound d rfl) hw hlt
      unfold InternalData.clearExtension
      rw [hi]
      refine ⟨fun _ hmem => Option.some.inj hmem ▸ hsound, hunknown.trans h.unknown, ?_⟩
      have hperm := (List.perm_cons_tail_set hfirst hrecord).map (keyed w)
      rw [← hexts, List.map_cons, keyed] at hperm
      exact h.exts.erase hperm

/-- **One operation** keeps that the block holds its contents. -/
theorem Holds.step {op : Op} {ok : Bool} (h : Holds w D c) (hw : 0 < w) (hvalid : op.Valid w D)
    (hexec : exec w mem D op = (ok, D')) : Holds w D' (c.step w (op, ok)) := by
  unfold Contents.step
  cases op with
  | addUnknown data =>
    cases ok with
    | false => exact addUnknown_false hexec ▸ h
    | true =>
      obtain ⟨hsound, hunknown, hexts⟩ := addUnknown_spec h.sound hvalid hexec
      refine ⟨hsound, ?_, ?_⟩
      · rw [hunknown, h.unknown]
        rfl
      · rw [hexts]
        exact h.exts
  | deleteUnknown off len =>
    obtain ⟨rfl, rfl⟩ := Prod.mk.inj hexec
    obtain ⟨hsound, hunknown, hexts⟩ := deleteUnknown_spec h.sound hvalid
    refine ⟨hsound, ?_, ?_⟩
    · rw [hunknown, h.unknown]
      rfl
    · rw [hexts]
      exact h.exts
  | discardUnknown =>
    obtain ⟨rfl, rfl⟩ := Prod.mk.inj hexec
    obtain ⟨hsound, hunknown, hexts⟩ := discardUnknown_spec h.sound
    refine ⟨hsound, hunknown, ?_⟩
    rw [hexts]
    exact h.exts
  | getOrCreateExtension e =>
    obtain ⟨hok, hd⟩ := Prod.mk.inj hexec
    cases hrun : InternalData.getOrCreateExtension w mem e D with
    | mk found D'' =>
      rw [hrun] at hok hd
      obtain rfl : D'' = D' := hd
      cases found with
      | none =>
        obtain rfl := hok
        exact getOrCreateExtension_none hrun ▸ h
      | some i =>
        obtain rfl := hok
        exact (h.getOrCreateExtension hw hvalid hrun).1
  | writeExtension e val =>
    cases ok with
    | false => exact writeExtension_false hexec ▸ h
    | true => exact h.writeExtension hw hvalid hexec
  | clearExtension e =>
    obtain ⟨rfl, rfl⟩ := Prod.mk.inj hexec
    exact h.clearExtension hw

/-- What the operations so far amount to. -/
def contentsOf (w : Nat) (events : List (Op × Bool)) : Contents := events.foldl (Contents.step w) ⟨[], ∅⟩

/-- **Every run** leaves a block that holds what the operations amount to. -/
theorem Run.holds {events : List (Op × Bool)} (hw : 0 < w) (run : Run w events D) :
    Holds w D (contentsOf w events) := by
  induction run with
  | new => exact ⟨by simp, rfl, Listing.nil⟩
  | step run valid hexec ih =>
    rw [contentsOf, List.foldl_append]
    exact ih.step hw valid hexec

/-- The record that `getext` finds. -/
theorem Holds.getext_record (h : Holds w D c) (e : List UInt8) :
    ((getext w e D).bind fun i => (getexts w D)[i]?).map (keyed w) = (c.exts.lookup e).map (e, ·) := by
  cases hi : getext w e D with
  | none =>
    rw [Finmap.lookup_eq_none.mpr (h.getext_eq_none.mp hi)]
    rfl
  | some i =>
    obtain ⟨record, hrecord, rfl⟩ := getext_eq_some hi
    rw [h.lookup_of_getElem? hrecord, Option.bind_some, hrecord]
    rfl

/-- **After every run** the two halves of the block do not overlap, the unknown bytes are what was added less
what was deleted, the records are one for each extension that was created and not cleared, with the data
that was written last, and `getext` finds them. -/
theorem run_contents {events : List (Op × Bool)} (hw : 0 < w) (run : Run w events D) :
    (∀ d ∈ D, overhead ≤ d.unknownEnd ∧ d.unknownEnd ≤ d.extBegin ∧ d.extBegin ≤ d.size) ∧
      getUnknown D = (contentsOf w events).unknown ∧
      Listing ((getexts w D).map (keyed w)) (contentsOf w events).exts ∧
      ∀ e, ((getext w e D).bind fun i => (getexts w D)[i]?).map (keyed w) =
        ((contentsOf w events).exts.lookup e).map (e, ·) :=
  have h := run.holds hw
  ⟨fun d hd => ⟨(h.sound d hd).low, (h.sound d hd).mid, (h.sound d hd).high⟩, h.unknown, h.exts,
    h.getext_record⟩

/-- Bytes are added, an extension is written and the first byte is deleted. -/
def sampleEvents : List (Op × Bool) :=
  [(.addUnknown [1, 2], true), (.writeExtension [0, 0, 0, 0, 0, 0, 16, 0] [7], true), (.deleteUnknown 0 1, true)]

/-- The block after the events of `sampleEvents`, in new memory that is zero. -/
def sampleBlock : Option InternalData :=
  sampleEvents.foldl (fun d event => (exec 8 (some fun _ => 0) d event.1).2) none

theorem run_sampleEvents : Run 8 sampleEvents sampleBlock := by
  have h1 : Run 8 [(.addUnknown [1, 2], true)] (exec 8 (some fun _ => 0) none (.addUnknown [1, 2])).2 := by
    refine @Run.step 8 [] none _ (.addUnknown [1, 2]) (some fun _ => 0) true .new ?_ rfl
    change sizeFor 2 none ≤ 2 ^ 30
    decide
  have h2 := @Run.step 8 _ _ _ (.writeExtension [0, 0, 0, 0, 0, 0, 16, 0] [7]) (some fun _ => 0) true h1
    ⟨rfl, by decide, fun _ => by decide⟩ rfl
  exact @Run.step 8 _ _ _ (.deleteUnknown 0 1) (some fun _ => 0) true h2 (Nat.le_of_ble_eq_true rfl) rfl

theorem run_contents_sampleEvents : Run 8 sampleEvents sampleBlock ∧ getUnknown sampleBlock = [2] ∧
    Listing ((getexts 8 sampleBlock).map (keyed 8)) (contentsOf 8 sampleEvents).exts := by
  have run := run_sampleEvents
  obtain ⟨-, hunknown, hexts, -⟩ := run_contents (by decide) run
  exact ⟨run, hunknown, hexts⟩

end InternalData

end Hpb
