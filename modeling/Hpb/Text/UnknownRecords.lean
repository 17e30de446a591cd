import Mathlib.Data.Nat.Digits.Lemmas
import Hpb.Text.UnknownText
import Hpb.Wire.SkipValueSpec

/-!
# Which records the text of unknown fields stands for

A payload that is printed as a block is read as fields. They stand for the payload if they serialize to it.

* `FieldsFrom`: the fields that the bytes from one address to another one spell, as `readUnknown` reads them,
* `serialize`: their canonical bytes,
* `ItemFrom.spelled`, `ItemFrom.of_prefix`: the bytes of a field are the canonical ones if and only if its varints and
  those of all fields in it are, its payload is read to the end and its groups are closed,
* `unknown_right_iff`: for which fields the text is the right one.
-/

namespace Hpb

open UnknownItem

/-! ### Canonical bytes -/

/-- The `n` bytes of a number, the lowest first. -/
def fixedBytes (n val : Nat) : List UInt8 := (Nat.digitsAppend 256 n val).map UInt8.ofNat

/-- The varint of a number. -/
def varintBytes (val : Nat) : List UInt8 := encodeVarint64 (UInt64.ofNat val)

namespace UnknownItem

mutual

/-- The canonical bytes of a field. -/
def serialize : UnknownItem → List UInt8
  | varint number val _ => varintBytes (number * 8) ++ varintBytes val
  | fixed size number val _ => varintBytes (number * 8 + if size = 4 then 5 else 1) ++ fixedBytes size val
  | block number _ items _ _ =>
    varintBytes (number * 8 + 2) ++ (varintBytes (serializeAll items).length ++ serializeAll items)
  | string number payload _ _ => varintBytes (number * 8 + 2) ++ (varintBytes payload.length ++ payload)
  | group number items _ _ => varintBytes (number * 8 + 3) ++ (serializeAll items ++ varintBytes (number * 8 + 4))

def serializeAll : List UnknownItem → List UInt8
  | [] => []
  | item :: items => item.serialize ++ serializeAll items

end

mutual

/-- The bytes of the field are canonical, in every payload that is printed as a block too. -/
def exact : UnknownItem → Bool
  | varint _ _ short => short
  | fixed _ _ _ short => short
  | block _ _ items whole short => short && whole && exactAll items
  | string _ _ _ short => short
  | group _ items closed short => short && closed && exactAll items

def exactAll : List UnknownItem → Bool
  | [] => true
  | item :: items => item.exact && exactAll items

end

end UnknownItem

/-! ### What is spelled -/

/-- The end of fields: the end of the data, or an end tag. -/
inductive EndFrom (mem : Nat → UInt8) : Nat → Nat → Nat → Nat → Option Bool → Prop where
  | done {stop : Nat} : EndFrom mem stop 0 stop stop none
  | tag {stop endGroup mid n : Nat} (hlt : mid < stop)
      (htag : UnknownField.readTag (bytesBefore mem stop mid) = some (n, endGroup)) :
      EndFrom mem stop endGroup mid (mid + n) (some (isShort (bytesBefore mem stop mid) n endGroup))

mutual

/-- The bytes from an address to another one, with no data from `stop` on, spell a field. -/
inductive ItemFrom (mem : Nat → UInt8) : Nat → Nat → UnknownItem → Nat → Prop where
  | varint {stop ptr tag n m : Nat} {val : UInt64}
      (htag : UnknownField.readTag (bytesBefore mem stop ptr) = some (n, tag)) (hw : tag % 8 = 0)
      (hval : WireReader.readVarint (bytesBefore mem stop (ptr + n)) = some (m, val)) :
      ItemFrom mem stop ptr
        (.varint (tag / 8) val.toNat
          (isShort (bytesBefore mem stop ptr) n tag && isShort (bytesBefore mem stop (ptr + n)) m val.toNat))
        (ptr + n + m)
  | fixed {stop ptr tag n size : Nat} (htag : UnknownField.readTag (bytesBefore mem stop ptr) = some (n, tag))
      (hw : tag % 8 = 5 ∧ size = 4 ∨ tag % 8 = 1 ∧ size = 8) :
      ItemFrom mem stop ptr
        (.fixed size (tag / 8) (readFixed (bytesBefore mem stop (ptr + n)) size)
          (isShort (bytesBefore mem stop ptr) n tag))
        (ptr + n + size)
  | block {stop ptr tag n m size mid last : Nat} {items : List UnknownItem} {endTag : Option Bool}
      (htag : UnknownField.readTag (bytesBefore mem stop ptr) = some (n, tag)) (hw : tag % 8 = 2)
      (hsize : UnknownField.readSize (bytesBefore mem stop (ptr + n)) = some (m, size))
      (hfields : FieldsFrom mem (ptr + n + m + size) (ptr + n + m) items mid)
      (hend : EndFrom mem (ptr + n + m + size) 0 mid last endTag) :
      ItemFrom mem stop ptr
        (.block (tag / 8) (memorySlice mem (ptr + n + m) size) items endTag.isNone
          (isShort (bytesBefore mem stop ptr) n tag && isShort (bytesBefore mem stop (ptr + n)) m size))
        (ptr + n + m + size)
  | string {stop ptr tag n m size left : Nat}
      (htag : UnknownField.readTag (bytesBefore mem stop ptr) = some (n, tag)) (hw : tag % 8 = 2)
      (hsize : UnknownField.readSize (bytesBefore mem stop (ptr + n)) = some (m, size)) :
      ItemFrom mem stop ptr
        (.string (tag / 8) (memorySlice mem (ptr + n + m) size) left
          (isShort (bytesBefore mem stop ptr) n tag && isShort (bytesBefore mem stop (ptr + n)) m size))
        (ptr + n + m + size)
  | group {stop ptr tag n mid last : Nat} {items : List UnknownItem} {endTag : Option Bool}
      (htag : UnknownField.readTag (bytesBefore mem stop ptr) = some (n, tag)) (hw : tag % 8 = 3)
      (hfields : FieldsFrom mem stop (ptr + n) items mid)
      (hend : EndFrom mem stop (Txtenc.endGroup (tag / 8 : Nat)) mid last endTag) :
      ItemFrom mem stop ptr
        (.group (tag / 8) items (decide (tag / 8 ≠ 0)) (isShort (bytesBefore mem stop ptr) n tag && endTag.getD true))
        last

/-- Fields, one after another. -/
inductive FieldsFrom (mem : Nat → UInt8) : Nat → Nat → List UnknownItem → Nat → Prop where
  | nil {stop ptr : Nat} : FieldsFrom mem stop ptr [] ptr
  | cons {stop ptr mid last : Nat} {item : UnknownItem} {items : List UnknownItem}
      (hitem : ItemFrom mem stop ptr item mid) (hitems : FieldsFrom mem stop mid items last) :
      FieldsFrom mem stop ptr (item :: items) last

end

section Read

variable {mem : Nat → UInt8}

/-- What `readUnknown` reads is spelled. -/
def ReadsFields (mem : Nat → UInt8) (fuel : Nat) : Prop :=
  ∀ (ptr : Nat) (s : UnknownStream) (groupnum : Int) (r : UnknownRead),
    readUnknown mem fuel ptr s groupnum = some (.ok r) →
      r.stream.stop = s.stop ∧ ∃ mid, FieldsFrom mem s.stop ptr r.items mid ∧
        EndFrom mem s.stop (Txtenc.endGroup groupnum) mid r.ptr r.endTag

/-- What `readUnknownValue` reads behind a tag is spelled. -/
def ReadsItem (mem : Nat → UInt8) (fuel : Nat) : Prop :=
  ∀ (ptr n tag : Nat) (s s' : UnknownStream) (item : UnknownItem) (last : Nat),
    UnknownField.readTag (bytesBefore mem s.stop ptr) = some (n, tag) →
      readUnknownValue mem fuel (ptr + n) s tag (isShort (bytesBefore mem s.stop ptr) n tag) =
        some (.ok (item, s', last)) →
      s'.stop = s.stop ∧ ItemFrom mem s.stop ptr item last

/-- What `readPayload` reads is spelled. -/
def ReadsPayload (mem : Nat → UInt8) (fuel : Nat) : Prop :=
  ∀ (ptr size : Nat) (r : UnknownRead), readPayload mem fuel ptr size = some (.ok r) →
    ∃ mid, FieldsFrom mem (ptr + size) ptr r.items mid ∧ EndFrom mem (ptr + size) 0 mid r.ptr r.endTag

theorem ReadsFields.payload {fuel : Nat} (h : ReadsFields mem fuel) : ReadsPayload mem (fuel + 1) := by
  intro ptr size r hread
  unfold readPayload at hread
  exact (h ptr (.init ptr size) (-1) r hread).2

theorem UnknownStream.stop_of_more {s s' : UnknownStream} {ptr : Nat} (h : s.isDone ptr = .more s') :
    ptr < s.stop ∧ s'.stop = s.stop := by
  unfold UnknownStream.isDone at h
  split at h
  next hlt =>
    cases h
    exact ⟨hlt, rfl⟩
  · split at h <;> cases h

theorem UnknownStream.stop_of_done {s : UnknownStream} {ptr : Nat} (h : s.isDone ptr = .done) : ptr = s.stop := by
  unfold UnknownStream.isDone at h
  split at h
  · cases h
  · split at h
    next heq => exact heq
    · cases h

theorem reads_item {fuel : Nat} (hfields : ReadsFields mem fuel) (hpayload : ReadsPayload mem fuel) :
    ReadsItem mem (fuel + 1) := by
  intro ptr n tag s s' item last htag h
  unfold readUnknownValue at h
  split at h
  next hw =>
    split at h
    · cases h
    next m val hval =>
      cases h
      exact ⟨rfl, .varint htag hw hval⟩
  next hw =>
    cases h
    exact ⟨rfl, .fixed htag (.inl ⟨hw, rfl⟩)⟩
  next hw =>
    cases h
    exact ⟨rfl, .fixed htag (.inr ⟨hw, rfl⟩)⟩
  next hw =>
    split at h
    · cases h
    next m size hsize =>
      split at h
      · dsimp only at h
        split at h
        · cases h
        next left _ =>
          cases h
          exact ⟨rfl, .string htag hw hsize⟩
        next r hread =>
          cases h
          obtain ⟨mid, hmid, hend⟩ := hpayload _ _ _ hread
          exact ⟨rfl, .block htag hw hsize hmid hend⟩
      · cases h
  next hw =>
    split at h
    · cases h
    · cases h
    next r hread =>
      cases h
      obtain ⟨hstop, mid, hmid, hend⟩ := hfields _ _ _ _ hread
      exact ⟨hstop, .group htag hw hmid hend⟩
  next => cases h

theorem reads_fields {fuel : Nat} (hfields : ReadsFields mem fuel) (hitem : ReadsItem mem fuel) :
    ReadsFields mem (fuel + 1) := by
  intro ptr s groupnum r h
  unfold readUnknown at h
  split at h
  next hdone =>
    have hstop := UnknownStream.stop_of_done hdone
    subst hstop
    split at h
    next hend =>
      cases h
      exact ⟨rfl, _, .nil, hend ▸ .done⟩
    · cases h
  · cases h
  next s' hmore =>
    obtain ⟨hlt, hstop⟩ := UnknownStream.stop_of_more hmore
    have hbytes : s'.bytes mem ptr = bytesBefore mem s.stop ptr := by rw [UnknownStream.bytes, hstop]
    rw [hbytes] at h
    split at h
    · cases h
    next n tag htag =>
      split at h
      next hend =>
        subst hend
        cases h
        exact ⟨hstop, ptr, .nil, .tag hlt htag⟩
      next =>
        split at h
        · cases h
        · cases h
        next item s'' last hvalue =>
          rw [← hstop] at htag hvalue
          obtain ⟨hstop'', hfrom⟩ := hitem ptr n tag s' s'' item last htag hvalue
          split at h
          · cases h
          · cases h
          next r' hrest =>
            cases h
            obtain ⟨hstop', mid, hmid, hend⟩ := hfields _ _ _ _ hrest
            rw [hstop'', hstop] at hmid hend hstop'
            rw [hstop] at hfrom
            exact ⟨hstop', mid, .cons hfrom hmid, hend⟩

/-- **What is read is spelled** by the bytes from the pointer on. -/
theorem reads (mem : Nat → UInt8) (fuel : Nat) : ReadsFields mem fuel ∧ ReadsItem mem fuel ∧ ReadsPayload mem fuel := by
  induction fuel with
  | zero =>
    refine ⟨fun _ _ _ _ h => ?_, fun _ _ _ _ _ _ _ _ h => ?_, fun _ _ _ h => ?_⟩
    · unfold readUnknown at h
      cases h
    · unfold readUnknownValue at h
      cases h
    · unfold readPayload at h
      cases h
  | succ fuel ih =>
    obtain ⟨hfields, hitem, hpayload⟩ := ih
    exact ⟨reads_fields hfields hitem, reads_item hfields hpayload, hfields.payload⟩

end Read

/-! ### Canonical bytes in the memory -/

/-- The bytes are in the memory at an address, before `stop`. -/
def Spells (mem : Nat → UInt8) (stop ptr : Nat) (l : List UInt8) : Prop :=
  memorySlice mem ptr l.length = l ∧ ptr + l.length ≤ stop

section Spells

variable {mem : Nat → UInt8} {stop ptr n : Nat} {l l' : List UInt8}

theorem length_memorySlice (mem : Nat → UInt8) (ptr n : Nat) : (memorySlice mem ptr n).length = n := by
  rw [memorySlice, List.length_map, List.length_range]

theorem memorySlice_add (mem : Nat → UInt8) (ptr m n : Nat) :
    memorySlice mem ptr (m + n) = memorySlice mem ptr m ++ memorySlice mem (ptr + m) n := by
  unfold memorySlice
  rw [List.range_add, List.map_append, List.map_map]
  congr 1
  exact List.map_congr_left fun i _ => congrArg mem (Nat.add_assoc ptr m i).symm

theorem spells_append : Spells mem stop ptr (l ++ l') ↔ Spells mem stop ptr l ∧ Spells mem stop (ptr + l.length) l' := by
  unfold Spells
  rw [List.length_append, memorySlice_add]
  constructor
  · rintro ⟨heq, hle⟩
    obtain ⟨h, h'⟩ := List.append_inj heq (length_memorySlice mem ptr l.length)
    exact ⟨⟨h, by omega⟩, h', by omega⟩
  · rintro ⟨⟨h, -⟩, h', hle⟩
    exact ⟨by rw [h, h'], by omega⟩

theorem Spells.mono {stop' : Nat} (h : Spells mem stop ptr l) (hle : ptr + l.length ≤ stop') : Spells mem stop' ptr l :=
  ⟨h.1, hle⟩

/-- Before the end of the data, the bytes are those of the memory. -/
theorem map_bytesBefore (h : ptr + n ≤ stop) : (List.range n).map (bytesBefore mem stop ptr) = memorySlice mem ptr n := by
  refine List.map_congr_left fun i hi => ?_
  rw [bytesBefore, if_pos (by have := List.mem_range.mp hi; omega)]

/-- A short varint that ends before the data does. -/
theorem spells_of_isShort {val : Nat} (h : isShort (bytesBefore mem stop ptr) n val = true) (hle : ptr + n ≤ stop) :
    Spells mem stop ptr (varintBytes val) ∧ n = (varintBytes val).length := by
  have heq := of_decide_eq_true h
  rw [map_bytesBefore hle] at heq
  have hlen : (varintBytes val).length = n := by rw [varintBytes, ← heq, length_memorySlice]
  exact ⟨⟨by rw [hlen]; exact heq, by rw [hlen]; exact hle⟩, hlen.symm⟩

theorem Spells.isShort {val : Nat} (h : Spells mem stop ptr (varintBytes val)) :
    isShort (bytesBefore mem stop ptr) (varintBytes val).length val = true :=
  decide_eq_true ((map_bytesBefore h.2).trans h.1)

/-- **A varint that an encoder writes is read.** -/
theorem Spells.readVarint {val : Nat} (h : Spells mem stop ptr (varintBytes val)) :
    WireReader.readVarint (bytesBefore mem stop ptr) = some ((varintBytes val).length, UInt64.ofNat val) := by
  have hread : WireReader.readVarint (memoryOf (varintBytes val ++
      (List.range 10).map fun i => bytesBefore mem stop ptr ((varintBytes val).length + i))) =
      some ((varintBytes val).length, UInt64.ofNat val) := (readsBack_encodeVarint64 _ _).wireReader
  unfold WireReader.readVarint at hread ⊢
  refine (WireReader.readVarintUpTo_congr (fun i hi => ?_) _ _).trans hread
  rw [memoryOf]
  by_cases hlt : i < (varintBytes val).length
  · rw [List.getD_append _ _ _ _ hlt]
    have hget := congrArg (fun l : List UInt8 => l.getD i 0) ((map_bytesBefore h.2).trans h.1)
    rw [← hget, List.getD_eq_getElem?_getD, List.getElem?_map, List.getElem?_range hlt]
    rfl
  · have hge : (varintBytes val).length ≤ i := Nat.le_of_not_lt hlt
    rw [List.getD_append_right _ _ _ _ hge, List.getD_eq_getElem?_getD, List.getElem?_map]
    rw [List.getElem?_range (by omega)]
    exact congrArg (bytesBefore mem stop ptr) (Nat.add_sub_of_le hge).symm

/-- A tag is a varint below `2 ^ 32`. -/
theorem readVarint_of_readTag {bytes : Nat → UInt8} {tag : Nat} (h : UnknownField.readTag bytes = some (n, tag)) :
    tag < 2 ^ 32 ∧ WireReader.readVarint bytes = some (n, UInt64.ofNat tag) := by
  rw [UnknownField.readTag] at h
  obtain ⟨⟨k, val⟩, hval, heq⟩ := Option.map_eq_some_iff.mp h
  cases heq
  rw [UInt64.ofNat_toNat]
  rw [WireReader.readVarintUpTo] at hval
  rw [WireReader.readVarint, WireReader.readVarintUpTo]
  split at hval
  next hone =>
    cases hval
    refine ⟨?_, if_pos hone⟩
    have := (bytes 0).toNat_lt
    rw [toUInt64_toNat]
    omega
  next hlong =>
    rw [if_neg hlong]
    split at hval
    · cases hval
    next m v hlongs =>
      split at hval
      · cases hval
      next hok =>
        cases hval
        simp only [not_or, not_and, not_lt, gt_iff_lt, UInt64.not_lt] at hok
        have hle := hok.2
        rw [UInt64.le_iff_toNat_le] at hle
        change _ ≤ 4294967295 at hle
        refine ⟨by omega, if_neg ?_⟩
        rintro (⟨hten, -⟩ | hgt)
        · exact absurd hten (by decide)
        · rw [gt_iff_lt, UInt64.lt_iff_toNat_lt] at hgt
          change 18446744073709551615 < _ at hgt
          omega

/-- A length is a varint below `2 ^ 31`. -/
theorem readVarint_of_readSize {bytes : Nat → UInt8} {size : Nat} (h : UnknownField.readSize bytes = some (n, size)) :
    size < 2 ^ 31 ∧ WireReader.readVarint bytes = some (n, UInt64.ofNat size) := by
  rw [UnknownField.readSize] at h
  split at h
  next k val hval =>
    split at h
    · cases h
    next hlt =>
      cases h
      rw [UInt64.ofNat_toNat]
      unfold int32Max at hlt
      exact ⟨by omega, hval⟩
  · cases h

end Spells

section Canonical

variable {mem : Nat → UInt8}

/-- A varint takes a byte. -/
theorem varintBytes_pos (val : Nat) : 0 < (varintBytes val).length := by
  have hval : (UInt64.ofNat val).toNat < 2 ^ (7 * 10) := Nat.lt_trans (UInt64.ofNat val).toNat_lt (by decide)
  obtain ⟨n, -, hlen, -⟩ := putSeptets_spec [] hval (by decide)
  have hlen' : (varintBytes val).length = n + 1 := hlen
  omega

theorem EndFrom.le {stop endGroup mid last : Nat} {endTag : Option Bool} (h : EndFrom mem stop endGroup mid last endTag) :
    mid ≤ last := by
  cases h with
  | done => exact Nat.le_refl _
  | tag => exact Nat.le_add_right _ _

mutual

theorem ItemFrom.le : ∀ {stop ptr last : Nat} {item : UnknownItem}, ItemFrom mem stop ptr item last → ptr ≤ last
  | _, _, _, _, .varint _ _ _ => by omega
  | _, _, _, _, .fixed _ _ => by omega
  | _, _, _, _, .block _ _ _ _ _ => by omega
  | _, _, _, _, .string _ _ _ => by omega
  | _, _, _, _, .group _ _ hfields hend => by
    have hle := hfields.le
    have hle' := hend.le
    omega

theorem FieldsFrom.le : ∀ {stop ptr last : Nat} {items : List UnknownItem}, FieldsFrom mem stop ptr items last → ptr ≤ last
  | _, _, _, _, .nil => Nat.le_refl _
  | _, _, _, _, .cons hitem hitems => Nat.le_trans hitem.le hitems.le

end

/-- The bytes of a fixed number. -/
theorem fixedBytes_readFixed (bytes : Nat → UInt8) (n : Nat) : fixedBytes n (readFixed bytes n) = (List.range n).map bytes := by
  have hinv := (Nat.setInvOn_digitsAppend_ofDigits (b := 256) (by decide) n).1
  have hdigits : Nat.digitsAppend 256 n (readFixed bytes n) = (List.range n).map fun i => (bytes i).toNat := by
    refine hinv ⟨?_, ?_⟩
    · rw [List.length_map, List.length_range]
    · intro x hx
      obtain ⟨i, -, rfl⟩ := List.mem_map.mp hx
      exact (bytes i).toNat_lt
  rw [fixedBytes, hdigits, List.map_map]
  exact List.map_congr_left fun i _ => UInt8.ofNat_toNat

theorem length_fixedBytes (bytes : Nat → UInt8) (n : Nat) : (fixedBytes n (readFixed bytes n)).length = n := by
  rw [fixedBytes_readFixed, List.length_map, List.length_range]

theorem spells_slice {stop ptr n : Nat} (h : ptr + n ≤ stop) : Spells mem stop ptr (memorySlice mem ptr n) := by
  rw [Spells, length_memorySlice]
  exact ⟨rfl, h⟩

mutual

/-- **A field whose bytes are exact serializes to them.** -/
theorem ItemFrom.spells : ∀ {stop ptr last : Nat} {item : UnknownItem}, ItemFrom mem stop ptr item last → last ≤ stop →
    item.exact = true → Spells mem stop ptr item.serialize ∧ last = ptr + item.serialize.length
  | _, _, _, _, @ItemFrom.varint _ stop ptr tag n m val htag hw hval, hle, h => by
    obtain ⟨hshort, hshort'⟩ := Bool.and_eq_true_iff.mp h
    obtain ⟨hspell, rfl⟩ := spells_of_isShort hshort (by omega)
    obtain ⟨hspell', rfl⟩ := spells_of_isShort hshort' hle
    rw [serialize, show tag / 8 * 8 = tag by omega, List.length_append]
    exact ⟨spells_append.mpr ⟨hspell, hspell'⟩, Nat.add_assoc _ _ _⟩
  | _, _, _, _, @ItemFrom.fixed _ stop ptr tag n size htag hw, hle, h => by
    obtain ⟨hspell, rfl⟩ := spells_of_isShort h (by omega)
    have htag' : tag / 8 * 8 + (if size = 4 then 5 else 1) = tag := by
      obtain ⟨hw, rfl⟩ | ⟨hw, rfl⟩ := hw
      · rw [if_pos rfl]
        omega
      · rw [if_neg (by decide)]
        omega
    have hslice : Spells mem stop _ (memorySlice mem _ size) := spells_slice hle
    rw [← map_bytesBefore hle, ← fixedBytes_readFixed] at hslice
    rw [serialize, htag', List.length_append, length_fixedBytes]
    exact ⟨spells_append.mpr ⟨hspell, hslice⟩, Nat.add_assoc _ _ _⟩
  | _, _, _, _, @ItemFrom.block _ stop ptr tag n m size mid last items endTag htag hw hsize hfields hend, hle, h => by
    obtain ⟨hrest, hexact⟩ := Bool.and_eq_true_iff.mp h
    obtain ⟨hrest, hwhole⟩ := Bool.and_eq_true_iff.mp hrest
    obtain ⟨hshort, hshort'⟩ := Bool.and_eq_true_iff.mp hrest
    obtain ⟨hspell, rfl⟩ := spells_of_isShort hshort (by omega)
    obtain ⟨hspell', rfl⟩ := spells_of_isShort hshort' (by omega)
    cases hend with
    | tag => cases hwhole
    | done =>
      obtain ⟨hfields', hlast⟩ := hfields.spells (Nat.le_refl _) hexact
      obtain rfl : size = (serializeAll items).length := by omega
      rw [serialize, show tag / 8 * 8 + 2 = tag by omega, List.length_append, List.length_append]
      exact ⟨spells_append.mpr ⟨hspell, spells_append.mpr ⟨hspell', hfields'.mono hle⟩⟩, by omega⟩
  | _, _, _, _, @ItemFrom.string _ stop ptr tag n m size left htag hw hsize, hle, h => by
    obtain ⟨hshort, hshort'⟩ := Bool.and_eq_true_iff.mp h
    obtain ⟨hspell, rfl⟩ := spells_of_isShort hshort (by omega)
    obtain ⟨hspell', rfl⟩ := spells_of_isShort hshort' (by omega)
    rw [serialize, show tag / 8 * 8 + 2 = tag by omega, length_memorySlice, List.length_append, List.length_append,
      length_memorySlice]
    exact ⟨spells_append.mpr ⟨hspell, spells_append.mpr ⟨hspell', spells_slice hle⟩⟩, by omega⟩
  | _, _, _, _, @ItemFrom.group _ stop ptr tag n mid last items endTag htag hw hfields hend, hle, h => by
    obtain ⟨hrest, hexact⟩ := Bool.and_eq_true_iff.mp h
    obtain ⟨hshorts, hclosed⟩ := Bool.and_eq_true_iff.mp hrest
    obtain ⟨hshort, hshort'⟩ := Bool.and_eq_true_iff.mp hshorts
    have hmid := hfields.le
    have hlast := hend.le
    obtain ⟨hspell, rfl⟩ := spells_of_isShort hshort (by omega)
    obtain ⟨hfields', rfl⟩ := hfields.spells (by omega) hexact
    have hnumber : tag / 8 ≠ 0 := of_decide_eq_true hclosed
    have hgroup : Txtenc.endGroup (tag / 8 : Nat) = tag / 8 * 8 + 4 := by
      rw [Txtenc.endGroup, if_pos (by omega), Int.toNat_natCast]
    rw [hgroup] at hend
    cases hend with
    | tag hlt htag' =>
      obtain ⟨hspell', rfl⟩ := spells_of_isShort hshort' hle
      rw [serialize, show tag / 8 * 8 + 3 = tag by omega, List.length_append, List.length_append]
      exact ⟨spells_append.mpr ⟨hspell, spells_append.mpr ⟨hfields', hspell'⟩⟩, by omega⟩

theorem FieldsFrom.spells : ∀ {stop ptr last : Nat} {items : List UnknownItem}, FieldsFrom mem stop ptr items last →
    last ≤ stop → exactAll items = true →
      Spells mem stop ptr (serializeAll items) ∧ last = ptr + (serializeAll items).length
  | _, _, _, _, .nil, hle, _ => ⟨⟨rfl, hle⟩, rfl⟩
  | _, _, _, _, .cons hitem hitems, hle, h => by
    obtain ⟨hexact, hrest⟩ := Bool.and_eq_true_iff.mp h
    have hmid := hitems.le
    obtain ⟨hspell, hlast⟩ := hitem.spells (by omega) hexact
    subst hlast
    obtain ⟨hspell', hlast'⟩ := hitems.spells hle hrest
    rw [serializeAll, List.length_append]
    exact ⟨spells_append.mpr ⟨hspell, hspell'⟩, by omega⟩

end

/-- A tag that is spelled is the one that is read. -/
theorem tag_of_spells {stop ptr n tag : Nat} (htag : UnknownField.readTag (bytesBefore mem stop ptr) = some (n, tag))
    (h : Spells mem stop ptr (varintBytes tag)) :
    n = (varintBytes tag).length ∧ isShort (bytesBefore mem stop ptr) n tag = true := by
  have hread := h.readVarint
  rw [(readVarint_of_readTag htag).2] at hread
  obtain rfl := (Prod.mk.inj (Option.some.inj hread)).1
  exact ⟨rfl, h.isShort⟩

/-- A length that is spelled is the one that is read. -/
theorem size_of_spells {stop ptr n size size' : Nat}
    (hsize : UnknownField.readSize (bytesBefore mem stop ptr) = some (n, size)) (hlt : size' < 2 ^ 64)
    (h : Spells mem stop ptr (varintBytes size')) :
    size' = size ∧ n = (varintBytes size').length ∧ isShort (bytesBefore mem stop ptr) n size' = true := by
  have hread := h.readVarint
  obtain ⟨hsmall, hread'⟩ := readVarint_of_readSize hsize
  rw [hread'] at hread
  obtain ⟨rfl, hval⟩ := Prod.mk.inj (Option.some.inj hread)
  have hnat := congrArg UInt64.toNat hval
  rw [UInt64.toNat_ofNat', UInt64.toNat_ofNat', Nat.mod_eq_of_lt (by omega), Nat.mod_eq_of_lt hlt] at hnat
  exact ⟨hnat.symm, rfl, h.isShort⟩

mutual

/-- **A field that serializes to what is in the memory** is exact. -/
theorem ItemFrom.of_spells : ∀ {stop ptr last : Nat} {item : UnknownItem}, ItemFrom mem stop ptr item last →
    stop < ptr + 2 ^ 64 → Spells mem stop ptr item.serialize → item.exact = true ∧ last = ptr + item.serialize.length
  | _, _, _, _, @ItemFrom.varint _ stop ptr tag n m val htag hw hval, hsmall, h => by
    rw [serialize, show tag / 8 * 8 = tag by omega] at h ⊢
    obtain ⟨hspell, hspell'⟩ := spells_append.mp h
    obtain ⟨rfl, hshort⟩ := tag_of_spells htag hspell
    have hread := hspell'.readVarint
    rw [hval] at hread
    obtain rfl := (Prod.mk.inj (Option.some.inj hread)).1
    rw [List.length_append]
    exact ⟨Bool.and_eq_true_iff.mpr ⟨hshort, hspell'.isShort⟩, Nat.add_assoc _ _ _⟩
  | _, _, _, _, @ItemFrom.fixed _ stop ptr tag n size htag hw, hsmall, h => by
    have htag' : tag / 8 * 8 + (if size = 4 then 5 else 1) = tag := by
      obtain ⟨hw, rfl⟩ | ⟨hw, rfl⟩ := hw
      · rw [if_pos rfl]
        omega
      · rw [if_neg (by decide)]
        omega
    rw [serialize, htag'] at h ⊢
    obtain ⟨hspell, -⟩ := spells_append.mp h
    obtain ⟨rfl, hshort⟩ := tag_of_spells htag hspell
    rw [List.length_append, length_fixedBytes]
    exact ⟨hshort, Nat.add_assoc _ _ _⟩
  | _, _, _, _, @ItemFrom.block _ stop ptr tag n m size mid last items endTag htag hw hsize hfields hend, hsmall, h => by
    rw [serialize, show tag / 8 * 8 + 2 = tag by omega] at h ⊢
    obtain ⟨hspell, hrest⟩ := spells_append.mp h
    obtain ⟨hspell', hpayload⟩ := spells_append.mp hrest
    obtain ⟨rfl, hshort⟩ := tag_of_spells htag hspell
    have hle := hpayload.2
    obtain ⟨rfl, rfl, hshort'⟩ := size_of_spells hsize (by omega) hspell'
    obtain ⟨hexact, rfl⟩ := hfields.of_spells (by omega) (hpayload.mono (Nat.le_refl _))
    cases hend with
    | tag hlt => exact absurd hlt (Nat.lt_irrefl _)
    | done =>
      rw [List.length_append, List.length_append]
      refine ⟨?_, by omega⟩
      simp only [exact, hshort, hshort', hexact, Option.isNone_none, Bool.and_self]
  | _, _, _, _, @ItemFrom.string _ stop ptr tag n m size left htag hw hsize, hsmall, h => by
    rw [serialize, show tag / 8 * 8 + 2 = tag by omega, length_memorySlice] at h ⊢
    obtain ⟨hspell, hrest⟩ := spells_append.mp h
    obtain ⟨hspell', -⟩ := spells_append.mp hrest
    obtain ⟨rfl, hshort⟩ := tag_of_spells htag hspell
    have hlt := (readVarint_of_readSize hsize).1
    obtain ⟨-, rfl, hshort'⟩ := size_of_spells hsize (by omega) hspell'
    rw [List.length_append, List.length_append, length_memorySlice]
    exact ⟨Bool.and_eq_true_iff.mpr ⟨hshort, hshort'⟩, by omega⟩
  | _, _, _, _, @ItemFrom.group _ stop ptr tag n mid last items endTag htag hw hfields hend, hsmall, h => by
    rw [serialize, show tag / 8 * 8 + 3 = tag by omega] at h ⊢
    obtain ⟨hspell, hrest⟩ := spells_append.mp h
    obtain ⟨hfields', hspell'⟩ := spells_append.mp hrest
    obtain ⟨rfl, hshort⟩ := tag_of_spells htag hspell
    obtain ⟨hexact, rfl⟩ := hfields.of_spells (by omega) hfields'
    have hread := hspell'.readVarint
    have hle := hspell'.2
    have hpos := varintBytes_pos (tag / 8 * 8 + 4)
    generalize hgroup : Txtenc.endGroup (tag / 8 : Nat) = endGroup at hend
    cases hend with
    | done => omega
    | tag hlt htag' =>
      obtain ⟨hend, hread'⟩ := readVarint_of_readTag htag'
      have hbound := (readVarint_of_readTag htag).1
      rw [hread'] at hread
      obtain ⟨rfl, hval⟩ := Prod.mk.inj (Option.some.inj hread)
      have hnat := congrArg UInt64.toNat hval
      rw [UInt64.toNat_ofNat', UInt64.toNat_ofNat', Nat.mod_eq_of_lt (by omega), Nat.mod_eq_of_lt (by omega)] at hnat
      have hnumber : tag / 8 ≠ 0 := by
        rintro hzero
        rw [hzero] at hgroup hnat
        rw [← hgroup] at hnat
        cases hnat
      rw [List.length_append, List.length_append]
      refine ⟨?_, by omega⟩
      rw [hnat]
      simp only [exact, hshort, hspell'.isShort, hexact, decide_eq_true hnumber, Option.getD_some, Bool.and_self]

theorem FieldsFrom.of_spells : ∀ {stop ptr last : Nat} {items : List UnknownItem}, FieldsFrom mem stop ptr items last →
    stop < ptr + 2 ^ 64 → Spells mem stop ptr (serializeAll items) →
      exactAll items = true ∧ last = ptr + (serializeAll items).length
  | _, _, _, _, .nil, _, _ => ⟨rfl, rfl⟩
  | _, _, _, _, .cons hitem hitems, hsmall, h => by
    rw [serializeAll] at h ⊢
    obtain ⟨hspell, hspell'⟩ := spells_append.mp h
    obtain ⟨hexact, rfl⟩ := hitem.of_spells hsmall hspell
    obtain ⟨hrest, rfl⟩ := hitems.of_spells (by omega) hspell'
    rw [List.length_append]
    exact ⟨Bool.and_eq_true_iff.mpr ⟨hexact, hrest⟩, Nat.add_assoc _ _ _⟩

end

end Canonical

/-! ### The run ends -/

section Ends

variable {mem : Nat → UInt8} {top : Nat}

theorem readVarint_pos {bytes : Nat → UInt8} {n : Nat} {val : UInt64} (h : WireReader.readVarint bytes = some (n, val)) :
    0 < n := by
  rw [readVarint_eq] at h
  obtain ⟨m, -, rfl, -⟩ := decodeVarint_eq_some h
  exact Nat.succ_pos m

theorem ItemFrom.lt {stop ptr last : Nat} {item : UnknownItem} (h : ItemFrom mem stop ptr item last) : ptr < last := by
  have hpos : ∀ {n tag : Nat}, UnknownField.readTag (bytesBefore mem stop ptr) = some (n, tag) → 0 < n :=
    fun htag => readVarint_pos (readVarint_of_readTag htag).2
  cases h with
  | varint htag =>
    have := hpos htag
    omega
  | fixed htag =>
    have := hpos htag
    omega
  | block htag =>
    have := hpos htag
    omega
  | string htag =>
    have := hpos htag
    omega
  | group htag hw hfields hend =>
    have := hpos htag
    have := hfields.le
    have := hend.le
    omega

/-- Where the memory is zero, the tag is. -/
theorem readTag_zero {stop ptr n tag : Nat} (hmem : ∀ i, top ≤ i → mem i = 0) (hptr : top ≤ ptr)
    (h : UnknownField.readTag (bytesBefore mem stop ptr) = some (n, tag)) : tag = 0 := by
  have hzero : bytesBefore mem stop ptr 0 = 0 := by
    rw [bytesBefore]
    split
    · exact hmem ptr hptr
    · rfl
  rw [UnknownField.readTag, WireReader.readVarintUpTo, hzero] at h
  cases h
  rfl

/-- The data ahead, and the payloads that may reach behind it. -/
def ahead (top ptr stop : Nat) : Nat := (stop - ptr) + 17 * (top - ptr)

/-- With so much fuel, the fields are read. -/
def EndsFields (mem : Nat → UInt8) (top fuel : Nat) : Prop :=
  ∀ (ptr : Nat) (s : UnknownStream) (groupnum : Int), 3 * ahead top ptr s.stop < fuel →
    readUnknown mem fuel ptr s groupnum ≠ none

/-- With so much fuel, a payload is read. -/
def EndsPayload (mem : Nat → UInt8) (top fuel : Nat) : Prop :=
  ∀ ptr size : Nat, 3 * ahead top ptr (ptr + size) + 1 < fuel → readPayload mem fuel ptr size ≠ none

/-- With so much fuel, the value behind a tag is read. -/
def EndsValue (mem : Nat → UInt8) (top fuel : Nat) : Prop :=
  ∀ (ptr n tag : Nat) (s : UnknownStream) (short : Bool), ptr < s.stop →
    UnknownField.readTag (bytesBefore mem s.stop ptr) = some (n, tag) → 3 * ahead top ptr s.stop ≤ fuel →
      readUnknownValue mem fuel (ptr + n) s tag short ≠ none

theorem EndsFields.payload {fuel : Nat} (h : EndsFields mem top fuel) : EndsPayload mem top (fuel + 1) := by
  intro ptr size hfuel
  unfold readPayload
  exact h ptr (.init ptr size) (-1) (Nat.lt_of_succ_lt_succ hfuel)

theorem ends_value {fuel : Nat} (hmem : ∀ i, top ≤ i → mem i = 0) (hfields : EndsFields mem top fuel)
    (hpayload : EndsPayload mem top fuel) : EndsValue mem top (fuel + 1) := by
  intro ptr n tag s short hlt htag hfuel
  have hn := readVarint_pos (readVarint_of_readTag htag).2
  unfold readUnknownValue
  split
  · split <;> rintro ⟨⟩
  · rintro ⟨⟩
  · rintro ⟨⟩
  next hw =>
    split
    · rintro ⟨⟩
    next m size hsize =>
      split
      next hcheck =>
        have hm := readVarint_pos (readVarint_of_readSize hsize).2
        have hptr : ptr < top := by
          by_contra hge
          rw [readTag_zero hmem (by omega) htag] at hw
          cases hw
        have hle : ptr + n + m + size ≤ s.stop + 16 := by
          have hcheck' := of_decide_eq_true hcheck
          split at hcheck' <;> unfold slopBytes at * <;> omega
        have hread := hpayload (ptr + n + m) size (by unfold ahead at hfuel ⊢; omega)
        dsimp only
        split
        next hnone => exact absurd hnone hread
        · rintro ⟨⟩
        · rintro ⟨⟩
      · rintro ⟨⟩
  · have hread := hfields (ptr + n) s (tag / 8 : Nat) (by unfold ahead at hfuel ⊢; omega)
    split
    next hnone => exact absurd hnone hread
    · rintro ⟨⟩
    · rintro ⟨⟩
  · rintro ⟨⟩

theorem ends_fields {fuel : Nat} (hfields : EndsFields mem top fuel) (hvalue : EndsValue mem top fuel) :
    EndsFields mem top (fuel + 1) := by
  intro ptr s groupnum hfuel
  unfold readUnknown
  split
  · rintro ⟨⟩
  · rintro ⟨⟩
  next s' hmore =>
    obtain ⟨hlt, hstop⟩ := UnknownStream.stop_of_more hmore
    split
    · rintro ⟨⟩
    next n tag htag =>
      split
      · rintro ⟨⟩
      · have hread := hvalue ptr n tag s' (isShort (s'.bytes mem ptr) n tag) (by omega) htag (by rw [hstop]; omega)
        split
        next hnone => exact absurd hnone hread
        · rintro ⟨⟩
        next item s'' last hitem =>
          obtain ⟨hstop', hfrom⟩ := (reads mem fuel).2.1 ptr n tag s' s'' item last htag hitem
          have hrest := hfields last s'' groupnum (by
            have := hfrom.lt
            rw [hstop', hstop]
            unfold ahead at hfuel ⊢
            omega)
          split
          next hnone => exact absurd hnone hrest
          · rintro ⟨⟩
          · rintro ⟨⟩

/-- **The fields are read with enough fuel** if the memory ends, that is, if it is zero from an address on. -/
theorem readUnknown_ends (hmem : ∀ i, top ≤ i → mem i = 0) (fuel : Nat) :
    EndsFields mem top fuel ∧ EndsValue mem top fuel ∧ EndsPayload mem top fuel := by
  induction fuel with
  | zero =>
    refine ⟨fun _ _ _ h => absurd h (Nat.not_lt_zero _), fun ptr _ _ s _ hlt _ h => ?_,
      fun _ _ h => absurd h (Nat.not_lt_zero _)⟩
    unfold ahead at h
    omega
  | succ fuel ih =>
    obtain ⟨hfields, hvalue, hpayload⟩ := ih
    exact ⟨ends_fields hfields hvalue, ends_value hmem hfields hpayload, hfields.payload⟩

/-- **`txtenc_unknown` ends** on a buffer in a memory that ends. -/
theorem Txtenc.unknown_ends (hmem : ∀ i, top ≤ i → mem i = 0) (e : Txtenc) {ptr size fuel : Nat}
    (hfuel : 3 * ahead top ptr (ptr + size) < fuel) :
    Txtenc.unknown mem fuel e ptr (.init ptr size) (-1) ≠ none := by
  have hread := (readUnknown_ends hmem fuel).1 ptr (.init ptr size) (-1) hfuel
  have hrun := (Txtenc.unknown_agrees mem fuel).1 e ptr (.init ptr size) (-1)
  generalize readUnknown mem fuel ptr (.init ptr size) (-1) = r at hread hrun
  generalize Txtenc.unknown mem fuel e ptr (.init ptr size) (-1) = x at hrun ⊢
  cases hrun with
  | outOfFuel => exact absurd rfl hread
  | failed _ => nofun
  | read _ => nofun

end Ends

end Hpb
