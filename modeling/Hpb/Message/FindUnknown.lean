import Hpb.Wire.Records

/-!
# Finding an unknown field (`hpb_MiniTable_FindUnknown`, `hpb/message/promote.c`)

The unknown fields of a message are the buffer of a stream; the address of what is found is one in this buffer, also
where the stream reads its patch buffer. `findUnknown_run` says what is found in a list of records: the first record
with the number, if the records up to it do not nest deeper than `_hpb_WireReader_SkipValue` admits.
-/

namespace Hpb

open EpsCopyInputStream

/-- `hpb_FindUnknownRet`; a record that was found has an address and a length, a `size_t`. -/
inductive FindUnknownRet where
  | ok (ptr len : Int)
  | notPresent
  | parseError
  deriving DecidableEq

/-- The loop of `hpb_MiniTable_FindUnknown`. The length is a difference of two pointers into the unknown fields: if
the value of the record cannot be skipped, one of them is null, and there is no result. -/
def findLoop (fr : Frame) (fieldNumber : Nat) (depthLimit : Int) :
    Nat → EpsCopyInputStream → Int → Option FindUnknownRet
  | 0, _, _ => none
  | fuel + 1, e, ptr => do
    match ← isDone fr e ptr with
    | (true, _, _) => return .notPresent
    | (false, _, none) => none
    | (false, e, some ptr) =>
      match UnknownField.readTag (← WireReader.bytesAt fr e ptr) with
      | none => return .parseError
      | some (n, tag) =>
        if fieldNumber = tag / 8 then
          match ← WireReader.skipValue fr fuel depthLimit tag e (ptr + n) with
          | (_, none) => none
          | (e', some ptr') =>
            let unknownBegin := getAliasedPtr e ptr
            return .ok unknownBegin (uintptr (getAliasedPtr e' ptr' - unknownBegin))
        else
          match ← WireReader.skipValue fr fuel depthLimit tag e (ptr + n) with
          | (_, none) => return .parseError
          | (e, some ptr) => findLoop fr fieldNumber depthLimit fuel e ptr

/-- `hpb_MiniTable_FindUnknown`. -/
def findUnknown (fr : Frame) (fieldNumber : Nat) (depthLimit : Int) (fuel : Nat) : Option FindUnknownRet :=
  findLoop fr fieldNumber depthLimit fuel (init fr true).1 (init fr true).2

/-- The first record with a number, of those from an address on. -/
def firstRecord (number : Nat) : Nat → List Record → FindUnknownRet
  | _, [] => .notPresent
  | addr, r :: rs => if r.number = number then .ok addr r.bytes.length else firstRecord number (addr + r.bytes.length) rs

/-- The records up to the first one with a number. -/
def scanned (number : Nat) : List Record → List Record
  | [] => []
  | r :: rs => if r.number = number then [r] else r :: scanned number rs

open Classical in
/-- What `hpb_MiniTable_FindUnknown` finds in records, from an address on. -/
noncomputable def findIn (levels : Option Nat) (number : Nat) : Nat → List Record → Option FindUnknownRet
  | _, [] => some .notPresent
  | addr, r :: rs =>
    if r.number = number then if r.Within levels then some (.ok addr r.bytes.length) else none
    else if r.Within levels then findIn levels number (addr + r.bytes.length) rs
    else some .parseError

section Records

variable {levels : Option Nat} {number addr : Nat} {rs : List Record}

theorem firstRecord_ne_parseError : firstRecord number addr rs ≠ .parseError := by
  induction rs generalizing addr with
  | nil => nofun
  | cons r rs ih =>
    rw [firstRecord]
    split
    · nofun
    · exact ih

/-- The first record is found if and only if the records up to it can be skipped. -/
theorem findIn_eq_iff :
    findIn levels number addr rs = some (firstRecord number addr rs) ↔ ∀ r ∈ scanned number rs, r.Within levels := by
  induction rs generalizing addr with
  | nil => exact iff_of_true rfl fun r hr => absurd hr List.not_mem_nil
  | cons r rs ih =>
    rw [findIn, firstRecord, scanned]
    by_cases hn : r.number = number
    · simp only [if_pos hn, List.forall_mem_singleton]
      split
      next h => exact iff_of_true rfl h
      next h => exact iff_of_false nofun h
    · simp only [if_neg hn, List.forall_mem_cons]
      split
      next h => exact ih.trans (and_iff_right h).symm
      next h =>
        refine iff_of_false (fun heq => ?_) fun hall => h hall.1
        exact firstRecord_ne_parseError (Option.some.inj heq).symm

end Records

section Runs

variable {fr : Frame} {m : Mode} {e : EpsCopyInputStream} {ptr d : Int} {pos stop number lim fuel : Nat} {w : WireType}

/-- No length in a record that ends before the limit reaches behind it. -/
theorem not_overruns {levels : Option Nat} {start : Nat} (hvalue : ValueIn fr.buf none number .startGroup start stop)
    (hle : stop ≤ fr.size) (hsz : fr.size ≤ int32Max) : ¬WireReader.Overruns fr levels start lim := by
  rintro ⟨rec, at_, number', body, size, hopen, -, htag, hat, -, hfar⟩
  obtain ⟨last, hlast, hvalue'⟩ := hvalue.open_value rfl hopen htag (by decide)
  cases hvalue' with
  | delimited hat' =>
    obtain ⟨rfl, rfl⟩ := hat.unique hat'
    unfold int32Max at hsz
    omega

/-- **One record of a stream**: its tag is read, and its value is skipped if it does not nest too deep. -/
theorem record_run (h : Sim fr true m e ptr pos fr.size) (hrec : RecordIn fr.buf none pos stop number w)
    (hle : stop ≤ fr.size) (hfuel : 3 * (fr.size - pos) + 5 ≤ fuel) :
    ∃ m' e' ptr' mem n, isDone fr e ptr = some (false, e', some ptr') ∧ Sim fr true m' e' ptr' pos fr.size ∧
      WireReader.bytesAt fr e' ptr' = some mem ∧
      UnknownField.readTag mem = some (n, number * 8 + w.bits.toNat) ∧
      ∃ e'' r, WireReader.skipValue fr fuel d (number * 8 + w.bits.toNat) e' (ptr' + n) = some (e'', r) ∧
        ((∃ m'' p, r = some p ∧ Sim fr true m'' e'' p stop fr.size ∧
            RecordIn fr.buf (WireReader.skipLevels d) pos stop number w) ∨
          r = none ∧ ¬RecordIn fr.buf (WireReader.skipLevels d) pos stop number w) := by
  have hlt := hrec.lt
  obtain ⟨start, htag, hvalue⟩ := hrec
  obtain ⟨-, m', e', ptr', hdone, hsim, hend, -⟩ | ⟨rfl, -⟩ | ⟨hlt', -⟩ := h.isDone_run
  rotate_left
  · omega
  · omega
  have h16 : slopBytes = 16 := rfl
  have hsz := h.size_le
  obtain ⟨mem, hmem, hreads⟩ := WireReader.bytesAt_run hsim (by omega)
  cases hr : UnknownField.readTag mem with
  | none => exact absurd htag (hreads.tag_none hr)
  | some r =>
    obtain ⟨n, tag⟩ := r
    obtain ⟨hat, -⟩ := hreads.tag_some hr
    obtain ⟨rfl, rfl⟩ := hat.unique htag.1
    have hn : n ≤ 5 := by
      obtain ⟨j, hj, -, hstop, -⟩ := hat
      omega
    have hpos := hat.lt
    have hstart := hsim.advance (n := n) (by omega)
    have hover : w = .startGroup → WireReader.skipLevels d ≠ some 0 →
        ¬WireReader.Overruns fr (fewer (WireReader.skipLevels d)) (pos + n) fr.size := by
      rintro rfl -
      exact not_overruns hvalue hle hsz
    have hrun : ∃ r, WireReader.skipValue fr fuel d (number * 8 + w.bits.toNat) e' (ptr' + n) = some r ∧
        WireReader.Outcome fr true m' fr.size
          (WireReader.Taken fr.buf (WireReader.skipLevels d) number w (pos + n) fr.size) r :=
      WireReader.value_run (n := fr.size - (pos + n) + 1) (WireReader.records_run hsz _) hstart (by omega) (by omega)
        (by omega) hover (by have := htag.2; omega)
    obtain ⟨⟨e'', r⟩, hskip, hout⟩ := hrun
    refine ⟨m', e', ptr', mem, n, hdone, hsim, hmem, hr, e'', r, hskip, ?_⟩
    cases r with
    | none =>
      refine .inr ⟨rfl, ?_⟩
      rintro ⟨start', htag', hvalue'⟩
      obtain rfl := (htag'.unique htag).1
      exact hout _ (.of_value hvalue' hle hsz)
    | some p =>
      obtain ⟨m'', stop', htaken, hpoints, -⟩ := hout
      obtain hvalue' | ⟨hgroup, -, -, hopen⟩ := htaken.cases
      · obtain rfl := hvalue'.unique hvalue
        exact .inl ⟨m'', p, rfl, hpoints.sim hle, _, htag, hvalue'⟩
      · exact absurd hopen (WireReader.ValueIn.not_open hvalue hgroup hle)

/-- **The loop of `hpb_MiniTable_FindUnknown`** over records. -/
theorem findLoop_run (rs : List Record) (before : List UInt8) (hbuf : fr.buf = before ++ bytesOf rs)
    (h : Sim fr true m e ptr before.length fr.size) (hfuel : 3 * (fr.size - before.length) + 6 ≤ fuel) :
    findLoop fr number d fuel e ptr = findIn (WireReader.skipLevels d) number (fr.base + before.length) rs := by
  induction rs generalizing before m e ptr fuel with
  | nil =>
    obtain ⟨fuel, rfl⟩ : ∃ k, fuel = k + 1 := ⟨fuel - 1, by omega⟩
    have hlen : before.length = fr.size := by
      rw [Frame.size, hbuf]
      exact congrArg List.length (List.append_nil before).symm
    obtain ⟨hlt, -⟩ | ⟨-, hdone⟩ | ⟨hlt, -⟩ := h.isDone_run
    · omega
    · rw [findLoop, hdone]
      rfl
    · omega
  | cons r rs ih =>
    obtain ⟨fuel, rfl⟩ : ∃ k, fuel = k + 1 := ⟨fuel - 1, by omega⟩
    rw [bytesOf_cons, ← List.append_assoc] at hbuf
    have hwithin : ∀ levels, RecordIn fr.buf levels before.length (before.length + r.bytes.length) r.number r.wireType ↔
        r.Within levels := by
      intro levels
      rw [hbuf]
      exact r.within_iff before (bytesOf rs)
    have hrec := (hwithin none).mpr r.wf
    have hpos := hrec.lt
    have hle : before.length + r.bytes.length ≤ fr.size := by
      rw [Frame.size, hbuf, List.length_append, List.length_append]
      exact Nat.le_add_right _ _
    obtain ⟨m', e', ptr', mem, n, hdone, hsim, hmem, htag, e'', p, hskip, hcases⟩ :=
      record_run (d := d) h hrec hle (by omega : 3 * (fr.size - before.length) + 5 ≤ fuel)
    have hnumber : (r.number * 8 + r.wireType.bits.toNat) / 8 = r.number := by
      have := r.wireType.bits_lt
      omega
    rw [findLoop, hdone]
    dsimp only [Option.bind_eq_bind, Option.bind_some]
    rw [hmem]
    dsimp only [Option.bind_some]
    rw [htag]
    dsimp only
    rw [hnumber, hskip, findIn]
    by_cases hn : r.number = number
    · rw [if_pos hn.symm, if_pos hn]
      obtain ⟨m'', p', rfl, hsim', hin⟩ | ⟨rfl, hnot⟩ := hcases
      · rw [if_pos ((hwithin _).mp hin)]
        dsimp only [Option.bind_some]
        rw [hsim.getAliasedPtr_eq (by omega), hsim'.getAliasedPtr_eq hle]
        have hlen : uintptr ((fr.base : Int) + (before.length + r.bytes.length : Nat) - (fr.base + before.length)) =
            r.bytes.length := by
          have hend := fr.base_end
          unfold Frame.size at hle
          rw [uintptr]
          omega
        rw [hlen]
        rfl
      · rw [if_neg (mt (hwithin _).mpr hnot)]
        rfl
    · rw [if_neg (Ne.symm hn), if_neg hn]
      obtain ⟨m'', p', rfl, hsim', hin⟩ | ⟨rfl, hnot⟩ := hcases
      · rw [if_pos ((hwithin _).mp hin)]
        have hrest := ih (before ++ r.bytes) hbuf (by rw [List.length_append]; exact hsim')
          (by rw [List.length_append]; omega : 3 * (fr.size - (before ++ r.bytes).length) + 6 ≤ fuel)
        rw [List.length_append, ← Nat.add_assoc] at hrest
        exact hrest
      · rw [if_neg (mt (hwithin _).mpr hnot)]
        rfl

/-- **`hpb_MiniTable_FindUnknown`** on the bytes of records. -/
theorem findUnknown_run (hsz : fr.size ≤ int32Max) {rs : List Record} (hbuf : fr.buf = bytesOf rs)
    (hfuel : 3 * fr.size + 6 ≤ fuel) :
    findUnknown fr number d fuel = findIn (WireReader.skipLevels d) number fr.base rs := by
  obtain ⟨m, hsim⟩ := init_sim hsz true
  exact findLoop_run rs [] hbuf hsim hfuel

end Runs

end Hpb
