import Hpb.Message.Copy
import Hpb.Message.Promote

/-!
# Promoting to one message (`hpb_MiniTable_PromoteUnknownToMessage`, `hpb/message/promote.c`)

The loop finds a record with the number of the field, merges its payload into the message and deletes the record. A
record is deleted only if its payload parses: if it does not, the next round finds the same record.

* `promote_terminates_iff`: the loop ends, and reports a payload that does not parse, if and only if each payload that
  it reaches parses.
-/

namespace Hpb

open EpsCopyInputStream

/-- `hpb_UnknownToMessage_Status`. -/
inductive UnknownToMessageStatus where
  | ok | parseError | outOfMemory | notFound
  deriving DecidableEq, Repr

/-- `hpb_Message_DeleteUnknown`, for a range of the unknown fields. -/
def Frame.delete (fr : Frame) (ofs len : Nat) : Frame where
  base := fr.base
  buf := fr.buf.take ofs ++ fr.buf.drop (ofs + len)
  patch := fr.patch
  base_end := by
    have hend := fr.base_end
    rw [List.length_append, List.length_take, List.length_drop]
    omega
  patch_end := fr.patch_end
  apart := by
    have hapart := fr.apart
    rw [List.length_append, List.length_take, List.length_drop]
    omega

section

variable (env : DecodeEnv) (opts : DecodeOptions) (subTable : TableRef) (spoil : Message → Message)

/-- The loop of `hpb_MiniTable_PromoteUnknownToMessage`. If `hpb_Decode` fails, it leaves something of the message
that it merged into; this is `spoil`. -/
def promoteLoop (number : Nat) :
    Nat → Frame → Option Message → Option (Frame × UnknownToMessageStatus × Option Message)
  | 0, _, _ => none
  | fuel + 1, fr, message => do
    match ← findUnknown fr number opts.maxDepth (3 * fr.size + 6) with
    | .ok ptr len =>
      match ← parseUnknownMessage env opts subTable fr.buf (ptr - fr.base).toNat message with
      | .ok m => promoteLoop number fuel (fr.delete (ptr - fr.base).toNat len.toNat) (some m)
      | .error _ => promoteLoop number fuel fr (message.map spoil)
    | .parseError => return (fr, .parseError, message)
    | .notPresent => return (fr, if message.isSome then .ok else .notFound, message)

/-- `hpb_MiniTable_PromoteUnknownToMessage`, for a message whose unknown fields are the buffer of a frame. -/
def promoteUnknownToMessage (field : MiniTableField) (fuel : Nat) (fr : Frame) (msg : Message) :
    Option (Frame × Message × UnknownToMessageStatus × Option Message) := do
  let (fr, status, message) ← promoteLoop env opts subTable spoil field.number fuel fr none
  let msg := { msg with unknown := fr.buf }
  match message with
  | none => return (fr, msg, status, none)
  | some m =>
    let msg := if field.presence < 0 then msg.setOneofCase (-field.presence - 1).toNat field.number else msg
    return (fr, msg.setNonExtensionField field (.msg false m), status, some m)

end

section

variable (env : DecodeEnv) (opts : DecodeOptions) (subTable : TableRef) (number : Nat)

/-- The payloads of the records with the number parse one after the other, up to a record that nests too deep. -/
def Merges : Option Message → List Record → Prop
  | _, [] => True
  | message, r :: rs =>
    if r.number = number then
      r.Within (WireReader.skipLevels opts.maxDepth) ∧
        ∃ m, parseUnknownMessage env opts subTable (bytesOf (r :: rs)) 0 message = some (.ok m) ∧ Merges (some m) rs
    else r.Within (WireReader.skipLevels opts.maxDepth) → Merges message rs

/-- Behind payloads that parse there is one that does not. -/
def PayloadFails : Option Message → List Record → Prop
  | _, [] => False
  | message, r :: rs =>
    r.Within (WireReader.skipLevels opts.maxDepth) ∧
      if r.number = number then
        (∃ status, parseUnknownMessage env opts subTable (bytesOf (r :: rs)) 0 message = some (.error status)) ∨
          ∃ m, parseUnknownMessage env opts subTable (bytesOf (r :: rs)) 0 message = some (.ok m) ∧
            PayloadFails (some m) rs
      else PayloadFails message rs

end

/-- The promotion of records to a message returns, and returns the error if a payload does not parse; whatever such a
parse leaves of the message. -/
def PromoteReports (env : DecodeEnv) (opts : DecodeOptions) (field : MiniTableField) (subTable : TableRef) (fr : Frame)
    (rs : List Record) (msg : Message) : Prop :=
  ∀ spoil, ∃ fuel fr' msg' status message,
    promoteUnknownToMessage env opts subTable spoil field fuel fr msg = some (fr', msg', status, message) ∧
      (PayloadFails env opts subTable field.number none rs → status = .parseError)

section Payload

variable {env : DecodeEnv} {opts : DecodeOptions} {subTable : TableRef} {before tail : List UInt8} {m : Option Message}

theorem bytesFrom_append (before tail : List UInt8) (n : Nat) :
    bytesFrom (before ++ tail) (before.length + n) = bytesFrom tail n := by
  funext i
  change (before ++ tail).getD (before.length + n + i) 0 = tail.getD (n + i) 0
  rw [List.getD_append_right _ _ _ _ (by omega), Nat.add_assoc, Nat.add_sub_cancel_left]

/-- What is parsed lies behind the place where the record begins. -/
theorem payloadRange_append (before tail : List UInt8) :
    payloadRange (before ++ tail) before.length =
      (payloadRange tail 0).map fun range => (range.1.map (before.length + ·), range.2) := by
  rw [payloadRange, payloadRange, show before.length = before.length + 0 from rfl, bytesFrom_append, Nat.add_zero]
  cases UnknownField.readTag (bytesFrom tail 0) with
  | none => rfl
  | some tag =>
    obtain ⟨n, tag⟩ := tag
    dsimp only [Option.bind_eq_bind, Option.bind_some]
    rw [bytesFrom_append, Nat.zero_add, List.length_append]
    cases WireReader.readVarint (bytesFrom tail n) with
    | none =>
      dsimp only
      by_cases h : n + 10 ≤ tail.length
      · rw [if_pos h, if_pos (by omega)]
        rfl
      · rw [if_neg h, if_neg (by omega)]
        rfl
    | some val =>
      dsimp only
      by_cases h : n + val.1 ≤ tail.length
      · rw [if_pos h, if_pos (by omega), Option.map_some, Option.map_some, ← Nat.add_assoc]
      · rw [if_neg h, if_neg (by omega)]
        rfl

/-- The bytes before the record do not matter. -/
theorem parseUnknownMessage_append (before tail : List UInt8) :
    parseUnknownMessage env opts subTable (before ++ tail) before.length m =
      parseUnknownMessage env opts subTable tail 0 m := by
  unfold parseUnknownMessage
  rw [payloadRange_append]
  cases payloadRange tail 0 with
  | none => simp only [Option.map_none, Option.bind_eq_bind, Option.bind_none]
  | some range =>
    obtain ⟨data, len⟩ := range
    cases data with
    | none => simp only [Option.map_some, Option.map_none, Option.bind_eq_bind, Option.bind_some]
    | some data =>
      simp only [Option.map_some, Option.bind_eq_bind, Option.bind_some]
      rw [List.length_append, List.drop_append, List.drop_eq_nil_of_le (Nat.le_add_right _ _), List.nil_append,
        Nat.add_sub_cancel_left]
      by_cases h : data + len ≤ tail.length
      · rw [if_pos h, if_pos (by omega)]
      · rw [if_neg h, if_neg (by omega)]

end Payload

section Loop

variable {env : DecodeEnv} {opts : DecodeOptions} {subTable : TableRef} {spoil : Message → Message} {number : Nat}
  {fr : Frame} {kept rs : List Record} {r : Record} {message : Option Message}

/-- Payloads that parse do not fail. -/
theorem Merges.not_payloadFails (h : Merges env opts subTable number message rs) :
    ¬PayloadFails env opts subTable number message rs := by
  induction rs generalizing message with
  | nil => exact id
  | cons r rs ih =>
    rw [Merges] at h
    rw [PayloadFails]
    rintro ⟨hwithin, hfails⟩
    split at hfails
    next hn =>
      rw [if_pos hn] at h
      obtain ⟨-, m, hparse, hrest⟩ := h
      obtain ⟨status, herror⟩ | ⟨m', hparse', hfails⟩ := hfails
      · rw [hparse] at herror
        cases herror
      · rw [hparse] at hparse'
        cases hparse'
        exact ih hrest hfails
    next hn =>
      rw [if_neg hn] at h
      exact ih (h hwithin) hfails

/-- The records that a round passes. -/
def Passed (opts : DecodeOptions) (number : Nat) (kept : List Record) : Prop :=
  ∀ r ∈ kept, r.number ≠ number ∧ r.Within (WireReader.skipLevels opts.maxDepth)

theorem Passed.concat (h : Passed opts number kept) (hn : r.number ≠ number)
    (hw : r.Within (WireReader.skipLevels opts.maxDepth)) : Passed opts number (kept ++ [r]) := by
  intro r' hr'
  obtain hr' | hr' := List.mem_append.mp hr'
  · exact h r' hr'
  · obtain rfl := List.mem_singleton.mp hr'
    exact ⟨hn, hw⟩

/-- What the rounds find behind the records that they pass. -/
theorem findUnknown_kept (hsz : fr.size ≤ int32Max) (hkept : Passed opts number kept)
    (hbuf : fr.buf = bytesOf kept ++ bytesOf rs) :
    findUnknown fr number opts.maxDepth (3 * fr.size + 6) =
      findIn (WireReader.skipLevels opts.maxDepth) number (fr.base + (bytesOf kept).length) rs := by
  rw [findUnknown_run hsz (hbuf.trans (bytesOf_append kept rs).symm) (Nat.le_refl _), findIn_append hkept]

/-- A record behind those that are passed is parsed where it is. -/
theorem parse_kept (hbuf : fr.buf = bytesOf kept ++ bytesOf rs) (m : Option Message) :
    parseUnknownMessage env opts subTable fr.buf (((fr.base + (bytesOf kept).length : Nat) : Int) - fr.base).toNat m =
      parseUnknownMessage env opts subTable (bytesOf rs) 0 m := by
  rw [show (((fr.base + (bytesOf kept).length : Nat) : Int) - fr.base).toNat = (bytesOf kept).length by omega, hbuf,
    parseUnknownMessage_append]

/-- Without the record that was merged. -/
theorem delete_kept (hbuf : fr.buf = bytesOf kept ++ bytesOf (r :: rs)) :
    (fr.delete (((fr.base + (bytesOf kept).length : Nat) : Int) - fr.base).toNat (r.bytes.length : Int).toNat).buf =
      bytesOf kept ++ bytesOf rs := by
  rw [show (((fr.base + (bytesOf kept).length : Nat) : Int) - fr.base).toNat = (bytesOf kept).length by omega,
    Int.toNat_natCast, Frame.delete]
  dsimp only
  rw [hbuf, List.take_left' rfl, List.drop_append, bytesOf_cons, List.drop_eq_nil_of_le (Nat.le_add_right _ _),
    Nat.add_sub_cancel_left, List.nil_append, List.drop_left' rfl]

theorem size_delete_le (fr : Frame) (ofs len : Nat) : (fr.delete ofs len).size ≤ fr.size := by
  rw [Frame.size, Frame.size, Frame.delete, List.length_append, List.length_take, List.length_drop]
  omega

/-- **The loop ends** if the payloads parse. -/
theorem promoteLoop_merges (hsz : fr.size ≤ int32Max) (hkept : Passed opts number kept)
    (hbuf : fr.buf = bytesOf kept ++ bytesOf rs) (h : Merges env opts subTable number message rs) {fuel : Nat}
    (hfuel : rs.length < fuel) : ∃ r, promoteLoop env opts subTable spoil number fuel fr message = some r := by
  induction rs generalizing fr kept message fuel with
  | nil =>
    obtain ⟨fuel, rfl⟩ : ∃ k, fuel = k + 1 := ⟨fuel - 1, by omega⟩
    rw [promoteLoop, findUnknown_kept hsz hkept hbuf]
    exact ⟨_, rfl⟩
  | cons r rs ih =>
    rw [List.length_cons] at hfuel
    rw [Merges] at h
    by_cases hn : r.number = number
    · rw [if_pos hn] at h
      obtain ⟨hw, m, hparse, hrest⟩ := h
      obtain ⟨fuel, rfl⟩ : ∃ k, fuel = k + 1 := ⟨fuel - 1, by omega⟩
      rw [promoteLoop, findUnknown_kept hsz hkept hbuf, findIn, if_pos hn, if_pos hw]
      dsimp only [Option.bind_eq_bind, Option.bind_some]
      rw [parse_kept hbuf, hparse]
      exact ih (Nat.le_trans (size_delete_le _ _ _) hsz) hkept (delete_kept hbuf) hrest (by omega)
    · rw [if_neg hn] at h
      by_cases hw : r.Within (WireReader.skipLevels opts.maxDepth)
      · refine ih hsz (hkept.concat hn hw) ?_ (h hw) (by omega)
        rw [hbuf, bytesOf_append, bytesOf_cons, bytesOf_cons, List.append_assoc, List.append_assoc]
        rfl
      · obtain ⟨fuel, rfl⟩ : ∃ k, fuel = k + 1 := ⟨fuel - 1, by omega⟩
        rw [promoteLoop, findUnknown_kept hsz hkept hbuf, findIn, if_neg hn, if_neg hw]
        exact ⟨_, rfl⟩

/-- **The loop does not end** if a payload does not parse and the message stays as it is. -/
theorem promoteLoop_stuck (hsz : fr.size ≤ int32Max) (hkept : Passed opts number kept)
    (hbuf : fr.buf = bytesOf kept ++ bytesOf rs) (h : ¬Merges env opts subTable number message rs) (fuel : Nat) :
    promoteLoop env opts subTable id number fuel fr message = none := by
  induction rs generalizing fr kept message fuel with
  | nil => exact absurd trivial h
  | cons r rs ih =>
    rw [Merges] at h
    by_cases hn : r.number = number
    · rw [if_pos hn] at h
      -- the same record in every round
      induction fuel with
      | zero => rfl
      | succ fuel ihfuel =>
        rw [promoteLoop, findUnknown_kept hsz hkept hbuf, findIn, if_pos hn]
        by_cases hw : r.Within (WireReader.skipLevels opts.maxDepth)
        · rw [if_pos hw]
          dsimp only [Option.bind_eq_bind, Option.bind_some]
          rw [parse_kept hbuf]
          cases hparse : parseUnknownMessage env opts subTable (bytesOf (r :: rs)) 0 message with
          | none => rfl
          | some result =>
            cases result with
            | error status =>
              dsimp only [Option.bind_some]
              rw [Option.map_id]
              exact ihfuel
            | ok m =>
              have hrest : ¬Merges env opts subTable number (some m) rs := fun hrest => h ⟨hw, m, hparse, hrest⟩
              exact ih (Nat.le_trans (size_delete_le _ _ _) hsz) hkept (delete_kept hbuf) hrest fuel
        · rw [if_neg hw]
          rfl
    · rw [if_neg hn] at h
      obtain ⟨hw, hrest⟩ := Classical.not_imp.mp h
      refine ih hsz (hkept.concat hn hw) ?_ hrest fuel
      rw [hbuf, bytesOf_append, bytesOf_cons, bytesOf_cons, List.append_assoc, List.append_assoc]
      rfl

end Loop

/-- **`hpb_MiniTable_PromoteUnknownToMessage`** ends, and reports a payload that does not parse, if and only if the
payloads parse. -/
theorem promote_terminates_iff {fr : Frame} (hsz : fr.size ≤ int32Max) {rs : List Record} (hbuf : fr.buf = bytesOf rs)
    (env : DecodeEnv) (opts : DecodeOptions) (field : MiniTableField) (subTable : TableRef) (msg : Message) :
    PromoteReports env opts field subTable fr rs msg ↔ Merges env opts subTable field.number none rs := by
  have hkept : Passed opts field.number [] := fun r hr => absurd hr List.not_mem_nil
  constructor
  · intro h
    by_contra hnot
    obtain ⟨fuel, fr', msg', status, message, hrun, -⟩ := h id
    rw [promoteUnknownToMessage, promoteLoop_stuck hsz hkept hbuf hnot fuel] at hrun
    cases hrun
  · intro h spoil
    obtain ⟨⟨fr', status, message⟩, hrun⟩ : ∃ r, promoteLoop env opts subTable spoil field.number _ fr none = some r :=
      promoteLoop_merges hsz hkept hbuf h (Nat.lt_succ_self rs.length)
    have hfails := h.not_payloadFails
    cases message with
    | none => exact ⟨_, _, _, _, _, by rw [promoteUnknownToMessage, hrun]; rfl, fun hf => absurd hf hfails⟩
    | some m => exact ⟨_, _, _, _, _, by rw [promoteUnknownToMessage, hrun]; rfl, fun hf => absurd hf hfails⟩

/-- A message field 1. -/
def messageField : MiniTableField := ⟨1, 8, 0, 0, .message, FieldMode.scalar⟩

/-- An empty message in a field 1. -/
def emptyRecord : Record where
  number := 1
  wireType := .delimited
  bytes := [10, 0]
  wf := ⟨1, ⟨⟨0, by decide, ⟨nofun, by decide⟩, rfl, rfl⟩, by decide⟩,
    @ValueIn.delimited _ _ _ 1 2 0 ⟨0, by decide, ⟨nofun, by decide⟩, rfl, rfl⟩⟩

/-- An empty payload parses. -/
theorem promote_terminates_empty :
    PromoteReports groupEnv ⟨false, false, 0⟩ messageField (.table 0) (smallFrame [10, 0] (by decide)) [emptyRecord]
      Message.new :=
  (promote_terminates_iff (by decide) rfl groupEnv ⟨false, false, 0⟩ messageField (.table 0) Message.new).mpr <| by
    rw [Merges, if_pos (show emptyRecord.number = messageField.number from rfl)]
    exact ⟨within_of_delimited rfl _, Message.new, rfl, trivial⟩

/-- A payload that ends inside a field is found again and again, whatever a failed parse leaves. -/
theorem not_promote_terminates :
    parseUnknownMessage groupEnv ⟨false, false, 0⟩ (.table 0) [10, 1, 8] 0 none = some (.error .malformed) ∧
      (∀ spoil fuel, promoteUnknownToMessage groupEnv ⟨false, false, 0⟩ (.table 0) spoil messageField fuel
        (smallFrame [10, 1, 8] (by decide)) Message.new = none) ∧
      ¬PromoteReports groupEnv ⟨false, false, 0⟩ messageField (.table 0) (smallFrame [10, 1, 8] (by decide))
        [messageRecord] Message.new := by
  have hparse : parseUnknownMessage groupEnv ⟨false, false, 0⟩ (.table 0) [10, 1, 8] 0 none =
      some (.error .malformed) := rfl
  have hfind : findUnknown (smallFrame [10, 1, 8] (by decide)) 1 ((⟨false, false, 0⟩ : DecodeOptions).maxDepth : Nat)
      (3 * (smallFrame [10, 1, 8] (by decide)).size + 6) = some (.ok 4096 3) := by decide
  have hloop : ∀ spoil fuel, promoteLoop groupEnv ⟨false, false, 0⟩ (.table 0) spoil 1 fuel
      (smallFrame [10, 1, 8] (by decide)) none = none := by
    intro spoil fuel
    induction fuel with
    | zero => rfl
    | succ fuel ih =>
      rw [promoteLoop, hfind]
      dsimp only [Option.bind_eq_bind, Option.bind_some]
      rw [show (4096 - ((smallFrame [10, 1, 8] (by decide)).base : Int)).toNat = 0 from rfl,
        show (smallFrame [10, 1, 8] (by decide)).buf = [10, 1, 8] from rfl, hparse]
      exact ih
  have hnone : ∀ spoil fuel, promoteUnknownToMessage groupEnv ⟨false, false, 0⟩ (.table 0) spoil messageField fuel
      (smallFrame [10, 1, 8] (by decide)) Message.new = none := by
    intro spoil fuel
    rw [promoteUnknownToMessage, show promoteLoop _ _ _ spoil messageField.number fuel _ none = none from hloop spoil fuel]
    rfl
  refine ⟨hparse, hnone, fun h => ?_⟩
  obtain ⟨fuel, fr', msg', status, message, hrun, -⟩ := h id
  rw [hnone] at hrun
  cases hrun

end Hpb
