import Hpb.Io.TokenText
import Hpb.Text.UnknownRecords

/-!
# For which unknown fields the text is right

The numbers of `fixed32` and `fixed64` fields are printed behind `0x`, but with decimal digits. A payload is printed as a
block if its fields end with it or with a zero tag.

* `Right`: the text of a field stands for it,
* `holds`: the fields for which it does,
* `unknown_right_iff`: they are the ones.
-/

namespace Hpb

open UnknownItem

/-- A hexadecimal number behind `0x`. -/
def HexLiteral (text : List UInt8) (val : Nat) : Prop :=
  ∃ ds, text = Txtenc.chars "0x" ++ ds ∧ ds ≠ [] ∧ (∀ d ∈ ds, Tokenizer.isHexDigit d = true) ∧ numeral 16 ds = val

namespace UnknownItem

mutual

/-- **The text of a field stands for it**: a varint in decimal, a fixed number in hexadecimal, and a payload as a block
of fields that serialize to the whole of it or as a string. -/
def Right (options : TxtencOptions) (depth : Int) : UnknownItem → Prop
  | varint number val short => (varint number val short).valueText options depth = Decimal.decimal 1 val
  | fixed size number val short => HexLiteral ((fixed size number val short).valueText options depth) val
  | block _ payload items _ _ => serializeAll items = payload ∧ RightAll options (depth + 1) items
  | string number payload left short =>
    (string number payload left short).valueText options depth = Txtenc.stringText true payload
  | group _ items _ _ => RightAll options (depth + 1) items

def RightAll (options : TxtencOptions) (depth : Int) : List UnknownItem → Prop
  | [] => True
  | item :: items => item.Right options depth ∧ RightAll options (depth + item.left) items

end

mutual

/-- Fixed numbers are below ten, and blocks are read to the end and in canonical bytes. -/
def holds : UnknownItem → Bool
  | fixed _ _ val _ => decide (val < 10)
  | block _ _ items whole _ => whole && exactAll items && holdsAll items
  | group _ items _ _ => holdsAll items
  | _ => true

def holdsAll : List UnknownItem → Bool
  | [] => true
  | item :: items => item.holds && holdsAll items

end

end UnknownItem

/-! ### Digits -/

theorem digitValue_digit {d : Nat} (h : d < 10) : digitValue (Decimal.digit d) = d := by
  have hall : ∀ d < 10, digitValue (Decimal.digit d) = d := by decide
  exact hall d h

theorem isHexDigit_digit {d : Nat} (h : d < 10) : Tokenizer.isHexDigit (Decimal.digit d) = true := by
  have hall : ∀ d < 10, Tokenizer.isHexDigit (Decimal.digit d) = true := by decide
  exact hall d h

/-- The digits of a decimal numeral, read in another base. -/
theorem numeral_decimal (base prec n : Nat) :
    numeral base (Decimal.decimal prec n) = Nat.ofDigits base (Nat.digitsAppend 10 prec n) := by
  rw [numeral, Decimal.decimal, List.map_reverse, List.map_map, List.map_reverse, List.reverse_reverse]
  congr 1
  refine (List.map_congr_left fun d hd => ?_).trans (List.map_id _)
  exact digitValue_digit (Nat.lt_of_mem_digitsAppend (by decide) prec d hd)

/-- **Decimal digits are a hexadecimal numeral of the same number** only if there is one of them, but for zeros. -/
theorem numeral_decimal_eq_iff (prec n : Nat) : numeral 16 (Decimal.decimal prec n) = n ↔ n < 10 := by
  rw [numeral_decimal]
  have hten : Nat.ofDigits 10 (Nat.digitsAppend 10 prec n) = n := by
    rw [Nat.digitsAppend, Nat.ofDigits_append_replicate_zero, Nat.ofDigits_digits]
  constructor
  · intro h
    have hlt : ∀ d ∈ Nat.digitsAppend 10 prec n, d < 10 := fun d => Nat.lt_of_mem_digitsAppend (by decide) prec d
    revert h hten hlt
    cases Nat.digitsAppend 10 prec n with
    | nil =>
      rintro h - -
      rw [← h]
      decide
    | cons d ds =>
      intro hten h hlt
      have hle : Nat.ofDigits 10 ds ≤ Nat.ofDigits 16 ds := Nat.ofDigits_monotone ds (by decide)
      have hd := hlt d List.mem_cons_self
      rw [Nat.ofDigits_cons] at hten h
      omega
  · intro hlt
    rw [Nat.digitsAppend, Nat.ofDigits_append_replicate_zero]
    obtain rfl | hpos := Nat.eq_zero_or_pos n
    · rfl
    · rw [Nat.digits_of_lt 10 n (Nat.ne_of_gt hpos) hlt, Nat.ofDigits_singleton]

/-- The text of a fixed number is right for numbers of one digit. -/
theorem hexLiteral_iff {prec : Nat} (hprec : 0 < prec) (val : Nat) :
    HexLiteral (Txtenc.chars "0x" ++ Decimal.decimal prec val) val ↔ val < 10 := by
  rw [← numeral_decimal_eq_iff prec]
  constructor
  · rintro ⟨ds, heq, -, -, hval⟩
    rw [List.append_cancel_left heq, hval]
  · intro h
    refine ⟨_, rfl, ?_, fun d hd => ?_, h⟩
    · intro hnil
      rw [Decimal.decimal, List.map_eq_nil_iff, List.reverse_eq_nil_iff, Nat.digitsAppend, List.append_eq_nil_iff] at hnil
      have hzeros := List.replicate_eq_nil_iff _ |>.mp hnil.2
      rw [hnil.1, List.length_nil] at hzeros
      omega
    · obtain ⟨k, hk, rfl⟩ := List.mem_map.mp hd
      exact isHexDigit_digit (Nat.lt_of_mem_digitsAppend (by decide) prec k (List.mem_reverse.mp hk))

/-! ### Blocks -/

section Right

variable {mem : Nat → UInt8} {options : TxtencOptions}

/-- **The fields of a block serialize to its payload** if and only if they end with it and are in canonical bytes. -/
theorem serializeAll_eq_iff {ptr size mid last : Nat} {items : List UnknownItem} {endTag : Option Bool}
    (hsize : size < 2 ^ 64) (hfields : FieldsFrom mem (ptr + size) ptr items mid)
    (hend : EndFrom mem (ptr + size) 0 mid last endTag) :
    serializeAll items = memorySlice mem ptr size ↔ endTag.isNone = true ∧ exactAll items = true := by
  constructor
  · intro heq
    have hspell : Spells mem (ptr + size) ptr (serializeAll items) := by
      rw [heq]
      exact spells_slice (Nat.le_refl _)
    obtain ⟨hexact, rfl⟩ := hfields.of_spells (by omega) hspell
    rw [heq, length_memorySlice] at hend
    cases hend with
    | done => exact ⟨rfl, hexact⟩
    | tag hlt => exact absurd hlt (Nat.lt_irrefl _)
  · rintro ⟨hwhole, hexact⟩
    cases hend with
    | tag => cases hwhole
    | done =>
      obtain ⟨hspell, hlast⟩ := hfields.spells (Nat.le_refl _) hexact
      obtain rfl : size = (serializeAll items).length := by omega
      exact hspell.1.symm

mutual

/-- The text of a field that is read is right if and only if `holds`. -/
theorem ItemFrom.right_iff : ∀ {stop ptr last : Nat} {item : UnknownItem}, ItemFrom mem stop ptr item last →
    ∀ depth : Int, item.Right options depth ↔ item.holds = true
  | _, _, _, _, .varint _ _ _, _ => iff_of_true rfl rfl
  | _, _, _, _, @ItemFrom.fixed _ stop ptr tag n size htag hw, _ => by
    have hpos : 0 < 2 * size := by
      obtain ⟨-, rfl⟩ | ⟨-, rfl⟩ := hw <;> decide
    rw [Right, valueText, hexLiteral_iff hpos, holds, decide_eq_true_iff]
  | _, _, _, _, @ItemFrom.block _ stop ptr tag n m size mid last items endTag htag hw hsize hfields hend, depth => by
    have hlt := (readVarint_of_readSize hsize).1
    rw [Right, holds, serializeAll_eq_iff (by omega) hfields hend, hfields.right_iff (depth + 1), Bool.and_eq_true_iff,
      Bool.and_eq_true_iff]
  | _, _, _, _, .string _ _ _, _ => iff_of_true rfl rfl
  | _, _, _, _, .group _ _ hfields _, depth => hfields.right_iff (depth + 1)

theorem FieldsFrom.right_iff : ∀ {stop ptr last : Nat} {items : List UnknownItem}, FieldsFrom mem stop ptr items last →
    ∀ depth : Int, RightAll options depth items ↔ holdsAll items = true
  | _, _, _, _, .nil, _ => iff_of_true trivial rfl
  | _, _, _, _, @FieldsFrom.cons _ stop ptr mid last item items hitem hitems, depth => by
    rw [RightAll, holdsAll, Bool.and_eq_true_iff, hitem.right_iff depth, hitems.right_iff (depth + item.left)]

end

end Right

/-- **The text of unknown fields** is right if and only if all their fixed numbers are below ten, and every payload that
is printed as a block is read to its end and consists of canonical bytes. -/
theorem unknown_right_iff {mem : Nat → UInt8} {fuel ptr size : Nat} {e e' : Txtenc} {place : UnknownStream × Nat}
    (h : Txtenc.unknown mem fuel e ptr (.init ptr size) (-1) = some (e', some place)) :
    ∃ (r : UnknownRead) (mid : Nat), readUnknown mem fuel ptr (.init ptr size) (-1) = some (.ok r) ∧
      FieldsFrom mem (ptr + size) ptr r.items mid ∧ EndFrom mem (ptr + size) 0 mid r.ptr r.endTag ∧
      e.Writes (itemsText e.options e.indentDepth r.items) (leftAll r.items) e' ∧
      (RightAll e.options e.indentDepth r.items ↔ holdsAll r.items = true) := by
  have hrun := (Txtenc.unknown_agrees mem fuel).1 e ptr (.init ptr size) (-1)
  rw [h] at hrun
  cases hread : readUnknown mem fuel ptr (.init ptr size) (-1) with
  | none =>
    rw [hread] at hrun
    cases hrun
  | some r =>
    rw [hread] at hrun
    cases hrun with
    | @read r _ hwrites =>
      obtain ⟨-, mid, hfields, hend⟩ := (reads mem fuel).1 _ _ _ _ hread
      exact ⟨r, mid, rfl, hfields, hend, hwrites, hfields.right_iff e.indentDepth⟩

/-- The field `1: 0x00000009`. -/
theorem unknown_right_iff_nine : ∃ r : UnknownRead,
    readUnknown (memoryOf [13, 9, 0, 0, 0]) 8 0 (.init 0 5) (-1) = some (.ok r) ∧ RightAll ⟨false, false, false⟩ 0 r.items := by
  have hrun : Txtenc.unknown (memoryOf [13, 9, 0, 0, 0]) 8 (.new ⟨false, false, false⟩ []) 0 (.init 0 5) (-1) =
      some ((Txtenc.new ⟨false, false, false⟩ []).indent.printf (Txtenc.chars "1: ")
        |>.printf (Txtenc.chars "0x00000009") |>.endField, some (⟨5, true⟩, 5)) := by decide +kernel
  obtain ⟨r, mid, hread, -, -, -, hright⟩ := unknown_right_iff hrun
  have hholds : (readUnknown (memoryOf [13, 9, 0, 0, 0]) 8 0 (.init 0 5) (-1)).map
      (fun x => x.map fun r => holdsAll r.items) = some (.ok true) := by decide +kernel
  rw [hread] at hholds
  exact ⟨r, hread, hright.mpr (Except.ok.inj (Option.some.inj hholds))⟩

/-- The number 16 in a `fixed32` field is printed as `0x00000016`. -/
theorem not_unknown_right : ¬∀ (mem : Nat → UInt8) (fuel ptr size : Nat) (e e' : Txtenc) (place : UnknownStream × Nat)
    (r : UnknownRead), Txtenc.unknown mem fuel e ptr (.init ptr size) (-1) = some (e', some place) →
      readUnknown mem fuel ptr (.init ptr size) (-1) = some (.ok r) → RightAll e.options e.indentDepth r.items := by
  intro h
  have hrun : Txtenc.unknown (memoryOf [13, 16, 0, 0, 0]) 8 (.new ⟨false, false, false⟩ []) 0 (.init 0 5) (-1) =
      some ((Txtenc.new ⟨false, false, false⟩ []).indent.printf (Txtenc.chars "1: ")
        |>.printf (Txtenc.chars "0x00000016") |>.endField, some (⟨5, true⟩, 5)) := by decide +kernel
  have hholds : (readUnknown (memoryOf [13, 16, 0, 0, 0]) 8 0 (.init 0 5) (-1)).map
      (fun x => x.map fun r => holdsAll r.items) = some (.ok false) := by decide +kernel
  match hread : readUnknown (memoryOf [13, 16, 0, 0, 0]) 8 0 (.init 0 5) (-1) with
  | none =>
    rw [hread] at hholds
    cases hholds
  | some (.error left) =>
    rw [hread] at hholds
    cases hholds
  | some (.ok r) =>
    rw [hread] at hholds
    obtain ⟨-, mid, hfields, -⟩ := (reads _ _).1 _ _ _ _ hread
    have hright := (hfields.right_iff 0).mp (h _ _ _ _ _ _ _ r hrun hread)
    have hfalse : holdsAll r.items = false := Except.ok.inj (Option.some.inj hholds)
    rw [hfalse] at hright
    cases hright

/-- A payload of a zero byte and another one is printed as a block without fields. -/
example : (Txtenc.unknown (memoryOf [10, 2, 0, 5]) 8 (.new ⟨true, false, false⟩ (List.replicate 16 0)) 0 (.init 0 4)
    (-1)).map (fun r => r.1.out.buf.take r.1.out.pos) = some (Txtenc.chars "1: \x7b \x7d ") := by
  decide +kernel

end Hpb
