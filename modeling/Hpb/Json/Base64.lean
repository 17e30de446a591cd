import Hpb.Json.StringRoundTrip
import Hpb.MiniDescriptor.Base92

/-!
# Base64 for the fields of bytes

`jsondec_base64` decodes in place: it writes three bytes where it has read four characters. It looks a character up at
`(unsigned)ch` in a table of 256 entries, and `char` is signed: a byte from `0x80` on is looked up outside of the table.

* `Base64`: the texts over the two alphabets, with padding or without, and the bytes they denote,
* `looked`: the characters that are looked up, up to the first group of four that is no group of digits,
* `base64_right_iff`: the decoder accepts exactly those texts and stays inside its buffer if and only if no byte from
  `0x80` on is looked up, and what `jsonenc_bytes` writes is read back.
-/

namespace Hpb

namespace Jsonenc

/-- The array of `jsonenc_bytes`. -/
def base64Alphabet : List UInt8 := ascii "ABCDEFGHIJKLMNOPQRSTUVWXYZabcdefghijklmnopqrstuvwxyz0123456789+/"

/-- `base64[i]`, for an `i` below 64. -/
def base64Char (i : UInt8) : UInt8 := base64Alphabet.getD i.toNat 0

/-- What `jsonenc_bytes` writes between the quotes. -/
def base64 : List UInt8 → List UInt8
  | p₀ :: p₁ :: p₂ :: ptr =>
    base64Char (p₀ >>> 2) :: base64Char ((p₀ &&& 0x3) <<< 4 ||| p₁ >>> 4) ::
      base64Char ((p₁ &&& 0xf) <<< 2 ||| p₂ >>> 6) :: base64Char (p₂ &&& 0x3f) :: base64 ptr
  | [p₀, p₁] =>
    [base64Char (p₀ >>> 2), base64Char ((p₀ &&& 0x3) <<< 4 ||| p₁ >>> 4), base64Char ((p₁ &&& 0xf) <<< 2), '='.toUInt8]
  | [p₀] => [base64Char (p₀ >>> 2), base64Char ((p₀ &&& 0x3) <<< 4), '='.toUInt8, '='.toUInt8]
  | [] => []

/-- `jsonenc_bytes`. -/
def bytes (str : List UInt8) : List UInt8 := ascii "\"" ++ base64 str ++ ascii "\""

end Jsonenc

/-- How `jsondec_base64` ends without a result. -/
inductive Base64Failure where
  /-- `jsondec_err`. -/
  | error (fmt : String)
  /-- There is no such entry in the table. -/
  | outsideTable
  /-- There is no such byte in the buffer. -/
  | outsideBuffer
  deriving DecidableEq

abbrev Base64M : Type → Type := Except Base64Failure

namespace Jsondec

/-- `table` in `jsondec_base64_tablelookup`. -/
def base64Table : List Int :=
  List.replicate 43 (-1) ++ [62 /- + -/, -1, 62 /- - -/, -1, 63 /- / -/] ++
    [52, 53, 54, 55, 56, 57, 58, 59, 60, 61] ++ List.replicate 7 (-1) ++
    [0, 1, 2, 3, 4, 5, 6, 7, 8, 9, 10, 11, 12, 13, 14, 15, 16, 17, 18, 19, 20, 21, 22, 23, 24, 25] ++
    [-1, -1, -1, -1, 63 /- _ -/, -1] ++
    [26, 27, 28, 29, 30, 31, 32, 33, 34, 35, 36, 37, 38, 39, 40, 41, 42, 43, 44, 45, 46, 47, 48, 49, 50, 51] ++
    List.replicate 133 (-1)

/-- `jsondec_base64_tablelookup`. -/
def base64TableLookup (ch : UInt8) : Base64M UInt32 :=
  match base64Table[(wrapUInt32 (charValue ch)).toNat]? with
  | some v => .ok (wrapUInt32 v)
  | none => .error .outsideTable

/-- A character of the buffer, looked up. -/
def base64Lookup (buf : List UInt8) (i : Nat) : Base64M UInt32 :=
  match buf[i]? with
  | some ch => base64TableLookup ch
  | none => .error .outsideBuffer

/-- `out[i] = b`. -/
def base64Put (buf : List UInt8) (i : Nat) (b : UInt8) : Base64M (List UInt8) :=
  if i < buf.length then .ok (buf.set i b) else .error .outsideBuffer

/-- `val < 0`, as an `int`. -/
def base64Negative (val : UInt32) : Prop := 0x80000000 ≤ val

instance (val : UInt32) : Decidable (base64Negative val) := inferInstanceAs (Decidable (_ ≤ _))

/-- `jsondec_partialbase64`: the buffer and `out`. -/
def partialbase64 (buf : List UInt8) (ptr end_ out : Nat) : Base64M (List UInt8 × Nat) := do
  match end_ - ptr with
  | 2 =>
    let val := (← base64Lookup buf ptr) <<< 18 ||| (← base64Lookup buf (ptr + 1)) <<< 12
    let buf ← base64Put buf out (val >>> 16).toUInt8
    if base64Negative val then .error (.error "Corrupt base64") else return (buf, out + 1)
  | 3 =>
    let val := (← base64Lookup buf ptr) <<< 18 ||| (← base64Lookup buf (ptr + 1)) <<< 12 |||
      (← base64Lookup buf (ptr + 2)) <<< 6
    let buf ← base64Put buf out (val >>> 16).toUInt8
    let buf ← base64Put buf (out + 1) (val >>> 8 &&& 0xff).toUInt8
    if base64Negative val then .error (.error "Corrupt base64") else return (buf, out + 2)
  | _ => .error (.error "Corrupt base64")

/-- The loop of `jsondec_base64`, with `n` groups of four left: the buffer, `ptr`, `end` and `out`. -/
def base64Loop : Nat → List UInt8 → Nat → Nat → Nat → Base64M (List UInt8 × Nat × Nat × Nat)
  | 0, buf, ptr, end_, out => return (buf, ptr, end_, out)
  | n + 1, buf, ptr, end_, out => do
    let val := (← base64Lookup buf ptr) <<< 18 ||| (← base64Lookup buf (ptr + 1)) <<< 12 |||
      (← base64Lookup buf (ptr + 2)) <<< 6 ||| (← base64Lookup buf (ptr + 3)) <<< 0
    if base64Negative val then
      if end_ - ptr = 4 ∧ buf[ptr + 3]? = some '='.toUInt8 then
        if buf[ptr + 2]? = some '='.toUInt8 then return (buf, ptr, end_ - 2, out)
        else return (buf, ptr, end_ - 1, out)
      else return (buf, ptr, end_, out)
    else
      let buf ← base64Put buf out (val >>> 16).toUInt8
      let buf ← base64Put buf (out + 1) (val >>> 8 &&& 0xff).toUInt8
      let buf ← base64Put buf (out + 2) (val &&& 0xff).toUInt8
      base64Loop n buf (ptr + 4) end_ (out + 3)

/-- `jsondec_base64`: the buffer and the size of what was decoded. -/
def base64 (str : List UInt8) : Base64M (List UInt8 × Nat) := do
  let (buf, ptr, end_, out) ← base64Loop (str.length / 4) str 0 str.length 0
  if ptr < end_ then partialbase64 buf ptr end_ out else return (buf, out)

/-! ### The texts -/

/-- The value of a digit in the standard or the URL-safe alphabet. -/
def sextet (ch : UInt8) : Option Nat :=
  if ch = '-'.toUInt8 then some 62
  else if ch = '_'.toUInt8 then some 63
  else Jsonenc.base64Alphabet.findIdx? (· = ch)

/-- The bytes of a group of four digits. -/
def groupBytes (w x y z : Nat) : List UInt8 :=
  [UInt8.ofNat (w * 4 + x / 16), UInt8.ofNat (x % 16 * 16 + y / 4), UInt8.ofNat (y % 4 * 64 + z)]

/-- A base64 text, with padding or without, and the bytes that it denotes. -/
inductive Base64 : List UInt8 → List UInt8 → Prop where
  | nil : Base64 [] []
  | group {a b c d : UInt8} {w x y z : Nat} {t bytes : List UInt8} (ha : sextet a = some w) (hb : sextet b = some x)
      (hc : sextet c = some y) (hd : sextet d = some z) (h : Base64 t bytes) :
      Base64 (a :: b :: c :: d :: t) (groupBytes w x y z ++ bytes)
  | two {a b : UInt8} {w x : Nat} {pad : List UInt8} (ha : sextet a = some w) (hb : sextet b = some x)
      (hpad : pad = [] ∨ pad = ['='.toUInt8, '='.toUInt8]) : Base64 (a :: b :: pad) ((groupBytes w x 0 0).take 1)
  | three {a b c : UInt8} {w x y : Nat} {pad : List UInt8} (ha : sextet a = some w) (hb : sextet b = some x)
      (hc : sextet c = some y) (hpad : pad = [] ∨ pad = ['='.toUInt8]) :
      Base64 (a :: b :: c :: pad) ((groupBytes w x y 0).take 2)

/-- The characters that are looked up. -/
def looked : List UInt8 → List UInt8
  | a :: b :: c :: d :: t =>
    a :: b :: c :: d :: if [a, b, c, d].all fun ch => (sextet ch).isSome then looked t else []
  | [a, b, c] => [a, b, c]
  | [a, b] => [a, b]
  | _ => []

/-- **`jsondec_base64` accepts the base64 texts**, returns the bytes they denote, and stays inside its buffer and its
table. -/
structure Base64Right (str : List UInt8) : Prop where
  accepts : ∀ bytes, (∃ buf n, base64 str = .ok (buf, n) ∧ buf.take n = bytes) ↔ Base64 str bytes
  insideBuffer : base64 str ≠ .error .outsideBuffer
  insideTable : base64 str ≠ .error .outsideTable

/-! ### Digits -/

/-- What a lookup in the table gives. -/
def digitVal (ch : UInt8) : UInt32 :=
  match sextet ch with
  | some w => UInt32.ofNat w
  | none => 0xffffffff

theorem tableLookup_eq (ch : UInt8) : base64TableLookup ch =
    if ch < 0x80 then .ok (digitVal ch) else .error .outsideTable := by
  have hall : ∀ n : Fin 256, base64TableLookup (UInt8.ofFin n) =
      if UInt8.ofFin n < 0x80 then .ok (digitVal (UInt8.ofFin n)) else .error .outsideTable := by decide +kernel
  exact hall ch.toFin

theorem length_base64Alphabet : Jsonenc.base64Alphabet.length = 64 := by decide +kernel

theorem sextet_mem {ch : UInt8} {w : Nat} (h : sextet ch = some w) :
    w < 64 ∧ ch ∈ '-'.toUInt8 :: '_'.toUInt8 :: Jsonenc.base64Alphabet := by
  rw [sextet] at h
  split at h
  next hc =>
    cases h
    exact ⟨by decide, hc ▸ List.mem_cons_self⟩
  next =>
    split at h
    next hc =>
      cases h
      exact ⟨by decide, hc ▸ List.mem_cons_of_mem _ List.mem_cons_self⟩
    next =>
      obtain ⟨hw, hget, -⟩ := List.findIdx?_eq_some_iff_getElem.mp h
      rw [length_base64Alphabet] at hw
      refine ⟨hw, List.mem_cons_of_mem _ (List.mem_cons_of_mem _ ?_)⟩
      exact of_decide_eq_true hget ▸ List.getElem_mem _

/-- The digits are ASCII characters that strings hold as they are. -/
theorem sextet_plain {ch : UInt8} {w : Nat} (h : sextet ch = some w) : ch < 0x80 ∧ Plain ch := by
  have hall : (('-'.toUInt8 :: '_'.toUInt8 :: Jsonenc.base64Alphabet).all fun b =>
      decide (b < 0x80) && decide (Plain b)) = true := by decide +kernel
  have hch := List.all_eq_true.mp hall ch (sextet_mem h).2
  rw [Bool.and_eq_true, decide_eq_true_eq, decide_eq_true_eq] at hch
  exact hch

theorem sextet_lt {ch : UInt8} {w : Nat} (h : sextet ch = some w) : w < 64 ∧ ch < 0x80 :=
  ⟨(sextet_mem h).1, (sextet_plain h).1⟩

theorem digitVal_some {ch : UInt8} {w : Nat} (h : sextet ch = some w) : digitVal ch = UInt32.ofNat w := by
  rw [digitVal, h]

/-- The sign shows whether a character is no digit. -/
theorem negative_digitVal (ch : UInt8) (k : UInt32) (hk : k ∈ [0, 6, 12, 18]) :
    base64Negative (digitVal ch <<< k) ↔ sextet ch = none := by
  cases h : sextet ch with
  | none =>
    rw [digitVal, h]
    have hall : ([0, 6, 12, 18].all fun k : UInt32 => decide (base64Negative (0xffffffff <<< k))) = true := by decide
    exact iff_of_true (of_decide_eq_true (List.all_eq_true.mp hall k hk)) rfl
  | some w =>
    rw [digitVal, h]
    have hall : ([0, 6, 12, 18].all fun k : UInt32 =>
        decide (∀ w : Nat, w < 64 → ¬base64Negative (UInt32.ofNat w <<< k))) = true := by decide +kernel
    exact iff_of_false (of_decide_eq_true (List.all_eq_true.mp hall k hk) w (sextet_lt h).1) (Option.some_ne_none w)

theorem negative_or (a b : UInt32) : base64Negative (a ||| b) ↔ base64Negative a ∨ base64Negative b := by
  have hbound : ∀ c : UInt32, base64Negative c ↔ ¬c.toNat < 2 ^ 31 := fun c => Nat.not_lt.symm
  rw [hbound, hbound, hbound, UInt32.toNat_or, ← not_and_or, not_iff_not]
  constructor
  · exact fun h => ⟨Nat.lt_of_le_of_lt Nat.left_le_or h, Nat.lt_of_le_of_lt Nat.right_le_or h⟩
  · exact fun h => Nat.or_lt_two_pow h.1 h.2

theorem negative_group (a b c d : UInt8) :
    base64Negative (digitVal a <<< 18 ||| digitVal b <<< 12 ||| digitVal c <<< 6 ||| digitVal d <<< 0) ↔
      ∃ ch ∈ [a, b, c, d], sextet ch = none := by
  rw [negative_or, negative_or, negative_or, negative_digitVal a _ (by decide), negative_digitVal b _ (by decide),
    negative_digitVal c _ (by decide), negative_digitVal d _ (by decide)]
  simp [or_assoc]

/-- The 24 bits of a group of four digits. -/
theorem groupVal_toNat {w x y z : Nat} (hw : w < 64) (hx : x < 64) (hy : y < 64) (hz : z < 64) :
    (UInt32.ofNat w <<< 18 ||| UInt32.ofNat x <<< 12 ||| UInt32.ofNat y <<< 6 ||| UInt32.ofNat z <<< 0).toNat =
      w * 262144 + x * 4096 + y * 64 + z := by
  have hor : ∀ {a b : Nat} (i : Nat), b < 2 ^ i → a * 2 ^ i ||| b = a * 2 ^ i + b := fun i hb => by
    rw [← Nat.shiftLeft_eq, Nat.shiftLeft_add_eq_or_of_lt hb]
  have hw' : (UInt32.ofNat w <<< 18).toNat = w * 2 ^ 18 := by
    simp [Nat.shiftLeft_eq]
    omega
  have hx' : (UInt32.ofNat x <<< 12).toNat = x * 2 ^ 12 := by
    simp [Nat.shiftLeft_eq]
    omega
  have hy' : (UInt32.ofNat y <<< 6).toNat = y * 2 ^ 6 := by
    simp [Nat.shiftLeft_eq]
    omega
  have hz' : (UInt32.ofNat z <<< 0).toNat = z := by
    simp
    omega
  rw [UInt32.toNat_or, UInt32.toNat_or, UInt32.toNat_or, hw', hx', hy', hz', hor 18 (by omega),
    show w * 2 ^ 18 + x * 2 ^ 12 = (w * 64 + x) * 2 ^ 12 by omega, hor 12 (by omega),
    show (w * 64 + x) * 2 ^ 12 + y * 2 ^ 6 = ((w * 64 + x) * 64 + y) * 2 ^ 6 by omega, hor 6 (by omega)]
  omega

/-- The three bytes that are written for a group. -/
theorem groupBytes_eq {a b c d : UInt8} {w x y z : Nat} {v : UInt32} (ha : sextet a = some w) (hb : sextet b = some x)
    (hc : sextet c = some y) (hd : sextet d = some z)
    (hv : v = digitVal a <<< 18 ||| digitVal b <<< 12 ||| digitVal c <<< 6 ||| digitVal d <<< 0) :
    groupBytes w x y z = [(v >>> 16).toUInt8, (v >>> 8 &&& 0xff).toUInt8, (v &&& 0xff).toUInt8] := by
  have hy := (sextet_lt hc).1
  have hz := (sextet_lt hd).1
  have hv := hv.trans (by rw [digitVal_some ha, digitVal_some hb, digitVal_some hc, digitVal_some hd])
  have hv := (congrArg UInt32.toNat hv).trans (groupVal_toNat (sextet_lt ha).1 (sextet_lt hb).1 hy hz)
  have hand : ∀ n : Nat, n &&& 255 = n % 256 := fun n => Nat.and_two_pow_sub_one_eq_mod n 8
  have h₁ : (v >>> 16).toUInt8 = UInt8.ofNat (w * 4 + x / 16) := by
    rw [← UInt8.toNat_inj]
    simp [hv, Nat.shiftRight_eq_div_pow]
    omega
  have h₂ : (v >>> 8 &&& 0xff).toUInt8 = UInt8.ofNat (x % 16 * 16 + y / 4) := by
    rw [← UInt8.toNat_inj]
    simp [hv, Nat.shiftRight_eq_div_pow, hand]
    omega
  have h₃ : (v &&& 0xff).toUInt8 = UInt8.ofNat (y % 4 * 64 + z) := by
    rw [← UInt8.toNat_inj]
    simp [hv, hand]
    omega
  rw [h₁, h₂, h₃, groupBytes]

/-! ### The rounds of the loop -/

section Rounds

variable {buf t : List UInt8} {ptr end_ out n : Nat} {a b c d : UInt8}

theorem lookup_low (h : buf[ptr]? = some a) (ha : a < 0x80) : base64Lookup buf ptr = .ok (digitVal a) := by
  rw [base64Lookup, h]
  exact (tableLookup_eq a).trans (if_pos ha)

theorem lookup_high (h : buf[ptr]? = some a) (ha : ¬a < 0x80) : base64Lookup buf ptr = .error .outsideTable := by
  rw [base64Lookup, h]
  exact (tableLookup_eq a).trans (if_neg ha)

theorem put_ok (h : out < buf.length) (b : UInt8) : base64Put buf out b = .ok (buf.set out b) := if_pos h

theorem take_set (h : out < buf.length) (b : UInt8) : (buf.set out b).take (out + 1) = buf.take out ++ [b] := by
  rw [List.take_succ_eq_append_getElem (by simpa using h), List.take_set_of_le (Nat.le_refl _), List.getElem_set_self]

theorem get_of_drop {l : List UInt8} (h : buf.drop ptr = l) (i : Nat) : buf[ptr + i]? = l[i]? := by
  rw [← h, List.getElem?_drop]

/-- A character outside of the table is found at once. -/
theorem bind_outside {α β : Type} {x : Base64M α} {f : α → Base64M β} {e : Base64Failure} (h : x = .error e) :
    (x >>= f) = .error e := by
  rw [h]
  rfl

theorem bind_value {α β : Type} {x : Base64M α} {f : α → Base64M β} {v : α} (h : x = .ok v) : (x >>= f) = f v := by
  rw [h]
  rfl

theorem partial_two (hbuf : buf.drop ptr = a :: b :: t) (hend : end_ - ptr = 2) (hout : out < buf.length)
    (hlow : a < 0x80 ∧ b < 0x80) {v : UInt32} (hv : v = digitVal a <<< 18 ||| digitVal b <<< 12) :
    partialbase64 buf ptr end_ out = if base64Negative v then .error (.error "Corrupt base64")
      else .ok (buf.set out (v >>> 16).toUInt8, out + 1) := by
  have ha := lookup_low (get_of_drop hbuf 0) hlow.1
  have hb := lookup_low (get_of_drop hbuf 1) hlow.2
  rw [partialbase64, hend]
  refine (bind_value ha).trans ((bind_value hb).trans ?_)
  rw [← hv, bind_value (put_ok hout _)]
  rfl

theorem partial_three (hbuf : buf.drop ptr = a :: b :: c :: t) (hend : end_ - ptr = 3) (hout : out + 1 < buf.length)
    (hlow : a < 0x80 ∧ b < 0x80 ∧ c < 0x80) {v : UInt32}
    (hv : v = digitVal a <<< 18 ||| digitVal b <<< 12 ||| digitVal c <<< 6) :
    partialbase64 buf ptr end_ out = if base64Negative v then .error (.error "Corrupt base64")
      else .ok ((buf.set out (v >>> 16).toUInt8).set (out + 1) (v >>> 8 &&& 0xff).toUInt8, out + 2) := by
  have ha := lookup_low (get_of_drop hbuf 0) hlow.1
  have hb := lookup_low (get_of_drop hbuf 1) hlow.2.1
  have hc := lookup_low (get_of_drop hbuf 2) hlow.2.2
  rw [partialbase64, hend]
  refine (bind_value ha).trans ((bind_value hb).trans ((bind_value hc).trans ?_))
  rw [← hv, bind_value (put_ok (by omega) _), bind_value (put_ok (by simpa using hout) _)]
  rfl

theorem loop_low (end_ : Nat) (hbuf : buf.drop ptr = a :: b :: c :: d :: t)
    (hlow : a < 0x80 ∧ b < 0x80 ∧ c < 0x80 ∧ d < 0x80)
    (hout : out + 2 < buf.length) {v : UInt32}
    (hv : v = digitVal a <<< 18 ||| digitVal b <<< 12 ||| digitVal c <<< 6 ||| digitVal d <<< 0) :
    base64Loop (n + 1) buf ptr end_ out =
      if base64Negative v then
        if end_ - ptr = 4 ∧ d = '='.toUInt8 then
          if c = '='.toUInt8 then .ok (buf, ptr, end_ - 2, out) else .ok (buf, ptr, end_ - 1, out)
        else .ok (buf, ptr, end_, out)
      else
        base64Loop n (((buf.set out (v >>> 16).toUInt8).set (out + 1) (v >>> 8 &&& 0xff).toUInt8).set (out + 2)
          (v &&& 0xff).toUInt8) (ptr + 4) end_ (out + 3) := by
  have hc := get_of_drop hbuf 2
  have hd := get_of_drop hbuf 3
  have hla := lookup_low (get_of_drop hbuf 0) hlow.1
  have hlb := lookup_low (get_of_drop hbuf 1) hlow.2.1
  have hlc := lookup_low hc hlow.2.2.1
  have hld := lookup_low hd hlow.2.2.2
  rw [base64Loop]
  refine (bind_value hla).trans ((bind_value hlb).trans ((bind_value hlc).trans ((bind_value hld).trans ?_)))
  rw [← hv, hc, hd]
  simp only [List.getElem?_cons_succ, List.getElem?_cons_zero, Option.some.injEq]
  rw [bind_value (put_ok (by omega) _), bind_value (put_ok (by simp; omega) _),
    bind_value (put_ok (by simp; omega) _)]
  rfl

/-- What `jsondec_partialbase64` does with some characters: the bytes if they are digits, an error if one of them is
none. -/
structure PartialEnds (x : Base64M (List UInt8 × Nat)) (pre chars : List UInt8) (bytes : List Nat → List UInt8) :
    Prop where
  accepts : ∀ digits, chars.map sextet = digits.map some → ∃ buf n, x = .ok (buf, n) ∧ buf.take n = pre ++ bytes digits
  rejects : (∀ ch ∈ chars, ch < 0x80) → (∃ ch ∈ chars, sextet ch = none) → x = .error (.error "Corrupt base64")
  outside : (∃ ch ∈ chars, ¬ch < 0x80) → x = .error .outsideTable

theorem digitVal_A : sextet 'A'.toUInt8 = some 0 ∧ digitVal 'A'.toUInt8 = 0 := by decide

theorem partial_two_ends (hbuf : buf.drop ptr = a :: b :: t) (hend : end_ - ptr = 2) (hout : out < buf.length) :
    PartialEnds (partialbase64 buf ptr end_ out) (buf.take out) [a, b]
      fun digits => (groupBytes (digits.getD 0 0) (digits.getD 1 0) 0 0).take 1 where
  accepts := by
    rintro digits hdigits
    obtain ⟨w, x, rfl⟩ := List.length_eq_two.mp (by simpa using (congrArg List.length hdigits).symm)
    simp only [List.map_cons, List.map_nil, List.cons.injEq, and_true] at hdigits
    obtain ⟨ha, hb⟩ := hdigits
    have hrun := partial_two hbuf hend hout ⟨(sextet_lt ha).2, (sextet_lt hb).2⟩ rfl
    rw [if_neg (by simp [negative_or, negative_digitVal, ha, hb])] at hrun
    refine ⟨_, _, hrun, ?_⟩
    rw [take_set hout]
    have hbytes := groupBytes_eq ha hb digitVal_A.1 digitVal_A.1 rfl
    simp only [digitVal_A.2, UInt32.zero_shiftLeft, UInt32.or_zero] at hbytes
    simp [hbytes]
  rejects := by
    intro hlow hnone
    simp only [List.mem_cons, List.not_mem_nil, or_false, forall_eq_or_imp, forall_eq, exists_eq_or_imp,
      exists_eq_left] at hlow hnone
    rw [partial_two hbuf hend hout hlow rfl, if_pos (by simpa [negative_or, negative_digitVal] using hnone)]
  outside := by
    simp only [List.mem_cons, List.not_mem_nil, or_false, exists_eq_or_imp, exists_eq_left]
    intro hhigh
    rw [partialbase64, hend]
    by_cases ha : a < 0x80
    · exact (bind_value (lookup_low (get_of_drop hbuf 0) ha)).trans
        (bind_outside (lookup_high (get_of_drop hbuf 1) (hhigh.resolve_left fun h => h ha)))
    · exact bind_outside (lookup_high (get_of_drop hbuf 0) ha)

theorem partial_three_ends (hbuf : buf.drop ptr = a :: b :: c :: t) (hend : end_ - ptr = 3)
    (hout : out + 1 < buf.length) : PartialEnds (partialbase64 buf ptr end_ out) (buf.take out) [a, b, c]
      fun digits => (groupBytes (digits.getD 0 0) (digits.getD 1 0) (digits.getD 2 0) 0).take 2 where
  accepts := by
    rintro digits hdigits
    obtain ⟨w, x, y, rfl⟩ := List.length_eq_three.mp (by simpa using (congrArg List.length hdigits).symm)
    simp only [List.map_cons, List.map_nil, List.cons.injEq, and_true] at hdigits
    obtain ⟨ha, hb, hc⟩ := hdigits
    have hrun := partial_three hbuf hend hout ⟨(sextet_lt ha).2, (sextet_lt hb).2, (sextet_lt hc).2⟩ rfl
    rw [if_neg (by simp [negative_or, negative_digitVal, ha, hb, hc])] at hrun
    refine ⟨_, _, hrun, ?_⟩
    rw [take_set (by simpa using hout), take_set (by omega)]
    have hbytes := groupBytes_eq ha hb hc digitVal_A.1 rfl
    simp only [digitVal_A.2, UInt32.zero_shiftLeft, UInt32.or_zero] at hbytes
    simp [hbytes]
  rejects := by
    intro hlow hnone
    simp only [List.mem_cons, List.not_mem_nil, or_false, forall_eq_or_imp, forall_eq, exists_eq_or_imp,
      exists_eq_left] at hlow hnone
    rw [partial_three hbuf hend hout hlow rfl,
      if_pos (by simpa [negative_or, negative_digitVal, or_assoc] using hnone)]
  outside := by
    simp only [List.mem_cons, List.not_mem_nil, or_false, exists_eq_or_imp, exists_eq_left]
    intro hhigh
    rw [partialbase64, hend]
    by_cases ha : a < 0x80
    case neg => exact bind_outside (lookup_high (get_of_drop hbuf 0) ha)
    refine (bind_value (lookup_low (get_of_drop hbuf 0) ha)).trans ?_
    by_cases hb : b < 0x80
    · exact (bind_value (lookup_low (get_of_drop hbuf 1) hb)).trans (bind_outside
        (lookup_high (get_of_drop hbuf 2) ((hhigh.resolve_left fun h => h ha).resolve_left fun h => h hb)))
    · exact bind_outside (lookup_high (get_of_drop hbuf 1) hb)

theorem loop_high (hbuf : buf.drop ptr = a :: b :: c :: d :: t) (hhigh : ∃ ch ∈ [a, b, c, d], ¬ch < 0x80) :
    base64Loop (n + 1) buf ptr end_ out = .error .outsideTable := by
  simp only [List.mem_cons, List.not_mem_nil, or_false, exists_eq_or_imp, exists_eq_left] at hhigh
  rw [base64Loop]
  by_cases ha : a < 0x80
  case neg => exact bind_outside (lookup_high (get_of_drop hbuf 0) ha)
  refine (bind_value (lookup_low (get_of_drop hbuf 0) ha)).trans ?_
  by_cases hb : b < 0x80
  case neg => exact bind_outside (lookup_high (get_of_drop hbuf 1) hb)
  refine (bind_value (lookup_low (get_of_drop hbuf 1) hb)).trans ?_
  by_cases hc : c < 0x80
  case neg => exact bind_outside (lookup_high (get_of_drop hbuf 2) hc)
  refine (bind_value (lookup_low (get_of_drop hbuf 2) hc)).trans ?_
  have hd := ((hhigh.resolve_left fun h => h ha).resolve_left fun h => h hb).resolve_left fun h => h hc
  exact bind_outside (lookup_high (get_of_drop hbuf 3) hd)

/-- `jsondec_base64` from a place on. -/
def base64From (n : Nat) (buf : List UInt8) (ptr end_ out : Nat) : Base64M (List UInt8 × Nat) := do
  let (buf, ptr, end_, out) ← base64Loop n buf ptr end_ out
  if ptr < end_ then partialbase64 buf ptr end_ out else return (buf, out)

theorem base64From_of_loop {buf' : List UInt8} {ptr' end' out' : Nat}
    (h : base64Loop n buf ptr end_ out = .ok (buf', ptr', end', out')) (hlt : ptr' < end') :
    base64From n buf ptr end_ out = partialbase64 buf' ptr' end' out' := by
  rw [base64From, bind_value h]
  exact if_pos hlt

/-- What `jsondec_base64` does where `pre` is decoded and `t` is left. -/
structure Base64Ends (x : Base64M (List UInt8 × Nat)) (pre t : List UInt8) : Prop where
  accepts : ∀ bytes, Base64 t bytes → ∃ buf n, x = .ok (buf, n) ∧ buf.take n = pre ++ bytes
  rejects : (∀ ch ∈ looked t, ch < 0x80) → (∀ bytes, ¬Base64 t bytes) → x = .error (.error "Corrupt base64")
  outside : (∃ ch ∈ looked t, ¬ch < 0x80) → x = .error .outsideTable

/-- There is a text behind a group of digits. -/
theorem base64_group_iff {w x y z : Nat} {bytes : List UInt8} (ha : sextet a = some w) (hb : sextet b = some x)
    (hc : sextet c = some y) (hd : sextet d = some z) :
    Base64 (a :: b :: c :: d :: t) bytes ↔ ∃ bytes', Base64 t bytes' ∧ bytes = groupBytes w x y z ++ bytes' := by
  have hequals : sextet '='.toUInt8 = none := by decide
  constructor
  · intro h
    cases h with
    | group ha' hb' hc' hd' h =>
      cases ha.symm.trans ha'
      cases hb.symm.trans hb'
      cases hc.symm.trans hc'
      cases hd.symm.trans hd'
      exact ⟨_, h, rfl⟩
    | two _ _ hpad =>
      obtain h | h := hpad
      · cases h
      · cases h
        cases hequals.symm.trans hc
    | three _ _ _ hpad =>
      obtain h | h := hpad
      · cases h
      · cases h
        cases hequals.symm.trans hd
  · rintro ⟨bytes', h, rfl⟩
    exact .group ha hb hc hd h

theorem sextet_equals : sextet '='.toUInt8 = none := by decide

theorem base64_two_iff {pad bytes : List UInt8} (hpad : pad = [] ∨ pad = ['='.toUInt8, '='.toUInt8]) :
    Base64 (a :: b :: pad) bytes ↔ ∃ digits : List Nat, [a, b].map sextet = digits.map some ∧
      bytes = (groupBytes (digits.getD 0 0) (digits.getD 1 0) 0 0).take 1 := by
  constructor
  · intro h
    generalize hs : a :: b :: pad = s at h
    cases h with
    | nil => cases hs
    | two ha hb _ =>
      cases hs
      exact ⟨_ :: _ :: [], by simp [ha, hb], rfl⟩
    | group _ _ hc _ _ =>
      cases hs
      obtain h | h := hpad
      · cases h
      · cases h
        cases sextet_equals.symm.trans hc
    | three _ _ hc _ =>
      cases hs
      obtain h | h := hpad
      · cases h
      · cases h
        cases sextet_equals.symm.trans hc
  · rintro ⟨digits, hdigits, rfl⟩
    obtain ⟨w, x, rfl⟩ := List.length_eq_two.mp (by simpa using (congrArg List.length hdigits).symm)
    simp only [List.map_cons, List.map_nil, List.cons.injEq, and_true] at hdigits
    exact .two hdigits.1 hdigits.2 hpad

theorem base64_three_iff {pad bytes : List UInt8} (hpad : pad = [] ∨ pad = ['='.toUInt8] ∧ c ≠ '='.toUInt8) :
    Base64 (a :: b :: c :: pad) bytes ↔ ∃ digits : List Nat, [a, b, c].map sextet = digits.map some ∧
      bytes = (groupBytes (digits.getD 0 0) (digits.getD 1 0) (digits.getD 2 0) 0).take 2 := by
  constructor
  · intro h
    generalize hs : a :: b :: c :: pad = s at h
    cases h with
    | nil => cases hs
    | two _ _ hpad' =>
      cases hs
      obtain h | h := hpad'
      · cases h
      · cases h
        obtain h | h := hpad
        · cases h
        · exact absurd rfl h.2
    | group _ _ _ hd _ =>
      cases hs
      obtain h | h := hpad
      · cases h
      · cases h.1
        cases sextet_equals.symm.trans hd
    | three ha hb hc _ =>
      cases hs
      exact ⟨_ :: _ :: _ :: [], by simp [ha, hb, hc], rfl⟩
  · rintro ⟨digits, hdigits, rfl⟩
    obtain ⟨w, x, y, rfl⟩ := List.length_eq_three.mp (by simpa using (congrArg List.length hdigits).symm)
    simp only [List.map_cons, List.map_nil, List.cons.injEq, and_true] at hdigits
    exact .three hdigits.1 hdigits.2.1 hdigits.2.2 (hpad.imp_right And.left)

/-- A group with other characters is the last one, with padding. -/
theorem base64_bad {bytes : List UInt8} (hbad : ∃ ch ∈ [a, b, c, d], sextet ch = none)
    (h : Base64 (a :: b :: c :: d :: t) bytes) : t = [] ∧ d = '='.toUInt8 := by
  generalize hs : a :: b :: c :: d :: t = s at h
  cases h with
  | nil => cases hs
  | group ha hb hc hd _ =>
    cases hs
    simp [ha, hb, hc, hd] at hbad
  | two _ _ hpad =>
    cases hs
    obtain h | h := hpad
    · cases h
    · cases h
      exact ⟨rfl, rfl⟩
  | three _ _ _ hpad =>
    cases hs
    obtain h | h := hpad
    · cases h
    · cases h
      exact ⟨rfl, rfl⟩

/-- What is left is decoded as a partial group. -/
theorem PartialEnds.ends {x : Base64M (List UInt8 × Nat)} {pre chars : List UInt8} {bytes : List Nat → List UInt8}
    (h : PartialEnds x pre chars bytes)
    (htext : ∀ r, Base64 t r ↔ ∃ digits : List Nat, chars.map sextet = digits.map some ∧ r = bytes digits)
    (hlooked : ∀ ch, ch ∈ looked t ↔ ch ∈ chars ∨ (ch ∈ looked t ∧ ch = '='.toUInt8)) : Base64Ends x pre t where
  accepts r hr := by
    obtain ⟨digits, hdigits, rfl⟩ := (htext r).mp hr
    exact h.accepts digits hdigits
  rejects hlow hnone := by
    refine h.rejects (fun ch hch => hlow ch ((hlooked ch).mpr (.inl hch))) ?_
    by_contra hall
    push Not at hall
    refine hnone (bytes (chars.map fun ch => (sextet ch).getD 0)) ((htext _).mpr ⟨_, ?_, rfl⟩)
    rw [List.map_map]
    refine List.map_congr_left fun ch hch => ?_
    obtain ⟨w, hw⟩ := Option.ne_none_iff_exists'.mp (hall ch hch)
    simp [hw]
  outside := by
    rintro ⟨ch, hch, hhigh⟩
    obtain hch | ⟨-, rfl⟩ := (hlooked ch).mp hch
    · exact h.outside ⟨ch, hch, hhigh⟩
    · exact absurd (by decide) hhigh

/-- A text has digits and padding. -/
theorem Base64.chars {text bytes : List UInt8} (h : Base64 text bytes) :
    ∀ ch ∈ text, (∃ w, sextet ch = some w) ∨ ch = '='.toUInt8 := by
  induction h with
  | nil => simp
  | group ha hb hc hd _ ih => simpa [ha, hb, hc, hd] using ih
  | two ha hb hpad => obtain rfl | rfl := hpad <;> simp [ha, hb]
  | three ha hb hc hpad => obtain rfl | rfl := hpad <;> simp [ha, hb, hc]

theorem Base64.low {text bytes : List UInt8} (h : Base64 text bytes) : ∀ ch ∈ text, ch < 0x80 := by
  intro ch hch
  obtain ⟨w, hw⟩ | rfl := h.chars ch hch
  · exact (sextet_lt hw).2
  · decide

theorem Base64.plain {text bytes : List UInt8} (h : Base64 text bytes) : ∀ ch ∈ text, Plain ch := by
  intro ch hch
  obtain ⟨w, hw⟩ | rfl := h.chars ch hch
  · exact (sextet_plain hw).2
  · decide

/-- A group of digits is decoded, and the rest as it is. -/
theorem Base64Ends.group {w x y z : Nat} {e : Base64M (List UInt8 × Nat)} {pre : List UInt8}
    (ha : sextet a = some w) (hb : sextet b = some x) (hc : sextet c = some y) (hd : sextet d = some z)
    (h : Base64Ends e (pre ++ groupBytes w x y z) t) : Base64Ends e pre (a :: b :: c :: d :: t) := by
  have hdigits : ∀ ch ∈ [a, b, c, d], ch < 0x80 := by
    simp [(sextet_lt ha).2, (sextet_lt hb).2, (sextet_lt hc).2, (sextet_lt hd).2]
  have hall : [a, b, c, d].all (fun ch => (sextet ch).isSome) = true := by simp [ha, hb, hc, hd]
  have hlooked : looked (a :: b :: c :: d :: t) = [a, b, c, d] ++ looked t := by
    rw [looked, if_pos hall]
    rfl
  refine ⟨fun bytes hbytes => ?_, fun hlow hnone => ?_, fun hhigh => ?_⟩
  · obtain ⟨bytes', hbytes', rfl⟩ := (base64_group_iff ha hb hc hd).mp hbytes
    rw [← List.append_assoc]
    exact h.accepts bytes' hbytes'
  · rw [hlooked] at hlow
    exact h.rejects (fun ch hch => hlow ch (List.mem_append_right _ hch)) fun bytes hbytes =>
      hnone _ ((base64_group_iff ha hb hc hd).mpr ⟨bytes, hbytes, rfl⟩)
  · rw [hlooked] at hhigh
    obtain ⟨ch, hch, hhigh⟩ := hhigh
    obtain hch | hch := List.mem_append.mp hch
    · exact absurd (hdigits ch hch) hhigh
    · exact h.outside ⟨ch, hch, hhigh⟩

/-- A group with other characters ends the loop. -/
theorem base64From_bad (hbuf : buf.drop ptr = a :: b :: c :: d :: t) (hout : out ≤ ptr)
    (hbad : ∃ ch ∈ [a, b, c, d], sextet ch = none) :
    Base64Ends (base64From (n + 1) buf ptr buf.length out) (buf.take out) (a :: b :: c :: d :: t) := by
  have hlen : buf.length = ptr + (t.length + 4) := by
    have := congrArg List.length hbuf
    simp only [List.length_drop, List.length_cons] at this
    omega
  have hlooked : looked (a :: b :: c :: d :: t) = [a, b, c, d] := by
    rw [looked, if_neg]
    simpa [and_assoc, imp_iff_not_or, or_assoc] using hbad
  by_cases hhigh : ∃ ch ∈ [a, b, c, d], ¬ch < 0x80
  · obtain ⟨ch, hch, hch'⟩ := hhigh
    refine ⟨fun bytes hbytes => ?_, fun hlow => absurd (hlow ch (hlooked ▸ hch)) hch', fun _ => ?_⟩
    · exact absurd (hbytes.low ch (List.mem_append_left t hch)) hch'
    · exact bind_outside (loop_high hbuf ⟨ch, hch, hch'⟩)
  push Not at hhigh
  have hlow : a < 0x80 ∧ b < 0x80 ∧ c < 0x80 ∧ d < 0x80 := by simpa using hhigh
  have hloop := loop_low (n := n) buf.length hbuf hlow (by omega : out + 2 < buf.length) rfl
  rw [if_pos ((negative_group a b c d).mpr hbad)] at hloop
  by_cases hend : buf.length - ptr = 4 ∧ d = '='.toUInt8
  · obtain ⟨hfour, rfl⟩ := hend
    obtain rfl : t = [] := List.length_eq_zero_iff.mp (by omega)
    rw [if_pos ⟨hfour, rfl⟩] at hloop
    by_cases hc : c = '='.toUInt8
    · subst hc
      rw [if_pos rfl] at hloop
      rw [base64From_of_loop hloop (by omega)]
      refine (partial_two_ends hbuf (by omega) (by omega)).ends (fun r => base64_two_iff (.inr rfl)) fun ch => ?_
      rw [hlooked]
      simp only [List.mem_cons, List.not_mem_nil, or_false]
      tauto
    · rw [if_neg hc] at hloop
      rw [base64From_of_loop hloop (by omega)]
      refine (partial_three_ends hbuf (by omega) (by omega)).ends (fun r => base64_three_iff (.inr ⟨rfl, hc⟩)) fun ch => ?_
      rw [hlooked]
      simp only [List.mem_cons, List.not_mem_nil, or_false]
      tauto
  · rw [if_neg hend] at hloop
    have hrun : base64From (n + 1) buf ptr buf.length out = .error (.error "Corrupt base64") := by
      rw [base64From_of_loop hloop (by omega)]
      obtain ⟨k, hk⟩ : ∃ k, buf.length - ptr = k + 4 := ⟨t.length, by omega⟩
      rw [partialbase64, hk]
      rfl
    refine ⟨fun bytes hbytes => ?_, fun _ _ => hrun, fun hhigh' => ?_⟩
    · obtain ⟨rfl, hd⟩ := base64_bad hbad hbytes
      exact absurd ⟨by simp at hlen; omega, hd⟩ hend
    · obtain ⟨ch, hch, hch'⟩ := hhigh'
      exact absurd (hhigh ch (hlooked ▸ hch)) hch'

/-- **The decoding from a place on**, where the buffer in front of `out` holds what is decoded and from `ptr` on what is
left. -/
theorem base64From_ends (hbuf : buf.drop ptr = t) (hout : out ≤ ptr) (hptr : ptr ≤ buf.length) :
    Base64Ends (base64From (t.length / 4) buf ptr buf.length out) (buf.take out) t := by
  induction hlen : t.length using Nat.strong_induction_on generalizing t buf ptr out with
  | _ m ih =>
    have hsize : buf.length = ptr + t.length := by
      rw [← hbuf, List.length_drop]
      omega
    match t, hlen with
    | [], hlen =>
      have hdiv : m / 4 = 0 := by rw [← hlen]; rfl
      rw [hdiv]
      have hrun : base64From 0 buf ptr buf.length out = .ok (buf, out) := by
        change (if ptr < buf.length then _ else _) = _
        exact if_neg (by simp at hsize; omega)
      refine ⟨fun bytes hbytes => ⟨buf, out, hrun, ?_⟩, fun _ hnone => absurd .nil (hnone []), ?_⟩
      · cases hbytes
        rw [List.append_nil]
      · rintro ⟨ch, hch, -⟩
        cases hch
    | [a], hlen =>
      simp only [List.length_cons, List.length_nil] at hlen hsize
      have hdiv : m / 4 = 0 := by omega
      rw [hdiv]
      have hrun : base64From 0 buf ptr buf.length out = .error (.error "Corrupt base64") := by
        rw [base64From_of_loop rfl (by omega), partialbase64, hsize, Nat.add_sub_cancel_left]
        rfl
      refine ⟨fun bytes hbytes => ?_, fun _ _ => hrun, ?_⟩
      · cases hbytes
      · rintro ⟨ch, hch, -⟩
        cases hch
    | [a, b], hlen =>
      simp only [List.length_cons, List.length_nil] at hlen hsize
      have hdiv : m / 4 = 0 := by omega
      rw [hdiv, base64From_of_loop rfl (by omega)]
      refine (partial_two_ends hbuf (by omega) (by omega)).ends (fun r => base64_two_iff (.inl rfl)) fun ch => ?_
      rw [looked]
      tauto
    | [a, b, c], hlen =>
      simp only [List.length_cons, List.length_nil] at hlen hsize
      have hdiv : m / 4 = 0 := by omega
      rw [hdiv, base64From_of_loop rfl (by omega)]
      refine (partial_three_ends hbuf (by omega) (by omega)).ends (fun r => base64_three_iff (.inl rfl)) fun ch => ?_
      rw [looked]
      tauto
    | a :: b :: c :: d :: t, hlen =>
      simp only [List.length_cons] at hlen hsize
      have hdiv : m / 4 = t.length / 4 + 1 := by omega
      rw [hdiv]
      by_cases hbad : ∃ ch ∈ [a, b, c, d], sextet ch = none
      · exact base64From_bad hbuf hout hbad
      · have hnot := (negative_group a b c d).not.mpr hbad
        simp only [List.mem_cons, List.not_mem_nil, or_false, exists_eq_or_imp, exists_eq_left, not_or,
          Option.ne_none_iff_exists', ← ne_eq] at hbad
        obtain ⟨⟨w, ha⟩, ⟨x, hb⟩, ⟨y, hc⟩, ⟨z, hd⟩⟩ := hbad
        have hlow : a < 0x80 ∧ b < 0x80 ∧ c < 0x80 ∧ d < 0x80 :=
          ⟨(sextet_lt ha).2, (sextet_lt hb).2, (sextet_lt hc).2, (sextet_lt hd).2⟩
        have hloop := loop_low (n := t.length / 4) buf.length hbuf hlow (by omega : out + 2 < buf.length) rfl
        rw [if_neg hnot] at hloop
        refine .group ha hb hc hd ?_
        rw [base64From, hloop, groupBytes_eq ha hb hc hd rfl]
        generalize digitVal a <<< 18 ||| digitVal b <<< 12 ||| digitVal c <<< 6 ||| digitVal d <<< 0 = v
        have hdrop : (((buf.set out (v >>> 16).toUInt8).set (out + 1) (v >>> 8 &&& 0xff).toUInt8).set (out + 2)
            (v &&& 0xff).toUInt8).drop (ptr + 4) = t := by
          rw [List.drop_set_of_lt (by omega), List.drop_set_of_lt (by omega), List.drop_set_of_lt (by omega),
            ← List.drop_drop, hbuf]
          rfl
        have hrest := ih t.length (by omega) hdrop (by omega : out + 3 ≤ ptr + 4) (by simp; omega) rfl
        rw [take_set (by simp; omega), take_set (by simp; omega), take_set (by omega)] at hrest
        simpa [base64From] using hrest

end Rounds

/-! ### What the encoder writes -/

theorem sextet_base64Char {i : UInt8} (h : i.toNat < 64) : sextet (Jsonenc.base64Char i) = some i.toNat := by
  have hall : ∀ n < 64, sextet (Jsonenc.base64Char (UInt8.ofNat n)) = some n := by decide +kernel
  have hi := hall i.toNat h
  rwa [UInt8.ofNat_toNat] at hi

/-- The indexes that the encoder computes from the bytes of a group. -/
theorem indexes_toNat (p₀ p₁ p₂ : UInt8) : (p₀ >>> 2).toNat = p₀.toNat / 4 ∧
    ((p₀ &&& 0x3) <<< 4 ||| p₁ >>> 4).toNat = p₀.toNat % 4 * 16 + p₁.toNat / 16 ∧
    ((p₁ &&& 0xf) <<< 2 ||| p₂ >>> 6).toNat = p₁.toNat % 16 * 4 + p₂.toNat / 64 ∧
    (p₂ &&& 0x3f).toNat = p₂.toNat % 64 := by
  have hp₁ := p₁.toNat_lt
  have hp₂ := p₂.toNat_lt
  have hand₂ : ∀ n : Nat, n &&& 3 = n % 4 := fun n => Nat.and_two_pow_sub_one_eq_mod n 2
  have hand₄ : ∀ n : Nat, n &&& 15 = n % 16 := fun n => Nat.and_two_pow_sub_one_eq_mod n 4
  have hand₆ : ∀ n : Nat, n &&& 63 = n % 64 := fun n => Nat.and_two_pow_sub_one_eq_mod n 6
  have h₁ : ((p₀ &&& 0x3) <<< 4).toNat = p₀.toNat % 4 * 2 ^ 4 := by
    simp [hand₂, Nat.shiftLeft_eq]
    omega
  have h₂ : ((p₁ &&& 0xf) <<< 2).toNat = p₁.toNat % 16 * 2 ^ 2 := by
    simp [hand₄, Nat.shiftLeft_eq]
    omega
  have h₃ : (p₁ >>> 4).toNat = p₁.toNat / 16 := by simp [Nat.shiftRight_eq_div_pow]
  have h₄ : (p₂ >>> 6).toNat = p₂.toNat / 64 := by simp [Nat.shiftRight_eq_div_pow]
  refine ⟨by simp [Nat.shiftRight_eq_div_pow], ?_, ?_, by simp [hand₆]⟩
  · rw [UInt8.toNat_or, h₁, h₃, ← Nat.shiftLeft_eq, ← Nat.shiftLeft_add_eq_or_of_lt (by omega), Nat.shiftLeft_eq]
  · rw [UInt8.toNat_or, h₂, h₄, ← Nat.shiftLeft_eq, ← Nat.shiftLeft_add_eq_or_of_lt (by omega), Nat.shiftLeft_eq]

/-- The digits of a group stand for its bytes. -/
theorem groupBytes_indexes (p₀ p₁ p₂ : UInt8) :
    groupBytes (p₀ >>> 2).toNat ((p₀ &&& 0x3) <<< 4 ||| p₁ >>> 4).toNat ((p₁ &&& 0xf) <<< 2 ||| p₂ >>> 6).toNat
      (p₂ &&& 0x3f).toNat = [p₀, p₁, p₂] := by
  obtain ⟨h₁, h₂, h₃, h₄⟩ := indexes_toNat p₀ p₁ p₂
  have hp₁ := p₁.toNat_lt
  have hp₂ := p₂.toNat_lt
  rw [groupBytes, h₁, h₂, h₃, h₄]
  have hb₀ : p₀.toNat / 4 * 4 + (p₀.toNat % 4 * 16 + p₁.toNat / 16) / 16 = p₀.toNat := by omega
  have hb₁ : (p₀.toNat % 4 * 16 + p₁.toNat / 16) % 16 * 16 + (p₁.toNat % 16 * 4 + p₂.toNat / 64) / 4 = p₁.toNat := by
    omega
  have hb₂ : (p₁.toNat % 16 * 4 + p₂.toNat / 64) % 4 * 64 + p₂.toNat % 64 = p₂.toNat := by omega
  rw [hb₀, hb₁, hb₂, UInt8.ofNat_toNat, UInt8.ofNat_toNat, UInt8.ofNat_toNat]

theorem base64_encode (str : List UInt8) : Base64 (Jsonenc.base64 str) str := by
  have hindex : ∀ p₀ p₁ p₂ : UInt8, (p₀ >>> 2).toNat < 64 ∧ ((p₀ &&& 0x3) <<< 4 ||| p₁ >>> 4).toNat < 64 ∧
      ((p₁ &&& 0xf) <<< 2 ||| p₂ >>> 6).toNat < 64 ∧ (p₂ &&& 0x3f).toNat < 64 := by
    intro p₀ p₁ p₂
    obtain ⟨h₁, h₂, h₃, h₄⟩ := indexes_toNat p₀ p₁ p₂
    have hp₀ := p₀.toNat_lt
    have hp₁ := p₁.toNat_lt
    have hp₂ := p₂.toNat_lt
    rw [h₁, h₂, h₃, h₄]
    omega
  induction str using Jsonenc.base64.induct with
  | case1 p₀ p₁ p₂ ptr ih =>
    obtain ⟨h₁, h₂, h₃, h₄⟩ := hindex p₀ p₁ p₂
    have hgroup := Base64.group (sextet_base64Char h₁) (sextet_base64Char h₂) (sextet_base64Char h₃)
      (sextet_base64Char h₄) ih
    rw [groupBytes_indexes] at hgroup
    exact hgroup
  | case2 p₀ p₁ =>
    obtain ⟨h₁, h₂, h₃, -⟩ := hindex p₀ p₁ 0
    have hbytes := groupBytes_indexes p₀ p₁ 0
    rw [show ((p₁ &&& 0xf) <<< 2 ||| (0 : UInt8) >>> 6) = (p₁ &&& 0xf) <<< 2 by simp] at h₃ hbytes
    have hthree := Base64.three (sextet_base64Char h₁) (sextet_base64Char h₂) (sextet_base64Char h₃) (.inr rfl)
    rw [show (0 : Nat) = ((0 : UInt8) &&& 0x3f).toNat by rfl, hbytes] at hthree
    exact hthree
  | case3 p₀ =>
    obtain ⟨h₁, h₂, -⟩ := hindex p₀ 0 0
    have hbytes := groupBytes_indexes p₀ 0 0
    rw [show ((p₀ &&& 0x3) <<< 4 ||| (0 : UInt8) >>> 4) = (p₀ &&& 0x3) <<< 4 by simp] at h₂ hbytes
    have htake : (groupBytes (p₀ >>> 2).toNat ((p₀ &&& 0x3) <<< 4).toNat 0 0).take 1 = [p₀] :=
      congrArg (List.take 1) hbytes
    have htwo := Base64.two (sextet_base64Char h₁) (sextet_base64Char h₂) (.inr rfl)
    rw [htake] at htwo
    exact htwo
  | case4 => exact .nil

theorem base64_ends (str : List UInt8) : Base64Ends (base64 str) [] str :=
  base64From_ends rfl (Nat.le_refl 0) (Nat.zero_le _)

theorem base64_right {str : List UInt8} (hlow : ∀ ch ∈ looked str, ch < 0x80) : Base64Right str := by
  have hends := base64_ends str
  by_cases htext : ∃ bytes, Base64 str bytes
  · obtain ⟨bytes, hbytes⟩ := htext
    obtain ⟨buf, n, hrun, htake⟩ := hends.accepts bytes hbytes
    refine ⟨fun bytes' => ⟨?_, hends.accepts bytes'⟩, by rw [hrun]; nofun, by rw [hrun]; nofun⟩
    rintro ⟨buf', n', hrun', rfl⟩
    cases hrun.symm.trans hrun'
    rwa [htake]
  · have hrun := hends.rejects hlow fun bytes hbytes => htext ⟨bytes, hbytes⟩
    refine ⟨fun bytes => ⟨?_, fun hbytes => absurd ⟨bytes, hbytes⟩ htext⟩, by rw [hrun]; nofun, by rw [hrun]; nofun⟩
    rintro ⟨buf, n, hrun', -⟩
    cases hrun.symm.trans hrun'

/-- **`jsondec_base64` accepts exactly the base64 texts and stays inside its buffer and its table** if and only if no
byte from `0x80` on is looked up; and what `jsonenc_bytes` writes is read back. -/
theorem base64_right_iff (str tail : List UInt8) (d : Jsondec) : (∃ text d' buf n,
      string { d with rest := Jsonenc.bytes str ++ tail } = .ok (text, d') ∧ d'.rest = tail ∧
        base64 text = .ok (buf, n) ∧ buf.take n = str) ∧
    (Base64Right str ↔ ∀ ch ∈ looked str, ch < 0x80) := by
  refine ⟨?_, fun hright ch hch => ?_, base64_right⟩
  · have hencode := base64_encode str
    obtain ⟨buf, n, hrun, hbytes⟩ := (base64_ends _).accepts str hencode
    have hstring := string_plain tail hencode.plain (d := { d with rest := Jsonenc.bytes str ++ tail })
      (by simp only [Jsonenc.bytes, List.append_assoc]; rfl)
    exact ⟨_, _, buf, n, hstring, rfl, hrun, hbytes⟩
  · by_contra hhigh
    exact hright.insideTable ((base64_ends str).outside ⟨ch, hch, hhigh⟩)

/-- A byte from `0x80` on is looked up outside of the table. -/
theorem not_base64_right : ¬∀ str, Base64Right str :=
  fun h => (h [0x80, 0x80]).insideTable (by decide)

end Jsondec

end Hpb
