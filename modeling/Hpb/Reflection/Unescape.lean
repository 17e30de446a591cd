import Hpb.Lib.Except
import Hpb.Reflection.DefBuilder

/-!
# Escapes in default values (`unescape` and `default_bytes`)

The default value of a `bytes` field is a text with escapes. `unescape` reads it, and `default_bytes` of
`hpb/util/def_to_proto.c` writes it.

* `Escapes`: what the escapes of a text denote, as numbers of any size,
* `unescape_eq_ok_iff`: what `unescape` accepts. It looks at the number of a hex escape modulo `2 ^ 32` only, and at
  that of an octal escape not at all.
* `unescape_defaultBytes`: it reads back what `default_bytes` writes,
* `unescape_denotes_iff`: the texts for which it is right.
-/

namespace Hpb

namespace Reflection

/-! ### What a text denotes -/

/-- `TryGetOctalDigit`. -/
def octalDigit (c : UInt8) : Option Nat := if 48 ≤ c && c ≤ 55 then some (c.toNat - 48) else none

/-- The number that digits denote, after the number `acc`. -/
def digitsFrom (digit : UInt8 → Option Nat) (base acc : Nat) (ds : StrKey) : Nat :=
  ds.foldl (fun v d => v * base + (digit d).getD 0) acc

/-- The escapes of one letter. -/
def simpleEscape : UInt8 → Option UInt8
  | 97 => some 7
  | 98 => some 8
  | 102 => some 12
  | 110 => some 10
  | 114 => some 13
  | 116 => some 9
  | 118 => some 11
  | 92 => some 92
  | 39 => some 39
  | 34 => some 34
  | 63 => some 63
  | _ => none

/-- A byte of a text, or the number of an escape. -/
inductive TextByte where
  | byte (c : UInt8)
  | octal (value : Nat)
  | hex (value : Nat)
  deriving DecidableEq, Repr

namespace TextByte

def value : TextByte → Nat
  | byte c => c.toNat
  | octal v => v
  | hex v => v

/-- What the check of hex escapes lets through. -/
def Passes : TextByte → Prop
  | hex v => v % 2 ^ 32 < 256
  | _ => True

end TextByte

/-- No digit is left. -/
def Ends (digit : UInt8 → Option Nat) (rest : StrKey) : Prop := ∀ d ∈ rest.head?, digit d = none

/-- The text after a backslash starts with an escape for `t`, and goes on with `rest`. -/
inductive IsEscape : StrKey → TextByte → StrKey → Prop where
  | simple {e c : UInt8} {rest : StrKey} (he : simpleEscape e = some c) : IsEscape (e :: rest) (.byte c) rest
  | octal {ds rest : StrKey} (hne : ds ≠ []) (hlen : ds.length ≤ 3) (hds : ∀ d ∈ ds, (octalDigit d).isSome)
      (hend : Ends octalDigit rest ∨ ds.length = 3) :
      IsEscape (ds ++ rest) (.octal (digitsFrom octalDigit 8 0 ds)) rest
  | hex {x : UInt8} {ds rest : StrKey} (hx : x = 120 ∨ x = 88) (hne : ds ≠ []) (hds : ∀ d ∈ ds, (hexDigit d).isSome)
      (hend : Ends hexDigit rest) : IsEscape (x :: (ds ++ rest)) (.hex (digitsFrom hexDigit 16 0 ds)) rest

/-- **What the bytes and escapes of a text denote**, if every backslash starts an escape. -/
inductive Escapes : StrKey → List TextByte → Prop where
  | nil : Escapes [] []
  | byte {c : UInt8} {s : StrKey} {ts : List TextByte} (hc : c ≠ 92) (h : Escapes s ts) :
      Escapes (c :: s) (.byte c :: ts)
  | escape {t : TextByte} {s rest : StrKey} {ts : List TextByte} (he : IsEscape s t rest) (h : Escapes rest ts) :
      Escapes (92 :: s) (t :: ts)

section Denote

variable {s rest rest' : StrKey} {t t' : TextByte} {ts ts' : List TextByte}

/-- The digits are as many as there are. -/
theorem digits_unique {digit : UInt8 → Option Nat} {ds ds' : StrKey} (hds : ∀ d ∈ ds, (digit d).isSome)
    (hds' : ∀ d ∈ ds', (digit d).isSome) (hend : Ends digit rest ∨ ds'.length ≤ ds.length)
    (hend' : Ends digit rest' ∨ ds.length ≤ ds'.length) (h : ds ++ rest = ds' ++ rest') : ds = ds' ∧ rest = rest' := by
  have hone : ∀ {ds ds' rest rest' : StrKey}, (∀ d ∈ ds', (digit d).isSome) →
      Ends digit rest ∨ ds'.length ≤ ds.length → (∃ t, ds' = ds ++ t ∧ rest = t ++ rest') → ds = ds' ∧ rest = rest' := by
    rintro ds ds' rest rest' hds' hend ⟨t, rfl, rfl⟩
    cases t with
    | nil => simp
    | cons d t =>
      obtain hend | hend := hend
      · have hd := hds' d (by simp)
        rw [hend d rfl] at hd
        cases hd
      · exact absurd hend (by simp)
  obtain ht | ht := List.append_eq_append_iff.mp h
  · exact hone hds' hend ht
  · obtain ⟨h₁, h₂⟩ := hone hds hend' ht
    exact ⟨h₁.symm, h₂.symm⟩

theorem octalDigit_isSome_iff {c : UInt8} : (octalDigit c).isSome ↔ 48 ≤ c ∧ c ≤ 55 := by
  unfold octalDigit
  split
  next h => simpa using h
  next h => simpa using h

/-- The octal digits are not the letters of other escapes. -/
theorem octalDigit_of_simple {e c : UInt8} (h : simpleEscape e = some c) : octalDigit e = none := by
  rw [octalDigit, if_neg]
  intro hdigit
  have hlow : 48 ≤ e.toNat ∧ e.toNat ≤ 55 := by simpa [UInt8.le_iff_toNat_le] using hdigit
  unfold simpleEscape at h
  split at h <;> first | exact absurd hlow (by decide) | cases h

theorem simpleEscape_x {x : UInt8} (hx : x = 120 ∨ x = 88) : simpleEscape x = none ∧ octalDigit x = none := by
  obtain rfl | rfl := hx <;> decide

theorem octalDigit_head {ds : StrKey} {e : UInt8} (hne : ds ≠ []) (hds : ∀ d ∈ ds, (octalDigit d).isSome)
    (h : e :: rest' = ds ++ rest) : (octalDigit e).isSome := by
  obtain ⟨d, ds, rfl⟩ := List.exists_cons_of_ne_nil hne
  cases h
  exact hds e List.mem_cons_self

/-- A text starts with one escape at most. -/
theorem IsEscape.unique (h : IsEscape s t rest) (h' : IsEscape s t' rest') : t = t' ∧ rest = rest' := by
  cases h with
  | @simple e c _ he =>
    generalize hs : e :: rest = s at h'
    cases h' with
    | simple he' =>
      cases hs
      rw [he] at he'
      cases he'
      exact ⟨rfl, rfl⟩
    | octal hne' hlen' hds' hend' =>
      have hdigit := octalDigit_head hne' hds' hs
      rw [octalDigit_of_simple he] at hdigit
      cases hdigit
    | hex hx' hne' hds' hend' =>
      cases hs
      rw [(simpleEscape_x hx').1] at he
      cases he
  | @octal ds _ hne hlen hds hend =>
    generalize hs : ds ++ rest = s at h'
    cases h' with
    | simple he' =>
      have hdigit := octalDigit_head hne hds hs.symm
      rw [octalDigit_of_simple he'] at hdigit
      cases hdigit
    | octal hne' hlen' hds' hend' =>
      obtain ⟨rfl, rfl⟩ := digits_unique hds hds' (hend.imp_right fun h => by omega) (hend'.imp_right fun h => by omega) hs
      exact ⟨rfl, rfl⟩
    | hex hx' hne' hds' hend' =>
      have hdigit := octalDigit_head hne hds hs.symm
      rw [(simpleEscape_x hx').2] at hdigit
      cases hdigit
  | @hex x ds _ hx hne hds hend =>
    generalize hs : x :: (ds ++ rest) = s at h'
    cases h' with
    | simple he' =>
      cases hs
      rw [(simpleEscape_x hx).1] at he'
      cases he'
    | octal hne' hlen' hds' hend' =>
      have hdigit := octalDigit_head hne' hds' hs
      rw [(simpleEscape_x hx).2] at hdigit
      cases hdigit
    | hex hx' hne' hds' hend' =>
      obtain ⟨rfl, hs'⟩ := List.cons.inj hs
      obtain ⟨rfl, rfl⟩ := digits_unique hds hds' (.inl hend) (.inl hend') hs'
      exact ⟨rfl, rfl⟩

theorem Escapes.unique (h : Escapes s ts) (h' : Escapes s ts') : ts = ts' := by
  induction h generalizing ts' with
  | nil =>
    cases h'
    rfl
  | byte hc h ih =>
    cases h' with
    | byte hc' h' => rw [ih h']
    | escape he h' => exact absurd rfl hc
  | escape he h ih =>
    cases h' with
    | byte hc' h' => exact absurd rfl hc'
    | escape he' h' =>
      obtain ⟨rfl, rfl⟩ := he.unique he'
      rw [ih h']

end Denote

/-! ### What the code reads -/

section Read

variable {fullName s rest : StrKey} {c : UInt8}

theorem readOctal_spec (n acc : Nat) (s : StrKey) : ∃ ds rest : StrKey, s = ds ++ rest ∧ ds.length ≤ n ∧
    (∀ d ∈ ds, (octalDigit d).isSome) ∧ (Ends octalDigit rest ∨ ds.length = n) ∧
    readOctal n (acc % 256) s = (digitsFrom octalDigit 8 acc ds % 256, rest) := by
  induction n generalizing acc s with
  | zero => exact ⟨[], s, rfl, Nat.le_refl 0, by simp, .inr rfl, rfl⟩
  | succ n ih =>
    cases s with
    | nil => exact ⟨[], [], rfl, Nat.zero_le _, by simp, .inl (by simp [Ends]), rfl⟩
    | cons c s =>
      rw [readOctal]
      cases hd : octalDigit c with
      | none =>
        refine ⟨[], c :: s, rfl, Nat.zero_le _, by simp, .inl (by simp [Ends, hd]), ?_⟩
        have hno : ¬((48 ≤ c && c ≤ 55) = true) := fun h => by simp [octalDigit, h] at hd
        rw [if_neg hno]
        rfl
      | some v =>
        obtain ⟨hdigit, rfl⟩ : (48 ≤ c && c ≤ 55) = true ∧ c.toNat - 48 = v := by
          unfold octalDigit at hd
          split at hd
          next h => exact ⟨h, Option.some.inj hd⟩
          next => cases hd
        obtain ⟨ds, rest, rfl, hlen, hds, hend, hrun⟩ := ih (acc * 8 + (c.toNat - 48)) s
        refine ⟨c :: ds, rest, rfl, Nat.succ_le_succ hlen, ?_, hend.imp_right (congrArg Nat.succ), ?_⟩
        · exact List.forall_mem_cons.mpr ⟨by rw [hd]; rfl, hds⟩
        · have hmod : (acc % 256 * 8 + (c.toNat - 48)) % 256 = (acc * 8 + (c.toNat - 48)) % 256 := by omega
          rw [if_pos hdigit, hmod, hrun, digitsFrom, digitsFrom, List.foldl_cons, hd]
          rfl

theorem readHex_spec (acc : Nat) (s : StrKey) : ∃ ds rest : StrKey, s = ds ++ rest ∧
    (∀ d ∈ ds, (hexDigit d).isSome) ∧ Ends hexDigit rest ∧
    readHex (acc % 2 ^ 32) s = (digitsFrom hexDigit 16 acc ds % 2 ^ 32, rest) := by
  induction s generalizing acc with
  | nil => exact ⟨[], [], rfl, by simp, by simp [Ends], rfl⟩
  | cons c s ih =>
    rw [readHex]
    cases hd : hexDigit c with
    | none => exact ⟨[], c :: s, rfl, by simp, by simp [Ends, hd], rfl⟩
    | some v =>
      obtain ⟨ds, rest, rfl, hds, hend, hrun⟩ := ih (acc * 16 + v)
      refine ⟨c :: ds, rest, rfl, List.forall_mem_cons.mpr ⟨by rw [hd]; rfl, hds⟩, hend, ?_⟩
      have hmod : (acc % 2 ^ 32 * 16 + v) % 2 ^ 32 = (acc * 16 + v) % 2 ^ 32 := by omega
      dsimp only
      rw [hmod, hrun, digitsFrom, digitsFrom, List.foldl_cons, hd]
      rfl

theorem parseEscape_simple {e : UInt8} (he : simpleEscape c = some e) :
    parseEscape fullName (c :: s) = .ok (e, s) := by
  unfold simpleEscape at he
  split at he <;> cases he <;> rfl

theorem parseEscape_other (hc : simpleEscape c = none) : parseEscape fullName (c :: s) =
    if c = 120 || c = 88 then
      match s with
      | [] => .error (.error "\\x must be followed by at least one hex digit (field='%s')" [.str fullName])
      | d :: _ =>
        if (hexDigit d).isNone then
          .error (.error "\\x must be followed by at least one hex digit (field='%s')" [.str fullName])
        else
          let (v, s) := readHex 0 s
          if v > 255 then .error (.error "Value of hex escape in field %s exceeds 8 bits" [.str fullName])
          else .ok (UInt8.ofNat v, s)
    else if 48 ≤ c && c ≤ 55 then
      let (v, s) := readOctal 3 0 (c :: s)
      .ok (UInt8.ofNat v, s)
    else .error (.error "Unknown escape sequence: \\%c" [.str [c]]) := by
  generalize hs : c :: s = text
  unfold parseEscape
  split <;> cases hs
  case h_13 => rfl
  all_goals exact absurd hc (by decide)

theorem ofNat_octal (v : Nat) : UInt8.ofNat (v % 256) = UInt8.ofNat v := by
  apply UInt8.toNat_inj.mp
  simp

theorem ofNat_hex (v : Nat) : UInt8.ofNat (v % 2 ^ 32) = UInt8.ofNat v := by
  apply UInt8.toNat_inj.mp
  simp only [UInt8.toNat_ofNat']
  omega

/-- There is one escape, and the code reads it. -/
theorem exists_isEscape_iff {t : TextByte} {rest' : StrKey} (h : IsEscape s t rest') :
    (∃ t, IsEscape s t rest ∧ t.Passes ∧ c = UInt8.ofNat t.value) ↔
      t.Passes ∧ c = UInt8.ofNat t.value ∧ rest = rest' := by
  constructor
  · rintro ⟨t', ht, hpass, hc⟩
    obtain ⟨rfl, rfl⟩ := h.unique ht
    exact ⟨hpass, hc, rfl⟩
  · rintro ⟨hpass, hc, rfl⟩
    exact ⟨t, h, hpass, hc⟩

theorem not_isEscape {e : UInt8} {t : TextByte} (he : simpleEscape e = none) (ho : octalDigit e = none)
    (hx : ¬(e = 120 ∨ e = 88)) : ¬IsEscape (e :: s) t rest := by
  intro h
  generalize hs : e :: s = text at h
  cases h with
  | simple he' =>
    cases hs
    rw [he] at he'
    cases he'
  | octal hne hlen hds hend =>
    have hdigit := octalDigit_head hne hds hs
    rw [ho] at hdigit
    cases hdigit
  | hex hx' =>
    cases hs
    exact hx hx'

/-- No hex digit after the `x`. -/
theorem not_isEscape_hex {x : UInt8} {t : TextByte} (hx : x = 120 ∨ x = 88) (hend : Ends hexDigit s) :
    ¬IsEscape (x :: s) t rest := by
  intro h
  generalize hs : x :: s = text at h
  cases h with
  | simple he' =>
    cases hs
    rw [(simpleEscape_x hx).1] at he'
    cases he'
  | octal hne hlen hds _ =>
    have hdigit := octalDigit_head hne hds hs
    rw [(simpleEscape_x hx).2] at hdigit
    cases hdigit
  | hex hx' hne hds =>
    obtain ⟨d, ds, rfl⟩ := List.exists_cons_of_ne_nil hne
    cases hs
    have hdigit := hds d List.mem_cons_self
    rw [hend d rfl] at hdigit
    cases hdigit

/-- **The code reads an escape**, and its number modulo the width of the variable. -/
theorem parseEscape_eq_ok_iff : parseEscape fullName s = .ok (c, rest) ↔
    ∃ t, IsEscape s t rest ∧ t.Passes ∧ c = UInt8.ofNat t.value := by
  cases s with
  | nil =>
    constructor
    · intro h
      cases h
    · rintro ⟨t, h, -⟩
      generalize hs : ([] : StrKey) = s at h
      cases h with
      | simple => cases hs
      | octal hne => exact absurd (List.append_eq_nil_iff.mp hs.symm).1 hne
      | hex => cases hs
  | cons e s =>
    cases he : simpleEscape e with
    | some v =>
      rw [parseEscape_simple he, Except.ok.injEq, Prod.mk.injEq]
      have hesc : IsEscape (e :: s) (.byte v) s := .simple he
      constructor
      · rintro ⟨rfl, rfl⟩
        exact ⟨_, hesc, trivial, UInt8.ofNat_toNat.symm⟩
      · rintro ⟨t, ht, -, rfl⟩
        obtain ⟨rfl, rfl⟩ := hesc.unique ht
        exact ⟨UInt8.ofNat_toNat.symm, rfl⟩
    | none =>
      rw [parseEscape_other he]
      by_cases hx : e = 120 ∨ e = 88
      · rw [if_pos (by simpa using hx)]
        obtain ⟨ds, rest', hs, hds, hend, hrun⟩ := readHex_spec 0 s
        rw [Nat.zero_mod] at hrun
        cases ds with
        | nil =>
          have hnone : Ends hexDigit s := hs ▸ hend
          refine iff_of_false (fun h => ?_) fun ⟨t, ht, _⟩ => not_isEscape_hex hx hnone ht
          cases s with
          | nil => cases h
          | cons d s =>
            dsimp only at h
            rw [hnone d rfl, Option.isNone_none, if_pos rfl] at h
            cases h
        | cons d ds =>
          have hesc : IsEscape (e :: s) (.hex (digitsFrom hexDigit 16 0 (d :: ds))) rest' :=
            hs ▸ .hex hx (List.cons_ne_nil d ds) hds hend
          rw [exists_isEscape_iff hesc, hrun]
          subst hs
          have hsome : (hexDigit d).isNone = false := by
            rw [Option.isNone_eq_false_iff]
            exact hds d List.mem_cons_self
          simp only [List.cons_append, hsome, Bool.false_eq_true, if_false, TextByte.Passes, TextByte.value]
          split
          next hgt => exact iff_of_false (fun h => by cases h) fun h => by omega
          next hle =>
            rw [ofNat_hex, Except.ok.injEq, Prod.mk.injEq, eq_comm, eq_comm (a := rest')]
            exact ⟨fun h => ⟨by omega, h⟩, fun h => h.2⟩
      · rw [if_neg (by simpa using hx)]
        cases ho : octalDigit e with
        | none =>
          have hno : ¬((48 ≤ e && e ≤ 55) = true) := fun h => by simp [octalDigit, h] at ho
          rw [if_neg hno]
          exact iff_of_false (fun h => by cases h) fun ⟨t, ht, _⟩ => not_isEscape he ho hx ht
        | some v =>
          have hyes : (48 ≤ e && e ≤ 55) = true := by
            by_contra hno
            simp [octalDigit, hno] at ho
          rw [if_pos hyes]
          obtain ⟨ds, rest', hs, hlen, hds, hend, hrun⟩ := readOctal_spec 3 0 (e :: s)
          have hne : ds ≠ [] := by
            rintro rfl
            obtain hend | hend := hend
            · rw [← List.nil_append rest', ← hs] at hend
              rw [hend e rfl] at ho
              cases ho
            · exact absurd hend (by decide)
          have hesc : IsEscape (e :: s) (.octal (digitsFrom octalDigit 8 0 ds)) rest' := hs ▸ .octal hne hlen hds hend
          rw [Nat.zero_mod] at hrun
          rw [exists_isEscape_iff hesc, hrun]
          dsimp only [TextByte.Passes, TextByte.value]
          rw [ofNat_octal, Except.ok.injEq, Prod.mk.injEq, eq_comm, eq_comm (a := rest'), true_and]

theorem IsEscape.length_lt {t : TextByte} (h : IsEscape s t rest) : rest.length < s.length := by
  cases h with
  | simple => simp
  | octal hne => simpa using List.length_pos_iff.mpr hne
  | hex =>
    simp only [List.length_cons, List.length_append]
    omega

theorem unescape_nil (fullName : StrKey) (n : Nat) : unescape fullName n [] = .ok [] := by
  cases n <;> rfl

theorem unescape_byte (fullName : StrKey) (n : Nat) (hc : c ≠ 92) :
    unescape fullName (n + 1) (c :: s) = unescape fullName n s >>= fun rest => .ok (c :: rest) := by
  rw [unescape]
  · rfl
  · exact hc

/-- **What `unescape` accepts**, and what it stores: the escapes whose numbers pass its checks, and their lowest bytes. -/
theorem unescape_eq_ok_iff {n : Nat} (hn : s.length ≤ n) {bytes : StrKey} : unescape fullName n s = .ok bytes ↔
    ∃ ts, Escapes s ts ∧ (∀ t ∈ ts, t.Passes) ∧ bytes = ts.map fun t => UInt8.ofNat t.value := by
  induction n generalizing s bytes with
  | zero =>
    obtain rfl := List.eq_nil_of_length_eq_zero (Nat.le_zero.mp hn)
    rw [unescape_nil, Except.ok.injEq]
    constructor
    · rintro rfl
      exact ⟨[], .nil, by simp, rfl⟩
    · rintro ⟨ts, h, -, rfl⟩
      cases h
      rfl
  | succ n ih =>
    cases s with
    | nil =>
      rw [unescape_nil, Except.ok.injEq]
      constructor
      · rintro rfl
        exact ⟨[], .nil, by simp, rfl⟩
      · rintro ⟨ts, h, -, rfl⟩
        cases h
        rfl
    | cons c s =>
      by_cases hc : c = 92
      · subst hc
        rw [unescape, Except.bind_eq_ok]
        constructor
        · rintro ⟨⟨c, rest⟩, hescape, h⟩
          obtain ⟨t, ht, hpass, rfl⟩ := parseEscape_eq_ok_iff.mp hescape
          obtain ⟨bytes, hrest, h⟩ := Except.bind_eq_ok.mp h
          have hlt := ht.length_lt
          obtain ⟨ts, hts, hall, rfl⟩ := (ih (by simp at hn; omega)).mp hrest
          cases h
          exact ⟨t :: ts, .escape ht hts, List.forall_mem_cons.mpr ⟨hpass, hall⟩, rfl⟩
        · rintro ⟨ts, h, hall, rfl⟩
          cases h with
          | byte hc => exact absurd rfl hc
          | @escape t _ rest ts ht hts =>
            obtain ⟨hpass, hall⟩ := List.forall_mem_cons.mp hall
            have hlt := ht.length_lt
            refine ⟨(UInt8.ofNat t.value, rest), parseEscape_eq_ok_iff.mpr ⟨t, ht, hpass, rfl⟩, ?_⟩
            dsimp only
            rw [(ih (by simp at hn; omega)).mpr ⟨ts, hts, hall, rfl⟩]
            rfl
      · rw [unescape_byte fullName n hc, Except.bind_eq_ok]
        constructor
        · rintro ⟨bytes, hrest, h⟩
          obtain ⟨ts, hts, hall, rfl⟩ := (ih (by simpa using hn)).mp hrest
          cases h
          refine ⟨.byte c :: ts, .byte hc hts, List.forall_mem_cons.mpr ⟨trivial, hall⟩, ?_⟩
          rw [List.map_cons, TextByte.value, UInt8.ofNat_toNat]
        · rintro ⟨ts, h, hall, rfl⟩
          cases h with
          | escape => exact absurd rfl hc
          | byte _ hts =>
            refine ⟨_, (ih (by simpa using hn)).mpr ⟨_, hts, (List.forall_mem_cons.mp hall).2, rfl⟩, ?_⟩
            rw [List.map_cons, TextByte.value, UInt8.ofNat_toNat]

end Read

/-! ### What `default_bytes` writes -/

/-- `hpb_isprint`; from 128 on a `char` is negative. -/
def isPrint (ch : UInt8) : Bool := 0x20 ≤ ch && ch ≤ 0x7f

/-- `special_escape`. -/
def specialEscape : UInt8 → Option UInt8
  | 10 => some 110
  | 13 => some 114
  | 9 => some 116
  | 92 => some 92
  | 39 => some 39
  | 34 => some 34
  | _ => none

/-- A byte in three octal digits. -/
def octalByte (ch : UInt8) : StrKey :=
  let digit (d : UInt8) : UInt8 := 48 + d
  [digit (ch >>> 6), digit ((ch >>> 3) &&& 7), digit (ch &&& 7)]

/-- What `default_bytes` writes for a byte. -/
def defaultByte (ch : UInt8) : StrKey :=
  match specialEscape ch with
  | some e => [92, e]
  | none => if isPrint ch then [ch] else 92 :: octalByte ch

/-- The bytes that its first loop counts. -/
def defaultBytesSize (val : StrKey) : Nat :=
  (val.map fun ch => if (specialEscape ch).isSome then 2 else if isPrint ch then 1 else 4).sum

/-- `default_bytes`. -/
def defaultBytes (val : StrKey) : StrKey := val.flatMap defaultByte

/-- The buffer has the right size. -/
theorem length_defaultBytes (val : StrKey) : (defaultBytes val).length = defaultBytesSize val := by
  rw [defaultBytes, List.length_flatMap, defaultBytesSize]
  refine congrArg List.sum (List.map_congr_left fun ch _ => ?_)
  unfold defaultByte
  cases specialEscape ch with
  | some e => rfl
  | none => cases isPrint ch <;> rfl

theorem octalDigit_digit {d : UInt8} (h : d.toNat < 8) : octalDigit (48 + d) = some d.toNat := by
  have hall : ∀ n < 8, octalDigit (48 + UInt8.ofNat n) = some n := by decide
  have hd := hall d.toNat h
  rwa [UInt8.ofNat_toNat] at hd

theorem octalByte_digits (ch : UInt8) :
    (∀ d ∈ octalByte ch, (octalDigit d).isSome) ∧ digitsFrom octalDigit 8 0 (octalByte ch) = ch.toNat := by
  have hlt := ch.toNat_lt
  have hhigh : (ch >>> 6).toNat = ch.toNat / 64 := by
    rw [UInt8.toNat_shiftRight, Nat.shiftRight_eq_div_pow]
    rfl
  have hmid : (ch >>> 3 &&& 7).toNat = ch.toNat / 8 % 8 := by
    rw [UInt8.toNat_and, UInt8.toNat_shiftRight, Nat.shiftRight_eq_div_pow]
    exact Nat.and_two_pow_sub_one_eq_mod _ 3
  have hlow : (ch &&& 7).toNat = ch.toNat % 8 := by
    rw [UInt8.toNat_and]
    exact Nat.and_two_pow_sub_one_eq_mod _ 3
  have hhigh' := octalDigit_digit (d := ch >>> 6) (by omega)
  have hmid' := octalDigit_digit (d := ch >>> 3 &&& 7) (by omega)
  have hlow' := octalDigit_digit (d := ch &&& 7) (by omega)
  refine ⟨?_, ?_⟩
  · simp [octalByte, hhigh', hmid', hlow']
  · simp only [octalByte, digitsFrom, List.foldl_cons, List.foldl_nil, hhigh', hmid', hlow', Option.getD_some]
    omega

/-- How the text of a byte is read. -/
theorem defaultByte_escapes (ch : UInt8) {s : StrKey} {ts : List TextByte} (h : Escapes s ts) :
    ∃ t, Escapes (defaultByte ch ++ s) (t :: ts) ∧ t.Passes ∧ t.value = ch.toNat := by
  unfold defaultByte
  cases he : specialEscape ch with
  | some e =>
    have hsimple : simpleEscape e = some ch := by
      unfold specialEscape at he
      split at he <;> cases he <;> rfl
    exact ⟨.byte ch, .escape (.simple hsimple) h, trivial, rfl⟩
  | none =>
    dsimp only
    by_cases hp : isPrint ch = true
    · rw [if_pos hp]
      have hc : ch ≠ 92 := by
        rintro rfl
        cases he
      exact ⟨.byte ch, .byte hc h, trivial, rfl⟩
    · rw [if_neg hp]
      obtain ⟨hds, hvalue⟩ := octalByte_digits ch
      exact ⟨_, .escape (.octal (List.cons_ne_nil _ _) (Nat.le_refl 3) hds (.inr rfl)) h, trivial, hvalue⟩

theorem defaultBytes_escapes (val : StrKey) :
    ∃ ts, Escapes (defaultBytes val) ts ∧ (∀ t ∈ ts, t.Passes) ∧ val = ts.map fun t => UInt8.ofNat t.value := by
  induction val with
  | nil => exact ⟨[], .nil, by simp, rfl⟩
  | cons ch val ih =>
    obtain ⟨ts, hts, hall, hval⟩ := ih
    obtain ⟨t, ht, hpass, hvalue⟩ := defaultByte_escapes ch hts
    refine ⟨t :: ts, ht, List.forall_mem_cons.mpr ⟨hpass, hall⟩, ?_⟩
    rw [List.map_cons, hvalue, UInt8.ofNat_toNat, ← hval]

/-- **`unescape` reads back what `default_bytes` writes**, whatever the bytes are. -/
theorem unescape_defaultBytes (fullName val : StrKey) :
    unescape fullName (defaultBytes val).length (defaultBytes val) = .ok val :=
  (unescape_eq_ok_iff (Nat.le_refl _)).mpr (defaultBytes_escapes val)

/-- **`unescape` reads a text right** if and only if no number that passes its checks exceeds 8 bits: if all backslashes
start escapes, and the numbers of the hex escapes are below 256 modulo `2 ^ 32`, then the numbers of all escapes are
below 256. It always reads back what `default_bytes` writes. -/
theorem unescape_denotes_iff (fullName : StrKey) :
    (∀ val, unescape fullName (defaultBytes val).length (defaultBytes val) = .ok val) ∧
      ∀ text, (∀ bytes, unescape fullName text.length text = .ok bytes ↔
          ∃ ts, Escapes text ts ∧ (∀ t ∈ ts, t.value < 256) ∧ bytes = ts.map fun t => UInt8.ofNat t.value) ↔
        ∀ ts, Escapes text ts → (∀ t ∈ ts, t.Passes) → ∀ t ∈ ts, t.value < 256 := by
  refine ⟨unescape_defaultBytes fullName, fun text => ⟨fun h ts hts hpass => ?_, fun h bytes => ?_⟩⟩
  · obtain ⟨ts', hts', hall, -⟩ := (h _).mp ((unescape_eq_ok_iff (Nat.le_refl _)).mpr ⟨ts, hts, hpass, rfl⟩)
    rwa [hts.unique hts']
  · rw [unescape_eq_ok_iff (Nat.le_refl _)]
    constructor
    · rintro ⟨ts, hts, hpass, rfl⟩
      exact ⟨ts, hts, h ts hts hpass, rfl⟩
    · rintro ⟨ts, hts, hall, rfl⟩
      refine ⟨ts, hts, fun t ht => ?_, rfl⟩
      have hvalue := hall t ht
      cases t with
      | byte c => trivial
      | octal v => trivial
      | hex v => exact Nat.lt_of_le_of_lt (Nat.mod_le v _) hvalue

/-- The text `\777` is accepted, for the byte 255. -/
theorem not_unescape_denotes : ∃ text bytes, unescape [102] text.length text = .ok bytes ∧
    ¬∃ ts, Escapes text ts ∧ (∀ t ∈ ts, t.value < 256) ∧ bytes = ts.map fun t => UInt8.ofNat t.value := by
  refine ⟨[92, 55, 55, 55], [255], by decide, ?_⟩
  rintro ⟨ts, hts, hall, -⟩
  have hoctal : IsEscape ([55, 55, 55] ++ []) (.octal 511) [] :=
    .octal (by decide) (by decide) (List.all_eq_true.mp (by decide)) (.inr rfl)
  have hescape : Escapes [92, 55, 55, 55] [.octal 511] := .escape hoctal .nil
  rw [hts.unique hescape] at hall
  exact absurd (hall _ List.mem_cons_self) (by decide)

end Reflection

end Hpb
