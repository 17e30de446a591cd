import Mathlib.Data.List.Forall2
import Hpb.MiniDescriptor.Base92Spec
import Hpb.MiniDescriptor.FieldParse
import Hpb.MiniTable.FindField

/-!
# Reading back a message

`ReadFields` is the state of the parser after some of the fields, `ReadOneofs` after some of the
oneofs. Each thing the encoder writes takes the parser from one such state to the next, whatever
comes after it.

* `parse_putFields`: all fields,
* `decodeOneofs_putOneofs`: all oneofs,
* `parseMessage_encodeMessage`: the whole descriptor.
-/

namespace Hpb

/-- The fields `fields` as they are parsed, after the fields `before`. -/
def toFields (p : Platform) (m : MsgModifiers) (before : List FieldSpec) :
    List FieldSpec → List MiniTableField
  | [] => []
  | s :: fields => s.toField p m before :: toFields p m (before ++ [s]) fields

section

variable {p : Platform} {m : MsgModifiers}

theorem toFields_append (before fields : List FieldSpec) (s : FieldSpec) :
    toFields p m before (fields ++ [s]) =
      toFields p m before fields ++ [s.toField p m (before ++ fields)] := by
  induction fields generalizing before with
  | nil => simp [toFields]
  | cons f fields ih => simp [toFields, ih]

theorem toFields_getElem? (before fields : List FieldSpec) (i : Nat) :
    (toFields p m before fields)[i]? =
      (fields[i]?).map fun s => s.toField p m (before ++ fields.take i) := by
  induction fields generalizing before i with
  | nil => simp [toFields]
  | cons f fields ih =>
    cases i with
    | zero => simp [toFields]
    | succ i => simp [toFields, ih]

theorem toFields_length (before fields : List FieldSpec) :
    (toFields p m before fields).length = fields.length := by
  induction fields generalizing before with
  | nil => rfl
  | cons f fields ih => simp [toFields, ih]

end

namespace MtDecoder

/-- The parser has read the fields `done`, and will increment the number `last`. -/
structure ReadFields (p : Platform) (m : MsgModifiers) (done : List FieldSpec) (last : Nat)
    (d : MtDecoder) (l : Locals) : Prop where
  platform : d.platform = p
  table : d.extension = false
  fields : d.fields = toFields p m [] done
  count : d.fieldCount = done.length
  subCounts : d.subCounts = subCountsOf done
  ext : d.ext = if m.isExtendable then ExtMode.extendable else ExtMode.nonExtendable
  vec : d.vec = []
  oneofs : d.oneofs = []
  modifiers : l.msgModifiers = UInt32.ofNat m.bits
  lastNumber : l.lastFieldNumber = last
  dense : ∀ i < d.denseBelow, ∃ s, done[i]? = some s ∧ s.number = i + 1
  needDense : l.needDenseBelow → last = done.length ∧
    ∀ (i : Nat) (s : FieldSpec), done[i]? = some s → s.number = i + 1

section

variable {p : Platform} {m : MsgModifiers} {done : List FieldSpec} {last : Nat} {d : MtDecoder}
  {l : Locals}

/-- Characters that were read already are skipped. -/
theorem parse_skip (cs rest : List UInt8) : d.parse l cs.length (cs ++ rest) = d.parse l 0 rest := by
  induction cs with
  | nil => rfl
  | cons c cs ih =>
    rw [List.cons_append, List.length_cons, parse]
    exact ih

/-- A number is read back, up to the first character that is no digit. -/
theorem decodeBase92Varint_put {min max : UInt8} {bits : Nat} {base : Int}
    (hd : Digits min max bits base) {val : Nat} (hval : val < 2 ^ 32) {rest : List UInt8}
    (hrest : Stops min max rest) :
    ∃ ch cs, putBase92Varint min max val = ch :: cs ∧ min ≤ ch ∧ ch ≤ max ∧
      (min.toNat : Int) ≤ charValue ch ∧ charValue ch ≤ max.toNat ∧
      decodeBase92Varint min max ch (cs ++ rest) = .ok (cs.length, UInt32.ofNat val) := by
  obtain ⟨ch, cs, hcs, hdec⟩ := decodeVarint_putBase92Varint hd hval hrest
  obtain ⟨ch', cs', hcs', h₁, h₂⟩ := putBase92Varint_head hd val
  rw [hcs] at hcs'
  obtain ⟨rfl, rfl⟩ := List.cons.inj hcs'
  obtain ⟨h₃, h₄⟩ := le_of_charValue h₁ h₂
  refine ⟨ch, cs, hcs, h₃, h₄, h₁, h₂, ?_⟩
  rw [decodeBase92Varint, hdec]

/-! ### Fields -/

theorem ReadFields.denseSpec (h : ReadFields p m done last d l) (hn : l.needDenseBelow) :
    ∀ i < d.fieldCount % 2 ^ 8, ∃ s, done[i]? = some s ∧ s.number = i + 1 := by
  intro i hi
  have hlt : i < done.length := by
    rw [← h.count]
    exact Nat.lt_of_lt_of_le hi (Nat.mod_le _ _)
  exact ⟨_, List.getElem?_eq_getElem hlt, (h.needDense hn).2 i _ (List.getElem?_eq_getElem hlt)⟩

/-- A skip sets the number before the next field's. -/
theorem parse_fieldSkip (h : ReadFields p m done last d l) {n : Nat} (hlast : last < n)
    (hn : n < 2 ^ 32) {rest : List UInt8} (hrest : Stops 95 126 rest) :
    ∃ d' l', d.parse l 0 ((if (last + 1) % 2 ^ 32 ≠ n then putBase92Varint 95 126 (n - last) else []) ++
        rest) = d'.parse l' 0 rest ∧ ReadFields p m done (n - 1) d' l' := by
  by_cases hskip : (last + 1) % 2 ^ 32 = n
  · rw [if_neg (not_not.mpr hskip), List.nil_append]
    refine ⟨d, l, rfl, ?_⟩
    rw [show n - 1 = last by omega]
    exact h
  rw [if_pos hskip]
  obtain ⟨ch, cs, hcs, hge, hle, hcge, -, hdec⟩ :=
    decodeBase92Varint_put skipDigits (show n - last < 2 ^ 32 by omega) hrest
  have hn94 : ch ≠ 94 := by
    rintro rfl
    exact absurd hge (by decide)
  have hn76 : ¬(76 ≤ ch ∧ ch ≤ 91) := fun hc => absurd (UInt8.le_trans hge hc.2) (by decide)
  rw [hcs, List.cons_append, parse, if_neg (by change (95 : Int) ≤ _ at hcge; omega), if_neg hn76,
    if_neg hn94, if_pos ⟨hge, hle⟩]
  dsimp only
  rw [hdec]
  refine ⟨_, _, parse_skip cs rest, ?_⟩
  have hnext : (last + (UInt32.ofNat (n - last)).toNat + (2 ^ 32 - 1)) % 2 ^ 32 = n - 1 := by
    rw [UInt32.toNat_ofNat']
    omega
  split_ifs with hneed
  · exact ⟨h.platform, h.table, h.fields, h.count, h.subCounts, h.ext, h.vec, h.oneofs, h.modifiers,
      by rw [h.lastNumber]; exact hnext, h.denseSpec hneed, by simp⟩
  · exact ⟨h.platform, h.table, h.fields, h.count, h.subCounts, h.ext, h.vec, h.oneofs, h.modifiers,
      by rw [h.lastNumber]; exact hnext, h.dense, by simp⟩

/-- One field has been parsed whose modifiers come next. -/
theorem parse_typeChar (h : ReadFields p m done last d l) {s : FieldSpec} (hv : s.Valid)
    (hb : done.length < 2 ^ 15) (hs : s.number = last + 1) (hn : s.number < 2 ^ 32)
    (rest : List UInt8) :
    ∃ (d' : MtDecoder) (l' : Locals),
      d.parse l 0 (typeChar s.mod.isRepeated s.encodedType :: rest) = d'.parse l' 0 rest ∧
      d'.fields = toFields p m [] done ++ [s.unmodified p m done] ∧
      (∀ fields, fields = toFields p m [] (done ++ [s]) →
        ReadFields p m (done ++ [s]) s.number { d' with fields } l') := by
  have hnumber : (l.lastFieldNumber + 1) % 2 ^ 32 = s.number := by
    rw [h.lastNumber, ← hs]
    exact Nat.mod_eq_of_lt hn
  rw [parse, if_pos (charValue_typeChar _ (encodedType_spec hv).1), if_neg (by simp [h.table])]
  dsimp only
  rw [hnumber, h.platform, h.modifiers, h.subCounts, setField_typeChar hv hb]
  refine ⟨_, _, rfl, by rw [h.fields], fun fields hfields => ?_⟩
  constructor
  case platform => rfl
  case table => exact h.table
  case fields => exact hfields
  case count =>
    change (d.fieldCount + 1) % 2 ^ 16 = _
    rw [h.count, List.length_append, List.length_singleton]
    exact Nat.mod_eq_of_lt (by omega)
  case subCounts => rfl
  case ext => exact h.ext
  case vec => exact h.vec
  case oneofs => exact h.oneofs
  case modifiers => rfl
  case lastNumber => rfl
  case dense =>
    intro i hi
    obtain ⟨t, ht, htn⟩ := h.dense i hi
    exact ⟨t, by rw [List.getElem?_append_left (List.getElem?_eq_some_iff.mp ht).1, ht], htn⟩
  case needDense =>
    intro hneed
    obtain ⟨hlen, hall⟩ := h.needDense hneed
    refine ⟨by simp [hs, hlen], fun i t ht => ?_⟩
    by_cases hi : i < done.length
    · rw [List.getElem?_append_left hi] at ht
      exact hall i t ht
    · have hlt := (List.getElem?_eq_some_iff.mp ht).1
      rw [List.length_append, List.length_singleton] at hlt
      obtain rfl : i = done.length := by omega
      rw [List.getElem?_concat_length] at ht
      cases ht
      rw [hs, hlen]

/-- The modifiers of the last field. -/
theorem parse_modifier {s : FieldSpec} (hv : s.Valid)
    (hfields : d.fields = toFields p m [] done ++ [s.unmodified p m done])
    (h : ∀ fields, fields = toFields p m [] (done ++ [s]) →
      ReadFields p m (done ++ [s]) last { d with fields } l)
    {rest : List UInt8} (hrest : Stops 76 91 rest) :
    ∃ d' l', d.parse l 0 (MsgState.putModifier (s.modifierBits m) ++ rest) = d'.parse l' 0 rest ∧
      ReadFields p m (done ++ [s]) last d' l' := by
  have happend := toFields_append (p := p) (m := m) [] done s
  rw [List.nil_append] at happend
  have hread := h _ rfl
  by_cases h0 : s.modifierBits m = 0
  · rw [MsgState.putModifier, if_pos h0, List.nil_append]
    refine ⟨d, l, rfl, ?_⟩
    have hd : d = { d with fields := toFields p m [] (done ++ [s]) } := by
      rw [happend, ← unmodified_eq hv h0, ← hfields]
    rw [hd]
    exact hread
  rw [MsgState.putModifier, if_neg h0]
  obtain ⟨ch, cs, hcs, hge, hle, hcge, -, hdec⟩ := decodeBase92Varint_put modifierDigits
    (Nat.lt_trans (modifierBits_spec m s).1 (by decide)) hrest
  have hap : d.applyModifier l (UInt32.ofNat (s.modifierBits m)) =
      .ok ({ d with fields := toFields p m [] (done ++ [s]) }, l) := by
    rw [applyModifier, hfields, List.getLast?_concat]
    dsimp only
    rw [modifyField_unmodified hv, happend, List.dropLast_concat]
    rfl
  have hext : (if l.msgModifiers &&& MessageModifier.isExtendable ≠ 0 then d.ext ||| ExtMode.extendable
      else d.ext) = d.ext := by
    have hm := hread.modifiers
    have he := hread.ext
    dsimp only at he
    rw [hm, he]
    simp only [(msgModifiers_bits m).2.2]
    cases m.isExtendable <;> rfl
  rw [hcs, List.cons_append, parse, if_neg (by change (76 : Int) ≤ _ at hcge; omega), if_pos ⟨hge, hle⟩]
  simp only [hdec, hap, bind, Except.bind]
  refine ⟨_, _, parse_skip cs rest, ?_⟩
  rw [hext]
  exact hread

/-- A character of a field's type ends the numbers before it. -/
theorem stops_typeChar {s : FieldSpec} (hv : s.Valid) (rest : List UInt8) :
    Stops 76 91 (typeChar s.mod.isRepeated s.encodedType :: rest) ∧
      Stops 95 126 (typeChar s.mod.isRepeated s.encodedType :: rest) := by
  have hle := charValue_typeChar s.mod.isRepeated (encodedType_spec hv).1
  refine ⟨fun c hc => Or.inl ?_, fun c hc => Or.inl ?_⟩
  · cases hc
    change _ < (76 : Int)
    omega
  · cases hc
    change _ < (95 : Int)
    omega

theorem putField_eq {s : FieldSpec} {st : OneofState} (hlast : last < s.number) :
    MsgState.putField ⟨m, last, st⟩ s.type s.number s.mod =
      some ((if (last + 1) % 2 ^ 32 ≠ s.number then putBase92Varint 95 126 (s.number - last) else []) ++
        typeChar s.mod.isRepeated s.encodedType :: MsgState.putModifier (s.modifierBits m),
        ⟨m, s.number, st⟩) := by
  rw [MsgState.putField, MsgState.maybePutFieldSkip, if_neg (Nat.not_le.mpr hlast), putFieldType_eq]
  simp only [bind, Option.bind, pure, List.append_assoc, List.singleton_append]
  rfl

/-- No modifier follows a field's modifiers. -/
theorem stops_putField {s : FieldSpec} {st st' : MsgState} {chars : List UInt8} (hv : s.Valid)
    (h : st.putField s.type s.number s.mod = some (chars, st')) (rest : List UInt8) :
    Stops 76 91 (chars ++ rest) := by
  by_cases hlast : st.lastFieldNum < s.number
  · obtain ⟨m, last, o⟩ := st
    rw [putField_eq hlast] at h
    obtain ⟨rfl, rfl⟩ := Prod.mk.inj (Option.some.inj h)
    split_ifs with hskip
    · obtain ⟨ch, cs, hcs, hge, -⟩ := putBase92Varint_head skipDigits (s.number - last)
      rw [hcs]
      intro c hc
      cases hc
      change (95 : Int) ≤ _ at hge
      refine Or.inr ?_
      change (91 : Int) < _
      omega
    · exact (stops_typeChar hv _).1
  · rw [MsgState.putField, MsgState.maybePutFieldSkip, if_pos (Nat.not_lt.mp hlast)] at h
    cases h

/-- **A field is read back.** -/
theorem parse_putField (h : ReadFields p m done last d l) {s : FieldSpec} (hv : s.Valid)
    (hb : done.length < 2 ^ 15) (hlast : last < s.number) (hn : s.number < 2 ^ 32)
    {st : OneofState} {st' : MsgState} {chars rest : List UInt8}
    (hput : MsgState.putField ⟨m, last, st⟩ s.type s.number s.mod = some (chars, st'))
    (hrest : Stops 76 91 rest) :
    ∃ d' l', d.parse l 0 (chars ++ rest) = d'.parse l' 0 rest ∧
      ReadFields p m (done ++ [s]) s.number d' l' := by
  rw [putField_eq hlast] at hput
  obtain ⟨rfl, rfl⟩ := Prod.mk.inj (Option.some.inj hput)
  rw [List.append_assoc, List.cons_append]
  obtain ⟨d₁, l₁, h₁, hread₁⟩ := parse_fieldSkip h hlast hn (stops_typeChar hv _).2
  obtain ⟨d₂, l₂, h₂, hfields, hread₂⟩ := parse_typeChar hread₁ hv hb (by omega) hn
    (MsgState.putModifier (s.modifierBits m) ++ rest)
  obtain ⟨d₃, l₃, h₃, hread₃⟩ := parse_modifier hv hfields hread₂ hrest
  exact ⟨d₃, l₃, by rw [h₁, h₂, h₃], hread₃⟩

theorem putFields_eq_some {fields : List FieldSpec} (st : OneofState)
    (hv : ∀ s ∈ fields, s.Valid ∧ last < s.number)
    (hasc : fields.Pairwise fun s s' => s.number < s'.number) :
    ∃ chars last', MsgState.putFields ⟨m, last, st⟩ fields = some (chars, ⟨m, last', st⟩) ∧
      ∀ rest, Stops 76 91 rest → Stops 76 91 (chars ++ rest) := by
  induction fields generalizing last with
  | nil => exact ⟨[], last, rfl, fun rest hrest => hrest⟩
  | cons s fields ih =>
    obtain ⟨hvs, hlast⟩ := hv s List.mem_cons_self
    obtain ⟨hmin, hasc⟩ := List.pairwise_cons.mp hasc
    obtain ⟨chars, hput⟩ : ∃ chars, MsgState.putField ⟨m, last, st⟩ s.type s.number s.mod =
        some (chars, ⟨m, s.number, st⟩) := ⟨_, putField_eq hlast⟩
    obtain ⟨more, last', hmore, -⟩ :=
      ih (fun t ht => ⟨(hv t (List.mem_cons_of_mem _ ht)).1, hmin t ht⟩) hasc
    refine ⟨chars ++ more, last', ?_, fun rest _ => ?_⟩
    · rw [MsgState.putFields, hput]
      simp only [bind, Option.bind, hmore]
      rfl
    · rw [List.append_assoc]
      exact stops_putField hvs hput _

/-- **All fields are read back.** -/
theorem parse_putFields (h : ReadFields p m done last d l) {fields : List FieldSpec} {last' : Nat}
    {st : OneofState} {chars rest : List UInt8}
    (hv : ∀ s ∈ fields, s.Valid ∧ last < s.number ∧ s.number < 2 ^ 32)
    (hasc : fields.Pairwise fun s s' => s.number < s'.number)
    (hb : (done ++ fields).length ≤ 2 ^ 15)
    (hput : MsgState.putFields ⟨m, last, st⟩ fields = some (chars, ⟨m, last', st⟩))
    (hrest : Stops 76 91 rest) :
    ∃ d' l', d.parse l 0 (chars ++ rest) = d'.parse l' 0 rest ∧
      ReadFields p m (done ++ fields) last' d' l' := by
  induction fields generalizing done last d l chars with
  | nil =>
    cases hput
    refine ⟨d, l, rfl, ?_⟩
    rw [List.append_nil]
    exact h
  | cons s fields ih =>
    obtain ⟨hvs, hlast, hn⟩ := hv s List.mem_cons_self
    obtain ⟨hmin, hasc⟩ := List.pairwise_cons.mp hasc
    have hv' : ∀ t ∈ fields, t.Valid ∧ s.number < t.number ∧ t.number < 2 ^ 32 := fun t ht =>
      ⟨(hv t (List.mem_cons_of_mem _ ht)).1, hmin t ht, (hv t (List.mem_cons_of_mem _ ht)).2.2⟩
    obtain ⟨first, hfirst⟩ : ∃ chars, MsgState.putField ⟨m, last, st⟩ s.type s.number s.mod =
        some (chars, ⟨m, s.number, st⟩) := ⟨_, putField_eq hlast⟩
    obtain ⟨more, last₁, hmore, hstops⟩ :=
      putFields_eq_some (m := m) st (fun t ht => ⟨(hv' t ht).1, (hv' t ht).2.1⟩) hasc
    rw [MsgState.putFields, hfirst] at hput
    simp only [bind, Option.bind, hmore, pure] at hput
    cases hput
    rw [List.append_assoc, List.append_cons] at *
    have hlt : done.length < 2 ^ 15 := by
      simp only [List.length_append, List.length_cons, List.length_nil] at hb
      omega
    obtain ⟨d₁, l₁, h₁, hread₁⟩ := parse_putField h hvs hlt hlast hn hfirst (hstops rest hrest)
    obtain ⟨d₂, l₂, h₂, hread₂⟩ := ih hread₁ hv' hasc hb hmore
    exact ⟨d₂, l₂, by rw [h₁, h₂], hread₂⟩

/-- The modifiers of the message are read back. -/
theorem parse_startMessage (p : Platform) (m : MsgModifiers) {rest : List UInt8}
    (hrest : Stops 76 91 rest) :
    ∃ d l, (start p).parse ⟨0, 0, true⟩ 0 (MsgState.putModifier m.bits ++ rest) = d.parse l 0 rest ∧
      ReadFields p m [] 0 d l := by
  have hread : ∀ d l, d = { start p with
      ext := if m.isExtendable then ExtMode.extendable else ExtMode.nonExtendable } →
      l = ⟨UInt32.ofNat m.bits, 0, true⟩ → ReadFields p m [] 0 d l := by
    rintro d l rfl rfl
    exact ⟨rfl, rfl, rfl, rfl, rfl, rfl, rfl, rfl, rfl, rfl, by simp [start], by simp⟩
  by_cases h0 : m.bits = 0
  · rw [MsgState.putModifier, if_pos h0, List.nil_append]
    refine ⟨start p, ⟨0, 0, true⟩, rfl, hread _ _ ?_ (by rw [h0]; rfl)⟩
    have : m.isExtendable = false := by
      unfold MsgModifiers.bits at h0
      cases he : m.isExtendable with
      | false => rfl
      | true => simp [he] at h0
    rw [this]
    rfl
  have hbits : m.bits < 2 ^ 32 := by
    unfold MsgModifiers.bits
    cases m.validateUtf8 <;> cases m.defaultIsPacked <;> cases m.isExtendable <;> decide
  rw [MsgState.putModifier, if_neg h0]
  obtain ⟨ch, cs, hcs, hge, hle, hcge, -, hdec⟩ := decodeBase92Varint_put modifierDigits hbits hrest
  rw [hcs, List.cons_append, parse, if_neg (by change (76 : Int) ≤ _ at hcge; omega), if_pos ⟨hge, hle⟩]
  have hap : (start p).applyModifier ⟨0, 0, true⟩ (UInt32.ofNat m.bits) =
      .ok (start p, ⟨UInt32.ofNat m.bits, 0, true⟩) := rfl
  simp only [hdec, hap, bind, Except.bind, (msgModifiers_bits m).2.2]
  refine ⟨_, _, parse_skip cs rest, hread _ _ ?_ rfl⟩
  cases m.isExtendable <;> simp [start, ExtMode.extendable, ExtMode.nonExtendable]

/-! ### Oneofs -/

/-- The indexes `members`, from the last one on, are those of the numbers `o`. -/
def Matches (fields : List MiniTableField) (o members : List Nat) : Prop :=
  members.reverse.map (fun i => (fields[i]?).map (·.number)) = o.map some

/-- The parser has read the oneofs `before` and the members `o` of the next one, after the fields as
they were in `d₀`. -/
structure ReadOneofs (d₀ : MtDecoder) (before : List (List Nat)) (o : List Nat) (d : MtDecoder)
    (item : LayoutItem) (members : List Nat) : Prop where
  frame : d = { d₀ with fields := d.fields, vec := d.vec, oneofs := d.oneofs }
  fields : ∀ (i : Nat) (f : MiniTableField), d₀.fields[i]? = some f →
    ∃ offset, d.fields[i]? = some { f with offset }
  length : d.fields.length = d₀.fields.length
  others : ∀ (i : Nat) (f : MiniTableField), d₀.fields[i]? = some f →
    f.number ∉ before.flatten ++ o → d.fields[i]? = some f
  oneofs : List.Forall₂ (Matches d₀.fields) before d.oneofs
  members : Matches d₀.fields o members
  sentinel : item.fieldIndex = indexSentinel → o = []

section

variable {d₀ : MtDecoder} {before : List (List Nat)} {o : List Nat} {item : LayoutItem}
  {members : List Nat}

theorem decodeOneofs_skip (cs rest : List UInt8) :
    d.decodeOneofs item members cs.length (cs ++ rest) = d.decodeOneofs item members 0 rest := by
  induction cs with
  | nil => rfl
  | cons c cs ih =>
    rw [List.cons_append, List.length_cons, decodeOneofs]
    exact ih

theorem ReadOneofs.searchable (h : ReadOneofs d₀ before o d item members)
    (hs : MiniTable.Searchable d₀.fields d₀.denseBelow) :
    MiniTable.Searchable d.fields d.denseBelow := by
  have hnum : d.fields.map (·.number) = d₀.fields.map (·.number) := by
    apply List.ext_getElem?
    intro i
    rw [List.getElem?_map, List.getElem?_map]
    cases hf : d₀.fields[i]? with
    | none =>
      have hi := List.getElem?_eq_none_iff.mp hf
      rw [List.getElem?_eq_none (by rw [h.length]; exact hi)]
    | some f =>
      obtain ⟨offset, hd⟩ := h.fields i f hf
      rw [hd]
      rfl
  constructor
  · have hasc : (d₀.fields.map (·.number)).Pairwise (· < ·) := List.pairwise_map.mpr hs.ascending
    rw [← hnum] at hasc
    exact List.pairwise_map.mp hasc
  · intro i hi
    rw [h.frame] at hi
    obtain ⟨f, hf, hn⟩ := hs.dense i hi
    obtain ⟨offset, hd⟩ := h.fields i f hf
    exact ⟨_, hd, hn⟩

/-- A field that may be in a oneof joins the one that is being read. -/
theorem ReadOneofs.add (h : ReadOneofs d₀ before o d item members)
    (hs : MiniTable.Searchable d₀.fields d₀.denseBelow) (hc : d₀.fieldCount = d₀.fields.length)
    (hb : d₀.fields.length ≤ 2 ^ 15) {i : Nat} {f : MiniTableField} (hf : d₀.fields[i]? = some f)
    (hclass : f.offset = hasbitPresence) (hnew : f.number ∉ before.flatten ++ o) :
    ∃ d' item', d.addToOneof f.number item members = .ok (d', item', i :: members) ∧
      ReadOneofs d₀ before (o ++ [f.number]) d' item' (i :: members) := by
  have hi := (List.getElem?_eq_some_iff.mp hf).1
  have hfd := h.others i f hf hnew
  have hcount : d.fieldCount = d.fields.length := by
    rw [h.length, ← hc, h.frame]
  have hfind := MiniTable.findFieldByNumber_eq (h.searchable hs) hfd
  have hadd : d.addToOneof f.number item members =
      .ok ({ d with fields := d.fields.set i { f with offset := item.fieldIndex } },
        { item with
          rep := if sizeOfRep f.rep d.platform > sizeOfRep item.rep d.platform then f.rep else item.rep
          fieldIndex := (i + oneofBase) % 2 ^ 16 }, i :: members) := by
    rw [addToOneof, hcount, hfind]
    dsimp only
    rw [hfd]
    dsimp only
    rw [if_neg (not_not.mpr hclass)]
  refine ⟨_, _, hadd, ?_⟩
  constructor
  case frame =>
    dsimp only
    conv_lhs => rw [h.frame]
  case fields =>
    intro j g hg
    by_cases hij : j = i
    · subst hij
      rw [hf] at hg
      cases hg
      exact ⟨_, List.getElem?_set_self (h.length ▸ hi)⟩
    · obtain ⟨offset, hd⟩ := h.fields j g hg
      exact ⟨offset, (List.getElem?_set_ne (Ne.symm hij)).trans hd⟩
  case length => rw [List.length_set, h.length]
  case others =>
    intro j g hg hn
    rw [← List.append_assoc, List.mem_append, not_or] at hn
    have hij : j ≠ i := by
      rintro rfl
      rw [hf] at hg
      cases hg
      exact hn.2 (List.mem_singleton.mpr rfl)
    exact (List.getElem?_set_ne (Ne.symm hij)).trans (h.others j g hg hn.1)
  case oneofs => exact h.oneofs
  case members =>
    unfold Matches
    rw [List.reverse_cons, List.map_append, List.map_append, h.members, List.map_singleton, hf]
    rfl
  case sentinel =>
    intro he
    dsimp only at he
    unfold oneofBase indexSentinel at he
    omega

/-- The oneof that is being read has all its members. -/
theorem ReadOneofs.push (h : ReadOneofs d₀ before o d item members) (ho : o ≠ []) :
    ∃ d', d.pushOneof item members = .ok d' ∧
      ReadOneofs d₀ (before ++ [o]) [] d' { item with fieldIndex := indexSentinel } [] := by
  have hne : item.fieldIndex ≠ indexSentinel := fun he => ho (h.sentinel he)
  refine ⟨_, by rw [pushOneof, if_neg hne], ?_⟩
  constructor
  case frame =>
    dsimp only [pushItem]
    conv_lhs => rw [h.frame]
  case fields => exact h.fields
  case length => exact h.length
  case others =>
    intro i f hf hn
    exact h.others i f hf (by simpa using hn)
  case oneofs => exact List.rel_append h.oneofs (List.Forall₂.cons h.members List.Forall₂.nil)
  case members => rfl
  case sentinel => exact fun _ => rfl

/-- The number is that of a field that may be in a oneof. -/
def Joinable (d₀ : MtDecoder) (n : Nat) : Prop :=
  n < 2 ^ 32 ∧ ∃ (i : Nat) (f : MiniTableField),
    d₀.fields[i]? = some f ∧ f.number = n ∧ f.offset = hasbitPresence

/-- What finding the fields of a oneof takes. -/
structure FieldsRead (d₀ : MtDecoder) : Prop where
  searchable : MiniTable.Searchable d₀.fields d₀.denseBelow
  count : d₀.fieldCount = d₀.fields.length
  bound : d₀.fields.length ≤ 2 ^ 15

theorem putMembers_oneofState (st : MsgState) (hst : st.oneofState ≠ .notStarted) (ns : List Nat) :
    (st.putMembers ns).2.oneofState ≠ .notStarted := by
  induction ns generalizing st with
  | nil => exact hst
  | cons n ns ih => exact ih (st.putOneofField n).2 (by simp [MsgState.putOneofField])

/-- A oneof that is not the first one starts with a separator. -/
theorem stops_putOneofs (st : MsgState) (hst : st.oneofState ≠ .notStarted) (os : List (List Nat)) :
    Stops 32 98 (st.putOneofs os) := by
  cases os with
  | nil => simp [MsgState.putOneofs, Stops]
  | cons o os =>
    rw [MsgState.putOneofs, MsgState.startOneof, if_neg hst]
    intro c hc
    cases hc
    exact Or.inr (by decide)

section

variable (hr : FieldsRead d₀)
include hr

theorem decodeOneofs_member (h : ReadOneofs d₀ before o d item members) {n : Nat}
    (hn : Joinable d₀ n) (hnew : n ∉ before.flatten ++ o) {rest : List UInt8}
    (hrest : Stops 32 98 rest) :
    ∃ d' item' members', d.decodeOneofs item members 0 (putBase92Varint 32 98 n ++ rest) =
        decodeOneofs d' item' members' 0 rest ∧
      ReadOneofs d₀ before (o ++ [n]) d' item' members' := by
  obtain ⟨hlt, i, f, hf, rfl, hclass⟩ := hn
  obtain ⟨d', item', hadd, hread⟩ := h.add hr.searchable hr.count hr.bound hf hclass hnew
  obtain ⟨ch, cs, hcs, -, hle, -, -, hdec⟩ := decodeBase92Varint_put oneofDigits hlt hrest
  have hmod : (UInt32.ofNat f.number).toNat = f.number := by
    rw [UInt32.toNat_ofNat']
    exact Nat.mod_eq_of_lt hlt
  have hsep : ∀ c : UInt8, 98 < c → ch ≠ c := fun c hc he =>
    absurd (UInt8.lt_of_lt_of_le hc (he ▸ hle)) (by decide)
  rw [hcs, List.cons_append, decodeOneofs, if_neg (hsep 124 (by decide)), if_neg (hsep 126 (by decide)),
    hdec]
  simp only [bind, Except.bind, hmod, hadd]
  exact ⟨d', item', _, decodeOneofs_skip cs rest, hread⟩

/-- **The members of a oneof are read back.** -/
theorem decodeOneofs_putMembers (h : ReadOneofs d₀ before o d item members) (st : MsgState)
    {ns : List Nat} (hst : st.oneofState ≠ .notStarted) (hn : ∀ n ∈ ns, Joinable d₀ n)
    (hnew : (before.flatten ++ o ++ ns).Nodup) {rest : List UInt8} (hrest : Stops 32 98 rest) :
    ∃ d' item' members', d.decodeOneofs item members 0 ((st.putMembers ns).1 ++ rest) =
        decodeOneofs d' item' members' 0 rest ∧
      ReadOneofs d₀ before (o ++ ns) d' item' members' := by
  induction ns generalizing d item members o st with
  | nil =>
    refine ⟨d, item, members, rfl, ?_⟩
    rw [List.append_nil]
    exact h
  | cons n ns ih =>
    have hnot : n ∉ before.flatten ++ o := fun hmem =>
      (List.nodup_append.mp hnew).2.2 n hmem n List.mem_cons_self rfl
    -- whatever comes next starts with a separator, or is the rest
    have hstops : Stops 32 98 (((st.putOneofField n).2.putMembers ns).1 ++ rest) := by
      cases ns with
      | nil => exact hrest
      | cons n' ns =>
        intro c hc
        cases hc
        exact Or.inr (by decide)
    obtain ⟨d₁, item₁, members₁, h₁, hread₁⟩ := decodeOneofs_member hr h
      (hn n List.mem_cons_self) hnot hstops
    obtain ⟨d₂, item₂, members₂, h₂, hread₂⟩ := ih hread₁ (st.putOneofField n).2
      (by simp [MsgState.putOneofField]) (fun n' hn' => hn n' (List.mem_cons_of_mem _ hn'))
      (by simpa using hnew)
    refine ⟨d₂, item₂, members₂, ?_, by simpa using hread₂⟩
    rw [← h₂, ← h₁, MsgState.putMembers, MsgState.putOneofField]
    dsimp only
    have hdigits : toBase92 0 = 32 ∧ toBase92 63 = 98 ∧ toBase92 (fromBase92 124) = 124 := by decide
    rw [hdigits.1, hdigits.2.1, hdigits.2.2]
    split_ifs with hsep
    · rw [List.append_assoc, List.append_assoc, List.singleton_append, decodeOneofs, if_pos rfl]
    · rw [List.nil_append, List.append_assoc]

/-- **The oneofs are read back**, from the members `o` of one of them on. -/
theorem decodeOneofs_putOneofs (h : ReadOneofs d₀ before o d item members) {os : List (List Nat)}
    {st : MsgState} (hst : st.oneofState ≠ .notStarted) (ho : o ≠ [])
    (hos : ∀ o' ∈ os, o' ≠ [] ∧ ∀ n ∈ o', Joinable d₀ n)
    (hnew : (before.flatten ++ o ++ os.flatten).Nodup) :
    ∃ d' item', d.decodeOneofs item members 0 (st.putOneofs os) = .ok d' ∧
      ReadOneofs d₀ (before ++ o :: os) [] d' item' [] := by
  induction os generalizing d item members before o st with
  | nil =>
    obtain ⟨d', hd', hread⟩ := h.push ho
    exact ⟨d', _, by rw [MsgState.putOneofs, decodeOneofs, hd'], hread⟩
  | cons o' os ih =>
    obtain ⟨hne, hjoin⟩ := hos o' List.mem_cons_self
    obtain ⟨d₁, hd₁, hread₁⟩ := h.push ho
    have hflat : (before ++ [o]).flatten = before.flatten ++ o := by simp
    have hnew' : ((before ++ [o]).flatten ++ [] ++ o' ++ os.flatten).Nodup := by
      rw [hflat]
      simpa using hnew
    have hstart : st.startOneof = ([126], { st with oneofState := .startedOneof }) := by
      rw [MsgState.startOneof, if_neg hst]
      rfl
    have hst₂ := putMembers_oneofState { st with oneofState := .startedOneof } (by simp) o'
    obtain ⟨d₂, item₂, members₂, h₂, hread₂⟩ := decodeOneofs_putMembers hr hread₁
      { st with oneofState := .startedOneof } (by simp) hjoin (List.nodup_append.mp hnew').1
      (stops_putOneofs _ hst₂ os)
    obtain ⟨d₃, item₃, h₃, hread₃⟩ := ih hread₂ hst₂ (by simpa using hne)
      (fun x hx => hos x (List.mem_cons_of_mem _ hx)) (by simpa using hnew')
    refine ⟨d₃, item₃, ?_, by simpa using hread₃⟩
    rw [← h₃, ← h₂, MsgState.putOneofs, hstart]
    dsimp only
    rw [List.append_assoc, List.singleton_append, decodeOneofs, if_neg (by decide), if_pos rfl, hd₁]
    rfl

end

end

theorem ReadFields.fieldsRead (h : ReadFields p m done last d l) (hb : done.length ≤ 2 ^ 15)
    (hasc : done.Pairwise fun s s' => s.number < s'.number) : FieldsRead d := by
  have hlen : d.fields.length = done.length := by rw [h.fields, toFields_length]
  have hget : ∀ i : Nat, (d.fields[i]?).map (·.number) = (done[i]?).map (·.number) := by
    intro i
    rw [h.fields, toFields_getElem?, Option.map_map]
    rfl
  refine ⟨⟨?_, fun i hi => ?_⟩, h.count.trans hlen.symm, hlen ▸ hb⟩
  · have hnum : d.fields.map (·.number) = done.map (·.number) := by
      apply List.ext_getElem?
      intro i
      rw [List.getElem?_map, List.getElem?_map, hget]
    have hasc' : (done.map (·.number)).Pairwise (· < ·) := List.pairwise_map.mpr hasc
    rw [← hnum] at hasc'
    exact List.pairwise_map.mp hasc'
  · obtain ⟨s, hs, hn⟩ := h.dense i hi
    have := hget i
    rw [hs, Option.map_some, Option.map_eq_some_iff] at this
    obtain ⟨f, hf, hfn⟩ := this
    exact ⟨f, hf, hfn.trans hn⟩

end

/-- The parsed message `d` says what `m` says. -/
structure Reads (p : Platform) (m : MessageSpec) (d : MtDecoder) : Prop where
  count : d.fieldCount = m.fields.length
  subCounts : d.subCounts = subCountsOf m.fields
  ext : d.ext = if m.modifiers.isExtendable then ExtMode.extendable else ExtMode.nonExtendable
  length : d.fields.length = m.fields.length
  field : ∀ (i : Nat) (s : FieldSpec), m.fields[i]? = some s → ∃ offset,
    d.fields[i]? = some { s.toField p m.modifiers (m.fields.take i) with offset } ∧
    (s.number ∉ m.oneofs.flatten → offset = s.parsedClass)
  oneofs : List.Forall₂ (Matches (toFields p m.modifiers [] m.fields)) m.oneofs d.oneofs

/-- The state after the last oneof. -/
theorem ReadOneofs.reads {p : Platform} {m : MessageSpec} {d₀ d : MtDecoder} {last : Nat}
    {l : Locals} {item : LayoutItem} {members : List Nat}
    (h₀ : ReadFields p m.modifiers m.fields last d₀ l)
    (h : ReadOneofs d₀ m.oneofs [] d item members) : Reads p m (d.endParse l) := by
  have hget : ∀ (i : Nat) (s : FieldSpec), m.fields[i]? = some s →
      d₀.fields[i]? = some (s.toField p m.modifiers (m.fields.take i)) := by
    intro i s hs
    rw [h₀.fields, toFields_getElem?, hs]
    rfl
  have hend : (d.endParse l).fieldCount = d.fieldCount ∧ (d.endParse l).subCounts = d.subCounts ∧
      (d.endParse l).ext = d.ext ∧ (d.endParse l).oneofs = d.oneofs := by
    unfold endParse
    split_ifs <;> exact ⟨rfl, rfl, rfl, rfl⟩
  obtain ⟨hcount, hsubs, hext, hone⟩ := hend
  constructor
  case count => rw [hcount, h.frame, ← h₀.count]
  case subCounts => rw [hsubs, h.frame, ← h₀.subCounts]
  case ext => rw [hext, h.frame, ← h₀.ext]
  case length => rw [endParse_fields, h.length, h₀.fields, toFields_length]
  case field =>
    intro i s hs
    rw [endParse_fields]
    obtain ⟨offset, hoff⟩ := h.fields i _ (hget i s hs)
    refine ⟨offset, hoff, fun hn => ?_⟩
    have hsame := h.others i _ (hget i s hs) (by rw [List.append_nil]; exact hn)
    rw [hoff] at hsame
    exact congrArg MiniTableField.offset (Option.some.inj hsame)
  case oneofs =>
    rw [hone, ← h₀.fields]
    exact h.oneofs

/-- The oneofs after the fields, and the end. -/
theorem parse_putOneofs {p : Platform} {m : MessageSpec} {d₀ : MtDecoder} {last : Nat} {l : Locals}
    (hv : m.Valid) (hb : m.fields.length ≤ 2 ^ 15)
    (h₀ : ReadFields p m.modifiers m.fields last d₀ l) :
    ∃ d, d₀.parse l 0 (MsgState.putOneofs ⟨m.modifiers, last, .notStarted⟩ m.oneofs) = .ok (d, []) ∧
      Reads p m d := by
  have hr := h₀.fieldsRead hb hv.ascending
  have hinit : ReadOneofs d₀ [] [] d₀ ⟨indexSentinel, 0, .oneByte, .oneofCase⟩ [] := by
    refine ⟨rfl, fun i f hf => ⟨_, hf⟩, rfl, fun i f hf _ => hf, ?_, rfl, fun _ => rfl⟩
    rw [h₀.oneofs]
    exact List.Forall₂.nil
  have hjoin : ∀ o ∈ m.oneofs, ∀ n ∈ o, Joinable d₀ n := by
    intro o ho n hn
    obtain ⟨s, hs, rfl, hplain⟩ := hv.member o ho n hn
    obtain ⟨i, hi⟩ := List.getElem?_of_mem hs
    refine ⟨(hv.number s hs).2, i, s.toField p m.modifiers (m.fields.take i), ?_, rfl, ?_⟩
    · rw [h₀.fields, toFields_getElem?, hi]
      rfl
    · change s.parsedClass = _
      simp [FieldSpec.parsedClass, hplain.1, hplain.2.1, hplain.2.2]
  cases hos : m.oneofs with
  | nil => exact ⟨d₀.endParse l, rfl, ReadOneofs.reads h₀ (hos ▸ hinit)⟩
  | cons o os =>
    have hnodup := hv.nodup
    rw [hos, List.flatten_cons] at hnodup
    rw [hos] at hjoin
    have hst := putMembers_oneofState ⟨m.modifiers, last, .startedOneof⟩ (by simp) o
    obtain ⟨d₁, item₁, members₁, h₁, hread₁⟩ := decodeOneofs_putMembers hr hinit
      ⟨m.modifiers, last, .startedOneof⟩ (by simp) (hjoin o List.mem_cons_self)
      (List.nodup_append.mp hnodup).1 (stops_putOneofs _ hst os)
    obtain ⟨d₂, item₂, h₂, hread₂⟩ := decodeOneofs_putOneofs hr hread₁ hst
      (hv.nonempty o (hos ▸ List.mem_cons_self))
      (fun o' ho' => ⟨hv.nonempty o' (hos ▸ List.mem_cons_of_mem _ ho'),
        hjoin o' (List.mem_cons_of_mem _ ho')⟩) hnodup
    rw [List.nil_append, List.nil_append, ← hos] at hread₂
    refine ⟨d₂.endParse l, ?_, hread₂.reads h₀⟩
    rw [MsgState.putOneofs, show MsgState.startOneof ⟨m.modifiers, last, .notStarted⟩ =
      ([94], ⟨m.modifiers, last, .startedOneof⟩) from rfl]
    dsimp only
    rw [List.append_assoc, List.singleton_append, parse, if_neg (by decide), if_neg (by decide),
      if_pos rfl, if_neg (by simp [h₀.table]), h₁, h₂]
    rfl

/-- **A message is parsed as it was described.** -/
theorem parseMessage_encodeMessage (p : Platform) {m : MessageSpec} (hv : m.Valid)
    (hb : m.fields.length ≤ 2 ^ 15) :
    ∃ desc d, encodeMessage m = some (36 :: desc) ∧ parseMessage p desc = .ok d ∧ Reads p m d := by
  have hfields : ∀ s ∈ m.fields, s.Valid ∧ 0 < s.number ∧ s.number < 2 ^ 32 := fun s hs =>
    ⟨hv.field s hs, hv.number s hs⟩
  obtain ⟨chars, last, hput, hstops⟩ := putFields_eq_some (m := m.modifiers) .notStarted
    (fun s hs => ⟨(hfields s hs).1, (hfields s hs).2.1⟩) hv.ascending
  have hstart : Stops 76 91 (MsgState.putOneofs ⟨m.modifiers, last, .notStarted⟩ m.oneofs) := by
    cases m.oneofs with
    | nil => simp [MsgState.putOneofs, Stops]
    | cons o os =>
      intro c hc
      cases hc
      exact Or.inr (show (91 : Int) < 94 by decide)
  obtain ⟨d₁, l₁, h₁, hread₁⟩ := parse_startMessage p m.modifiers (hstops _ hstart)
  obtain ⟨d₀, l₀, h₀, hread₀⟩ := parse_putFields hread₁ hfields hv.ascending (by simpa using hb) hput
    hstart
  obtain ⟨d, hd, hreads⟩ := parse_putOneofs hv hb hread₀
  refine ⟨MsgState.putModifier m.modifiers.bits ++ (chars ++
    MsgState.putOneofs ⟨m.modifiers, last, .notStarted⟩ m.oneofs), d, ?_, ?_, hreads⟩
  · rw [encodeMessage, MsgState.startMessage]
    simp only [bind, Option.bind, hput, pure, List.cons_append, List.append_assoc]
  · rw [parseMessage, h₁, h₀, hd]
    rfl

end MtDecoder

end Hpb
