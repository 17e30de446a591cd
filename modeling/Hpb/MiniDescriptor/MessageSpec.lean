import Hpb.MiniDescriptor.Decode
import Hpb.MiniDescriptor.Encode

/-!
# Descriptions of messages

`MessageSpec` is what the encoder's caller wants to say: message modifiers, fields in the order of
their numbers and oneofs by the numbers of their members. `encodeMessage` says it as a mini
descriptor, in the calls that the encoder's caller makes, and `Describes` is what a table has to be
to say the same.
-/

namespace Hpb

/-- A field of a message description. -/
structure FieldSpec where
  number : Nat
  type : FieldType
  mod : FieldModifiers
  deriving DecidableEq, Repr

/-- A message description; a oneof is the list of its members' numbers. -/
structure MessageSpec where
  modifiers : MsgModifiers
  fields : List FieldSpec
  oneofs : List (List Nat)
  deriving DecidableEq, Repr

namespace FieldSpec

/-- The combinations of modifiers that mean something. -/
structure Valid (s : FieldSpec) : Prop where
  closed : s.mod.isClosedEnum → s.type = .enum
  notRequired : s.mod.isRepeated ∨ s.mod.isProto3Singular → ¬s.mod.isRequired
  notSingular : s.mod.isRepeated → ¬s.mod.isProto3Singular

/-- A field that may be in a oneof. -/
def IsPlain (s : FieldSpec) : Prop :=
  s.mod.isRepeated = false ∧ s.mod.isProto3Singular = false ∧ s.mod.isRequired = false

instance (s : FieldSpec) : Decidable s.IsPlain := inferInstanceAs (Decidable (_ ∧ _))

/-- The sub-table that a field needs, before it is linked. -/
def sub (s : FieldSpec) : Option MiniTableSub :=
  if s.type = .message ∨ s.type = .group then some .emptyMessage
  else if s.mod.isClosedEnum then some .nullEnum
  else none

/-- An enum that takes every value is stored as an integer. -/
def isOpenEnum (s : FieldSpec) : Bool := s.type == .enum && !s.mod.isClosedEnum

/-- A string that is not checked for UTF-8. -/
def isUnchecked (m : MsgModifiers) (s : FieldSpec) : Bool := s.type == .string && !m.validateUtf8

/-- The type of a field in the table. -/
def descriptortype (m : MsgModifiers) (s : FieldSpec) : FieldType :=
  if s.isOpenEnum then .int32 else if s.isUnchecked m then .bytes else s.type

/-- Whether the table's type is not the field's. -/
def isAlternate (m : MsgModifiers) (s : FieldSpec) : Bool := s.isOpenEnum || s.isUnchecked m

/-- Whether a field is packed on the wire. -/
def isPacked (s : FieldSpec) : Bool := s.mod.isRepeated && s.type.isPackable && s.mod.isPacked

end FieldSpec

/-- How a field's presence is known. -/
inductive PresenceClass where
  | implicit | hasbit | required | oneof
  deriving DecidableEq, Repr

/-- The presence class of a field of the table `t`: required fields have the lowest has-bits. -/
def MiniTable.presenceClass (t : MiniTable) (f : MiniTableField) : PresenceClass :=
  if f.presence = 0 then .implicit
  else if f.presence < 0 then .oneof
  else if f.presence ≤ t.requiredCount then .required
  else .hasbit

namespace MessageSpec

structure Valid (m : MessageSpec) : Prop where
  field : ∀ s ∈ m.fields, s.Valid
  number : ∀ s ∈ m.fields, 0 < s.number ∧ s.number < 2 ^ 32
  ascending : m.fields.Pairwise fun s s' => s.number < s'.number
  nonempty : ∀ o ∈ m.oneofs, o ≠ []
  nodup : m.oneofs.flatten.Nodup
  member : ∀ o ∈ m.oneofs, ∀ n ∈ o, ∃ s ∈ m.fields, s.number = n ∧ s.IsPlain

def presenceClass (m : MessageSpec) (s : FieldSpec) : PresenceClass :=
  if s.mod.isRepeated ∨ s.mod.isProto3Singular then .implicit
  else if s.mod.isRequired then .required
  else if ∃ o ∈ m.oneofs, s.number ∈ o then .oneof
  else .hasbit

/-- The field `f` of the table `t` is the field `s`. -/
structure DescribesField (m : MessageSpec) (t : MiniTable) (s : FieldSpec) (f : MiniTableField) :
    Prop where
  number : f.number = s.number
  type : f.descriptortype = s.descriptortype m.modifiers
  alternate : f.mode &&& LabelFlags.isAlternate ≠ 0 ↔ s.isAlternate m.modifiers
  cardinality : f.fieldMode = if s.mod.isRepeated then FieldMode.array else FieldMode.scalar
  packed : f.mode &&& LabelFlags.isPacked ≠ 0 ↔ s.isPacked
  presence : t.presenceClass f = m.presenceClass s
  sub : ∀ sub ∈ s.sub, t.subs[f.submsgIndex]? = some sub
  noSub : s.sub = none → f.submsgIndex = noSub

/-- The table `t` says what `m` says. -/
structure Describes (m : MessageSpec) (t : MiniTable) : Prop where
  count : t.fieldCount = m.fields.length
  length : t.fields.length = m.fields.length
  field : ∀ (i : Nat) (s : FieldSpec) (f : MiniTableField), m.fields[i]? = some s →
    t.fields[i]? = some f → m.DescribesField t s f
  required : t.requiredCount = m.fields.countP (·.mod.isRequired)
  oneof : ∀ (i j : Nat) (s s' : FieldSpec) (f f' : MiniTableField), m.fields[i]? = some s →
    m.fields[j]? = some s' → t.fields[i]? = some f → t.fields[j]? = some f' →
    m.presenceClass s = .oneof → m.presenceClass s' = .oneof →
    (f.presence = f'.presence ↔ ∃ o ∈ m.oneofs, s.number ∈ o ∧ s'.number ∈ o)
  hasbitInjective : ∀ (i j : Nat) (f f' : MiniTableField), t.fields[i]? = some f →
    t.fields[j]? = some f' → 0 < f.presence → f.presence = f'.presence → i = j
  subInjective : ∀ (i j : Nat) (s s' : FieldSpec) (f f' : MiniTableField), m.fields[i]? = some s →
    m.fields[j]? = some s' → t.fields[i]? = some f → t.fields[j]? = some f' →
    s.sub.isSome → s'.sub.isSome → f.submsgIndex = f'.submsgIndex → i = j
  subCount : t.subs.length = m.fields.countP (·.sub.isSome)
  extendable : t.ext = if m.modifiers.isExtendable then ExtMode.extendable else ExtMode.nonExtendable

end MessageSpec

namespace MsgState

/-- The calls of `hpb_MtDataEncoder_PutField` for the fields of a message. -/
def putFields (s : MsgState) : List FieldSpec → Option (List UInt8 × MsgState)
  | [] => some ([], s)
  | f :: fs => do
    let (chars, s) ← s.putField f.type f.number f.mod
    let (more, s) ← putFields s fs
    return (chars ++ more, s)

/-- The calls of `hpb_MtDataEncoder_PutOneofField` for the members of a oneof. -/
def putMembers (s : MsgState) : List Nat → List UInt8 × MsgState
  | [] => ([], s)
  | n :: ns =>
    let (chars, s) := s.putOneofField n
    let (more, s) := putMembers s ns
    (chars ++ more, s)

/-- The oneofs of a message. -/
def putOneofs (s : MsgState) : List (List Nat) → List UInt8
  | [] => []
  | o :: os =>
    let (start, s) := s.startOneof
    let (members, s) := s.putMembers o
    start ++ members ++ putOneofs s os

end MsgState

/-- The mini descriptor of a message; none if a field is refused. -/
def encodeMessage (m : MessageSpec) : Option (List UInt8) := do
  let (chars, s) := MsgState.startMessage m.modifiers
  let (fields, s) ← s.putFields m.fields
  return chars ++ fields ++ s.putOneofs m.oneofs

end Hpb
