import Mathlib.Data.List.Forall2
import Mathlib.Logic.Relation
import Hpb.Message.Next

/-!
# Discarding unknown fields (`hpb_Message_DiscardUnknown`)

The unknown bytes of a message are discarded, and then those of the messages in its fields. The loop over
the fields asks `hpb_Message_Next` without a pool, and so it does not come to the extensions.

* `discardUnknown`: the call; `Message.strip`: a message without the unknown bytes in its tree.
* `DiscardRight`: what a caller relies on.
* `discardRight_iff`: when that is so.
-/

namespace Hpb

open Reflection

mutual

/-- A value without the unknown bytes of its messages. -/
def Slot.strip : Slot → Slot
  | .msg isEmpty m => .msg isEmpty (Message.strip m)
  | .arr xs => .arr (stripElems xs)
  | .map es => .map (stripEntries es)
  | s => s

/-- A message without the unknown bytes in its tree. -/
def Message.strip : Message → Message
  | ⟨hasbits, oneofCase, data, _, exts⟩ =>
    ⟨hasbits, oneofCase, fun offset => (data offset).strip, [], stripExts exts⟩

def stripElems : List Slot → List Slot
  | [] => []
  | x :: xs => x.strip :: stripElems xs

def stripEntries : List (MapKey × Slot) → List (MapKey × Slot)
  | [] => []
  | (k, x) :: es => (k, x.strip) :: stripEntries es

def stripExts : List (Nat × Slot) → List (Nat × Slot)
  | [] => []
  | (id, x) :: exts => (id, x.strip) :: stripExts exts

end

namespace Message

variable (D : MessageDefs)

mutual

/-- `_hpb_Message_DiscardUnknown`: what it returns, and the message afterwards. There is no result if it
follows a null pointer. A field of messages that `hpb_Message_Next` yields is read as what it holds. -/
def discardUnknown (p : DefPtr) : Message → Int → Option (Bool × Message)
  | ⟨hasbits, oneofCase, data, unknown, exts⟩, depth =>
    let msg : Message := ⟨hasbits, oneofCase, data, unknown, exts⟩
    if depth - 1 = 0 then some (false, msg)
    else
      (D.fields p).foldlM (fun acc f =>
        if (yield msg f).isSome then do
          let (ok, s) ← discardField (D.subKind f) (data f.mini.offset) (depth - 1)
          some (acc.1 && ok, acc.2.setData f.mini.offset s)
        else some acc) (true, { msg with unknown := [] })

/-- The call for an element or a map value. -/
def discardValue (p : DefPtr) : Slot → Int → Option (Bool × Slot)
  | .msg isEmpty m, depth => (discardUnknown p m depth).map fun r => (r.1, .msg isEmpty r.2)
  | .zero, depth => if depth - 1 = 0 then some (false, .zero) else none
  | _, _ => none

/-- One round of the loop over the fields. -/
def discardField : Option SubKind → Slot → Int → Option (Bool × Slot)
  | none, s, _ => some (true, s)
  | some (.map p), .map es, depth => (discardEntries p es depth).map fun r => (r.1, .map r.2)
  | some (.array p), .arr xs, depth => (discardElems p xs depth).map fun r => (r.1, .arr r.2)
  | some (.single p), .msg isEmpty m, depth => (discardUnknown p m depth).map fun r => (r.1, .msg isEmpty r.2)
  | some (.single _), .zero, depth => if depth - 1 = 0 then some (false, .zero) else none
  | _, _, _ => none

/-- The loop over the elements of an array. -/
def discardElems (p : DefPtr) : List Slot → Int → Option (Bool × List Slot)
  | [], _ => some (true, [])
  | x :: xs, depth => do
    let (ok, x) ← discardValue p x depth
    let (oks, xs) ← discardElems p xs depth
    some (ok && oks, x :: xs)

/-- The loop over the entries of a map. -/
def discardEntries (p : DefPtr) : List (MapKey × Slot) → Int → Option (Bool × List (MapKey × Slot))
  | [], _ => some (true, [])
  | (k, x) :: es, depth => do
    let (ok, x) ← discardValue p x depth
    let (oks, es) ← discardEntries p es depth
    some (ok && oks, (k, x) :: es)

end

/-! ### Messages below -/

/-- There is a path of a number of steps. -/
def PathFrom {α : Type} (r : α → α → Prop) : Nat → α → Prop
  | 0, _ => True
  | n + 1, a => ∃ b, r a b ∧ PathFrom r n b

/-- A message that a field holds. -/
def FieldChild (a b : DefPtr × Message) : Prop := b ∈ D.fieldChildren a

/-- A message that a field or an extension holds. -/
def Below (a b : DefPtr × Message) : Prop := b ∈ D.fieldChildren a ∨ b ∈ D.extChildren a

/-- No message in the tree has unknown bytes. -/
def Clean (a : DefPtr × Message) : Prop :=
  ∀ b, Relation.ReflTransGen (Below D) a b → b.2.unknown = []

/-- The tree has a path with more messages than the bound. -/
def Deeper (a : DefPtr × Message) (maxdepth : Int) : Prop :=
  PathFrom (Below D) maxdepth.toNat a

/-- If unknown fields are discarded with the result `true`, no message in the tree has any. The result is
`false` only if the tree is deeper than the bound. Nothing else in the tree changes. -/
def DiscardRight (p : DefPtr) (m : Message) (maxdepth : Int) : Prop :=
  ∃ ret m', discardUnknown D p m maxdepth = some (ret, m') ∧ m'.strip = m.strip ∧
    (ret = true → Clean D (p, m')) ∧ (ret = false → Deeper D (p, m) maxdepth)

/-- The fields lead to as many messages, one below the other, as the bound says. -/
def Reaches (a : DefPtr × Message) (maxdepth : Int) : Prop :=
  1 ≤ maxdepth ∧ PathFrom (FieldChild D) (maxdepth - 1).toNat a

/-- No message in an extension, or below one, has unknown bytes. -/
def ExtsClean (a : DefPtr × Message) : Prop :=
  ∀ b, Relation.ReflTransGen (FieldChild D) a b → ∀ c ∈ D.extChildren b, Clean D c

/-- The fields of messages that are set hold messages. -/
def Fits (a : DefPtr × Message) : Prop :=
  ∀ f ∈ D.fields a.1, a.2.present f.mini = true →
    ∀ k, D.subKind f = some k → k.Fits (a.2.data f.mini.offset)

variable {D} {a b : DefPtr × Message}

theorem clean_iff : Clean D a ↔ a.2.unknown = [] ∧ (∀ b ∈ D.fieldChildren a, Clean D b) ∧
    ∀ b ∈ D.extChildren a, Clean D b := by
  constructor
  · intro h
    exact ⟨h a .refl, fun b hb c hc => h c (.head (.inl hb) hc), fun b hb c hc => h c (.head (.inr hb) hc)⟩
  · rintro ⟨hself, hfields, hexts⟩ b hb
    obtain rfl | ⟨c, hc, hcb⟩ := Relation.ReflTransGen.cases_head hb
    · exact hself
    · obtain hc | hc := hc
      · exact hfields c hc b hcb
      · exact hexts c hc b hcb

theorem extsClean_iff : ExtsClean D a ↔ (∀ b ∈ D.fieldChildren a, ExtsClean D b) ∧
    ∀ b ∈ D.extChildren a, Clean D b := by
  constructor
  · intro h
    exact ⟨fun b hb c hc => h c (.head hb hc), h a .refl⟩
  · rintro ⟨hfields, hexts⟩ b hb
    obtain rfl | ⟨c, hc, hcb⟩ := Relation.ReflTransGen.cases_head hb
    · exact hexts
    · exact hfields c hc b hcb

/-- The bound is reached below a message if it is reached, one less, below one of its children. -/
theorem reaches_iff {d : Int} (hd : d - 1 ≠ 0) :
    Reaches D a d ↔ ∃ b ∈ D.fieldChildren a, Reaches D b (d - 1) := by
  constructor
  · rintro ⟨hone, hpath⟩
    rw [show (d - 1).toNat = (d - 1 - 1).toNat + 1 by omega] at hpath
    obtain ⟨b, hb, hpath⟩ := hpath
    exact ⟨b, hb, by omega, hpath⟩
  · rintro ⟨b, hb, hone, hpath⟩
    refine ⟨by omega, ?_⟩
    rw [show (d - 1).toNat = (d - 1 - 1).toNat + 1 by omega]
    exact ⟨b, hb, hpath⟩

/-! ### The value of a field -/

/-- A message of a definition, and what the call leaves of it. -/
def Discards (D : MessageDefs) (d : Int) (b b' : DefPtr × Message) : Prop :=
  b'.1 = b.1 ∧ ∃ ret, discardUnknown D b.1 b.2 d = some (ret, b'.2)

/-- The calls for some messages return `true`. -/
def AllDiscard (D : MessageDefs) (d : Int) (l : List (DefPtr × Message)) : Prop :=
  ∀ b ∈ l, ∃ m', discardUnknown D b.1 b.2 d = some (true, m')

/-- The messages of a value after the calls for each of them. -/
structure ValuesDiscarded (D : MessageDefs) (d : Int) (l l' : List (DefPtr × Message)) (ok : Bool) :
    Prop where
  values : List.Forall₂ (Discards D d) l l'
  ok_iff : ok = true ↔ AllDiscard D d l

theorem ValuesDiscarded.nil {d : Int} : ValuesDiscarded D d [] [] true :=
  ⟨.nil, iff_of_true rfl fun _ h => nomatch h⟩

theorem ValuesDiscarded.cons {d : Int} {p : DefPtr} {m m' : Message} {ok oks : Bool}
    {l l' : List (DefPtr × Message)} (hm : discardUnknown D p m d = some (ok, m'))
    (hl : ValuesDiscarded D d l l' oks) :
    ValuesDiscarded D d ((p, m) :: l) ((p, m') :: l') (ok && oks) := by
  refine ⟨.cons ⟨rfl, ok, hm⟩ hl.values, ?_⟩
  rw [Bool.and_eq_true_iff, hl.ok_iff]
  constructor
  · rintro ⟨rfl, hall⟩
    exact List.forall_mem_cons.mpr ⟨⟨m', hm⟩, hall⟩
  · intro h
    obtain ⟨⟨m₁, hm₁⟩, hall⟩ := List.forall_mem_cons.mp h
    rw [hm] at hm₁
    exact ⟨(Prod.mk.inj (Option.some.inj hm₁)).1, hall⟩

variable {p : DefPtr} {d : Int}

theorem discardElems_discarded {xs xs' : List Slot} {ok : Bool} (hxs : ∀ x ∈ xs, x.message?.isSome)
    (h : discardElems D p xs d = some (ok, xs')) :
    ValuesDiscarded D d (xs.filterMap fun x => x.message?.map (p, ·))
      (xs'.filterMap fun x => x.message?.map (p, ·)) ok ∧ xs'.isEmpty = xs.isEmpty := by
  induction xs generalizing xs' ok with
  | nil =>
    obtain ⟨rfl, rfl⟩ := Prod.mk.inj (Option.some.inj h)
    exact ⟨.nil, rfl⟩
  | cons x xs ih =>
    obtain ⟨hx, htail⟩ := List.forall_mem_cons.mp hxs
    obtain ⟨m, hm⟩ := Option.isSome_iff_exists.mp hx
    obtain ⟨isEmpty, rfl⟩ := Slot.message?_eq_some hm
    rw [discardElems, discardValue] at h
    obtain ⟨⟨ok₁, x'⟩, hx', h⟩ := Option.bind_eq_some_iff.mp h
    obtain ⟨⟨oks, ys⟩, hys, h⟩ := Option.bind_eq_some_iff.mp h
    obtain ⟨⟨r, m'⟩, hm, hr⟩ := Option.map_eq_some_iff.mp hx'
    obtain ⟨rfl, rfl⟩ := Prod.mk.inj hr
    obtain ⟨rfl, rfl⟩ := Prod.mk.inj (Option.some.inj h)
    exact ⟨.cons hm (ih htail hys).1, rfl⟩

theorem discardEntries_discarded {es es' : List (MapKey × Slot)} {ok : Bool}
    (hes : ∀ e ∈ es, e.2.message?.isSome) (h : discardEntries D p es d = some (ok, es')) :
    ValuesDiscarded D d (es.filterMap fun e => e.2.message?.map (p, ·))
      (es'.filterMap fun e => e.2.message?.map (p, ·)) ok ∧ es'.isEmpty = es.isEmpty := by
  induction es generalizing es' ok with
  | nil =>
    obtain ⟨rfl, rfl⟩ := Prod.mk.inj (Option.some.inj h)
    exact ⟨.nil, rfl⟩
  | cons e es ih =>
    obtain ⟨k, x⟩ := e
    obtain ⟨hx, htail⟩ := List.forall_mem_cons.mp hes
    obtain ⟨m, hm⟩ := Option.isSome_iff_exists.mp hx
    obtain ⟨isEmpty, hmsg⟩ := Slot.message?_eq_some hm
    obtain rfl : x = .msg isEmpty m := hmsg
    rw [discardEntries, discardValue] at h
    obtain ⟨⟨ok₁, x'⟩, hx', h⟩ := Option.bind_eq_some_iff.mp h
    obtain ⟨⟨oks, ys⟩, hys, h⟩ := Option.bind_eq_some_iff.mp h
    obtain ⟨⟨r, m'⟩, hm, hr⟩ := Option.map_eq_some_iff.mp hx'
    obtain ⟨rfl, rfl⟩ := Prod.mk.inj hr
    obtain ⟨rfl, rfl⟩ := Prod.mk.inj (Option.some.inj h)
    exact ⟨.cons hm (ih htail hys).1, rfl⟩

theorem discardField_none {s : Slot} : discardField D none s d = some (true, s) := by rw [discardField]

/-- A value of the same shape is set if the other one is. -/
structure SameShape (s s' : Slot) : Prop where
  entries : s'.entries.isEmpty = s.entries.isEmpty
  elems : s'.elems.isEmpty = s.elems.isEmpty
  nonZero : ∀ rep, s'.nonZero rep = s.nonZero rep

theorem discardField_discarded {k : SubKind} {s s' : Slot} {ok : Bool} (hfits : k.Fits s)
    (h : discardField D (some k) s d = some (ok, s')) :
    ValuesDiscarded D d (k.held s) (k.held s') ok ∧ SameShape s s' := by
  cases k with
  | map p =>
    obtain ⟨es, rfl, hes⟩ := hfits
    obtain ⟨⟨r, es'⟩, hr, heq⟩ := Option.map_eq_some_iff.mp h
    obtain ⟨rfl, rfl⟩ := Prod.mk.inj heq
    obtain ⟨hvalues, hlen⟩ := discardEntries_discarded hes hr
    exact ⟨hvalues, hlen, rfl, fun rep => by cases rep <;> rfl⟩
  | array p =>
    obtain ⟨xs, rfl, hxs⟩ := hfits
    obtain ⟨⟨r, xs'⟩, hr, heq⟩ := Option.map_eq_some_iff.mp h
    obtain ⟨rfl, rfl⟩ := Prod.mk.inj heq
    obtain ⟨hvalues, hlen⟩ := discardElems_discarded hxs hr
    exact ⟨hvalues, rfl, hlen, fun rep => by cases rep <;> rfl⟩
  | single p =>
    obtain ⟨m, hm⟩ := Option.isSome_iff_exists.mp hfits
    obtain ⟨isEmpty, rfl⟩ := Slot.message?_eq_some hm
    obtain ⟨⟨r, m'⟩, hr, heq⟩ := Option.map_eq_some_iff.mp h
    obtain ⟨rfl, rfl⟩ := Prod.mk.inj heq
    have hvalues := ValuesDiscarded.cons hr .nil
    rw [Bool.and_true] at hvalues
    exact ⟨hvalues, rfl, rfl, fun rep => by cases rep <;> rfl⟩

theorem isSome_discardElems {xs : List Slot} (hxs : ∀ x ∈ xs, x.message?.isSome)
    (h : ∀ b ∈ xs.filterMap fun x => x.message?.map (p, ·), (discardUnknown D b.1 b.2 d).isSome) :
    (discardElems D p xs d).isSome := by
  induction xs with
  | nil => rfl
  | cons x xs ih =>
    obtain ⟨hx, htail⟩ := List.forall_mem_cons.mp hxs
    obtain ⟨m, hm⟩ := Option.isSome_iff_exists.mp hx
    obtain ⟨isEmpty, rfl⟩ := Slot.message?_eq_some hm
    obtain ⟨hhead, hrest⟩ := List.forall_mem_cons.mp h
    obtain ⟨r, hr⟩ := Option.isSome_iff_exists.mp hhead
    obtain ⟨rs, hrs⟩ := Option.isSome_iff_exists.mp (ih htail hrest)
    rw [discardElems, discardValue, hr, hrs]
    rfl

theorem isSome_discardEntries {es : List (MapKey × Slot)} (hes : ∀ e ∈ es, e.2.message?.isSome)
    (h : ∀ b ∈ es.filterMap fun e => e.2.message?.map (p, ·), (discardUnknown D b.1 b.2 d).isSome) :
    (discardEntries D p es d).isSome := by
  induction es with
  | nil => rfl
  | cons e es ih =>
    obtain ⟨k, x⟩ := e
    obtain ⟨hx, htail⟩ := List.forall_mem_cons.mp hes
    obtain ⟨m, hm⟩ := Option.isSome_iff_exists.mp hx
    obtain ⟨isEmpty, hmsg⟩ := Slot.message?_eq_some hm
    obtain rfl : x = .msg isEmpty m := hmsg
    obtain ⟨hhead, hrest⟩ := List.forall_mem_cons.mp h
    obtain ⟨r, hr⟩ := Option.isSome_iff_exists.mp hhead
    obtain ⟨rs, hrs⟩ := Option.isSome_iff_exists.mp (ih htail hrest)
    rw [discardEntries, discardValue, hr, hrs]
    rfl

theorem isSome_discardField {k : SubKind} {s : Slot} (hfits : k.Fits s)
    (h : ∀ b ∈ k.held s, (discardUnknown D b.1 b.2 d).isSome) :
    (discardField D (some k) s d).isSome := by
  cases k with
  | map p =>
    obtain ⟨es, rfl, hes⟩ := hfits
    rw [discardField, Option.isSome_map]
    exact isSome_discardEntries hes h
  | array p =>
    obtain ⟨xs, rfl, hxs⟩ := hfits
    rw [discardField, Option.isSome_map]
    exact isSome_discardElems hxs h
  | single p =>
    obtain ⟨m, hm⟩ := Option.isSome_iff_exists.mp hfits
    obtain ⟨isEmpty, rfl⟩ := Slot.message?_eq_some hm
    rw [discardField, Option.isSome_map]
    exact h (p, m) (List.mem_singleton.mpr rfl)

/-! ### The loop over the fields -/

section

variable (shown : LinkedField → Bool) (val : LinkedField → Option (Bool × Slot))

/-- One round of a loop that sets the fields that are shown. -/
def setShown (acc : Bool × Message) (f : LinkedField) : Option (Bool × Message) :=
  if shown f then do
    let (ok, s) ← val f
    some (acc.1 && ok, acc.2.setData f.mini.offset s)
  else some acc

/-- The message after a loop that set the fields that are shown. -/
structure FieldsSet (fields : List LinkedField) (acc r : Bool × Message) : Prop where
  hasbits : r.2.hasbits = acc.2.hasbits
  oneofCase : r.2.oneofCase = acc.2.oneofCase
  unknown : r.2.unknown = acc.2.unknown
  exts : r.2.exts = acc.2.exts
  set : ∀ f ∈ fields, shown f → ∃ ok, val f = some (ok, r.2.data f.mini.offset)
  unset : ∀ offset, (∀ f ∈ fields, shown f → f.mini.offset ≠ offset) → r.2.data offset = acc.2.data offset
  ok_iff : r.1 = true ↔ acc.1 = true ∧ ∀ f ∈ fields, shown f → ∃ s, val f = some (true, s)

variable {shown val} {fields : List LinkedField}

theorem fieldsSet_of_foldlM
    (hapart : fields.Pairwise fun f g => shown f → shown g → f.mini.offset ≠ g.mini.offset)
    {acc r : Bool × Message} (h : fields.foldlM (setShown shown val) acc = some r) :
    FieldsSet shown val fields acc r := by
  induction fields generalizing acc with
  | nil =>
    obtain rfl := Option.some.inj h
    exact ⟨rfl, rfl, rfl, rfl, List.forall_mem_nil _, fun _ _ => rfl,
      ⟨fun hr => ⟨hr, List.forall_mem_nil _⟩, And.left⟩⟩
  | cons f fields ih =>
    obtain ⟨hhead, htail⟩ := List.pairwise_cons.mp hapart
    rw [List.foldlM_cons] at h
    obtain ⟨acc₁, hacc₁, h⟩ := Option.bind_eq_some_iff.mp h
    have hrest := ih htail h
    rw [setShown] at hacc₁
    by_cases hshow : shown f = true
    · rw [if_pos hshow] at hacc₁
      obtain ⟨⟨ok, s⟩, hval, hacc₁⟩ := Option.bind_eq_some_iff.mp hacc₁
      obtain rfl := Option.some.inj hacc₁
      -- no other field that is shown is at this offset
      have hself : r.2.data f.mini.offset = s := by
        rw [hrest.unset _ fun g hg hgs => (hhead g hg hshow hgs).symm]
        exact Function.update_self ..
      refine ⟨hrest.hasbits, hrest.oneofCase, hrest.unknown, hrest.exts, ?_, fun offset hno => ?_, ?_⟩
      · exact List.forall_mem_cons.mpr ⟨fun _ => ⟨ok, by rw [hself, hval]⟩, hrest.set⟩
      · obtain ⟨hf, hno⟩ := List.forall_mem_cons.mp hno
        rw [hrest.unset offset hno]
        exact Function.update_of_ne (hf hshow).symm ..
      · rw [hrest.ok_iff, Bool.and_eq_true_iff, List.forall_mem_cons, and_assoc]
        refine and_congr_right fun _ => and_congr_left fun _ => ⟨?_, fun h => ?_⟩
        · rintro rfl _
          exact ⟨s, hval⟩
        · obtain ⟨s', hs'⟩ := h hshow
          rw [hval] at hs'
          exact (Prod.mk.inj (Option.some.inj hs')).1
    · rw [if_neg hshow] at hacc₁
      obtain rfl := Option.some.inj hacc₁
      refine ⟨hrest.hasbits, hrest.oneofCase, hrest.unknown, hrest.exts, ?_, fun offset hno => ?_, ?_⟩
      · exact List.forall_mem_cons.mpr ⟨fun hs => absurd hs hshow, hrest.set⟩
      · exact hrest.unset offset (List.forall_mem_cons.mp hno).2
      · rw [hrest.ok_iff, List.forall_mem_cons]
        exact and_congr_right fun _ => ⟨fun h => ⟨fun hs => absurd hs hshow, h⟩, And.right⟩

theorem isSome_foldlM_setShown (h : ∀ f ∈ fields, shown f → (val f).isSome) (acc : Bool × Message) :
    (fields.foldlM (setShown shown val) acc).isSome := by
  induction fields generalizing acc with
  | nil => rfl
  | cons f fields ih =>
    obtain ⟨hf, hfields⟩ := List.forall_mem_cons.mp h
    rw [List.foldlM_cons, setShown]
    split
    next hshow =>
      obtain ⟨r, hr⟩ := Option.isSome_iff_exists.mp (hf hshow)
      rw [hr]
      exact ih hfields _
    next => exact ih hfields acc

end

/-- Two fields that are yielded are not at the same offset. -/
theorem apart_of_yield (D : MessageDefs) (p : DefPtr) (m : Message) :
    (D.fields p).Pairwise fun f g => (yield m f).isSome = true → (yield m g).isSome = true →
      f.mini.offset ≠ g.mini.offset := by
  have hhas : ∀ f, (yield m f).isSome = true → f.mini.presence < 0 →
      m.oneofCase (-f.mini.presence - 1).toNat = f.mini.number := by
    intro f hf hneg
    have hskips : m.skips f (m.getFieldByDef f) = !m.hasField f.mini := if_pos (by omega)
    rw [yield, hskips, hasField, if_pos hneg] at hf
    by_contra hne
    rw [beq_false_of_ne hne] at hf
    cases hf
  refine (D.apart p).imp fun {f g} h hf hg heq => ?_
  obtain ⟨hneg, hp, hnumber⟩ := h heq
  have hcase := hhas g hg (by omega)
  rw [hp] at hcase
  exact hnumber ((hhas f hf hneg).symm.trans hcase)

/-- A field of messages is yielded if it is set. -/
theorem yield_subKind (m : Message) {f : LinkedField} {k : SubKind} (h : D.subKind f = some k) :
    (yield m f).isSome = m.present f.mini := by
  refine yield_messageSubDef m ?_
  rw [MessageDefs.subKind] at h
  cases hs : f.defn.messageSubDef with
  | none =>
    rw [hs] at h
    exact nomatch h
  | some p => rfl

theorem discardUnknown_eq (p : DefPtr) (m : Message) (hd : d - 1 ≠ 0) : discardUnknown D p m d =
    (D.fields p).foldlM (setShown (fun f => (yield m f).isSome)
      fun f => discardField D (D.subKind f) (m.data f.mini.offset) (d - 1)) (true, { m with unknown := [] }) := by
  obtain ⟨hasbits, oneofCase, data, unknown, exts⟩ := m
  rw [discardUnknown, if_neg hd]
  rfl

/-- A field of another message at the same place of the same shape is set if this one is. -/
theorem present_eq {m m' : Message} {f : MiniTableField} (hhas : m'.hasbits = m.hasbits)
    (hcase : m'.oneofCase = m.oneofCase)
    (hshape : f.presence = 0 → SameShape (m.data f.offset) (m'.data f.offset)) :
    m'.present f = m.present f := by
  by_cases hp : f.presence = 0
  · obtain ⟨hentries, helems, hnon⟩ := hshape hp
    rw [present, present, if_neg (not_not_intro hp), if_neg (not_not_intro hp), hentries, helems, hnon]
  · rw [present, present, if_pos hp, if_pos hp, hasField, hasField, hhas, hcase]

theorem SameShape.refl (s : Slot) : SameShape s s := ⟨rfl, rfl, fun _ => rfl⟩

/-- A field of the message afterwards. -/
theorem FieldsSet.shape {m : Message} {r : Bool × Message} (hfits : Fits D (p, m))
    (h : FieldsSet (fun f => (yield m f).isSome)
      (fun f => discardField D (D.subKind f) (m.data f.mini.offset) d) (D.fields p)
      (true, { m with unknown := [] }) r) {f : LinkedField} (hf : f ∈ D.fields p)
    (hp : f.mini.presence = 0) : SameShape (m.data f.mini.offset) (r.2.data f.mini.offset) := by
  by_cases hshow : (yield m f).isSome = true
  · obtain ⟨ok, hval⟩ := h.set f hf hshow
    cases hk : D.subKind f with
    | none =>
      rw [hk, discardField_none] at hval
      rw [← (Prod.mk.inj (Option.some.inj hval)).2]
      exact .refl _
    | some k =>
      rw [hk] at hval
      exact (discardField_discarded (hfits f hf ((yield_subKind m hk).symm.trans hshow) k hk) hval).2
  · have hdata : r.2.data f.mini.offset = m.data f.mini.offset := by
      refine h.unset _ fun g hg hgs heq => ?_
      -- another field at this place would be in a oneof, and so would this one
      have hne : g ≠ f := fun hgf => hshow (hgf ▸ hgs)
      have hsymm : Std.Symm fun f g : LinkedField => f.mini.offset = g.mini.offset →
          f.mini.presence < 0 ∧ g.mini.presence = f.mini.presence ∧ f.mini.number ≠ g.mini.number :=
        ⟨fun a b hab heq => by
          obtain ⟨h₁, h₂, h₃⟩ := hab heq.symm
          exact ⟨by omega, h₂.symm, h₃.symm⟩⟩
      obtain ⟨hneg, hpg, -⟩ := (D.apart p).forall hg hf hne heq
      omega
    rw [hdata]
    exact .refl _

/-- What the call leaves of a message. -/
structure MessageDiscarded (D : MessageDefs) (d : Int) (p : DefPtr) (m m' : Message) (ret : Bool) : Prop where
  unknown : m'.unknown = []
  exts : m'.exts = m.exts
  children : ValuesDiscarded D d (D.fieldChildren (p, m)) (D.fieldChildren (p, m')) ret

theorem forall₂_flatMap {α β : Type} {R : β → β → Prop} {F G : α → List β} {l : List α}
    (h : ∀ x ∈ l, List.Forall₂ R (F x) (G x)) : List.Forall₂ R (l.flatMap F) (l.flatMap G) := by
  induction l with
  | nil => exact .nil
  | cons x l ih =>
    obtain ⟨hx, hl⟩ := List.forall_mem_cons.mp h
    exact List.rel_append hx (ih hl)

theorem messageDiscarded_of_eq {m m' : Message} {ret : Bool} (hfits : Fits D (p, m)) (hd : d - 1 ≠ 0)
    (h : discardUnknown D p m d = some (ret, m')) : MessageDiscarded D (d - 1) p m m' ret := by
  rw [discardUnknown_eq p m hd] at h
  have hset := fieldsSet_of_foldlM (apart_of_yield D p m) h
  have hpresent : ∀ f ∈ D.fields p, m'.present f.mini = m.present f.mini := fun f hf =>
    present_eq hset.hasbits hset.oneofCase fun hp => hset.shape hfits hf hp
  -- the messages of one field
  have hfield : ∀ f ∈ D.fields p, ∀ k, D.subKind f = some k → m.present f.mini = true →
      ∃ ok, discardField D (some k) (m.data f.mini.offset) (d - 1) =
          some (ok, m'.data f.mini.offset) ∧
        ValuesDiscarded D (d - 1) (k.held (m.data f.mini.offset)) (k.held (m'.data f.mini.offset)) ok := by
    intro f hf k hk hpres
    obtain ⟨ok, hval⟩ := hset.set f hf ((yield_subKind m hk).trans hpres)
    rw [hk] at hval
    exact ⟨ok, hval, (discardField_discarded (hfits f hf hpres k hk) hval).1⟩
  refine ⟨hset.unknown, hset.exts, forall₂_flatMap fun f hf => ?_, ?_⟩
  · rw [hpresent f hf]
    cases hpres : m.present f.mini with
    | false => exact .nil
    | true =>
      rw [if_pos rfl, if_pos rfl, MessageDefs.held, MessageDefs.held]
      cases hk : D.subKind f with
      | none => exact .nil
      | some k =>
        obtain ⟨ok, -, hvalues⟩ := hfield f hf k hk hpres
        exact hvalues.values
  · rw [hset.ok_iff, and_iff_right rfl]
    constructor
    · intro hall b hb
      obtain ⟨f, hf, hb⟩ := List.mem_flatMap.mp hb
      cases hpres : m.present f.mini with
      | false => rw [hpres] at hb; cases hb
      | true =>
        rw [hpres, if_pos rfl, MessageDefs.held] at hb
        cases hk : D.subKind f with
        | none => rw [hk] at hb; cases hb
        | some k =>
          rw [hk] at hb
          obtain ⟨ok, hval, hvalues⟩ := hfield f hf k hk hpres
          obtain ⟨s, hs⟩ := hall f hf ((yield_subKind m hk).trans hpres)
          rw [hk, hval] at hs
          exact hvalues.ok_iff.mp (Prod.mk.inj (Option.some.inj hs)).1 b hb
    · intro hall f hf hshow
      cases hk : D.subKind f with
      | none => exact ⟨_, discardField_none⟩
      | some k =>
        have hpres := (yield_subKind m hk).symm.trans hshow
        obtain ⟨ok, hval, hvalues⟩ := hfield f hf k hk hpres
        have hok : ok = true := hvalues.ok_iff.mpr fun b hb => hall b <| by
          refine List.mem_flatMap.mpr ⟨f, hf, ?_⟩
          rw [if_pos hpres, MessageDefs.held, hk]
          exact hb
        exact ⟨_, hok ▸ hval⟩

/-- The call has a result if those for the messages in the fields have one. -/
theorem isSome_discardUnknown {m : Message} (hfits : Fits D (p, m)) (hd : d - 1 ≠ 0)
    (h : ∀ b ∈ D.fieldChildren (p, m), (discardUnknown D b.1 b.2 (d - 1)).isSome) :
    (discardUnknown D p m d).isSome := by
  rw [discardUnknown_eq p m hd]
  refine isSome_foldlM_setShown (fun f hf hshow => ?_) _
  cases hk : D.subKind f with
  | none => rw [discardField_none, Option.isSome_some]
  | some k =>
    have hpres := (yield_subKind m hk).symm.trans hshow
    refine isSome_discardField (hfits f hf hpres k hk) fun b hb => h b ?_
    refine List.mem_flatMap.mpr ⟨f, hf, ?_⟩
    rw [if_pos hpres, MessageDefs.held, hk]
    exact hb

/-! ### What does not change -/

theorem strip_eq (m : Message) : Message.strip m =
    ⟨m.hasbits, m.oneofCase, fun offset => (m.data offset).strip, [], stripExts m.exts⟩ := by
  cases m
  rw [strip]

/-- The call changes no more than unknown bytes. -/
def KeepsRest (D : MessageDefs) (m : Message) : Prop :=
  ∀ p d ret m', discardUnknown D p m d = some (ret, m') → Message.strip m' = Message.strip m

theorem discardValue_strip {x x' : Slot} {ok : Bool} (hx : ∀ isEmpty m, x = .msg isEmpty m → KeepsRest D m)
    (h : discardValue D p x d = some (ok, x')) : x'.strip = x.strip := by
  cases x with
  | msg isEmpty m =>
    obtain ⟨⟨r, m'⟩, hm, hr⟩ := Option.map_eq_some_iff.mp h
    obtain ⟨-, rfl⟩ := Prod.mk.inj hr
    rw [Slot.strip, Slot.strip, hx isEmpty m rfl _ _ _ _ hm]
  | zero =>
    rw [discardValue] at h
    split at h
    · rw [← (Prod.mk.inj (Option.some.inj h)).2]
    · exact nomatch h
  | _ => exact nomatch h

theorem discardElems_strip {xs xs' : List Slot} {ok : Bool}
    (hxs : ∀ x ∈ xs, ∀ isEmpty m, x = .msg isEmpty m → KeepsRest D m)
    (h : discardElems D p xs d = some (ok, xs')) : stripElems xs' = stripElems xs := by
  induction xs generalizing xs' ok with
  | nil => rw [← (Prod.mk.inj (Option.some.inj h)).2]
  | cons x xs ih =>
    obtain ⟨hx, htail⟩ := List.forall_mem_cons.mp hxs
    rw [discardElems] at h
    obtain ⟨⟨ok₁, x'⟩, hx', h⟩ := Option.bind_eq_some_iff.mp h
    obtain ⟨⟨oks, ys⟩, hys, h⟩ := Option.bind_eq_some_iff.mp h
    obtain ⟨-, rfl⟩ := Prod.mk.inj (Option.some.inj h)
    rw [stripElems, stripElems, discardValue_strip hx hx', ih htail hys]

theorem discardEntries_strip {es es' : List (MapKey × Slot)} {ok : Bool}
    (hes : ∀ e ∈ es, ∀ isEmpty m, e.2 = .msg isEmpty m → KeepsRest D m)
    (h : discardEntries D p es d = some (ok, es')) : stripEntries es' = stripEntries es := by
  induction es generalizing es' ok with
  | nil => rw [← (Prod.mk.inj (Option.some.inj h)).2]
  | cons e es ih =>
    obtain ⟨hx, htail⟩ := List.forall_mem_cons.mp hes
    rw [discardEntries] at h
    obtain ⟨⟨ok₁, x'⟩, hx', h⟩ := Option.bind_eq_some_iff.mp h
    obtain ⟨⟨oks, ys⟩, hys, h⟩ := Option.bind_eq_some_iff.mp h
    obtain ⟨-, rfl⟩ := Prod.mk.inj (Option.some.inj h)
    rw [stripEntries, stripEntries, discardValue_strip hx hx', ih htail hys]

theorem discardField_strip {k : Option SubKind} {s s' : Slot} {ok : Bool}
    (hs : ∀ m, s.Nested m → KeepsRest D m) (h : discardField D k s d = some (ok, s')) :
    s'.strip = s.strip := by
  cases k with
  | none =>
    rw [discardField_none] at h
    rw [(Prod.mk.inj (Option.some.inj h)).2]
  | some k =>
    cases k with
    | map p =>
      cases s with
      | map es =>
        obtain ⟨⟨r, es'⟩, hr, heq⟩ := Option.map_eq_some_iff.mp h
        obtain ⟨-, rfl⟩ := Prod.mk.inj heq
        have hes : ∀ e ∈ es, ∀ isEmpty m, e.2 = .msg isEmpty m → KeepsRest D m := by
          rintro ⟨k, x⟩ he isEmpty m rfl
          exact hs m (.value he)
        rw [Slot.strip, Slot.strip, discardEntries_strip hes hr]
      | _ => exact nomatch h
    | array p =>
      cases s with
      | arr xs =>
        obtain ⟨⟨r, xs'⟩, hr, heq⟩ := Option.map_eq_some_iff.mp h
        obtain ⟨-, rfl⟩ := Prod.mk.inj heq
        have hxs : ∀ x ∈ xs, ∀ isEmpty m, x = .msg isEmpty m → KeepsRest D m := by
          rintro x hx isEmpty m rfl
          exact hs m (.elem hx)
        rw [Slot.strip, Slot.strip, discardElems_strip hxs hr]
      | _ => exact nomatch h
    | single p =>
      have hvalue : discardValue D p s d = some (ok, s') := by
        cases s <;> exact h
      refine discardValue_strip (fun isEmpty m hm => ?_) hvalue
      rw [hm] at hs
      exact hs m (.msg isEmpty m)

/-- **Nothing but unknown bytes changes.** -/
theorem keepsRest (D : MessageDefs) : ∀ m : Message, KeepsRest D m := by
  refine nested_induction fun m ih p d ret m' h => ?_
  by_cases hd : d - 1 = 0
  · have hself : discardUnknown D p m d = some (false, m) := by
      obtain ⟨hasbits, oneofCase, data, unknown, exts⟩ := m
      rw [discardUnknown, if_pos hd]
    rw [hself] at h
    rw [(Prod.mk.inj (Option.some.inj h)).2]
  · rw [discardUnknown_eq p m hd] at h
    have hset := fieldsSet_of_foldlM (apart_of_yield D p m) h
    have hdata : ∀ offset, (m'.data offset).strip = (m.data offset).strip := by
      intro offset
      by_cases hno : ∀ f ∈ D.fields p, (yield m f).isSome = true → f.mini.offset ≠ offset
      · exact congrArg Slot.strip (hset.unset offset hno)
      · obtain ⟨f, hf, hshow, rfl⟩ : ∃ f ∈ D.fields p, (yield m f).isSome = true ∧ f.mini.offset = offset := by
          simpa using hno
        obtain ⟨ok, hval⟩ := hset.set f hf hshow
        exact discardField_strip (fun b hb => ih b (.inl ⟨_, hb⟩)) hval
    have hexts : m'.exts = m.exts := hset.exts
    have hhas : m'.hasbits = m.hasbits := hset.hasbits
    have hcase : m'.oneofCase = m.oneofCase := hset.oneofCase
    rw [strip_eq, strip_eq, hhas, hcase, hexts, funext hdata]

/-! ### When unknown fields are discarded -/

/-- What the call does with a message whose fields hold messages. -/
structure Discarding (D : MessageDefs) (a : DefPtr × Message) (d : Int) (ret : Bool) (m' : Message) :
    Prop where
  false_iff : ret = false ↔ Reaches D a d
  clean_iff : ret = true → (Clean D (a.1, m') ↔ ExtsClean D a)

theorem forall₂_clean {l l' : List (DefPtr × Message)}
    (h : List.Forall₂ (fun b b' => Clean D b' ↔ ExtsClean D b) l l') :
    (∀ b ∈ l', Clean D b) ↔ ∀ b ∈ l, ExtsClean D b := by
  induction h with
  | nil => exact iff_of_true (List.forall_mem_nil _) (List.forall_mem_nil _)
  | cons hb _ ih => rw [List.forall_mem_cons, List.forall_mem_cons, hb, ih]

/-- The call has a result, which is `false` if the bound is reached. -/
theorem discarding (D : MessageDefs) : ∀ (m : Message) (p : DefPtr) (d : Int),
    (∀ b, Relation.ReflTransGen (FieldChild D) (p, m) b → Fits D b) →
      ∃ ret m', discardUnknown D p m d = some (ret, m') ∧ Discarding D (p, m) d ret m' := by
  refine nested_induction fun m ih p d hfits => ?_
  by_cases hd : d - 1 = 0
  · have hself : discardUnknown D p m d = some (false, m) := by
      obtain ⟨hasbits, oneofCase, data, unknown, exts⟩ := m
      rw [discardUnknown, if_pos hd]
    refine ⟨false, m, hself, iff_of_true rfl ⟨by omega, ?_⟩, fun h => by cases h⟩
    rw [hd]
    trivial
  · have hchild : ∀ b ∈ D.fieldChildren (p, m), ∃ ret m',
        discardUnknown D b.1 b.2 (d - 1) = some (ret, m') ∧ Discarding D b (d - 1) ret m' := fun b hb =>
      ih b.2 (MessageDefs.nested_of_fieldChildren hb) b.1 (d - 1) fun c hc => hfits c (.head hb hc)
    have hsome : (discardUnknown D p m d).isSome := by
      refine isSome_discardUnknown (hfits _ .refl) hd fun b hb => ?_
      obtain ⟨ret, m', h, -⟩ := hchild b hb
      rw [h, Option.isSome_some]
    obtain ⟨⟨ret, m'⟩, h⟩ := Option.isSome_iff_exists.mp hsome
    have hleft := messageDiscarded_of_eq (hfits _ .refl) hd h
    refine ⟨ret, m', h, ?_, fun hret => ?_⟩
    · rw [reaches_iff hd, ← Bool.not_eq_true, hleft.children.ok_iff]
      constructor
      · intro hno
        obtain ⟨b, hb, hb'⟩ : ∃ b ∈ D.fieldChildren (p, m),
            ¬∃ m', discardUnknown D b.1 b.2 (d - 1) = some (true, m') := by
          simpa [AllDiscard] using hno
        obtain ⟨r, m₁, hm₁, hdisc⟩ := hchild b hb
        refine ⟨b, hb, hdisc.false_iff.mp ?_⟩
        cases r with
        | false => rfl
        | true => exact absurd ⟨m₁, hm₁⟩ hb'
      · rintro ⟨b, hb, hreach⟩ hall
        obtain ⟨r, m₁, hm₁, hdisc⟩ := hchild b hb
        obtain ⟨m₂, hm₂⟩ := hall b hb
        rw [hm₁, hdisc.false_iff.mpr hreach] at hm₂
        cases hm₂
    · rw [clean_iff, extsClean_iff, and_iff_right hleft.unknown]
      have hexts : D.extChildren (p, m') = D.extChildren (p, m) := by
        rw [MessageDefs.extChildren, MessageDefs.extChildren, hleft.exts]
      rw [hexts]
      refine and_congr_left fun _ => forall₂_clean ?_
      have hall := hleft.children.ok_iff.mp hret
      have hmem : List.Forall₂ (fun b b' => b ∈ D.fieldChildren (p, m) ∧ Discards D (d - 1) b b')
          (D.fieldChildren (p, m)) (D.fieldChildren (p, m')) :=
        (List.forall₂_and_left _ _).mpr ⟨fun b hb => hb, hleft.children.values⟩
      refine hmem.imp fun b b' hb => ?_
      obtain ⟨hb, hp, r, hr⟩ := hb
      obtain ⟨r', m₁, hm₁, hdisc⟩ := hchild b hb
      obtain ⟨m₂, hm₂⟩ := hall b hb
      obtain ⟨rfl, rfl⟩ := Prod.mk.inj (Option.some.inj (hm₁.symm.trans hm₂))
      obtain ⟨-, hm'⟩ := Prod.mk.inj (Option.some.inj (hm₁.symm.trans hr))
      have hclean := hdisc.clean_iff rfl
      rwa [hm', ← hp] at hclean

/-- The unknown fields are discarded as they should be: those below an extension are not there, if the
bound is not reached, and if it is reached, it is exceeded. -/
def DiscardBound (D : MessageDefs) (a : DefPtr × Message) (maxdepth : Int) : Prop :=
  (¬Reaches D a maxdepth → ExtsClean D a) ∧ (Reaches D a maxdepth → Deeper D a maxdepth)

/-- **When unknown fields are discarded as they should be.** -/
theorem discardRight_iff (D : MessageDefs) (p : DefPtr) (m : Message) (maxdepth : Int)
    (hfits : ∀ b, Relation.ReflTransGen (FieldChild D) (p, m) b → Fits D b) :
    DiscardRight D p m maxdepth ↔ DiscardBound D (p, m) maxdepth := by
  obtain ⟨ret, m', h, hdisc⟩ := discarding D m p maxdepth hfits
  have hret : ret = true ↔ ¬Reaches D (p, m) maxdepth := by
    rw [← hdisc.false_iff, Bool.not_eq_false]
  constructor
  · rintro ⟨r, m₁, h₁, -, htrue, hfalse⟩
    obtain ⟨rfl, rfl⟩ := Prod.mk.inj (Option.some.inj (h.symm.trans h₁))
    refine ⟨fun hno => ?_, fun hreach => hfalse (hdisc.false_iff.mpr hreach)⟩
    have := hret.mpr hno
    exact (hdisc.clean_iff this).mp (htrue this)
  · rintro ⟨hclean, hdeep⟩
    refine ⟨ret, m', h, keepsRest D m p maxdepth ret m' h, fun ht => ?_, fun hf => ?_⟩
    · exact (hdisc.clean_iff ht).mpr (hclean (hret.mp ht))
    · exact hdeep (hdisc.false_iff.mp hf)

/-! ### A message in a field and one in an extension -/

/-- `optional N n = 1;` in `M`, as a field or, if it extends `M`, as an extension. -/
def nestedField (isExtension : Bool) : LinkedField where
  defn :=
    { address := 0, fullName := [77, 46, 110], jsonName := [110], hasJsonName := false, number := 1
      index := 0, layoutIndex := 0, label := .optional, type := some .message, isExtension
      isPacked := false, isProto3Optional := false, hasPresence := true, hasDefault := false
      defaultval := .msg, options := ⟨none⟩, oneof := none, msgdef := some ⟨.msg, 0, [77]⟩
      sub := .msgdef ⟨.msg, 0, [78]⟩ }
  mini :=
    if isExtension then ⟨1, 0, 0, 0, .message, FieldMode.scalar ||| LabelFlags.isExtension ||| 192⟩
    else ⟨1, 8, 1, 0, .message, FieldMode.scalar ||| 192⟩
  repeated_eq := by cases isExtension <;> decide
  mode := by cases isExtension <;> decide
  sub := by cases isExtension <;> decide

/-- `message M { optional N n = 1; }` and `message N {}`. -/
def nestedDefs : MessageDefs where
  fields := fun p => if p = ⟨.msg, 0, [77]⟩ then [nestedField false] else []
  isMapEntry := fun _ => false
  extension := fun _ => nestedField true
  count_lt := fun p => by split <;> decide
  apart := fun p => by
    split
    · exact List.pairwise_singleton _ _
    · exact List.Pairwise.nil
  map_iff := fun p f hf => by
    split at hf
    · obtain rfl := List.mem_singleton.mp hf
      decide
    · exact nomatch hf
  entry := fun _ h => nomatch h

/-- The unknown bytes of a message in a field are discarded. -/
theorem discardRight_nested : DiscardRight nestedDefs ⟨.msg, 0, [77]⟩
    { new with hasbits := fun i => i == 1, data := fun _ => .msg false (new.addUnknown [8, 1]) } 64 := by
  have hchild : nestedDefs.fieldChildren (⟨.msg, 0, [77]⟩,
      { new with hasbits := fun i => i == 1, data := fun _ => .msg false (new.addUnknown [8, 1]) }) =
      [(⟨.msg, 0, [78]⟩, new.addUnknown [8, 1])] := rfl
  have hleaf : nestedDefs.fieldChildren (⟨.msg, 0, [78]⟩, new.addUnknown [8, 1]) = [] := rfl
  have htree : ∀ b, Relation.ReflTransGen (FieldChild nestedDefs) (⟨.msg, 0, [77]⟩,
      { new with hasbits := fun i => i == 1, data := fun _ => .msg false (new.addUnknown [8, 1]) }) b →
      b.2.exts = [] ∧ Fits nestedDefs b := by
    intro b hb
    obtain rfl | ⟨c, hc, hcb⟩ := Relation.ReflTransGen.cases_head hb
    · refine ⟨rfl, fun f hf _ k hk => ?_⟩
      obtain rfl := List.mem_singleton.mp hf
      obtain rfl := Option.some.inj hk
      rfl
    · rw [FieldChild, hchild] at hc
      obtain rfl := List.mem_singleton.mp hc
      obtain rfl | ⟨c', hc', -⟩ := Relation.ReflTransGen.cases_head hcb
      · exact ⟨rfl, fun f hf => nomatch hf⟩
      · rw [FieldChild, hleaf] at hc'
        exact nomatch hc'
  refine (discardRight_iff nestedDefs ⟨.msg, 0, [77]⟩ _ 64 fun b hb => (htree b hb).2).mpr
    ⟨fun _ b hb c hc => ?_, ?_⟩
  · rw [MessageDefs.extChildren, (htree b hb).1] at hc
    exact nomatch hc
  · rintro ⟨-, b, hb, b', hb', -⟩
    rw [FieldChild, hchild] at hb
    obtain rfl := List.mem_singleton.mp hb
    rw [FieldChild, hleaf] at hb'
    exact nomatch hb'

/-- The unknown bytes of a message in an extension stay, though the result is `true`, and with the bound 1
the result is `false` for a message that holds no other one. -/
theorem not_discardRight :
    ¬DiscardRight nestedDefs ⟨.msg, 0, [77]⟩
      { new with exts := [(0, .msg false (new.addUnknown [8, 1]))] } 64 ∧
    ¬DiscardRight nestedDefs ⟨.msg, 0, [77]⟩ new 1 := by
  constructor
  · rintro ⟨ret, m', h, -, hclean, -⟩
    obtain ⟨rfl, rfl⟩ := Prod.mk.inj (Option.some.inj h)
    exact nomatch hclean rfl (⟨.msg, 0, [78]⟩, new.addUnknown [8, 1])
      (.single (.inr (List.mem_singleton.mpr rfl)))
  · rintro ⟨ret, m', h, -, -, hdeep⟩
    obtain ⟨rfl, rfl⟩ := Prod.mk.inj (Option.some.inj h)
    obtain ⟨b, hb, -⟩ := hdeep rfl
    exact hb.elim (fun h => nomatch h) fun h => nomatch h

end Message

end Hpb
