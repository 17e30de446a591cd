import Hpb.Lib.Trail
import Hpb.Message.Next

/-!
# The paths of unset required fields (`hpb/util/required_fields.c`)

`hpb_util_HasUnsetRequired` walks through a message with the path to where it is on a stack. A map whose
values are no messages is left before its field is popped, and every path that is reported after it has the
entry of that field.

* `findUnsetRequired`, `hasUnsetRequired`: the walk and the call.
* `visits`: what the walk meets; `Missing`: a path to an unset required field.
* `RequiredRight`: what a caller relies on.
* `requiredRight_iff`: when that is so.
-/

namespace Hpb

open Reflection

/-- `hpb_FieldPathEntry`. -/
inductive FieldPathEntry where
  | field (f : LinkedField)
  | index (i : Nat)
  | key (k : MapKey)
  /-- `{.field = NULL}`. -/
  | null

/-- The entry ends a path. -/
def FieldPathEntry.isNull : FieldPathEntry → Bool
  | null => true
  | _ => false

/-- `hpb_FindContext`; `push` and `pop` are `hpb_FindContext_Push` and `hpb_FindContext_Pop`. -/
abbrev FindContext := Trail FieldPathEntry

namespace RequiredPaths

open Message (yield)

/-- How the loop goes on with a field. -/
inductive Visit where
  | skip
  /-- `if (!val_m) continue`. -/
  | unpopped
  | sub (kind : SubKind)

variable (D : MessageDefs)

/-- How the loop goes on with a field. -/
def visit (f : LinkedField) : Visit :=
  match f.defn.messageSubDef with
  | none => .skip
  | some sub =>
    if D.isMap f then
      match (D.fields sub)[1]?.bind (·.defn.messageSubDef) with
      | some value => .sub (.map value)
      | none => .unpopped
    else if f.defn.isRepeated then .sub (.array sub)
    else .sub (.single sub)

/-- A required field that is not set; a message that is not there has no field that is set. -/
def lacks (m : Option Message) (f : LinkedField) : Bool :=
  f.defn.label = .required && match m with
    | some m => !m.hasField f.mini
    | none => true

/-- `hpb_util_FindUnsetInMessage`. -/
def findUnsetInMessage (p : DefPtr) (m : Option Message) (ctx : FindContext) : FindContext :=
  (D.fields p).foldl (fun ctx f => if lacks m f then ctx.report .null (.field f) else ctx) ctx

variable (extPool : Bool)

mutual

/-- `hpb_util_FindUnsetRequiredInternal`, with or without a pool. A field of messages that
`hpb_Message_Next` yields is read as what it holds, and the extensions come from the oldest one on. -/
def findUnsetRequired (p : DefPtr) : Message → FindContext → FindContext
  | ⟨hasbits, oneofCase, data, unknown, exts⟩, ctx =>
    let msg : Message := ⟨hasbits, oneofCase, data, unknown, exts⟩
    let ctx := findUnsetInMessage D p (some msg) ctx
    let ctx := (D.fields p).foldl (fun ctx f =>
      if (yield msg f).isSome then findUnsetInField f (visit D f) (data f.mini.offset) ctx else ctx) ctx
    if extPool then findUnsetInExts exts ctx else ctx

/-- The call for a value; one that is no message is a null pointer. -/
def findUnsetInValue (p : DefPtr) : Slot → FindContext → FindContext
  | .msg _ m, ctx => findUnsetRequired p m ctx
  | _, ctx => findUnsetInMessage D p none ctx

/-- One round of the loop. A field that is yielded has an array or a map if it is one. -/
def findUnsetInField (f : LinkedField) : Visit → Slot → FindContext → FindContext
  | .skip, _, ctx => ctx
  | .unpopped, _, ctx => ctx.push (.field f)
  | .sub (.map p), .map es, ctx => (findUnsetInEntries p es (ctx.push (.field f))).pop
  | .sub (.array p), .arr xs, ctx => (findUnsetInElems p xs 0 (ctx.push (.field f))).pop
  | .sub (.single p), .msg _ m, ctx => (findUnsetRequired p m (ctx.push (.field f))).pop
  | .sub (.single p), _, ctx => (findUnsetInMessage D p none (ctx.push (.field f))).pop
  | .sub _, _, ctx => (ctx.push (.field f)).pop

/-- The loop over an array. -/
def findUnsetInElems (p : DefPtr) : List Slot → Nat → FindContext → FindContext
  | [], _, ctx => ctx
  | x :: xs, i, ctx => findUnsetInElems p xs (i + 1) (findUnsetInValue p x (ctx.push (.index i))).pop

/-- The loop over a map. -/
def findUnsetInEntries (p : DefPtr) : List (MapKey × Slot) → FindContext → FindContext
  | [], ctx => ctx
  | (k, x) :: es, ctx => findUnsetInEntries p es (findUnsetInValue p x (ctx.push (.key k))).pop

/-- The extensions, the newest of which is the first in memory. -/
def findUnsetInExts : List (Nat × Slot) → FindContext → FindContext
  | [], ctx => ctx
  | (id, s) :: exts, ctx =>
    findUnsetInField (D.extension id) (visit D (D.extension id)) s (findUnsetInExts exts ctx)

end

/-- `hpb_util_HasUnsetRequired`, for a caller that wants the paths or for one that does not. -/
def hasUnsetRequired (fields : Bool) (p : DefPtr) (m : Message) : Bool × List FieldPathEntry :=
  let ctx := findUnsetRequired D extPool p m ⟨[], [], false, fields⟩
  (ctx.found, if fields then ctx.out ++ [.null] else [])

/-! ### What there is to find -/

/-- The unset required fields of a message. -/
def visitsHere (p : DefPtr) (m : Option Message) : List (Option (List FieldPathEntry)) :=
  (D.fields p).flatMap fun f => if lacks m f then [some [.field f]] else []

mutual

/-- What is met in a message, in the order of the walk: the path to an unset required field, or a map that
is set and has no messages. -/
def visits (p : DefPtr) : Message → List (Option (List FieldPathEntry))
  | ⟨hasbits, oneofCase, data, unknown, exts⟩ =>
    let msg : Message := ⟨hasbits, oneofCase, data, unknown, exts⟩
    visitsHere D p (some msg) ++
      ((D.fields p).flatMap fun f =>
        if msg.present f.mini then visitsInField f (visit D f) (data f.mini.offset) else []) ++
      if extPool then visitsInExts exts else []

def visitsInValue (p : DefPtr) : Slot → List (Option (List FieldPathEntry))
  | .msg _ m => visits p m
  | _ => visitsHere D p none

def visitsInField (f : LinkedField) : Visit → Slot → List (Option (List FieldPathEntry))
  | .skip, _ => []
  | .unpopped, _ => [none]
  | .sub (.map p), .map es => (visitsInEntries p es).map (Option.map (.field f :: ·))
  | .sub (.array p), .arr xs => (visitsInElems p xs 0).map (Option.map (.field f :: ·))
  | .sub (.single p), .msg _ m => (visits p m).map (Option.map (.field f :: ·))
  | .sub (.single p), _ => (visitsHere D p none).map (Option.map (.field f :: ·))
  | .sub _, _ => []

def visitsInElems (p : DefPtr) : List Slot → Nat → List (Option (List FieldPathEntry))
  | [], _ => []
  | x :: xs, i => (visitsInValue p x).map (Option.map (.index i :: ·)) ++ visitsInElems p xs (i + 1)

def visitsInEntries (p : DefPtr) : List (MapKey × Slot) → List (Option (List FieldPathEntry))
  | [] => []
  | (k, x) :: es => (visitsInValue p x).map (Option.map (.key k :: ·)) ++ visitsInEntries p es

def visitsInExts : List (Nat × Slot) → List (Option (List FieldPathEntry))
  | [] => []
  | (id, s) :: exts => visitsInExts exts ++ visitsInField (D.extension id) (visit D (D.extension id)) s

end

/-- The paths to the unset required fields. -/
def missingPaths (p : DefPtr) (m : Message) : List (List FieldPathEntry) :=
  Trail.paths (visits D true p m)

/-- A message that the value of a field holds, with the entries that lead to it. -/
inductive Holds (f : LinkedField) (s : Slot) : List FieldPathEntry → DefPtr → Option Message → Prop where
  | single {p : DefPtr} (h : D.subKind f = some (.single p)) : Holds f s [.field f] p s.message?
  | elem {p : DefPtr} (h : D.subKind f = some (.array p)) {i : Nat} {x : Slot} (hx : s.elems[i]? = some x) :
      Holds f s [.field f, .index i] p x.message?
  | value {p : DefPtr} (h : D.subKind f = some (.map p)) {k : MapKey} {x : Slot} (hx : (k, x) ∈ s.entries) :
      Holds f s [.field f, .key k] p x.message?

/-- The path from a message to an unset required field. -/
inductive Missing : DefPtr → Option Message → List FieldPathEntry → Prop where
  | here {p : DefPtr} {m : Option Message} {f : LinkedField} (hf : f ∈ D.fields p)
      (hlacks : lacks m f = true) : Missing p m [.field f]
  | field {p p' : DefPtr} {m : Message} {m' : Option Message} {f : LinkedField}
      {steps path : List FieldPathEntry} (hf : f ∈ D.fields p) (hpresent : m.present f.mini = true)
      (hholds : Holds D f (m.data f.mini.offset) steps p' m') (h : Missing p' m' path) :
      Missing p (some m) (steps ++ path)
  | ext {p p' : DefPtr} {m : Message} {m' : Option Message} {id : Nat} {s : Slot}
      {steps path : List FieldPathEntry} (hmem : (id, s) ∈ m.exts)
      (hholds : Holds D (D.extension id) s steps p' m') (h : Missing p' m' path) :
      Missing p (some m) (steps ++ path)

/-- The call returns `true` if and only if there is an unset required field, and the paths are those to
the unset required fields, one to each of them, and each with its end. -/
structure RequiredRight (p : DefPtr) (m : Message) : Prop where
  returns : ∀ fields, (hasUnsetRequired D extPool fields p m).1 = true ↔ ∃ path, Missing D p (some m) path
  fields : ∃ ps : List (List FieldPathEntry), ps.Perm (missingPaths D p m) ∧
    (hasUnsetRequired D extPool true p m).2 = Trail.flat .null ps ++ [.null]

/-! ### The walk -/

/-- A step of the walk that meets some things. -/
abbrev Walks := Trail.Walks FieldPathEntry.isNull .null

variable {D extPool} {p : DefPtr} {f : LinkedField}

theorem walks_here (p : DefPtr) (m : Option Message) :
    Walks (visitsHere D p m) (findUnsetInMessage D p m) := by
  have hfield : ∀ f ∈ D.fields p, Walks (if lacks m f then [some [.field f]] else [])
      fun ctx => if lacks m f then ctx.report .null (.field f) else ctx := by
    intro f _
    by_cases h : lacks m f = true
    · simp only [h, if_true]
      exact .report rfl rfl
    · simp only [h, Bool.false_eq_true, if_false]
      exact .id
  exact .foldl hfield

/-- What the walk of a message meets. -/
def WalksIn (D : MessageDefs) (extPool : Bool) (m : Message) : Prop :=
  ∀ p, Walks (visits D extPool p m) (findUnsetRequired D extPool p m)

theorem walks_value {x : Slot} (hx : ∀ isEmpty m, x = .msg isEmpty m → WalksIn D extPool m) :
    Walks (visitsInValue D extPool p x) (findUnsetInValue D extPool p x) := by
  cases x with
  | msg isEmpty m =>
    have h := hx isEmpty m rfl p
    rwa [visitsInValue, show findUnsetInValue D extPool p (.msg isEmpty m) =
      findUnsetRequired D extPool p m from funext fun ctx => by rw [findUnsetInValue]]
  | _ => exact walks_here p none

theorem walks_elems {xs : List Slot} (hxs : ∀ x ∈ xs, ∀ isEmpty m, x = .msg isEmpty m → WalksIn D extPool m)
    (i : Nat) : Walks (visitsInElems D extPool p xs i) (findUnsetInElems D extPool p xs i) := by
  induction xs generalizing i with
  | nil => exact .id
  | cons x xs ih =>
    obtain ⟨hx, htail⟩ := List.forall_mem_cons.mp hxs
    exact ((walks_value hx).within rfl).comp (ih htail (i + 1))

theorem walks_entries {es : List (MapKey × Slot)}
    (hes : ∀ e ∈ es, ∀ isEmpty m, e.2 = .msg isEmpty m → WalksIn D extPool m) :
    Walks (visitsInEntries D extPool p es) (findUnsetInEntries D extPool p es) := by
  induction es with
  | nil => exact .id
  | cons e es ih =>
    obtain ⟨hx, htail⟩ := List.forall_mem_cons.mp hes
    exact ((walks_value hx).within rfl).comp (ih htail)

/-- A field is left with its entry popped, unless it is a map without messages. -/
theorem walks_field {s : Slot} (hs : ∀ m, s.Nested m → WalksIn D extPool m) (v : Visit) :
    Walks (visitsInField D extPool f v s) (findUnsetInField D extPool f v s) := by
  cases v with
  | skip =>
    cases s <;> exact .id
  | unpopped =>
    cases s <;> exact .push rfl
  | sub k =>
    cases k with
    | map p =>
      cases s with
      | map es =>
        have hes : ∀ e ∈ es, ∀ isEmpty m, e.2 = .msg isEmpty m → WalksIn D extPool m := by
          rintro ⟨k, x⟩ he isEmpty m rfl
          exact hs m (.value he)
        exact (walks_entries hes).within rfl
      | _ => exact Trail.Walks.id.within rfl
    | array p =>
      cases s with
      | arr xs =>
        have hxs : ∀ x ∈ xs, ∀ isEmpty m, x = .msg isEmpty m → WalksIn D extPool m := by
          rintro x hx isEmpty m rfl
          exact hs m (.elem hx)
        exact (walks_elems hxs 0).within rfl
      | _ => exact Trail.Walks.id.within rfl
    | single p =>
      cases s with
      | msg isEmpty m => exact (hs m (.msg isEmpty m) p).within rfl
      | _ => exact (walks_here p none).within rfl

theorem walks_exts {exts : List (Nat × Slot)} (hexts : ∀ e ∈ exts, ∀ m, e.2.Nested m → WalksIn D extPool m) :
    Walks (visitsInExts D extPool exts) (findUnsetInExts D extPool exts) := by
  induction exts with
  | nil => exact .id
  | cons e exts ih =>
    obtain ⟨he, htail⟩ := List.forall_mem_cons.mp hexts
    exact (ih htail).comp (walks_field he _)

/-- A field of messages is yielded if it is set. -/
theorem yield_of_visit (m : Message) (h : visit D f ≠ .skip) : (yield m f).isSome = m.present f.mini := by
  refine Message.yield_messageSubDef m ?_
  cases hs : f.defn.messageSubDef with
  | none =>
    rw [visit, hs] at h
    exact absurd rfl h
  | some p => rfl

theorem visits_eq (m : Message) : visits D extPool p m = visitsHere D p (some m) ++
    ((D.fields p).flatMap fun f =>
      if m.present f.mini then visitsInField D extPool f (visit D f) (m.data f.mini.offset) else []) ++
    if extPool then visitsInExts D extPool m.exts else [] := by
  cases m
  rw [visits]

theorem findUnsetRequired_eq (m : Message) : findUnsetRequired D extPool p m = fun ctx =>
    (fun ctx => if extPool then findUnsetInExts D extPool m.exts ctx else ctx)
      ((fun ctx => (D.fields p).foldl (fun ctx f => if (yield m f).isSome then
        findUnsetInField D extPool f (visit D f) (m.data f.mini.offset) ctx else ctx) ctx)
      (findUnsetInMessage D p (some m) ctx)) := by
  funext ctx
  cases m
  rw [findUnsetRequired]

/-- **What the walk meets.** -/
theorem walks_message : ∀ m : Message, WalksIn D extPool m := by
  refine Message.nested_induction fun m ih p => ?_
  have hfield : ∀ f ∈ D.fields p, Walks
      (if m.present f.mini then visitsInField D extPool f (visit D f) (m.data f.mini.offset) else [])
      fun ctx => if (yield m f).isSome then
        findUnsetInField D extPool f (visit D f) (m.data f.mini.offset) ctx else ctx := by
    intro f _
    have hwalk := walks_field (f := f) (fun b hb => ih b (.inl ⟨f.mini.offset, hb⟩)) (visit D f)
    by_cases hskip : visit D f = .skip
    · rw [hskip]
      cases m.data f.mini.offset <;> cases m.present f.mini <;> cases (yield m f).isSome <;> exact .id
    · rw [yield_of_visit m hskip]
      cases m.present f.mini with
      | true => exact hwalk
      | false => exact .id
  have hexts : Walks (if extPool then visitsInExts D extPool m.exts else [])
      fun ctx => if extPool then findUnsetInExts D extPool m.exts ctx else ctx := by
    cases extPool with
    | true => exact walks_exts fun e he b hb => ih b (.inr ⟨e, he, hb⟩)
    | false => exact .id
  rw [visits_eq, findUnsetRequired_eq]
  exact ((walks_here p (some m)).comp (.foldl hfield)).comp hexts

/-! ### What there is to find -/

/-- A walk without a pool meets less. -/
def MeetsLess (D : MessageDefs) (m : Message) : Prop :=
  ∀ p, (visits D false p m).Sublist (visits D true p m)

theorem sublist_value {x : Slot} (hx : ∀ isEmpty m, x = .msg isEmpty m → MeetsLess D m) :
    (visitsInValue D false p x).Sublist (visitsInValue D true p x) := by
  cases x with
  | msg isEmpty m => exact hx isEmpty m rfl p
  | _ => exact List.Sublist.refl _

theorem sublist_elems {xs : List Slot} (hxs : ∀ x ∈ xs, ∀ isEmpty m, x = .msg isEmpty m → MeetsLess D m)
    (i : Nat) : (visitsInElems D false p xs i).Sublist (visitsInElems D true p xs i) := by
  induction xs generalizing i with
  | nil => exact List.Sublist.refl _
  | cons x xs ih =>
    obtain ⟨hx, htail⟩ := List.forall_mem_cons.mp hxs
    exact ((sublist_value hx).map _).append (ih htail (i + 1))

theorem sublist_entries {es : List (MapKey × Slot)}
    (hes : ∀ e ∈ es, ∀ isEmpty m, e.2 = .msg isEmpty m → MeetsLess D m) :
    (visitsInEntries D false p es).Sublist (visitsInEntries D true p es) := by
  induction es with
  | nil => exact List.Sublist.refl _
  | cons e es ih =>
    obtain ⟨hx, htail⟩ := List.forall_mem_cons.mp hes
    exact ((sublist_value hx).map _).append (ih htail)

theorem sublist_field {s : Slot} (hs : ∀ m, s.Nested m → MeetsLess D m) (v : Visit) :
    (visitsInField D false f v s).Sublist (visitsInField D true f v s) := by
  cases v with
  | skip => cases s <;> exact List.Sublist.refl _
  | unpopped => cases s <;> exact List.Sublist.refl _
  | sub k =>
    cases k with
    | map p =>
      cases s with
      | map es =>
        refine (sublist_entries ?_).map _
        rintro ⟨k, x⟩ he isEmpty m rfl
        exact hs m (.value he)
      | _ => exact List.Sublist.refl _
    | array p =>
      cases s with
      | arr xs =>
        refine (sublist_elems ?_ 0).map _
        rintro x hx isEmpty m rfl
        exact hs m (.elem hx)
      | _ => exact List.Sublist.refl _
    | single p =>
      cases s with
      | msg isEmpty m => exact (hs m (.msg isEmpty m) p).map _
      | _ => exact List.Sublist.refl _

theorem meetsLess : ∀ m : Message, MeetsLess D m := by
  refine Message.nested_induction fun m ih p => ?_
  rw [visits_eq, visits_eq]
  refine ((List.Sublist.refl _).append ?_).append (List.nil_sublist _)
  induction D.fields p with
  | nil => exact List.Sublist.refl _
  | cons f fields ihf =>
    rw [List.flatMap_cons, List.flatMap_cons]
    refine List.Sublist.append ?_ ihf
    cases m.present f.mini with
    | true => exact sublist_field (fun b hb => ih b (.inl ⟨f.mini.offset, hb⟩)) _
    | false => exact List.Sublist.refl _

/-- The walk meets an unset required field below a message that may not be there. -/
def Met (D : MessageDefs) (p : DefPtr) (m : Option Message) (path : List FieldPathEntry) : Prop :=
  match m with
  | some m => some path ∈ visits D true p m
  | none => some path ∈ visitsHere D p none

variable {path : List FieldPathEntry}

theorem mem_visitsHere {m : Option Message} :
    some path ∈ visitsHere D p m ↔ ∃ f ∈ D.fields p, lacks m f = true ∧ path = [.field f] := by
  rw [visitsHere, List.mem_flatMap]
  refine exists_congr fun f => and_congr_right fun _ => ?_
  cases lacks m f with
  | true => exact ⟨fun h => ⟨rfl, Option.some.inj (List.mem_singleton.mp h)⟩,
      fun h => List.mem_singleton.mpr (congrArg some h.2)⟩
  | false => exact iff_of_false (fun h => by cases h) fun h => by cases h.1

theorem mem_visitsInValue {x : Slot} : some path ∈ visitsInValue D true p x ↔ Met D p x.message? path := by
  cases x <;> exact Iff.rfl

theorem mem_map_cons {e : FieldPathEntry} {its : List (Option (List FieldPathEntry))} :
    some path ∈ its.map (Option.map (e :: ·)) ↔ ∃ path', some path' ∈ its ∧ path = e :: path' := by
  rw [List.mem_map]
  constructor
  · rintro ⟨x, hx, h⟩
    obtain ⟨path', rfl, rfl⟩ := Option.map_eq_some_iff.mp h
    exact ⟨path', hx, rfl⟩
  · rintro ⟨path', hx, rfl⟩
    exact ⟨some path', hx, rfl⟩

theorem mem_visitsInElems {xs : List Slot} {i : Nat} : some path ∈ visitsInElems D true p xs i ↔
    ∃ j x path', xs[j]? = some x ∧ Met D p x.message? path' ∧ path = .index (i + j) :: path' := by
  induction xs generalizing i with
  | nil => exact iff_of_false (fun h => nomatch h) fun ⟨_, _, _, h, _⟩ => nomatch h
  | cons x xs ih =>
    rw [visitsInElems, List.mem_append, mem_map_cons, ih]
    constructor
    · rintro (⟨path', h, rfl⟩ | ⟨j, y, path', hy, h, rfl⟩)
      · exact ⟨0, x, path', rfl, mem_visitsInValue.mp h, rfl⟩
      · exact ⟨j + 1, y, path', hy, h, by rw [Nat.add_right_comm, Nat.add_assoc]⟩
    · rintro ⟨j, y, path', hy, h, rfl⟩
      cases j with
      | zero =>
        obtain rfl := Option.some.inj hy
        exact .inl ⟨path', mem_visitsInValue.mpr h, rfl⟩
      | succ j => exact .inr ⟨j, y, path', hy, h, by rw [Nat.add_right_comm, Nat.add_assoc]⟩

theorem mem_visitsInEntries {es : List (MapKey × Slot)} : some path ∈ visitsInEntries D true p es ↔
    ∃ k x path', (k, x) ∈ es ∧ Met D p x.message? path' ∧ path = .key k :: path' := by
  induction es with
  | nil => exact iff_of_false (fun h => nomatch h) fun ⟨_, _, _, h, _⟩ => nomatch h
  | cons e es ih =>
    obtain ⟨k, x⟩ := e
    rw [visitsInEntries, List.mem_append, mem_map_cons, ih]
    constructor
    · rintro (⟨path', h, rfl⟩ | ⟨k', y, path', hy, h, rfl⟩)
      · exact ⟨k, x, path', List.mem_cons_self, mem_visitsInValue.mp h, rfl⟩
      · exact ⟨k', y, path', List.mem_cons_of_mem _ hy, h, rfl⟩
    · rintro ⟨k', y, path', hy, h, rfl⟩
      obtain heq | hy := List.mem_cons.mp hy
      · obtain ⟨rfl, rfl⟩ := Prod.mk.inj heq
        exact .inl ⟨path', mem_visitsInValue.mpr h, rfl⟩
      · exact .inr ⟨k', y, path', hy, h, rfl⟩

/-- The values of a map are what field 2 of its entries says. -/
theorem visit_sub_iff {k : SubKind} : visit D f = .sub k ↔ D.subKind f = some k := by
  rw [visit, MessageDefs.subKind]
  cases hs : f.defn.messageSubDef with
  | none => exact iff_of_false (fun h => nomatch h) fun h => nomatch h
  | some sub =>
    simp only
    by_cases hmap : D.isMap f = true
    · rw [if_pos hmap, if_pos hmap]
      have hentry : D.isMapEntry sub = true := by
        rw [MessageDefs.isMap, hs, Bool.and_eq_true_iff] at hmap
        exact hmap.2
      obtain ⟨key, val, hfields, hkey, hval⟩ := D.entry sub hentry
      have hvalue : D.valueDef sub = val.defn.messageSubDef := by
        have hno : decide (key.defn.number = 2) = false := by rw [hkey]; rfl
        have hyes : decide (val.defn.number = 2) = true := by rw [hval]; rfl
        rw [MessageDefs.valueDef, hfields, List.find?_cons, hno]
        simp only [List.find?_cons, hyes]
      have hat : (D.fields sub)[1]?.bind (·.defn.messageSubDef) = val.defn.messageSubDef := by
        rw [hfields]
        rfl
      rw [hvalue, hat]
      cases val.defn.messageSubDef with
      | none => exact iff_of_false (fun h => nomatch h) fun h => nomatch h
      | some p => exact ⟨fun h => congrArg some (Visit.sub.inj h), fun h => congrArg _ (Option.some.inj h)⟩
    · rw [if_neg hmap, if_neg hmap]
      split <;> exact ⟨fun h => congrArg some (Visit.sub.inj h), fun h => congrArg _ (Option.some.inj h)⟩

theorem mem_visitsInField {s : Slot} : some path ∈ visitsInField D true f (visit D f) s ↔
    ∃ steps p' m' path', Holds D f s steps p' m' ∧ Met D p' m' path' ∧ path = steps ++ path' := by
  cases hv : visit D f with
  | skip =>
    refine iff_of_false (fun h => by cases s <;> exact nomatch h) ?_
    rintro ⟨steps, p', m', path', hholds | hholds | hholds, -⟩ <;>
      exact nomatch hv.symm.trans (visit_sub_iff.mpr hholds)
  | unpopped =>
    refine iff_of_false (fun h => ?_) ?_
    · have hmem : some path ∈ [none] := by cases s <;> exact h
      exact nomatch List.mem_singleton.mp hmem
    · rintro ⟨steps, p', m', path', hholds | hholds | hholds, -⟩ <;>
        exact nomatch hv.symm.trans (visit_sub_iff.mpr hholds)
  | sub k =>
    have hk := visit_sub_iff.mp hv
    cases k with
    | map p =>
      have hentries : some path ∈ visitsInField D true f (.sub (.map p)) s ↔
          some path ∈ (visitsInEntries D true p s.entries).map (Option.map (.field f :: ·)) := by
        cases s <;> exact Iff.rfl
      rw [hentries, mem_map_cons]
      constructor
      · rintro ⟨path₁, h, rfl⟩
        obtain ⟨k, x, path', hx, hmet, rfl⟩ := mem_visitsInEntries.mp h
        exact ⟨_, p, x.message?, path', .value hk hx, hmet, rfl⟩
      · rintro ⟨steps, p', m', path', hholds, hmet, rfl⟩
        cases hholds with
        | single h => exact nomatch hk.symm.trans h
        | elem h => exact nomatch hk.symm.trans h
        | value h hx =>
          obtain rfl : p = _ := by simpa using hk.symm.trans h
          exact ⟨_, mem_visitsInEntries.mpr ⟨_, _, path', hx, hmet, rfl⟩, rfl⟩
    | array p =>
      have helems : some path ∈ visitsInField D true f (.sub (.array p)) s ↔
          some path ∈ (visitsInElems D true p s.elems 0).map (Option.map (.field f :: ·)) := by
        cases s <;> exact Iff.rfl
      rw [helems, mem_map_cons]
      constructor
      · rintro ⟨path₁, h, rfl⟩
        obtain ⟨j, x, path', hx, hmet, rfl⟩ := mem_visitsInElems.mp h
        rw [Nat.zero_add]
        exact ⟨_, p, x.message?, path', .elem hk hx, hmet, rfl⟩
      · rintro ⟨steps, p', m', path', hholds, hmet, rfl⟩
        cases hholds with
        | single h => exact nomatch hk.symm.trans h
        | value h => exact nomatch hk.symm.trans h
        | elem h hx =>
          obtain rfl : p = _ := by simpa using hk.symm.trans h
          exact ⟨_, mem_visitsInElems.mpr ⟨_, _, path', hx, hmet, by rw [Nat.zero_add]; rfl⟩, rfl⟩
    | single p =>
      have hmessage : some path ∈ visitsInField D true f (.sub (.single p)) s ↔
          some path ∈ (visitsInValue D true p s).map (Option.map (.field f :: ·)) := by
        cases s <;> exact Iff.rfl
      rw [hmessage, mem_map_cons]
      constructor
      · rintro ⟨path', h, rfl⟩
        exact ⟨_, p, s.message?, path', .single hk, mem_visitsInValue.mp h, rfl⟩
      · rintro ⟨steps, p', m', path', hholds, hmet, rfl⟩
        cases hholds with
        | elem h => exact nomatch hk.symm.trans h
        | value h => exact nomatch hk.symm.trans h
        | single h =>
          obtain rfl : p = _ := by simpa using hk.symm.trans h
          exact ⟨path', mem_visitsInValue.mpr hmet, rfl⟩

theorem mem_visitsInExts {exts : List (Nat × Slot)} : some path ∈ visitsInExts D true exts ↔
    ∃ id s, (id, s) ∈ exts ∧
      some path ∈ visitsInField D true (D.extension id) (visit D (D.extension id)) s := by
  induction exts with
  | nil => exact iff_of_false (fun h => nomatch h) fun ⟨_, _, h, _⟩ => nomatch h
  | cons e exts ih =>
    obtain ⟨id, s⟩ := e
    rw [visitsInExts, List.mem_append, ih]
    constructor
    · rintro (⟨id', s', hmem, h⟩ | h)
      · exact ⟨id', s', List.mem_cons_of_mem _ hmem, h⟩
      · exact ⟨id, s, List.mem_cons_self, h⟩
    · rintro ⟨id', s', hmem, h⟩
      obtain heq | hmem := List.mem_cons.mp hmem
      · obtain ⟨rfl, rfl⟩ := Prod.mk.inj heq
        exact .inr h
      · exact .inl ⟨id', s', hmem, h⟩

theorem met_some_iff {m : Message} : Met D p (some m) path ↔
    (∃ f ∈ D.fields p, lacks (some m) f = true ∧ path = [.field f]) ∨
    (∃ f ∈ D.fields p, m.present f.mini = true ∧
      some path ∈ visitsInField D true f (visit D f) (m.data f.mini.offset)) ∨
    ∃ id s, (id, s) ∈ m.exts ∧
      some path ∈ visitsInField D true (D.extension id) (visit D (D.extension id)) s := by
  have hfields : (some path ∈ (D.fields p).flatMap fun f =>
      if m.present f.mini then visitsInField D true f (visit D f) (m.data f.mini.offset) else []) ↔
      ∃ f ∈ D.fields p, m.present f.mini = true ∧
        some path ∈ visitsInField D true f (visit D f) (m.data f.mini.offset) := by
    rw [List.mem_flatMap]
    refine exists_congr fun f => and_congr_right fun _ => ?_
    cases m.present f.mini with
    | true => exact (and_iff_right rfl).symm
    | false => exact iff_of_false (fun h => by cases h) fun h => by cases h.1
  rw [Met, visits_eq, if_pos rfl, List.mem_append, List.mem_append, mem_visitsHere, hfields,
    mem_visitsInExts, or_assoc]

theorem Holds.nested {s : Slot} {steps : List FieldPathEntry} {p' : DefPtr} {m' : Option Message}
    (h : Holds D f s steps p' m') {m : Message} (hm : m' = some m) : s.Nested m := by
  cases h with
  | single h =>
    obtain ⟨isEmpty, rfl⟩ := Slot.message?_eq_some hm
    exact .msg isEmpty m
  | elem h hx =>
    obtain ⟨isEmpty, rfl⟩ := Slot.message?_eq_some hm
    cases s with
    | arr xs => exact .elem (List.mem_of_getElem? hx)
    | _ => exact nomatch hx
  | value h hx =>
    obtain ⟨isEmpty, rfl⟩ := Slot.message?_eq_some hm
    cases s with
    | map es => exact .value hx
    | _ => exact nomatch hx

theorem missing_of_met_none (h : Met D p none path) : Missing D p none path := by
  obtain ⟨f, hf, hlacks, rfl⟩ := mem_visitsHere.mp h
  exact .here hf hlacks

theorem missing_of_met_some : ∀ (m : Message) (p : DefPtr) (path : List FieldPathEntry),
    Met D p (some m) path → Missing D p (some m) path := by
  refine Message.nested_induction fun m ih p path h => ?_
  -- what is below the value of a field
  have hbelow : ∀ {f s steps p' m' path'}, (∀ b, s.Nested b → m.Nested b) → Holds D f s steps p' m' →
      Met D p' m' path' → Missing D p' m' path' := by
    intro f s steps p' m' path' hs hholds hmet
    cases m' with
    | none => exact missing_of_met_none hmet
    | some m' => exact ih m' (hs m' (hholds.nested rfl)) p' path' hmet
  obtain ⟨f, hf, hlacks, rfl⟩ | ⟨f, hf, hpresent, h⟩ | ⟨id, s, hmem, h⟩ := met_some_iff.mp h
  · exact .here hf hlacks
  · obtain ⟨steps, p', m', path', hholds, hmet, rfl⟩ := mem_visitsInField.mp h
    exact .field hf hpresent hholds (hbelow (fun b hb => .inl ⟨_, hb⟩) hholds hmet)
  · obtain ⟨steps, p', m', path', hholds, hmet, rfl⟩ := mem_visitsInField.mp h
    exact .ext hmem hholds (hbelow (fun b hb => .inr ⟨_, hmem, hb⟩) hholds hmet)

/-- **The walk meets the unset required fields**, and no others. -/
theorem met_iff {m : Option Message} : Met D p m path ↔ Missing D p m path := by
  constructor
  · cases m with
    | none => exact missing_of_met_none
    | some m => exact missing_of_met_some m p path
  · intro h
    induction h with
    | @here p m f hf hlacks =>
      cases m with
      | none => exact mem_visitsHere.mpr ⟨f, hf, hlacks, rfl⟩
      | some m => exact met_some_iff.mpr (.inl ⟨f, hf, hlacks, rfl⟩)
    | field hf hpresent hholds _ ih =>
      exact met_some_iff.mpr (.inr (.inl ⟨_, hf, hpresent, mem_visitsInField.mpr ⟨_, _, _, _, hholds, ih, rfl⟩⟩))
    | ext hmem hholds _ ih =>
      exact met_some_iff.mpr (.inr (.inr ⟨_, _, hmem, mem_visitsInField.mpr ⟨_, _, _, _, hholds, ih, rfl⟩⟩))

theorem mem_missingPaths {m : Message} : path ∈ missingPaths D p m ↔ Missing D p (some m) path := by
  rw [← met_iff, missingPaths, Trail.paths, List.mem_filterMap]
  refine ⟨?_, fun h => ⟨some path, h, rfl⟩⟩
  rintro ⟨x, h, hsome⟩
  obtain rfl : x = some path := hsome
  exact h

/-! ### When the paths are right -/

/-- No unset required field comes after a map that is set and has no messages, in the order of the walk; and
if there is no pool, there is no unset required field below an extension. -/
def RequiredBound (D : MessageDefs) (extPool : Bool) (p : DefPtr) (m : Message) : Prop :=
  Trail.Quiet (visits D extPool p m) ∧ (extPool = false → Trail.paths (visits D false p m) = missingPaths D p m)

theorem sublist_missingPaths (D : MessageDefs) (extPool : Bool) (p : DefPtr) (m : Message) :
    (Trail.paths (visits D extPool p m)).Sublist (missingPaths D p m) := by
  cases extPool with
  | true => exact List.Sublist.refl _
  | false => exact (meetsLess m p).filterMap _

theorem fields_iff (D : MessageDefs) (extPool : Bool) (p : DefPtr) (m : Message) :
    (∃ ps : List (List FieldPathEntry), ps.Perm (missingPaths D p m) ∧
      (hasUnsetRequired D extPool true p m).2 = Trail.flat .null ps ++ [.null]) ↔
    RequiredBound D extPool p m := by
  have hfull : ∀ path ∈ missingPaths D p m, path.countP FieldPathEntry.isNull = 0 :=
    (walks_message m p : Walks (visits D true p m) (findUnsetRequired D true p m)).clean
  have hwalk : Walks (visits D extPool p m) (findUnsetRequired D extPool p m) := walks_message m p
  have hreported := hwalk.reported_iff rfl (sublist_missingPaths D extPool p m) hfull
  have hall : Trail.paths (visits D extPool p m) = missingPaths D p m ↔
      (extPool = false → Trail.paths (visits D false p m) = missingPaths D p m) := by
    cases extPool with
    | true => exact iff_of_true rfl fun h => nomatch h
    | false => exact ⟨fun h _ => h, fun h => h rfl⟩
  rw [RequiredBound, ← hall, ← hreported]
  refine exists_congr fun ps => ?_
  rw [hasUnsetRequired, if_pos rfl, List.append_left_inj, and_comm]

/-- **When the paths are right.** -/
theorem requiredRight_iff (D : MessageDefs) (extPool : Bool) (p : DefPtr) (m : Message) :
    RequiredRight D extPool p m ↔ RequiredBound D extPool p m := by
  rw [← fields_iff]
  refine ⟨RequiredRight.fields, fun h => ⟨fun fields => ?_, h⟩⟩
  obtain ⟨-, hbound⟩ := (fields_iff D extPool p m).mp h
  have hall : Trail.paths (visits D extPool p m) = missingPaths D p m := by
    cases extPool with
    | true => rfl
    | false => exact hbound rfl
  have hwalk : Walks (visits D extPool p m) (findUnsetRequired D extPool p m) := walks_message m p
  rw [hasUnsetRequired, hwalk.found_iff, hall]
  constructor
  · intro hne
    obtain ⟨path, hpath⟩ := List.exists_mem_of_ne_nil _ hne
    exact ⟨path, mem_missingPaths.mp hpath⟩
  · rintro ⟨path, hpath⟩
    exact List.ne_nil_of_mem (mem_missingPaths.mpr hpath)

/-! ### A map of numbers before a message -/

/-- The definition of a field without options or a default. -/
def plainField (msgdef : DefPtr) (name : UInt8) (number : Nat) (label : Label) (type : FieldType)
    (sub : FieldSub) : FieldDef where
  address := 0
  fullName := msgdef.name ++ [46, name]
  jsonName := [name]
  hasJsonName := false
  number := number
  index := number - 1
  layoutIndex := number - 1
  label := label
  type := some type
  isExtension := false
  isPacked := false
  isProto3Optional := false
  hasPresence := label ≠ .repeated
  hasDefault := false
  defaultval := if type = .message then .msg else .sint 0
  options := ⟨none⟩
  oneof := none
  msgdef := some msgdef
  sub := sub

/-- `message M { map<int32, int32> a = 1; optional N b = 2; }`. -/
def mapsM : List LinkedField :=
  [{ defn := plainField ⟨.msg, 0, [77]⟩ 97 1 .repeated .message (.msgdef ⟨.msg, 0, [77, 46, 65]⟩)
     mini := ⟨1, 8, 0, 0, .message, FieldMode.map ||| 192⟩
     repeated_eq := by decide
     mode := by decide
     sub := by decide },
   { defn := plainField ⟨.msg, 0, [77]⟩ 98 2 .optional .message (.msgdef ⟨.msg, 0, [78]⟩)
     mini := ⟨2, 16, 1, 1, .message, FieldMode.scalar ||| 192⟩
     repeated_eq := by decide
     mode := by decide
     sub := by decide }]

/-- The entries of the map, `message A { optional int32 key = 1; optional int32 value = 2; }`. -/
def mapsEntry : List LinkedField :=
  [{ defn := plainField ⟨.msg, 0, [77, 46, 65]⟩ 107 1 .optional .int32 .none
     mini := ⟨1, 16, 0, noSub, .int32, FieldMode.scalar ||| 64⟩
     repeated_eq := by decide
     mode := by decide
     sub := by decide },
   { defn := plainField ⟨.msg, 0, [77, 46, 65]⟩ 118 2 .optional .int32 .none
     mini := ⟨2, 32, 0, noSub, .int32, FieldMode.scalar ||| 64⟩
     repeated_eq := by decide
     mode := by decide
     sub := by decide }]

/-- `message N { required int32 x = 1; }`. -/
def mapsN : List LinkedField :=
  [{ defn := plainField ⟨.msg, 0, [78]⟩ 120 1 .required .int32 .none
     mini := ⟨1, 4, 1, noSub, .int32, FieldMode.scalar ||| 64⟩
     repeated_eq := by decide
     mode := by decide
     sub := by decide }]

def mapsDefs : MessageDefs where
  fields := fun p =>
    if p = ⟨.msg, 0, [77]⟩ then mapsM else if p = ⟨.msg, 0, [77, 46, 65]⟩ then mapsEntry
    else if p = ⟨.msg, 0, [78]⟩ then mapsN else []
  isMapEntry := fun p => p = ⟨.msg, 0, [77, 46, 65]⟩
  extension := fun _ =>
    { defn := { plainField ⟨.msg, 0, [77]⟩ 101 9 .optional .int32 .none with isExtension := true }
      mini := ⟨9, 0, 0, noSub, .int32, FieldMode.scalar ||| LabelFlags.isExtension ||| 64⟩
      repeated_eq := by decide
      mode := by decide
      sub := by decide }
  count_lt := fun p => by split_ifs <;> decide
  apart := fun p => by split_ifs <;> decide
  map_iff := fun p f hf => by
    split_ifs at hf
    · obtain rfl | hf := List.mem_cons.mp hf
      · decide
      · obtain rfl := List.mem_singleton.mp hf
        decide
    · obtain rfl | hf := List.mem_cons.mp hf
      · decide
      · obtain rfl := List.mem_singleton.mp hf
        decide
    · obtain rfl := List.mem_singleton.mp hf
      decide
    · exact nomatch hf
  entry := fun p hp => by
    obtain rfl := of_decide_eq_true hp
    exact ⟨_, _, rfl, rfl, rfl⟩

/-- A message with the entry 1: 1 in the map, and an empty message in the other field. -/
def mapsMessage : Message :=
  { Message.new with
    hasbits := fun i => i == 1
    data := fun offset => if offset = 8 then .map [(.scalar 1, .scalar 1)] else .msg false Message.new }

/-- The path that is reported has the field of the map in front. -/
theorem not_requiredRight : ¬RequiredRight mapsDefs true ⟨.msg, 0, [77]⟩ mapsMessage := by
  intro h
  have hquiet := ((fields_iff _ _ _ _).mp h.fields).1
  have hvisits : ∃ path, visits mapsDefs true ⟨.msg, 0, [77]⟩ mapsMessage = [none, some path] := ⟨_, rfl⟩
  obtain ⟨path, hvisits⟩ := hvisits
  rw [hvisits, Trail.quiet_cons_none] at hquiet
  exact nomatch hquiet

end RequiredPaths

end Hpb
