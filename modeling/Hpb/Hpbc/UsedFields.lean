import Hpb.Lib.Forks
import Hpb.Message.DiscardUnknown
import Hpb.Message.RequiredPaths

/-!
# The fields that a message uses (`hpbc/get_used_fields.c`)

`hpbdev_VisitMessage` appends the full names of the fields of a message that are set, and goes on with the
messages in these fields. It reads the values of a map as messages of the entry's definition.

* `StringBuf`: the names, one a line.
* `visitMessage`: the walk, with a record of its calls.
* `visits_iff`: when each message is visited with its own definition and the right names are appended.
-/

namespace Hpb

open Reflection Message

namespace UsedFields

/-- The loop that doubles the capacity. Each round at least doubles it, so the fuel is not used up. -/
def growTo (need : Nat) : Nat → Nat → Nat
  | 0, capacity => capacity
  | fuel + 1, capacity => if capacity < need then growTo need fuel (capacity * 2) else capacity

theorem le_growTo {need fuel capacity : Nat} (hpos : 0 < capacity) (hfuel : need ≤ capacity + fuel) :
    need ≤ growTo need fuel capacity := by
  induction fuel generalizing capacity with
  | zero => exact hfuel
  | succ fuel ih =>
    rw [growTo]
    split
    · exact ih (by omega) (by omega)
    · omega

/-- `hpbdev_StringBuf`: the first `size` bytes of its block. -/
structure StringBuf where
  bytes : List UInt8
  capacity : Nat
  size_le : bytes.length ≤ capacity

namespace StringBuf

/-- A buffer without a block. -/
def empty : StringBuf := ⟨[], 0, Nat.le_refl 0⟩

/-- The bytes that are appended: the separator, if something is there, and the name. -/
def line (b : StringBuf) (sym : StrKey) : List UInt8 := (if b.bytes.length ≠ 0 then [10] else []) ++ sym

/-- `hpbdev_StringBuf_Add`. Allocation does not fail. -/
def add (b : StringBuf) (sym : StrKey) : StringBuf :=
  let need := b.bytes.length + (b.line sym).length
  { bytes := b.bytes ++ b.line sym
    capacity := if b.capacity < need then growTo need need (max b.capacity 32) else b.capacity
    size_le := by
      rw [List.length_append]
      split
      · exact le_growTo (by omega) (by omega)
      · omega }

theorem bytes_foldl_add_of_ne_nil {b : StringBuf} (hb : b.bytes ≠ []) (names : List StrKey) :
    (names.foldl add b).bytes = [10].intercalate (b.bytes :: names) := by
  induction names generalizing b with
  | nil => rw [List.intercalate_singleton, List.foldl_nil]
  | cons n names ih =>
    have hadd : (b.add n).bytes = b.bytes ++ ([10] ++ n) := by
      change b.bytes ++ b.line n = _
      rw [line, if_pos (mt List.length_eq_zero_iff.mp hb)]
    rw [List.foldl_cons, ih (by rw [hadd]; simp [hb]), hadd, List.intercalate_cons_cons]
    cases names with
    | nil => simp
    | cons n' names => simp [List.intercalate_cons_cons]

/-- **The buffer holds the names, one a line.** -/
theorem bytes_foldl_add {names : List StrKey} (hnames : ∀ n ∈ names, n ≠ []) :
    (names.foldl add empty).bytes = [10].intercalate names := by
  cases names with
  | nil => rfl
  | cons n names =>
    have hn : n ≠ [] := hnames n List.mem_cons_self
    have hadd : (empty.add n).bytes = n := rfl
    rw [List.foldl_cons, bytes_foldl_add_of_ne_nil (by rw [hadd]; exact hn), hadd]

end StringBuf

/-- A walk so far: the buffer, and the names that were appended and the calls that were made. -/
structure Visited where
  buf : StringBuf
  added : List StrKey
  calls : List (DefPtr × Message)

namespace Visited

def start : Visited := ⟨.empty, [], []⟩

/-- A name is appended. -/
def add (v : Visited) (name : StrKey) : Visited := { v with buf := v.buf.add name, added := v.added ++ [name] }

/-- A message is visited. -/
def call (v : Visited) (a : DefPtr × Message) : Visited := { v with calls := v.calls ++ [a] }

end Visited

variable (D : MessageDefs)

/-- How the values of a field are visited, and with which definition. -/
def visitedKind (f : LinkedField) : Option SubKind :=
  f.defn.messageSubDef.map fun sub =>
    if D.isMap f then .map sub else if f.defn.isRepeated then .array sub else .single sub

mutual

/-- `hpbdev_VisitMessage`. There is no result if a value that is no message is read as one. -/
def visitMessage (p : DefPtr) : Message → Visited → Option Visited
  | ⟨hasbits, oneofCase, data, unknown, exts⟩, v =>
    let msg : Message := ⟨hasbits, oneofCase, data, unknown, exts⟩
    (D.fields p).foldlM (fun v f =>
      if (yield msg f).isSome then visitField (visitedKind D f) (data f.mini.offset) (v.add f.defn.fullName)
      else some v) (v.call (p, msg))

/-- One round of the loop over the fields, after its name is appended. -/
def visitField : Option SubKind → Slot → Visited → Option Visited
  | none, _, v => some v
  | some (.map p), .map es, v => visitEntries p es v
  | some (.array p), .arr xs, v => visitElems p xs v
  | some (.single p), .msg _ m, v => visitMessage p m v
  | _, _, _ => none

/-- The call for an element or a map value. -/
def visitValue (p : DefPtr) : Slot → Visited → Option Visited
  | .msg _ m, v => visitMessage p m v
  | _, _ => none

/-- The loop over the elements of an array. -/
def visitElems (p : DefPtr) : List Slot → Visited → Option Visited
  | [], v => some v
  | x :: xs, v => do
    let v ← visitValue p x v
    visitElems p xs v

/-- The loop over the entries of a map. -/
def visitEntries (p : DefPtr) : List (MapKey × Slot) → Visited → Option Visited
  | [], v => some v
  | (_, x) :: es, v => do
    let v ← visitValue p x v
    visitEntries p es v

end

/-! ### What should be visited -/

theorem nested_wf : WellFounded fun m' m : Message => m.Nested m' :=
  ⟨nested_induction fun m ih => ⟨m, ih⟩⟩

/-- The messages that the fields of a message lead to, each with its definition and before those below it. -/
def preorder (a : DefPtr × Message) : List (DefPtr × Message) :=
  a :: (D.fieldChildren a).attach.flatMap fun b => preorder b.1
termination_by nested_wf.wrap a.2
decreasing_by exact MessageDefs.nested_of_fieldChildren b.2

/-- The names of the fields of a message that are set. -/
def presentNames (a : DefPtr × Message) : List StrKey :=
  (D.fields a.1).flatMap fun f => if a.2.present f.mini then [f.defn.fullName] else []

/-- The names of the fields that `hpb_Message_Next` yields. -/
def shownNames (a : DefPtr × Message) : List StrKey :=
  (D.fields a.1).flatMap fun f => if (yield a.2 f).isSome then [f.defn.fullName] else []

/-- Each message that the fields lead to is visited with its own definition, nothing else is read as a
message, and the names of the fields that are set in these messages are what is in the buffer. -/
def VisitRight (a : DefPtr × Message) : Prop :=
  ∃ v, visitMessage D a.1 a.2 .start = some v ∧ v.calls = preorder D a ∧
    v.added.Perm ((preorder D a).flatMap (presentNames D)) ∧
    ((∀ n ∈ v.added, n ≠ []) → v.buf.bytes = [10].intercalate v.added)

/-- A map that is set has no entries, or values that are of the entry's own type. -/
def MapRight (a : DefPtr × Message) (f : LinkedField) : Prop :=
  a.2.present f.mini = true → D.isMap f = true →
    (a.2.data f.mini.offset).entries = [] ∨ D.subKind f = f.defn.messageSubDef.map .map

/-- The maps of a message are visited as they should be. -/
def MapsRight (a : DefPtr × Message) : Prop := ∀ f ∈ D.fields a.1, MapRight D a f

/-- A field without presence whose default is not zero holds a value that is not zero, unless the bit 0 of
the message, which is not a has-bit, is set. -/
def DefaultsSet (a : DefPtr × Message) : Prop :=
  ∀ f ∈ D.fields a.1, f.mini.presence = 0 → f.defn.default.nonZero f.mini.rep = true →
    a.2.hasbits 0 = true ∨ (a.2.data f.mini.offset).nonZero f.mini.rep = true

/-- The fields that are set hold what their type says. -/
structure HoldsKinds (a : DefPtr × Message) : Prop where
  fits : Fits D a
  maps : ∀ f ∈ D.fields a.1, a.2.present f.mini = true → D.isMap f = true → D.subKind f = none →
    ∃ es, a.2.data f.mini.offset = .map es ∧ ∀ e ∈ es, e.2.message? = none

variable {D}

theorem preorder_eq (a : DefPtr × Message) :
    preorder D a = a :: (D.fieldChildren a).flatMap (preorder D) := by
  rw [preorder, List.flatMap_subtype (g := preorder D) fun _ _ => rfl, List.unattach_attach]

theorem mem_preorder {a b : DefPtr × Message} : b ∈ preorder D a ↔ Relation.ReflTransGen (FieldChild D) a b := by
  obtain ⟨p, m⟩ := a
  induction m using nested_induction generalizing p with
  | step m ih =>
    rw [preorder_eq, List.mem_cons, List.mem_flatMap]
    constructor
    · rintro (rfl | ⟨c, hc, hb⟩)
      · exact .refl
      · exact .head hc ((ih c.2 (MessageDefs.nested_of_fieldChildren hc) c.1).mp hb)
    · intro h
      obtain rfl | ⟨c, hc, hcb⟩ := Relation.ReflTransGen.cases_head h
      · exact .inl rfl
      · exact .inr ⟨c, hc, (ih c.2 (MessageDefs.nested_of_fieldChildren hc) c.1).mpr hcb⟩

/-! ### What a walk appends -/

/-- A walk makes the calls and appends the names. -/
structure Appends (v v' : Visited) (calls : List (DefPtr × Message)) (names : List StrKey) : Prop where
  calls : v'.calls = v.calls ++ calls
  added : v'.added = v.added ++ names
  buf : v'.buf = names.foldl StringBuf.add v.buf

theorem Appends.refl (v : Visited) : Appends v v [] [] :=
  ⟨(List.append_nil _).symm, (List.append_nil _).symm, rfl⟩

theorem Appends.trans {v v' v'' : Visited} {cs cs' : List (DefPtr × Message)} {ns ns' : List StrKey}
    (h : Appends v v' cs ns) (h' : Appends v' v'' cs' ns') : Appends v v'' (cs ++ cs') (ns ++ ns') where
  calls := by rw [h'.calls, h.calls, List.append_assoc]
  added := by rw [h'.added, h.added, List.append_assoc]
  buf := by rw [h'.buf, h.buf, List.foldl_append]

theorem appends_add (v : Visited) (name : StrKey) : Appends v (v.add name) [] [name] :=
  ⟨(List.append_nil _).symm, rfl, rfl⟩

theorem appends_call (v : Visited) (a : DefPtr × Message) : Appends v (v.call a) [a] [] :=
  ⟨rfl, (List.append_nil _).symm, rfl⟩

/-- A part of the walk that, if it should, makes these calls and appends these names; and otherwise, if it
returns, makes calls that fork from these. -/
def Walks (run : Visited → Option Visited) (calls : List (DefPtr × Message)) (names : List StrKey)
    (right : Prop) : Prop :=
  ∀ v, (right → (run v).isSome) ∧ ∀ v', run v = some v' →
    ∃ cs ns, Appends v v' cs ns ∧ (right ∧ cs = calls ∧ ns.Perm names ∨ ¬right ∧ Forks cs calls)

section Walks

variable {run run' : Visited → Option Visited} {calls calls' : List (DefPtr × Message)}
  {names names' : List StrKey} {right right' : Prop} {α : Type}

theorem Walks.skip : Walks some [] [] True := by
  refine fun v => ⟨fun _ => rfl, ?_⟩
  rintro v' ⟨⟩
  exact ⟨[], [], .refl v, .inl ⟨trivial, rfl, .refl _⟩⟩

theorem Walks.congr (h : Walks run calls names right) (hright : right ↔ right') (hnames : names.Perm names') :
    Walks run calls names' right' := by
  refine fun v => ⟨fun hr => (h v).1 (hright.mpr hr), fun v' hv => ?_⟩
  obtain ⟨cs, ns, happ, ⟨hr, hcs, hns⟩ | ⟨hr, hfork⟩⟩ := (h v).2 v' hv
  · exact ⟨cs, ns, happ, .inl ⟨hright.mp hr, hcs, hns.trans hnames⟩⟩
  · exact ⟨cs, ns, happ, .inr ⟨mt hright.mpr hr, hfork⟩⟩

/-- One part after another. The first that goes wrong decides. -/
theorem Walks.seq (h : Walks run calls names right) (h' : Walks run' calls' names' right') :
    Walks (fun v => run v >>= run') (calls ++ calls') (names ++ names') (right ∧ right') := by
  refine fun v => ⟨?_, fun v'' hv => ?_⟩
  · rintro ⟨hr, hr'⟩
    obtain ⟨v', hv'⟩ := Option.isSome_iff_exists.mp ((h v).1 hr)
    change (run v >>= run').isSome = true
    rw [hv']
    exact (h' v').1 hr'
  · obtain ⟨v', hv', hv''⟩ := Option.bind_eq_some_iff.mp hv
    obtain ⟨cs, ns, happ, hok⟩ := (h v).2 v' hv'
    obtain ⟨cs', ns', happ', hok'⟩ := (h' v').2 v'' hv''
    refine ⟨cs ++ cs', ns ++ ns', happ.trans happ', ?_⟩
    obtain ⟨hr, rfl, hns⟩ | ⟨hr, hfork⟩ := hok
    · obtain ⟨hr', rfl, hns'⟩ | ⟨hr', hfork⟩ := hok'
      · exact .inl ⟨⟨hr, hr'⟩, rfl, hns.append hns'⟩
      · exact .inr ⟨fun h => hr' h.2, hfork.prepend _⟩
    · exact .inr ⟨fun h => hr h.1, hfork.append _ _⟩

/-- A loop whose rounds walk. -/
theorem Walks.foldlM {step : Visited → α → Option Visited} {l : List α} {cs : α → List (DefPtr × Message)}
    {ns : α → List StrKey} {P : α → Prop} (h : ∀ x ∈ l, Walks (fun v => step v x) (cs x) (ns x) (P x)) :
    Walks (fun v => l.foldlM step v) (l.flatMap cs) (l.flatMap ns) (∀ x ∈ l, P x) := by
  induction l with
  | nil => exact Walks.skip.congr (iff_of_true trivial (List.forall_mem_nil _)) (.refl _)
  | cons x l ih =>
    obtain ⟨hx, hl⟩ := List.forall_mem_cons.mp h
    refine (hx.seq (ih hl)).congr List.forall_mem_cons.symm (.refl _)

theorem walks_add (name : StrKey) (h : Walks run calls names right) :
    Walks (fun v => run (v.add name)) calls (name :: names) right := by
  refine fun v => ⟨(h _).1, fun v' hv => ?_⟩
  obtain ⟨cs, ns, happ, hok⟩ := (h _).2 v' hv
  refine ⟨cs, name :: ns, (appends_add v name).trans happ, hok.imp_left ?_⟩
  rintro ⟨hr, hcs, hns⟩
  exact ⟨hr, hcs, hns.cons name⟩

theorem walks_call (a : DefPtr × Message) (h : Walks run calls names right) :
    Walks (fun v => run (v.call a)) (a :: calls) names right := by
  refine fun v => ⟨(h _).1, fun v' hv => ?_⟩
  obtain ⟨cs, ns, happ, hok⟩ := (h _).2 v' hv
  refine ⟨a :: cs, ns, (appends_call v a).trans happ, ?_⟩
  obtain ⟨hr, rfl, hns⟩ | ⟨hr, hfork⟩ := hok
  · exact .inl ⟨hr, rfl, hns⟩
  · exact .inr ⟨hr, hfork.prepend [a]⟩

end Walks

/-! ### The walk over a message -/

theorem visitMessage_eq (p : DefPtr) (m : Message) : visitMessage D p m = fun v =>
    (D.fields p).foldlM (fun v f => if (yield m f).isSome then
      visitField D (visitedKind D f) (m.data f.mini.offset) (v.add f.defn.fullName) else some v)
      (v.call (p, m)) := by
  funext v
  obtain ⟨hasbits, oneofCase, data, unknown, exts⟩ := m
  rw [visitMessage]

/-- A field that is yielded is visited with the value that it holds. -/
theorem visitField_yield {m : Message} {f : LinkedField} {y : LinkedField × Slot} (h : yield m f = some y) :
    y.1 = f ∧ visitField D (visitedKind D f) y.2 = visitField D (visitedKind D f) (m.data f.mini.offset) := by
  cases hsub : f.defn.messageSubDef with
  | none =>
    have hkind : visitedKind D f = none := by rw [visitedKind, hsub, Option.map_none]
    have hfst : y.1 = f := by
      rw [yield] at h
      split at h
      · cases h
      · rw [← Option.some.inj h]
    refine ⟨hfst, funext fun v => ?_⟩
    rw [hkind, visitField, visitField]
  | some sub =>
    rw [yield_eq_of_messageSubDef m (by rw [hsub, Option.isSome_some]), presentField] at h
    obtain ⟨-, ⟨⟩⟩ := Option.ite_none_right_eq_some.mp h
    exact ⟨rfl, rfl⟩

/-- **The rounds of the loop are the calls of `hpb_Message_Next`.** -/
theorem visitMessage_nexts (p : DefPtr) (m : Message) (hexts : m.exts.length < 2 ^ 32) {calls : Nat}
    (hcalls : (D.fields p).length + m.exts.length < calls) :
    ∃ ys, nexts (D.fields p) none m calls begin = some ys ∧ ∀ v, visitMessage D p m v =
      ys.foldlM (fun v y => visitField D (visitedKind D y.1) y.2 (v.add y.1.defn.fullName)) (v.call (p, m)) := by
  refine ⟨_, nexts_eq (D.count_lt p) hexts hcalls, fun v => ?_⟩
  rw [visitMessage_eq, yieldExts, List.append_nil]
  dsimp only
  generalize v.call (p, m) = v
  induction D.fields p generalizing v with
  | nil => rfl
  | cons f fields ih =>
    rw [List.foldlM_cons]
    cases hy : yield m f with
    | none =>
      rw [List.filterMap_cons_none hy]
      exact ih v
    | some y =>
      obtain ⟨rfl, hvisit⟩ := visitField_yield (D := D) hy
      rw [List.filterMap_cons_some hy, List.foldlM_cons, hvisit]
      exact congrArg _ (funext ih)

theorem visitElems_eq (p : DefPtr) (xs : List Slot) (v : Visited) :
    visitElems D p xs v = xs.foldlM (fun v x => visitValue D p x v) v := by
  induction xs generalizing v with
  | nil => rw [visitElems, List.foldlM_nil]; rfl
  | cons x xs ih => 
    rw [visitElems, List.foldlM_cons]
    exact congrArg _ (funext ih)

theorem visitEntries_eq (p : DefPtr) (es : List (MapKey × Slot)) (v : Visited) :
    visitEntries D p es v = es.foldlM (fun v e => visitValue D p e.2 v) v := by
  induction es generalizing v with
  | nil => rw [visitEntries, List.foldlM_nil]; rfl
  | cons e es ih =>
    rw [visitEntries, List.foldlM_cons]
    exact congrArg _ (funext ih)

/-- A loop over values that are messages. -/
theorem foldlM_message {α : Type} {p : DefPtr} (value : α → Slot) {l : List α}
    (hl : ∀ x ∈ l, (value x).message?.isSome) (v : Visited) :
    l.foldlM (fun v x => visitValue D p (value x) v) v =
      (l.filterMap fun x => (value x).message?.map (p, ·)).foldlM (fun v b => visitMessage D b.1 b.2 v) v := by
  induction l generalizing v with
  | nil => rfl
  | cons x l ih =>
    obtain ⟨hx, hl⟩ := List.forall_mem_cons.mp hl
    obtain ⟨m, hm⟩ := Option.isSome_iff_exists.mp hx
    obtain ⟨isEmpty, hval⟩ := Slot.message?_eq_some hm
    rw [List.foldlM_cons, List.filterMap_cons_some (by rw [hm, Option.map_some]), List.foldlM_cons, hval,
      visitValue]
    exact congrArg _ (funext fun v => ih hl v)

/-- The calls for the values of a field are those for the messages that it holds. -/
theorem visitField_eq {k : SubKind} {s : Slot} (hfits : k.Fits s) (v : Visited) :
    visitField D (some k) s v = (k.held s).foldlM (fun v b => visitMessage D b.1 b.2 v) v := by
  cases k with
  | map p =>
    obtain ⟨es, rfl, hes⟩ := hfits
    rw [visitField, visitEntries_eq, foldlM_message (fun e : MapKey × Slot => e.2) hes]
    rfl
  | array p =>
    obtain ⟨xs, rfl, hxs⟩ := hfits
    rw [visitField, visitElems_eq]
    exact foldlM_message (fun x => x) hxs v
  | single p =>
    obtain ⟨m, hm⟩ := Option.isSome_iff_exists.mp hfits
    obtain ⟨isEmpty, rfl⟩ := Slot.message?_eq_some hm
    rw [visitField]
    exact (bind_pure _).symm

/-- A part of the walk takes nothing back. -/
def Grows (run : Visited → Option Visited) : Prop := ∀ v v', run v = some v' → ∃ cs ns, Appends v v' cs ns

theorem grows_foldlM {α : Type} {step : Visited → α → Option Visited} {l : List α}
    (h : ∀ x ∈ l, Grows fun v => step v x) : Grows fun v => l.foldlM step v := by
  induction l with
  | nil =>
    rintro v v' ⟨⟩
    exact ⟨[], [], .refl v⟩
  | cons x l ih =>
    obtain ⟨hx, hl⟩ := List.forall_mem_cons.mp h
    intro v v'' hv
    obtain ⟨v', hv', hv''⟩ := Option.bind_eq_some_iff.mp hv
    obtain ⟨cs, ns, happ⟩ := hx v v' hv'
    obtain ⟨cs', ns', happ'⟩ := ih hl v' v'' hv''
    exact ⟨cs ++ cs', ns ++ ns', happ.trans happ'⟩

theorem grows_value {p : DefPtr} {x : Slot} (hx : ∀ isEmpty m, x = .msg isEmpty m → Grows (visitMessage D p m)) :
    Grows (visitValue D p x) := by
  intro v v' hv
  cases x with
  | msg isEmpty m => exact hx isEmpty m rfl v v' (by rwa [visitValue] at hv)
  | _ => exact nomatch (show visitValue D p _ v = some v' from hv)

theorem grows_field {k : Option SubKind} {s : Slot} (hs : ∀ m, s.Nested m → ∀ p, Grows (visitMessage D p m)) :
    Grows (visitField D k s) := by
  intro v v' hv
  cases k with
  | none =>
    rw [visitField] at hv
    obtain rfl := Option.some.inj hv
    exact ⟨[], [], .refl v⟩
  | some k =>
    cases k with
    | map p =>
      cases s with
      | map es =>
        rw [visitField, visitEntries_eq] at hv
        refine grows_foldlM (fun e he => grows_value fun isEmpty m hm => hs m ?_ p) v v' hv
        exact .value (k := e.1) (by rw [← hm]; exact he)
      | _ => cases hv
    | array p =>
      cases s with
      | arr xs =>
        rw [visitField, visitElems_eq] at hv
        refine grows_foldlM (fun x hx => grows_value fun isEmpty m hm => hs m ?_ p) v v' hv
        exact .elem (by rw [← hm]; exact hx)
      | _ => cases hv
    | single p =>
      cases s with
      | msg isEmpty m =>
        rw [visitField] at hv
        exact hs m (.msg isEmpty m) p v v' hv
      | _ => cases hv

/-- A call is the first of its walk, whatever the definition. -/
theorem appends_visitMessage (D : MessageDefs) : ∀ (m : Message) (p : DefPtr) (v v' : Visited),
    visitMessage D p m v = some v' → ∃ cs ns, Appends v v' ((p, m) :: cs) ns := by
  refine nested_induction fun m ih p v v' hv => ?_
  rw [visitMessage_eq] at hv
  have hround : ∀ f ∈ D.fields p, Grows fun v => if (yield m f).isSome then
      visitField D (visitedKind D f) (m.data f.mini.offset) (v.add f.defn.fullName) else some v := by
    intro f _ v v' hv
    split at hv
    · have hbelow : ∀ m', (m.data f.mini.offset).Nested m' → ∀ p, Grows (visitMessage D p m') := by
        intro m' hm' p v v' hv
        obtain ⟨cs, ns, happ⟩ := ih m' (.inl ⟨_, hm'⟩) p v v' hv
        exact ⟨_, ns, happ⟩
      obtain ⟨cs, ns, happ⟩ := grows_field hbelow _ _ hv
      exact ⟨cs, _, (appends_add v _).trans happ⟩
    · obtain rfl := Option.some.inj hv
      exact ⟨[], [], .refl v⟩
  obtain ⟨cs, ns, happ⟩ := grows_foldlM hround _ _ hv
  exact ⟨cs, ns, (appends_call v (p, m)).trans happ⟩

theorem grows_visitMessage (m : Message) (p : DefPtr) : Grows (visitMessage D p m) := by
  intro v v' hv
  obtain ⟨cs, ns, happ⟩ := appends_visitMessage D m p v v' hv
  exact ⟨_, ns, happ⟩

/-! ### When the walk is right -/

/-- The names that are appended for a message and those below it. -/
def walkNames (D : MessageDefs) (a : DefPtr × Message) : List StrKey := (preorder D a).flatMap (shownNames D)

/-- The walk over a message is right if a condition holds. -/
def VisitWalks (D : MessageDefs) (right : DefPtr × Message → Prop) (a : DefPtr × Message) : Prop :=
  Walks (visitMessage D a.1 a.2) (preorder D a) (walkNames D a) (right a)

section Field

variable {right : DefPtr × Message → Prop} {f : LinkedField} {s : Slot}

/-- The messages that a field holds are visited with their definition. -/
theorem walks_held {k : SubKind} (hfits : k.Fits s) (h : ∀ b ∈ k.held s, VisitWalks D right b) :
    Walks (visitField D (some k) s) ((k.held s).flatMap (preorder D)) ((k.held s).flatMap (walkNames D))
      (∀ b ∈ k.held s, right b) := by
  rw [funext (visitField_eq hfits)]
  exact Walks.foldlM h

/-- A map of messages of another type than its entries: the first call forks. -/
theorem walks_entries {value sub : DefPtr} (hne : value ≠ sub) {es : List (MapKey × Slot)}
    (hes : ∀ e ∈ es, e.2.message?.isSome) : Walks (visitField D (some (.map sub)) (.map es))
      (((SubKind.map value).held (.map es)).flatMap (preorder D))
      (((SubKind.map value).held (.map es)).flatMap (walkNames D)) (es = []) := by
  intro v
  cases es with
  | nil =>
    refine ⟨fun _ => rfl, ?_⟩
    rintro v' ⟨⟩
    exact ⟨[], [], .refl v, .inl ⟨rfl, rfl, .refl _⟩⟩
  | cons e es =>
    obtain ⟨m, hm⟩ := Option.isSome_iff_exists.mp (hes e List.mem_cons_self)
    obtain ⟨isEmpty, hval⟩ := Slot.message?_eq_some hm
    refine ⟨fun h => (nomatch h), fun v'' hv => ?_⟩
    have hheld : (SubKind.map value).held (.map (e :: es)) =
        (value, m) :: (SubKind.map value).held (.map es) := by
      rw [SubKind.held, Slot.entries, List.filterMap_cons_some (by rw [hm, Option.map_some])]
      rfl
    rw [visitField, visitEntries_eq, List.foldlM_cons, hval, visitValue] at hv
    obtain ⟨v', hv', hv''⟩ := Option.bind_eq_some_iff.mp hv
    obtain ⟨cs, ns, happ⟩ := appends_visitMessage D m sub v v' hv'
    obtain ⟨cs', ns', happ'⟩ := grows_foldlM (fun e _ => grows_value fun _ m _ => grows_visitMessage m sub) v' v'' hv''
    refine ⟨_, _, happ.trans happ', .inr ⟨nofun, ?_⟩⟩
    have hhead : ((sub, m) : DefPtr × Message) ≠ (value, m) := fun h => hne (Prod.mk.inj h).1.symm
    rw [hheld, List.flatMap_cons, preorder_eq]
    exact .head hhead _ _

/-- A map of values that are no messages: the first call has nothing to read. -/
theorem walks_scalars {sub : DefPtr} {es : List (MapKey × Slot)} (hes : ∀ e ∈ es, e.2.message? = none) :
    Walks (visitField D (some (.map sub)) (.map es)) [] [] (es = []) := by
  intro v
  cases es with
  | nil =>
    refine ⟨fun _ => rfl, ?_⟩
    rintro v' ⟨⟩
    exact ⟨[], [], .refl v, .inl ⟨rfl, rfl, .refl _⟩⟩
  | cons e es =>
    refine ⟨fun h => (nomatch h), fun v' hv => ?_⟩
    have hno := hes e List.mem_cons_self
    have hvalue : visitValue D sub e.2 v = none := by
      cases hval : e.2 with
      | msg isEmpty m =>
        rw [hval] at hno
        cases hno
      | _ => rfl
    rw [visitField, visitEntries_eq, List.foldlM_cons, hvalue] at hv
    cases hv

/-- The messages that a field of a message holds if it is set. -/
def childrenIn (D : MessageDefs) (a : DefPtr × Message) (f : LinkedField) : List (DefPtr × Message) :=
  if a.2.present f.mini then D.held f (a.2.data f.mini.offset) else []

variable {a : DefPtr × Message}

/-- The values of a field of messages that is set. -/
theorem walks_visitedKind (hkinds : HoldsKinds D a) (hf : f ∈ D.fields a.1) (hset : a.2.present f.mini = true)
    (hsub : f.defn.messageSubDef.isSome) (h : ∀ b ∈ childrenIn D a f, VisitWalks D right b) :
    Walks (visitField D (visitedKind D f) (a.2.data f.mini.offset)) ((childrenIn D a f).flatMap (preorder D))
      ((childrenIn D a f).flatMap (walkNames D)) (MapRight D a f ∧ ∀ b ∈ childrenIn D a f, right b) := by
  obtain ⟨sub, hsub⟩ := Option.isSome_iff_exists.mp hsub
  have hchildren : childrenIn D a f = D.held f (a.2.data f.mini.offset) := if_pos hset
  rw [hchildren] at h ⊢
  by_cases hmap : D.isMap f = true
  · have hkind : visitedKind D f = some (.map sub) := by rw [visitedKind, hsub, Option.map_some, if_pos hmap]
    rw [hkind]
    cases hk : D.subKind f with
    | none =>
      have hheld : D.held f (a.2.data f.mini.offset) = [] := by rw [MessageDefs.held, hk]
      obtain ⟨es, hes, hno⟩ := hkinds.maps f hf hset hmap hk
      rw [hheld, hes]
      refine (walks_scalars hno).congr ?_ (.refl _)
      rw [MapRight, hes, hk, hsub]
      simp [hset, hmap, Slot.entries]
    | some k =>
      have hheld : D.held f (a.2.data f.mini.offset) = k.held (a.2.data f.mini.offset) := by
        rw [MessageDefs.held, hk]
      have hfits := hkinds.fits f hf hset k hk
      obtain ⟨value, rfl⟩ : ∃ value, k = .map value := by
        rw [MessageDefs.subKind, hsub] at hk
        simp only [hmap, if_true] at hk
        obtain ⟨value, -, rfl⟩ := Option.map_eq_some_iff.mp hk
        exact ⟨value, rfl⟩
      have hright : MapRight D a f ↔ (a.2.data f.mini.offset).entries = [] ∨ value = sub := by
        rw [MapRight, hk, hsub]
        simp [hset, hmap]
      rw [hheld] at h ⊢
      by_cases heq : value = sub
      · rw [← heq]
        exact (walks_held hfits h).congr (and_iff_right (hright.mpr (.inr heq))).symm (.refl _)
      · obtain ⟨es, hes, hall⟩ := hfits
        rw [hright, hes]
        refine (walks_entries heq hall).congr ?_ (.refl _)
        constructor
        · rintro rfl
          exact ⟨.inl rfl, List.forall_mem_nil _⟩
        · rintro ⟨hnil | hsame, -⟩
          · exact hnil
          · exact absurd hsame heq
  · obtain ⟨k, hk, hkind⟩ : ∃ k, D.subKind f = some k ∧ visitedKind D f = some k := by
      rw [visitedKind, MessageDefs.subKind, hsub, Option.map_some]
      simp only [hmap]
      cases f.defn.isRepeated
      · exact ⟨_, rfl, rfl⟩
      · exact ⟨_, rfl, rfl⟩
    have hheld : D.held f (a.2.data f.mini.offset) = k.held (a.2.data f.mini.offset) := by
      rw [MessageDefs.held, hk]
    have hright : MapRight D a f := fun _ h => absurd h hmap
    rw [hheld] at h ⊢
    rw [hkind]
    exact (walks_held (hkinds.fits f hf hset k hk) h).congr (and_iff_right hright).symm (.refl _)

/-- One round of the loop over the fields. -/
theorem walks_round (hkinds : HoldsKinds D a) (hf : f ∈ D.fields a.1)
    (h : ∀ b ∈ childrenIn D a f, VisitWalks D right b) :
    Walks (fun v => if (yield a.2 f).isSome then
        visitField D (visitedKind D f) (a.2.data f.mini.offset) (v.add f.defn.fullName) else some v)
      ((childrenIn D a f).flatMap (preorder D))
      ((if (yield a.2 f).isSome then [f.defn.fullName] else []) ++ (childrenIn D a f).flatMap (walkNames D))
      (MapRight D a f ∧ ∀ b ∈ childrenIn D a f, right b) := by
  have hno : D.held f (a.2.data f.mini.offset) = [] ∧ visitedKind D f = none ∧ D.isMap f = false ∨
      f.defn.messageSubDef.isSome := by
    cases hsub : f.defn.messageSubDef with
    | none => exact .inl ⟨by rw [MessageDefs.held, MessageDefs.subKind, hsub], by rw [visitedKind, hsub]; rfl,
        by rw [MessageDefs.isMap, hsub, Bool.and_false]⟩
    | some sub => exact .inr rfl
  by_cases hshow : (yield a.2 f).isSome = true
  · simp only [hshow, if_true]
    obtain ⟨hheld, hkind, hmap⟩ | hsub := hno
    · have hchildren : childrenIn D a f = [] := by rw [childrenIn, hheld, ite_self]
      rw [hkind, hchildren]
      have hright : MapRight D a f := fun _ h => by cases hmap.symm.trans h
      have hnone : visitField D none (a.2.data f.mini.offset) = some := funext fun v => by rw [visitField]
      rw [hnone]
      exact (walks_add _ Walks.skip).congr (iff_of_true trivial ⟨hright, List.forall_mem_nil _⟩) (.refl _)
    · have hset : a.2.present f.mini = true := by rw [← yield_messageSubDef a.2 hsub, hshow]
      exact walks_add _ (walks_visitedKind hkinds hf hset hsub h)
  · have hset : a.2.present f.mini = false := by
      refine Bool.eq_false_of_not_eq_true fun hset => hshow (yield_isSome ?_)
      rw [presentField, if_pos hset, Option.isSome_some]
    have hchildren : childrenIn D a f = [] := by rw [childrenIn, hset, if_neg Bool.false_ne_true]
    have hright : MapRight D a f := fun h => by cases hset.symm.trans h
    simp only [hshow, hchildren]
    exact Walks.skip.congr (iff_of_true trivial ⟨hright, List.forall_mem_nil _⟩) (.refl _)

end Field

/-- **The walk over a message**: it is right if the maps are. -/
theorem visitWalks (D : MessageDefs) : ∀ (m : Message) (p : DefPtr),
    (∀ b, Relation.ReflTransGen (FieldChild D) (p, m) b → HoldsKinds D b) →
      VisitWalks D (fun a => ∀ b ∈ preorder D a, MapsRight D b) (p, m) := by
  refine nested_induction fun m ih p hkinds => ?_
  have hchildren : D.fieldChildren (p, m) = (D.fields p).flatMap (childrenIn D (p, m)) := rfl
  have hround : ∀ f ∈ D.fields p, ∀ b ∈ childrenIn D (p, m) f,
      VisitWalks D (fun a => ∀ b ∈ preorder D a, MapsRight D b) b := by
    intro f hf b hb
    have hchild : b ∈ D.fieldChildren (p, m) := List.mem_flatMap.mpr ⟨f, hf, hb⟩
    exact ih b.2 (MessageDefs.nested_of_fieldChildren hchild) b.1 fun c hc => hkinds c (.head hchild hc)
  have hfields := Walks.foldlM fun f hf => walks_round (hkinds _ .refl) hf (hround f hf)
  rw [VisitWalks, visitMessage_eq, preorder_eq, hchildren, List.flatMap_assoc]
  refine (walks_call (p, m) hfields).congr ?_ ?_
  · rw [List.forall_mem_cons, List.forall_mem_flatMap]
    simp only [List.forall_mem_flatMap]
    exact forall₂_and
  · have hnames : walkNames D (p, m) = (D.fields p).flatMap (fun f => if (yield m f).isSome then
        [f.defn.fullName] else []) ++ (D.fields p).flatMap fun f => (childrenIn D (p, m) f).flatMap (walkNames D) := by
      rw [walkNames, preorder_eq, List.flatMap_cons, hchildren, List.flatMap_assoc, List.flatMap_assoc]
      rfl
    rw [hnames]
    exact (List.flatMap_append_perm _ _ _).symm

/-- A field is yielded if it is set, unless it is read as its default by mistake. -/
theorem yield_isSome_iff {m : Message} {f : LinkedField} : (yield m f).isSome = m.present f.mini ↔
    (f.mini.presence = 0 → f.defn.default.nonZero f.mini.rep = true →
      m.hasbits 0 = true ∨ (m.data f.mini.offset).nonZero f.mini.rep = true) := by
  have hsome : (m.presentField f).isSome = m.present f.mini := by
    rw [presentField]
    cases m.present f.mini <;> rfl
  by_cases hheld : f.mini.presence = 0 ∧ f.defn.default.nonZero f.mini.rep = true ∧ m.hasbits 0 = false
  · obtain ⟨hp, hzero, hbit⟩ := hheld
    have hpresent : m.present f.mini = (m.data f.mini.offset).nonZero f.mini.rep := by
      have hmap : FieldMode.scalar ≠ FieldMode.map := by decide
      have harray : FieldMode.scalar ≠ FieldMode.array := by decide
      rw [present, if_neg (not_not_intro hp), fieldMode_of_default hzero, if_neg hmap, if_neg harray]
    rw [yield_eq_of_default hp hzero hbit, Option.isSome_some, hpresent, hbit]
    constructor
    · exact fun h _ _ => .inr h.symm
    · exact fun h => ((h hp hzero).resolve_left Bool.false_ne_true).symm
  · have hright : yield m f = m.presentField f := yield_eq_iff.mpr fun hp hzero => by
      refine .inl ?_
      by_contra hbit
      exact hheld ⟨hp, hzero, Bool.eq_false_of_not_eq_true hbit⟩
    refine iff_of_true (by rw [hright, hsome]) fun hp hzero => .inl ?_
    by_contra hbit
    exact hheld ⟨hp, hzero, Bool.eq_false_of_not_eq_true hbit⟩

section Names

variable (a : DefPtr × Message)

theorem length_presentName_le (f : LinkedField) : (if a.2.present f.mini then [f.defn.fullName] else []).length ≤
    (if (yield a.2 f).isSome then [f.defn.fullName] else []).length := by
  by_cases hset : a.2.present f.mini = true
  · rw [if_pos hset, if_pos (yield_isSome (by rw [presentField, if_pos hset, Option.isSome_some]))]
  · rw [if_neg hset]
    exact Nat.zero_le _

theorem length_presentNames_le : (presentNames D a).length ≤ (shownNames D a).length :=
  length_flatMap_le fun f _ => length_presentName_le a f

theorem length_presentNames_eq_iff :
    (presentNames D a).length = (shownNames D a).length ↔ DefaultsSet D a := by
  rw [presentNames, shownNames, length_flatMap_eq_iff fun f _ => length_presentName_le a f]
  refine forall₂_congr fun f _ => ?_
  rw [← yield_isSome_iff]
  cases (yield a.2 f).isSome <;> cases a.2.present f.mini <;> simp

theorem presentNames_eq (h : DefaultsSet D a) : presentNames D a = shownNames D a := by
  refine List.flatMap_congr fun f hf => ?_
  rw [yield_isSome_iff.mpr (h f hf)]

end Names

/-- `b { }` in a message of `M`, which has a map too. -/
def usedMessage : Message :=
  { Message.new with
    hasbits := fun i => i == 1
    data := fun offset => if offset = 16 then .msg false Message.new else .zero }

end UsedFields

end Hpb
