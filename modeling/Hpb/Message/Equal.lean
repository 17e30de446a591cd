import Hpb.Lib.Assoc
import Hpb.Message.Message

/-!
# Equal messages

Two messages are equal in every field, extension and unknown byte. The order of the entries of a map and
that of the extensions do not matter.

* `Message.Equal`, `Slot.Equal`: equality, and that it is reflexive.
* `Message.nested_induction`: induction over the messages that are nested in a message.
-/

namespace Hpb

mutual

/-- Equal values. -/
inductive Slot.Equal : Slot → Slot → Prop where
  | zero : Slot.Equal .zero .zero
  | scalar (val : UInt64) : Slot.Equal (.scalar val) (.scalar val)
  | str (bytes : List UInt8) : Slot.Equal (.str bytes) (.str bytes)
  | msg {m m' : Message} (isEmpty : Bool) (h : Message.Equal m m') :
      Slot.Equal (.msg isEmpty m) (.msg isEmpty m')
  | arr {xs ys : List Slot} (length : xs.length = ys.length)
      (elem : ∀ (i : Nat) (x y : Slot), xs[i]? = some x → ys[i]? = some y → Slot.Equal x y) :
      Slot.Equal (.arr xs) (.arr ys)
  | map {es es' : List (MapKey × Slot)} (keys : (es.map Prod.fst).Perm (es'.map Prod.fst))
      (value : ∀ (k : MapKey) (v v' : Slot), es.lookup k = some v → es'.lookup k = some v' →
        Slot.Equal v v') : Slot.Equal (.map es) (.map es')

/-- Equal messages. -/
inductive Message.Equal : Message → Message → Prop where
  | intro {m m' : Message} (hasbits : m'.hasbits = m.hasbits) (oneofCase : m'.oneofCase = m.oneofCase)
      (data : ∀ offset, Slot.Equal (m.data offset) (m'.data offset)) (unknown : m'.unknown = m.unknown)
      (ids : (m.exts.map Prod.fst).Perm (m'.exts.map Prod.fst))
      (exts : ∀ (id : Nat) (s s' : Slot), m.exts.lookup id = some s → m'.exts.lookup id = some s' →
        Slot.Equal s s') : Message.Equal m m'

end

mutual

theorem Slot.Equal.refl : ∀ s : Slot, Slot.Equal s s
  | .zero => .zero
  | .scalar val => .scalar val
  | .str bytes => .str bytes
  | .msg isEmpty m => .msg isEmpty (Message.Equal.refl m)
  | .arr xs =>
    have hxs := elems_refl xs
    .arr rfl fun i x y hx hy => by
      obtain rfl := Option.some.inj (hx.symm.trans hy)
      exact hxs x (List.mem_of_getElem? hx)
  | .map es =>
    have hes := entries_refl es
    .map (.refl _) fun k v v' hv hv' => by
      obtain rfl := Option.some.inj (hv.symm.trans hv')
      exact hes _ (List.mem_of_lookup_eq_some hv)

theorem Message.Equal.refl : ∀ m : Message, Message.Equal m m
  | ⟨hasbits, oneofCase, data, unknown, exts⟩ =>
    have hexts := exts_refl exts
    .intro rfl rfl (fun offset => Slot.Equal.refl (data offset)) rfl (.refl _) fun id s s' hs hs' => by
      obtain rfl := Option.some.inj (hs.symm.trans hs')
      exact hexts _ (List.mem_of_lookup_eq_some hs)

theorem elems_refl : ∀ xs : List Slot, ∀ x ∈ xs, Slot.Equal x x
  | [] => List.forall_mem_nil _
  | x :: xs => List.forall_mem_cons.mpr ⟨Slot.Equal.refl x, elems_refl xs⟩

theorem entries_refl : ∀ es : List (MapKey × Slot), ∀ e ∈ es, Slot.Equal e.2 e.2
  | [] => List.forall_mem_nil _
  | (_, x) :: es => List.forall_mem_cons.mpr ⟨Slot.Equal.refl x, entries_refl es⟩

theorem exts_refl : ∀ exts : List (Nat × Slot), ∀ e ∈ exts, Slot.Equal e.2 e.2
  | [] => List.forall_mem_nil _
  | (_, x) :: exts => List.forall_mem_cons.mpr ⟨Slot.Equal.refl x, exts_refl exts⟩

end

/-! ### Nested messages -/

/-- A message that a value holds: itself, an element or a map value. -/
inductive Slot.Nested : Slot → Message → Prop where
  | msg (isEmpty : Bool) (m : Message) : Slot.Nested (.msg isEmpty m) m
  | elem {isEmpty : Bool} {m : Message} {xs : List Slot} (h : .msg isEmpty m ∈ xs) : Slot.Nested (.arr xs) m
  | value {k : MapKey} {isEmpty : Bool} {m : Message} {es : List (MapKey × Slot)}
      (h : (k, .msg isEmpty m) ∈ es) : Slot.Nested (.map es) m

/-- A message that a field or an extension holds. -/
def Message.Nested (m m' : Message) : Prop :=
  (∃ offset, (m.data offset).Nested m') ∨ ∃ e ∈ m.exts, Slot.Nested e.2 m'

variable {P : Message → Prop}

mutual

theorem Slot.nested_induction (step : ∀ m : Message, (∀ m', m.Nested m' → P m') → P m) :
    ∀ s : Slot, ∀ m, s.Nested m → P m
  | .zero => fun _ h => nomatch h
  | .scalar _ => fun _ h => nomatch h
  | .str _ => fun _ h => nomatch h
  | .msg _ m =>
    have hm := Message.nested_induction step m
    fun _ h => by
      cases h
      exact hm
  | .arr xs =>
    have hxs := elems_induction step xs
    fun m h => by
      cases h with
      | elem hmem => exact hxs _ hmem m (.msg _ m)
  | .map es =>
    have hes := entries_induction step es
    fun m h => by
      cases h with
      | value hmem => exact hes _ hmem m (.msg _ m)

/-- **Nested induction**: what holds of a message if it holds of those nested in it holds of all. -/
theorem Message.nested_induction (step : ∀ m : Message, (∀ m', m.Nested m' → P m') → P m) :
    ∀ m : Message, P m
  | ⟨hasbits, oneofCase, data, unknown, exts⟩ =>
    have hdata := fun offset => Slot.nested_induction step (data offset)
    have hexts := exts_induction step exts
    step _ fun m' h => by
      obtain ⟨offset, h⟩ | ⟨e, he, h⟩ := h
      · exact hdata offset m' h
      · exact hexts e he m' h

theorem elems_induction (step : ∀ m : Message, (∀ m', m.Nested m' → P m') → P m) :
    ∀ xs : List Slot, ∀ x ∈ xs, ∀ m, x.Nested m → P m
  | [] => List.forall_mem_nil _
  | x :: xs => List.forall_mem_cons.mpr ⟨Slot.nested_induction step x, elems_induction step xs⟩

theorem entries_induction (step : ∀ m : Message, (∀ m', m.Nested m' → P m') → P m) :
    ∀ es : List (MapKey × Slot), ∀ e ∈ es, ∀ m, Slot.Nested e.2 m → P m
  | [] => List.forall_mem_nil _
  | (_, x) :: es => List.forall_mem_cons.mpr ⟨Slot.nested_induction step x, entries_induction step es⟩

theorem exts_induction (step : ∀ m : Message, (∀ m', m.Nested m' → P m') → P m) :
    ∀ exts : List (Nat × Slot), ∀ e ∈ exts, ∀ m, Slot.Nested e.2 m → P m
  | [] => List.forall_mem_nil _
  | (_, x) :: exts => List.forall_mem_cons.mpr ⟨Slot.nested_induction step x, exts_induction step exts⟩

end

end Hpb
