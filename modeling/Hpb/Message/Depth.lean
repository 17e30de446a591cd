import Hpb.Message.Message

/-!
# The nesting depth of a message

`Slot.DepthLe n s`: at most `n` messages are nested in the value `s`. A message of depth 0 has no
sub-messages.
-/

namespace Hpb

/-- At most `n` messages are nested in a value. -/
inductive Slot.DepthLe : Nat → Slot → Prop where
  | zero (n : Nat) : DepthLe n .zero
  | scalar (n : Nat) (val : UInt64) : DepthLe n (.scalar val)
  | str (n : Nat) (bytes : List UInt8) : DepthLe n (.str bytes)
  | msg {n : Nat} {m : Message} (isEmpty : Bool) (hdata : ∀ o, DepthLe n (m.data o))
      (hexts : ∀ e ∈ m.exts, DepthLe n e.2) : DepthLe (n + 1) (.msg isEmpty m)
  | arr {n : Nat} {xs : List Slot} (h : ∀ x ∈ xs, DepthLe n x) : DepthLe n (.arr xs)
  | map {n : Nat} {es : List (MapKey × Slot)} (h : ∀ e ∈ es, DepthLe n e.2) : DepthLe n (.map es)

/-- At most `n` messages are nested below a message. -/
structure Message.DepthLe (n : Nat) (m : Message) : Prop where
  data : ∀ o, Slot.DepthLe n (m.data o)
  exts : ∀ e ∈ m.exts, Slot.DepthLe n e.2

namespace Slot

variable {n : Nat} {s : Slot}

theorem depthLe_msg {isEmpty : Bool} {m : Message} :
    Slot.DepthLe (n + 1) (.msg isEmpty m) ↔ Message.DepthLe n m := by
  constructor
  · intro h
    cases h with
    | msg _ hdata hexts => exact ⟨hdata, hexts⟩
  · intro h
    exact .msg isEmpty h.data h.exts

theorem depthLe_ofScalar (val : UInt64) : Slot.DepthLe n (ofScalar val) := by
  unfold ofScalar
  split
  · exact .zero n
  · exact .scalar n val

theorem depthLe_ofStr (bytes : List UInt8) : Slot.DepthLe n (ofStr bytes) := by
  unfold ofStr
  split
  · exact .zero n
  · exact .str n bytes

theorem DepthLe.elems (h : Slot.DepthLe n s) : ∀ x ∈ s.elems, Slot.DepthLe n x := by
  cases h with
  | arr h => exact h
  | _ => exact fun x hx => nomatch hx

theorem DepthLe.entries (h : Slot.DepthLe n s) : ∀ e ∈ s.entries, Slot.DepthLe n e.2 := by
  cases h with
  | map h => exact h
  | _ => exact fun x hx => nomatch hx

/-- An array with one more element. -/
theorem DepthLe.push (h : Slot.DepthLe n s) {x : Slot} (hx : Slot.DepthLe n x) :
    Slot.DepthLe n (.arr (s.elems ++ [x])) := by
  refine .arr fun y hy => ?_
  obtain hy | hy := List.mem_append.mp hy
  · exact h.elems y hy
  · rw [List.mem_singleton.mp hy]
    exact hx

end Slot

namespace Message.DepthLe

variable {n : Nat} {m : Message}

theorem new : Message.DepthLe n Message.new := ⟨fun _ => .zero n, fun _ he => nomatch he⟩

theorem addUnknown (h : m.DepthLe n) (bytes : List UInt8) : (m.addUnknown bytes).DepthLe n :=
  ⟨h.data, h.exts⟩

theorem setHas (h : m.DepthLe n) (index : Nat) : (m.setHas index).DepthLe n := ⟨h.data, h.exts⟩

theorem setOneofCase (h : m.DepthLe n) (offset number : Nat) :
    (m.setOneofCase offset number).DepthLe n := ⟨h.data, h.exts⟩

theorem setData (h : m.DepthLe n) (offset : Nat) {s : Slot} (hs : Slot.DepthLe n s) :
    (m.setData offset s).DepthLe n := by
  refine ⟨fun o => ?_, h.exts⟩
  change Slot.DepthLe n (Function.update m.data offset s o)
  by_cases ho : o = offset
  · rw [ho, Function.update_self]
    exact hs
  · rw [Function.update_of_ne ho]
    exact h.data o

theorem ext (h : m.DepthLe n) (id : Nat) : Slot.DepthLe n (m.ext id) := by
  unfold Message.ext
  split
  next e he => exact h.exts e (List.mem_of_find?_eq_some he)
  next => exact .zero n

theorem setExt (h : m.DepthLe n) (id : Nat) {s : Slot} (hs : Slot.DepthLe n s) :
    (m.setExt id s).DepthLe n := by
  unfold Message.setExt
  split
  · refine ⟨h.data, fun e he => ?_⟩
    obtain ⟨e', he', rfl⟩ := List.mem_map.mp he
    split
    · exact hs
    · exact h.exts e' he'
  · refine ⟨h.data, fun e he => ?_⟩
    obtain rfl | he := List.mem_cons.mp he
    · exact hs
    · exact h.exts e he

end Message.DepthLe

theorem depthLe_mapInsert {n : Nat} {es : List (MapKey × Slot)} (h : ∀ e ∈ es, Slot.DepthLe n e.2)
    (key : MapKey) {s : Slot} (hs : Slot.DepthLe n s) : ∀ e ∈ mapInsert es key s, Slot.DepthLe n e.2 := by
  intro e he
  obtain he | he := List.mem_append.mp he
  · exact h e (List.mem_filter.mp he).1
  · rw [List.mem_singleton.mp he]
    exact hs

end Hpb
