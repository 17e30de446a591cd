import Hpb.MiniDescriptor.LayoutSound
import Hpb.MiniDescriptor.Numbers

/-!
# Iterating over the members of a oneof (`hpb/mini_table/message.c`)

The members of a oneof have the same `presence`. `GetOneof` and `NextOneofField` go on from the field that they are
given; the first starts at the first field of the message, so it passes this one over.

* `Visits`: the fields that the loop of the comment visits.
* `visits_scan`: from any field on, the loop visits the members behind it.
* `visits_oneof_iff`: it visits every member once if and only if the first field of the message is none of them.
-/

namespace Hpb

namespace MiniTable

/-- `while (++ptr < end)`, with the fields behind `ptr`. -/
def scanOneof (presence : Int) (ptr : Nat) : List MiniTableField → Option Nat
  | [] => none
  | f :: fields => if f.presence = presence then some (ptr + 1) else scanOneof presence (ptr + 1) fields

/-- `hpb_MiniTable_GetOneof`: the index of the field. -/
def getOneof (t : MiniTable) (f : MiniTableField) : Option Nat :=
  if f.presence < 0 then scanOneof f.presence 0 (t.counted.drop 1) else none

/-- `hpb_MiniTable_NextOneofField`: the new index, if there is a next field. -/
def nextOneofField (t : MiniTable) (ptr : Nat) : Option Nat :=
  match t.counted[ptr]? with
  | some f => scanOneof f.presence ptr (t.counted.drop (ptr + 1))
  | none => none

/-- The field at `i` has the `presence` of a member of the oneof of `f`. -/
def InOneof (t : MiniTable) (f : MiniTableField) (i : Nat) : Prop :=
  ∃ g : MiniTableField, t.counted[i]? = some g ∧ g.presence = f.presence

/-- The fields that the loop visits from `start` on, until there is no next one. -/
inductive Visits (t : MiniTable) : Option Nat → List Nat → Prop where
  | done : Visits t none []
  | next {i : Nat} {visited : List Nat} (h : Visits t (t.nextOneofField i) visited) : Visits t (some i) (i :: visited)

section

variable {t : MiniTable} {f : MiniTableField} {ptr i : Nat} {start : Option Nat} {visited visited' : List Nat}

theorem Visits.unique (h : Visits t start visited) (h' : Visits t start visited') : visited = visited' := by
  induction h generalizing visited' with
  | done =>
    cases h'
    rfl
  | next _ ih =>
    cases h' with
    | next h' => rw [ih h']

/-- **The loop visits the members behind the field where it starts.** -/
theorem visits_scan {presence : Int} {fields : List MiniTableField} (hdrop : t.counted.drop (ptr + 1) = fields) :
    ∃ visited, Visits t (scanOneof presence ptr fields) visited ∧ visited.Nodup ∧
      ∀ i, i ∈ visited ↔ ptr < i ∧ ∃ g : MiniTableField, t.counted[i]? = some g ∧ g.presence = presence := by
  induction fields generalizing ptr with
  | nil =>
    refine ⟨[], .done, List.nodup_nil, fun i => ?_⟩
    rw [List.drop_eq_nil_iff] at hdrop
    refine iff_of_false List.not_mem_nil ?_
    rintro ⟨hlt, g, hg, -⟩
    have := (List.getElem?_eq_some_iff.mp hg).1
    omega
  | cons f fields ih =>
    have hf : t.counted[ptr + 1]? = some f := by
      rw [← List.head?_drop, hdrop]
      rfl
    have hrest : t.counted.drop (ptr + 1 + 1) = fields := by
      rw [← List.tail_drop, hdrop]
      rfl
    obtain ⟨visited, hvisits, hnodup, hmem⟩ := ih hrest
    have hbehind : ∀ i, ptr < i ↔ i = ptr + 1 ∨ ptr + 1 < i := fun i => by omega
    rw [scanOneof]
    split
    next hpresence =>
      refine ⟨(ptr + 1) :: visited, .next ?_, List.nodup_cons.mpr ⟨fun hin => ?_, hnodup⟩, fun i => ?_⟩
      · simp only [nextOneofField, hf, hpresence, hrest]
        exact hvisits
      · exact absurd ((hmem _).mp hin).1 (Nat.lt_irrefl _)
      · rw [List.mem_cons, hmem, hbehind]
        constructor
        · rintro (rfl | ⟨hlt, hg⟩)
          · exact ⟨.inl rfl, f, hf, hpresence⟩
          · exact ⟨.inr hlt, hg⟩
        · rintro ⟨rfl | hlt, hg⟩
          · exact .inl rfl
          · exact .inr ⟨hlt, hg⟩
    next hpresence =>
      refine ⟨visited, hvisits, hnodup, fun i => ?_⟩
      rw [hmem, hbehind]
      constructor
      · rintro ⟨hlt, hg⟩
        exact ⟨.inr hlt, hg⟩
      · rintro ⟨rfl | hlt, g, hg, hsame⟩
        · obtain rfl := Option.some.inj (hf.symm.trans hg)
          exact absurd hsame hpresence
        · exact ⟨hlt, g, hg, hsame⟩

/-- **The loop over a oneof visits every member once and no other field** if and only if the first field of the
message is not a member: for every table and every field in a oneof. -/
theorem visits_oneof_iff (hf : f.presence < 0) :
    (∃ visited, Visits t (t.getOneof f) visited ∧ visited.Nodup ∧ ∀ i, i ∈ visited ↔ t.InOneof f i) ↔
      ¬t.InOneof f 0 := by
  have hscan : ∃ visited, Visits t (scanOneof f.presence 0 (t.counted.drop 1)) visited ∧ visited.Nodup ∧
      ∀ i, i ∈ visited ↔ 0 < i ∧ t.InOneof f i := visits_scan rfl
  obtain ⟨visited, hvisits, hnodup, hmem⟩ := hscan
  have hstart : t.getOneof f = scanOneof f.presence 0 (t.counted.drop 1) := if_pos hf
  rw [hstart]
  constructor
  · rintro ⟨visited', hvisits', -, hmem'⟩ hfirst
    rw [hvisits'.unique hvisits] at hmem'
    exact absurd ((hmem 0).mp ((hmem' 0).mpr hfirst)).1 (Nat.lt_irrefl _)
  · intro hfirst
    refine ⟨visited, hvisits, hnodup, fun i => ?_⟩
    rw [hmem]
    constructor
    · exact fun h => h.2
    · intro hin
      refine ⟨Nat.pos_of_ne_zero fun hzero => ?_, hin⟩
      exact hfirst (hzero ▸ hin)

/-- An `int32` and a `bool` in a oneof. -/
def boolBehind : MiniTable :=
  ⟨[], [⟨1, 8, 0, noSub, .int32, 66⟩, ⟨2, 1, -5, noSub, .bool, 2⟩], 16, 2, 0, 2, 255, 0⟩

/-- The `bool` is visited. -/
theorem visits_oneof_behind : ∃ visited, Visits boolBehind (boolBehind.getOneof ⟨2, 1, -5, noSub, .bool, 2⟩) visited ∧
    visited.Nodup ∧ ∀ i, i ∈ visited ↔ boolBehind.InOneof ⟨2, 1, -5, noSub, .bool, 2⟩ i := by
  have hneg : (⟨2, 1, -5, noSub, .bool, 2⟩ : MiniTableField).presence < 0 := by decide
  refine (visits_oneof_iff hneg).mpr ?_
  rintro ⟨g, hg, hsame⟩
  cases hg
  exact absurd hsame (by decide)

open MtDecoder in
/-- Two `bool`s in a oneof: the first one is not visited. -/
theorem not_visits_oneof : ∃ (t : MiniTable) (f : MiniTableField), build .bits64
      [36, 47, 47, 40, 78, 94, 33, 124, 35] = .ok t ∧ t.counted[0]? = some f ∧ f.presence < 0 ∧
        ¬∃ visited, Visits t (t.getOneof f) visited ∧ visited.Nodup ∧ ∀ i, i ∈ visited ↔ t.InOneof f i := by
  have hp : parseMessage .bits64 [47, 47, 40, 78, 94, 33, 124, 35] = .ok boolOneof := by decide
  have ht : build .bits64 [36, 47, 47, 40, 78, 94, 33, 124, 35] = boolOneof.messageTable :=
    build_message (fun v hv => (Option.some.inj hv).symm) hp
  rw [messageTable, boolOneof_layout] at ht
  refine ⟨_, ⟨1, 1, -5, noSub, .bool, 2⟩, ht, rfl, by decide, ?_⟩
  rintro ⟨visited, hvisits, -, hmem⟩
  have hfirst := (hmem 0).mpr ⟨_, rfl, rfl⟩
  cases hvisits with
  | next h =>
    cases h
    exact absurd hfirst (by decide)

end

end MiniTable

end Hpb
