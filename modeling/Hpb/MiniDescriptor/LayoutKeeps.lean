import Hpb.MiniDescriptor.Parsed

/-!
# What the layout of a message keeps

The passes of the layout write `offset` and `presence`. What does not depend on these two is in every field after the
layout what it was before.
-/

namespace Hpb

/-- What is read of a field depends neither on its offset nor on its presence. -/
def LayoutKeeps {α : Type} (g : MiniTableField → α) : Prop :=
  ∀ (f : MiniTableField) (offset : Nat) (presence : Int), g { f with offset, presence } = g f

namespace MtDecoder

/-- A write that keeps what is read of a field. -/
theorem map_set_eq {α β : Type} {g : α → β} {l : List α} {i : Nat} {x y : α} (hx : l[i]? = some x)
    (h : g y = g x) : (l.set i y).map g = l.map g := by
  obtain ⟨hi, rfl⟩ := List.getElem?_eq_some_iff.mp hx
  have hi' : i < (l.map g).length := by simpa using hi
  rw [List.map_set, h, show g l[i] = (l.map g)[i] from (List.getElem_map g).symm, List.set_getElem_self]

section

variable {d : MtDecoder} {α : Type} {g : MiniTableField → α} (hg : LayoutKeeps g)

include hg

theorem assignRequired_map (last : Nat) (fs : List MiniTableField) :
    (assignRequired last fs).1.map g = fs.map g := by
  induction fs generalizing last with
  | nil => rfl
  | cons f fs ih =>
    have hpresence : ∀ presence, g { f with presence } = g f := hg f f.offset
    rw [assignRequired]
    split_ifs <;> simp [ih, hpresence]

theorem assignOptional_map (last : Nat) (fs : List MiniTableField) :
    (assignOptional last fs).1.map g = fs.map g := by
  induction fs generalizing last with
  | nil => rfl
  | cons f fs ih =>
    have hpresence : ∀ presence, g { f with presence } = g f := hg f f.offset
    rw [assignOptional]
    split_ifs <;> simp [ih, hpresence]

theorem assignHasbits_map {fields : List MiniTableField} {requiredCount size : Nat}
    (h : d.assignHasbits = .ok (fields, requiredCount, size)) : fields.map g = d.fields.map g := by
  unfold assignHasbits at h
  dsimp only at h
  split at h
  · cases h
  · cases h
    rw [List.map_append, assignOptional_map hg, assignRequired_map hg, ← List.map_append, List.take_append_drop]

omit hg in
theorem walkOneof_map {write : MiniTableField → MiniTableField} (hw : ∀ f, g (write f) = g f) (fuel i : Nat)
    (fields : List MiniTableField) : (walkOneof write fuel i fields).map g = fields.map g := by
  induction fuel generalizing i fields with
  | zero => rfl
  | succ fuel ih =>
    rw [walkOneof]
    split
    next => rfl
    next f hf =>
      have hset : (fields.set i (write f)).map g = fields.map g := map_set_eq hf (hw f)
      split_ifs
      · exact hset
      · rw [ih, hset]

theorem assignCase_map (fields : List MiniTableField) (item : LayoutItem) :
    (assignCase fields item).map g = fields.map g := by
  unfold assignCase
  split
  · exact walkOneof_map (fun f => hg f f.offset _) _ _ _
  · rfl

theorem assignOffset_map (fields : List MiniTableField) (item : LayoutItem) :
    (assignOffset fields item).map g = fields.map g := by
  unfold assignOffset
  split
  · exact walkOneof_map (fun f => hg f _ f.presence) _ _ _
  · split
    next f hf => exact map_set_eq hf (hg f _ f.presence)
    next => rfl
  · rfl

omit hg in
theorem foldl_map {step : List MiniTableField → LayoutItem → List MiniTableField}
    (hstep : ∀ fs it, (step fs it).map g = fs.map g) (items : List LayoutItem) (fields : List MiniTableField) :
    (items.foldl step fields).map g = fields.map g := by
  induction items generalizing fields with
  | nil => rfl
  | cons it items ih => rw [List.foldl_cons, ih, hstep]

theorem assignOffsets_map {p : Platform} {size size' : Nat} {items : List LayoutItem}
    {fields fields' : List MiniTableField} (h : assignOffsets p size items fields = .ok (fields', size')) :
    fields'.map g = fields.map g := by
  obtain ⟨⟨items', size'⟩, -, h⟩ := Except.bind_eq_ok.mp h
  cases h
  rw [foldl_map (assignOffset_map hg), foldl_map (assignCase_map hg)]

/-- **The layout keeps** what depends neither on offsets nor on presences. -/
theorem layout_map {fields : List MiniTableField} {requiredCount size : Nat}
    (h : d.layout = .ok (fields, requiredCount, size)) : fields.map g = d.allocateSubs.fields.map g := by
  obtain ⟨⟨fs, required, bytes⟩, hh, h⟩ := Except.bind_eq_ok.mp h
  obtain ⟨⟨fs', size'⟩, ho, h⟩ := Except.bind_eq_ok.mp h
  cases h
  rw [assignOffsets_map hg ho, assignHasbits_map hg hh]

end

end MtDecoder

end Hpb
