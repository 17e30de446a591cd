import Mathlib.Tactic.Common
import Mathlib.Tactic.Linarith

/-!
# Texts that are written from their end

The pieces of a text are written one in front of the other. A block is opened, its pieces are written, and when it is
closed its length is put in front of it; the writer finds that length as the difference of two positions, each the
number of cells that are written already.

* `Piece.textOf`: the text of some pieces,
* `Draft`: a text of which some blocks are open; `Draft.marks` are the positions where they were opened,
* `Draft.Has.text`: a closed block is in the text, with its length in front,
* `Draft.length_sub_mark`: the difference of the positions is the length of the innermost block.
-/

/-- A piece of a text. -/
inductive Piece (α : Type) where
  | cells (data : List α)
  /-- A block with its length in front; the piece that was written last comes first. -/
  | block (body : List (Piece α))

namespace Piece

variable {α : Type} (len : Nat → List α)

mutual

/-- The text of a piece; `len` writes a length. -/
def text : Piece α → List α
  | cells data => data
  | block body => len (textOf body).length ++ textOf body

/-- The text of some pieces, the last one that was written first. -/
def textOf : List (Piece α) → List α
  | [] => []
  | p :: ps => text p ++ textOf ps

end

theorem textOf_nil : textOf len [] = [] := rfl

theorem textOf_cons (p : Piece α) (ps : List (Piece α)) : textOf len (p :: ps) = p.text len ++ textOf len ps := rfl

theorem textOf_append (ps qs : List (Piece α)) : textOf len (ps ++ qs) = textOf len ps ++ textOf len qs := by
  induction ps with
  | nil => rfl
  | cons p ps ih => rw [List.cons_append, textOf_cons, ih, textOf_cons, List.append_assoc]

/-- A block is among some pieces, at any depth. -/
inductive Within (body : List (Piece α)) : List (Piece α) → Prop
  | here {ps : List (Piece α)} : block body ∈ ps → Within body ps
  | inside {outer ps : List (Piece α)} : block outer ∈ ps → Within body outer → Within body ps

theorem text_cells (data : List α) : (cells data).text len = data := rfl

theorem text_block (body : List (Piece α)) : (block body).text len = len (textOf len body).length ++ textOf len body := rfl

/-- A piece in the text of several. -/
theorem text_of_mem {p : Piece α} {ps : List (Piece α)} (h : p ∈ ps) :
    ∃ before after, textOf len ps = before ++ p.text len ++ after := by
  obtain ⟨qs, rs, rfl⟩ := List.append_of_mem h
  exact ⟨textOf len qs, textOf len rs, by rw [textOf_append, textOf_cons, List.append_assoc]⟩

/-- **A block in the text**: directly in front of its cells is their number. -/
theorem Within.text {body ps : List (Piece α)} (h : Within body ps) :
    ∃ before after, textOf len ps = before ++ (len (textOf len body).length ++ textOf len body) ++ after := by
  induction h with
  | here hmem => exact text_of_mem len hmem
  | @inside outer _ hmem _ ih =>
    obtain ⟨before, after, houter⟩ := text_of_mem len hmem
    obtain ⟨before', after', hbody⟩ := ih
    rw [text_block] at houter
    generalize len (textOf len outer).length = front at houter
    refine ⟨before ++ front ++ before', after' ++ after, houter.trans ?_⟩
    rw [hbody]
    simp only [List.append_assoc]

end Piece

/-- A text of which some blocks are open. -/
structure Draft (α : Type) where
  /-- The pieces of the innermost block. -/
  current : List (Piece α)
  /-- What was there when the open blocks were opened, around the innermost one first. -/
  outer : List (List (Piece α))

namespace Draft

variable {α : Type} (len : Nat → List α)

/-- Nothing is written and no block is open. -/
def empty : Draft α := ⟨[], []⟩

/-- Some cells are written. -/
def put (d : Draft α) (data : List α) : Draft α := { d with current := .cells data :: d.current }

/-- A block is opened. -/
def openBlock (d : Draft α) : Draft α := ⟨[], d.current :: d.outer⟩

/-- The innermost block is closed; without one, the whole text is. -/
def closeBlock (d : Draft α) : Draft α := ⟨.block d.current :: d.outer.headD [], d.outer.tail⟩

/-- The text behind the innermost block. -/
def behind (outer : List (List (Piece α))) : List α := (outer.map (Piece.textOf len)).flatten

/-- The text that is written. -/
def text (d : Draft α) : List α := Piece.textOf len d.current ++ behind len d.outer

/-- A block that is closed is in the text. -/
def Has (d : Draft α) (body : List (Piece α)) : Prop := ∃ ps ∈ d.current :: d.outer, Piece.Within body ps

/-- Where some blocks were opened. -/
def marksOf : List (List (Piece α)) → List Nat
  | [] => []
  | o :: os => (behind len (o :: os)).length :: marksOf os

/-- Where the open blocks were opened, the innermost first. -/
def marks (d : Draft α) : List Nat := marksOf len d.outer

variable {len}

theorem text_empty : (empty : Draft α).text len = [] := rfl

theorem text_put (d : Draft α) (data : List α) : (d.put data).text len = data ++ d.text len := List.append_assoc ..

theorem marks_put (d : Draft α) (data : List α) : (d.put data).marks len = d.marks len := rfl

theorem text_openBlock (d : Draft α) : d.openBlock.text len = d.text len := rfl

theorem marks_openBlock (d : Draft α) : d.openBlock.marks len = (d.text len).length :: d.marks len := rfl

/-- **A closed block** has the number of its cells in front. -/
theorem text_closeBlock (d : Draft α) :
    d.closeBlock.text len = len (Piece.textOf len d.current).length ++ d.text len := by
  obtain ⟨current, outer⟩ := d
  cases outer with
  | nil =>
    change len _ ++ Piece.textOf len current ++ [] ++ [] = _ ++ (Piece.textOf len current ++ [])
    rw [List.append_nil, List.append_nil, List.append_nil]
  | cons o os =>
    change len _ ++ Piece.textOf len current ++ Piece.textOf len o ++ _ = _ ++ (_ ++ (Piece.textOf len o ++ _))
    simp only [List.append_assoc]
    rfl

theorem marks_closeBlock (d : Draft α) : d.closeBlock.marks len = (d.marks len).tail := by
  obtain ⟨current, _ | ⟨o, os⟩⟩ := d
  · rfl
  · rfl

/-- **The difference of the positions** before and after a block is its length. -/
theorem length_sub_mark (d : Draft α) :
    (d.text len).length - (d.marks len).headD 0 = (Piece.textOf len d.current).length := by
  obtain ⟨current, _ | ⟨o, os⟩⟩ := d
  · rw [text, List.length_append]
    exact Nat.add_sub_cancel ..
  · rw [text, List.length_append]
    exact Nat.add_sub_cancel ..

theorem Has.text (len : Nat → List α) {d : Draft α} {body : List (Piece α)} (h : d.Has body) : ∃ before after,
    d.text len = before ++ (len (Piece.textOf len body).length ++ Piece.textOf len body) ++ after := by
  obtain ⟨ps, hmem, hwithin⟩ := h
  obtain ⟨before, after, hps⟩ := hwithin.text len
  have hall : d.text len = ((d.current :: d.outer).map (Piece.textOf len)).flatten := rfl
  obtain ⟨qs, rs, hsplit⟩ := List.append_of_mem hmem
  refine ⟨(qs.map (Piece.textOf len)).flatten ++ before, after ++ (rs.map (Piece.textOf len)).flatten, ?_⟩
  rw [hall, hsplit, List.map_append, List.flatten_append, List.map_cons, List.flatten_cons, hps]
  simp only [List.append_assoc]

theorem mark_le (d : Draft α) : (d.marks len).headD 0 ≤ (d.text len).length := by
  obtain ⟨current, _ | ⟨o, os⟩⟩ := d
  · exact Nat.zero_le _
  · rw [text, List.length_append]
    exact Nat.le_add_left ..

end Draft
