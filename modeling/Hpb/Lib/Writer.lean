import Hpb.Lib.Block

/-!
# Writers with a fixed buffer

A `FixedWriter` has a buffer of fixed size and counts what does not fit. Text is appended either cell by cell (`put`)
or as `snprintf` does (`print`), which ends what it writes with a zero cell and so leaves out the last cell when there
is just enough room for it.

* `Follows`: the writer holds a text as far as its buffer goes, but for the last cell,
* `Follows.put`, `Follows.print`: what is written is appended to the text,
* `Follows.restore`: the position and the count of an earlier state give back its text,
* `Follows.finish`: the length that is returned, and what is in the buffer at the end.
-/

/-- A buffer, the place of its next cell, and the number of cells that did not fit. -/
structure FixedWriter (α : Type) where
  buf : List α
  pos : Nat
  overflow : Nat
  deriving DecidableEq

namespace FixedWriter

variable {α : Type}

/-- An empty writer with a buffer. -/
def new (buf : List α) : FixedWriter α := ⟨buf, 0, 0⟩

/-- The room that is left. -/
def room (w : FixedWriter α) : Nat := w.buf.length - w.pos

/-- Append cells, as far as they fit. -/
def put (w : FixedWriter α) (data : List α) : FixedWriter α :=
  if data.length ≤ w.room then { w with buf := overwrite w.buf w.pos data, pos := w.pos + data.length }
  else
    ⟨overwrite w.buf w.pos (data.take w.room), w.pos + w.room, w.overflow + (data.length - w.room)⟩

/-- The buffer after `snprintf`. -/
def printed (zero : α) (w : FixedWriter α) (data : List α) : List α :=
  if w.room = 0 then w.buf else overwrite w.buf w.pos (data.take (w.room - 1) ++ [zero])

/-- Append cells with `snprintf`. -/
def print (zero : α) (w : FixedWriter α) (data : List α) : FixedWriter α :=
  if data.length < w.room then ⟨w.printed zero data, w.pos + data.length, w.overflow⟩
  else ⟨w.printed zero data, w.pos + w.room, w.overflow + (data.length - w.room)⟩

/-- The place and the count of another state. -/
def restore (w start : FixedWriter α) : FixedWriter α := { w with pos := start.pos, overflow := start.overflow }

/-- The length of the text, and the buffer with a zero cell at its end. -/
def finish (zero : α) (w : FixedWriter α) : Nat × List α :=
  (w.pos + w.overflow,
    if w.buf.length = 0 then w.buf
    else w.buf.set (if w.pos = w.buf.length then w.pos - 1 else w.pos) zero)

/-- The writer holds a text. -/
structure Follows (w : FixedWriter α) (text : List α) : Prop where
  pos : w.pos = min text.length w.buf.length
  total : w.pos + w.overflow = text.length
  cells : w.buf.take (min text.length (w.buf.length - 1)) = text.take (w.buf.length - 1)

variable {w w' : FixedWriter α} {text data : List α} {zero : α}

theorem follows_new (buf : List α) : Follows (new buf) [] := ⟨by simp [new], rfl, by simp⟩

theorem length_put (w : FixedWriter α) (data : List α) (hpos : w.pos ≤ w.buf.length) :
    (w.put data).buf.length = w.buf.length := by
  unfold put
  split
  next h =>
    unfold room at h
    exact length_overwrite (by omega)
  next h =>
    unfold room at h ⊢
    exact length_overwrite (by rw [List.length_take]; omega)

theorem length_printed (w : FixedWriter α) (data : List α) (hpos : w.pos ≤ w.buf.length) :
    (w.printed zero data).length = w.buf.length := by
  unfold printed
  split
  next => rfl
  next h =>
    unfold room at h ⊢
    exact length_overwrite (by rw [List.length_append, List.length_take, List.length_singleton]; omega)

theorem length_print (w : FixedWriter α) (data : List α) (hpos : w.pos ≤ w.buf.length) :
    (w.print zero data).buf.length = w.buf.length := by
  unfold print
  split <;> exact length_printed w data hpos

theorem Follows.pos_le (h : Follows w text) : w.pos ≤ w.buf.length := by
  have := h.pos
  omega

/-- The buffer of a writer whose text leaves room. -/
theorem Follows.take_buf (h : Follows w text) (hroom : 0 < w.room) :
    w.pos = text.length ∧ w.buf.take w.pos = text := by
  have hpos := h.pos
  unfold room at hroom
  have hlen : w.pos = text.length := by omega
  have hcells := h.cells
  rw [Nat.min_eq_left (by omega), List.take_of_length_le (i := w.buf.length - 1) (by omega), ← hlen] at hcells
  exact ⟨hlen, hcells⟩

/-- Cells behind the text, which are written as far as there is room for all but the last one. -/
theorem Follows.append {cells : List α} {n : Nat} (h : Follows w text)
    (hcells : cells.take (min data.length (w.room - 1)) = data.take (w.room - 1)) (hfit : cells.length ≤ w.room)
    (hn : n = min text.length w.buf.length + min data.length w.room) :
    Follows ⟨overwrite w.buf w.pos cells, n, w.overflow + (data.length - w.room)⟩ (text ++ data) := by
  have hpos := h.pos
  have htotal := h.total
  have hlen : (overwrite w.buf w.pos cells).length = w.buf.length :=
    length_overwrite (by unfold room at hfit; omega)
  refine ⟨?_, ?_, ?_⟩
  · dsimp only
    unfold room at hn
    rw [hlen, List.length_append]
    omega
  · dsimp only
    unfold room at hn ⊢
    rw [List.length_append]
    omega
  · dsimp only
    rw [hlen, List.length_append]
    rcases Nat.eq_zero_or_pos w.room with hfull | hroom
    · have hnil : cells = [] := List.eq_nil_of_length_eq_zero (by omega)
      unfold room at hfull
      have hsame : overwrite w.buf w.pos cells = w.buf := by
        rw [hnil, overwrite, List.append_nil, List.length_nil, Nat.add_zero, List.take_append_drop]
      have hold := h.cells
      rw [Nat.min_eq_right (by omega)] at hold
      rw [hsame, Nat.min_eq_right (by omega), hold, List.take_append_of_le_length (by omega)]
    · obtain ⟨hend, hbuf⟩ := h.take_buf hroom
      have hwritten := congrArg List.length hcells
      rw [List.length_take, List.length_take] at hwritten
      have hrest : w.buf.length - 1 - text.length = w.room - 1 := by
        unfold room
        omega
      have hshort : min (text.length + data.length) (w.buf.length - 1) - text.length =
          min data.length (w.room - 1) := by
        unfold room at hroom ⊢
        omega
      have hbound : text.length ≤ w.buf.length - 1 := by
        unfold room at hroom
        omega
      rw [overwrite, hbuf, List.append_assoc, List.take_append, List.take_of_length_le (by omega), hshort,
        List.take_append_of_le_length (by omega), hcells, List.take_append, List.take_of_length_le hbound, hrest]

theorem take_min_length (l : List α) (n : Nat) : l.take (min l.length n) = l.take n := by
  rw [Nat.min_comm, ← List.take_take, List.take_length]

theorem Follows.put (h : Follows w text) (data : List α) : Follows (w.put data) (text ++ data) := by
  have hpos := h.pos
  unfold FixedWriter.put
  split
  next hfit =>
    have happ := h.append (take_min_length data _) hfit rfl
    rwa [Nat.min_eq_left hfit, ← hpos, Nat.sub_eq_zero_of_le hfit] at happ
  next hfit =>
    have hcells : (data.take w.room).take (min data.length (w.room - 1)) = data.take (w.room - 1) := by
      rw [List.take_take, Nat.min_eq_left (by omega), take_min_length]
    have happ := h.append hcells (by rw [List.length_take]; omega) rfl
    rwa [Nat.min_eq_right (a := data.length) (by omega), ← hpos] at happ

theorem Follows.printed (h : Follows w text) (zero : α) (data : List α) :
    Follows ⟨w.printed zero data, w.pos + min data.length w.room, w.overflow + (data.length - w.room)⟩
      (text ++ data) := by
  have hpos := h.pos
  unfold FixedWriter.printed
  split
  next hfull =>
    have hcells : ([] : List α).take (min data.length (w.room - 1)) = data.take (w.room - 1) := by
      rw [hfull, Nat.min_eq_right (by omega)]
      rfl
    have happ := h.append hcells (Nat.zero_le _) rfl
    have hsame : overwrite w.buf w.pos [] = w.buf := by
      rw [overwrite, List.append_nil, List.length_nil, Nat.add_zero, List.take_append_drop]
    rwa [hsame, ← hpos] at happ
  next hroom =>
    refine h.append ?_ ?_ (by rw [hpos])
    · rw [List.take_append_of_le_length (by rw [List.length_take]; omega), List.take_take,
        show min (min data.length (w.room - 1)) (w.room - 1) = min data.length (w.room - 1) by omega,
        take_min_length]
    · rw [List.length_append, List.length_take, List.length_singleton]
      omega

theorem Follows.print (h : Follows w text) (zero : α) (data : List α) :
    Follows (w.print zero data) (text ++ data) := by
  have hprinted := h.printed zero data
  unfold FixedWriter.print
  split
  next hfit => rwa [Nat.min_eq_left (by omega), Nat.sub_eq_zero_of_le (by omega)] at hprinted
  next hfit => rwa [Nat.min_eq_right (by omega)] at hprinted

theorem Follows.restore {start : FixedWriter α} (h : Follows w (text ++ data)) (hs : Follows start text)
    (hlen : w.buf.length = start.buf.length) : Follows (w.restore start) text := by
  refine ⟨?_, hs.total, ?_⟩
  · show start.pos = _
    rw [hs.pos, ← hlen]
    rfl
  · show w.buf.take _ = _
    have hcells := congrArg (List.take text.length) h.cells
    rw [List.take_take, List.length_append, List.take_take] at hcells
    show w.buf.take (min text.length (w.buf.length - 1)) = _
    rw [show min text.length (w.buf.length - 1) =
        min text.length (min (text.length + data.length) (w.buf.length - 1)) by omega, hcells,
      List.take_append_of_le_length (by omega), take_min_length]
    rfl

/-- **The end of a writer**: the length of the text, and in a buffer of some length the start of the text, as
far as there is room before a zero cell, and the zero cell. -/
theorem Follows.finish (h : Follows w text) (zero : α) :
    (w.finish zero).1 = text.length ∧
      (0 < w.buf.length →
        (w.finish zero).2.take (min text.length (w.buf.length - 1) + 1) =
          text.take (w.buf.length - 1) ++ [zero]) := by
  refine ⟨h.total, fun hsome ↦ ?_⟩
  have hpos := h.pos
  have hplace : (if w.pos = w.buf.length then w.pos - 1 else w.pos) = min text.length (w.buf.length - 1) := by
    split <;> omega
  show (if w.buf.length = 0 then w.buf else _).take _ = _
  rw [if_neg (by omega), hplace, ← h.cells, List.take_add_one, List.take_set_of_le (Nat.le_refl _)]
  congr 1
  rw [List.getElem?_set_self (by omega)]
  rfl

end FixedWriter
