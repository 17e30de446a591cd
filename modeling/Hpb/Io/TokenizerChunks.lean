import Hpb.Io.TokenizerCursor

/-!
# The tokenizer does not see how its input is cut

The tokenizer over a buffer does what it does over the cursor (`Tracks`, `Tracks.step`), however the input is cut, but for the texts of tokens: the
position where a text starts is kept in an `int`, so a text that starts `2 ^ 31` bytes or more after the
start of a buffer is not the one that was read.

`tokenize_chunks_iff` says for which inputs the tokens are the same for every way of cutting them.
-/

namespace Hpb

/-- The part of the text that is still in the buffer. -/
def TokenBuffer.pending (b : TokenBuffer) : List UInt8 :=
  if b.recording then (b.buffer.take b.bufferPos).drop b.recordStart.toNat else []

/-- A position that an `int` can hold. -/
def FitsInt (n : Nat) : Prop := n < 2 ^ 31

/-- A buffer and a cursor at the same place of an input of `size` bytes, which comes in `short` buffers or in
any ones. -/
structure Tracks (short : Bool) (size : Nat) (b : TokenBuffer) (f : Cursor) : Prop where
  rest : b.buffer.drop b.bufferPos ++ b.input.flatten = f.rest
  currentChar : b.currentChar = f.currentChar
  readError : b.readError = f.rest.isEmpty
  inBuffer : b.readError = false → b.bufferPos < b.buffer.length
  buffer_eq : b.readError = true → b.buffer = []
  chunks : ∀ c ∈ b.input, c ≠ []
  line : b.line = f.line
  column : b.column = f.column
  recording : b.recording = f.recording
  pos_add : f.pos + f.rest.length = size
  bufferPos_le : b.readError = false → b.bufferPos ≤ f.pos
  short_le : short = true → b.buffer.length ≤ 2 ^ 31 ∧ ∀ c ∈ b.input, c.length ≤ 2 ^ 31
  /-- The text is the one that was read, if its start fits an `int`. -/
  text : short = true ∨ FitsInt f.start → b.text ++ b.pending = f.text ∧
    (b.recording = true → b.readError = false → 0 ≤ b.recordStart ∧ b.recordStart ≤ b.bufferPos)
  recordStart_lt : b.recordStart < 2 ^ 31
  recordStart_eq : b.recording = false → b.recordStart = -1

namespace Tracks

section Step

variable {short : Bool} {size : Nat} {b : TokenBuffer} {f : Cursor}

theorem rest_cons (h : Tracks short size b f) (hread : b.readError = false) :
    ∃ tail, b.buffer.drop b.bufferPos = f.currentChar :: tail ∧ b.buffer.drop (b.bufferPos + 1) = tail ∧
      f.rest = f.currentChar :: (tail ++ b.input.flatten) := by
  have hlt := h.inBuffer hread
  have hdrop := List.drop_eq_getElem_cons hlt
  have hrest := h.rest
  rw [hdrop] at hrest
  have hcur : f.currentChar = b.buffer[b.bufferPos] := by
    rw [Cursor.currentChar, ← hrest]
    rfl
  rw [hcur]
  exact ⟨_, hdrop, rfl, hrest.symm⟩

/-- The text after one more character of the buffer. -/
theorem take_succ_drop (h : Tracks short size b f) (hread : b.readError = false) {k : Nat} (hk : k ≤ b.bufferPos) :
    (b.buffer.take (b.bufferPos + 1)).drop k = (b.buffer.take b.bufferPos).drop k ++ [f.currentChar] := by
  obtain ⟨tail, hdrop, -, -⟩ := h.rest_cons hread
  have hlt := h.inBuffer hread
  have hget : b.buffer[b.bufferPos]? = some f.currentChar := by
    have := congrArg List.head? hdrop
    rwa [List.head?_drop] at this
  rw [List.take_add_one, hget, Option.toList_some, List.drop_append_of_le_length]
  rw [List.length_take]
  omega

theorem nextChar_end (h : Tracks short size b f) (hread : b.readError = true) : Tracks short size b.nextChar f.nextChar := by
  have hrest : f.rest = [] := List.isEmpty_iff.mp (h.readError.symm.trans hread)
  have hbuffer := h.buffer_eq hread
  have hnext : b.nextChar = { b with
      line := (advance b.currentChar b.line b.column).1, column := (advance b.currentChar b.line b.column).2,
      bufferPos := b.bufferPos + 1, currentChar := 0 } := by
    simp only [TokenBuffer.nextChar, hbuffer, List.getElem?_nil, TokenBuffer.refresh, hread, if_true]
  have hcursor : f.nextChar = { f with
      line := (advance b.currentChar b.line b.column).1, column := (advance b.currentChar b.line b.column).2 } := by
    simp only [Cursor.nextChar, hrest, List.tail_nil, List.take_nil, List.length_nil, Nat.add_zero, List.append_nil,
      ite_self, h.currentChar, h.line, h.column]
  rw [hnext, hcursor]
  have hpending : ∀ n, (b.buffer.take n).drop b.recordStart.toNat = [] := by
    intro n
    rw [hbuffer, List.take_nil, List.drop_nil]
  refine { h with
    rest := ?_
    currentChar := ?_
    inBuffer := fun hfalse => Bool.noConfusion (hread.symm.trans hfalse)
    line := rfl
    column := rfl
    bufferPos_le := fun hfalse => Bool.noConfusion (hread.symm.trans hfalse)
    text := fun hstart => ⟨?_, fun _ hfalse => Bool.noConfusion (hread.symm.trans hfalse)⟩ }
  · have := h.rest
    rw [hbuffer, List.drop_nil] at this ⊢
    exact this
  · rw [Cursor.currentChar, hrest]
    rfl
  · have := (h.text hstart).1
    simp only [TokenBuffer.pending, hpending] at this ⊢
    exact this

/-- The cursor after a character of the buffer. -/
theorem nextChar_cursor (h : Tracks short size b f) (hread : b.readError = false) :
    f.nextChar.rest = b.buffer.drop (b.bufferPos + 1) ++ b.input.flatten ∧ f.nextChar.pos = f.pos + 1 ∧
      f.nextChar.text = (if f.recording then f.text ++ [f.currentChar] else f.text) ∧
      f.pos + 1 + f.nextChar.rest.length = size := by
  obtain ⟨tail, -, htail, hrest⟩ := h.rest_cons hread
  have hpos := h.pos_add
  rw [hrest, List.length_cons] at hpos
  have hnext : f.nextChar.rest = tail ++ b.input.flatten := by
    change f.rest.tail = _
    rw [hrest, List.tail_cons]
  refine ⟨by rw [hnext, htail], ?_, ?_, ?_⟩
  · change f.pos + (f.rest.take 1).length = _
    rw [hrest]
    rfl
  · change (if f.recording then f.text ++ f.rest.take 1 else f.text) = _
    rw [hrest]
    rfl
  · rw [hnext]
    omega

theorem nextChar_inside (h : Tracks short size b f) (hread : b.readError = false)
    (hlt : b.bufferPos + 1 < b.buffer.length) : Tracks short size b.nextChar f.nextChar := by
  obtain ⟨hrest, hpos, htext, hsize⟩ := h.nextChar_cursor hread
  have hget : b.buffer[b.bufferPos + 1]? = some b.buffer[b.bufferPos + 1] := List.getElem?_eq_getElem hlt
  have hnext : b.nextChar = { b with
      line := (advance b.currentChar b.line b.column).1, column := (advance b.currentChar b.line b.column).2,
      bufferPos := b.bufferPos + 1, currentChar := b.buffer[b.bufferPos + 1] } := by
    simp only [TokenBuffer.nextChar, hget]
  have hcur : f.nextChar.currentChar = b.buffer[b.bufferPos + 1] := by
    rw [Cursor.currentChar, hrest, List.drop_eq_getElem_cons hlt]
    rfl
  have hline : (f.nextChar.line, f.nextChar.column) = advance b.currentChar b.line b.column := by
    rw [h.currentChar, h.line, h.column]
    rfl
  rw [hnext]
  refine {
    rest := hrest.symm
    currentChar := hcur.symm
    readError := ?_
    inBuffer := fun _ => hlt
    buffer_eq := fun htrue => Bool.noConfusion (hread.symm.trans htrue)
    chunks := h.chunks
    line := (congrArg Prod.fst hline).symm
    column := (congrArg Prod.snd hline).symm
    recording := h.recording
    pos_add := by rw [hpos]; exact hsize
    bufferPos_le := fun _ => by rw [hpos]; exact Nat.succ_le_succ (h.bufferPos_le hread)
    short_le := h.short_le
    text := fun hstart => ?_
    recordStart_lt := h.recordStart_lt
    recordStart_eq := h.recordStart_eq }
  · change b.readError = _
    rw [hread, hrest, List.drop_eq_getElem_cons hlt]
    rfl
  · obtain ⟨heq, hle⟩ := h.text hstart
    refine ⟨?_, fun hrec hfalse => ⟨(hle hrec hfalse).1, ?_⟩⟩
    · rw [htext, ← h.recording, ← heq]
      cases hrec : b.recording with
      | false => simp [TokenBuffer.pending, hrec]
      | true =>
        have := hle hrec hread
        simp only [TokenBuffer.pending, hrec, if_true]
        rw [h.take_succ_drop hread (by omega), List.append_assoc]
    · have := (hle hrec hfalse).2
      change b.recordStart ≤ ((b.bufferPos + 1 : Nat) : Int)
      omega

theorem uintptr_eq {a : Int} (h : 0 ≤ a) (h' : a < 2 ^ 31) : uintptr a = a := by
  rw [uintptr]
  omega

/-- The text that is spilled does not depend on the position. -/
theorem spill_moved (b : TokenBuffer) (l c : Int) (p : Nat) :
    TokenBuffer.spill { b with line := l, column := c, bufferPos := p } =
      { b with
        line := l, column := c, bufferPos := p, text := b.spill.text, recordStart := b.spill.recordStart } := by
  unfold TokenBuffer.spill
  dsimp only
  split <;> rfl

/-- At the end of the buffer, its last character is appended to the text with what was before it. -/
theorem spill_text (h : Tracks short size b f) (hread : b.readError = false) (hlen : b.bufferPos + 1 = b.buffer.length)
    (hstart : short = true ∨ FitsInt f.start) : b.spill.text = f.nextChar.text := by
  obtain ⟨-, -, htext, -⟩ := h.nextChar_cursor hread
  obtain ⟨heq, hle⟩ := h.text hstart
  rw [htext, ← h.recording, ← heq, TokenBuffer.spill]
  cases hrec : b.recording with
  | false => simp [TokenBuffer.pending, hrec]
  | true =>
    obtain ⟨hlo, hhi⟩ := hle hrec hread
    have hu := uintptr_eq hlo h.recordStart_lt
    have htake : b.buffer.drop b.recordStart.toNat = (b.buffer.take (b.bufferPos + 1)).drop b.recordStart.toNat := by
      rw [hlen, List.take_length]
    rw [if_pos ⟨rfl, by omega⟩]
    simp only [TokenBuffer.pending, hrec, if_true]
    rw [htake, h.take_succ_drop hread (by omega), List.append_assoc]

theorem spill_recordStart (h : Tracks short size b f) :
    b.spill.recordStart < 2 ^ 31 ∧ (b.recording = false → b.spill.recordStart = -1) := by
  rw [TokenBuffer.spill]
  split
  next hspill => exact ⟨show (0 : Int) < 2 ^ 31 by decide, fun hrec => Bool.noConfusion (hspill.1.symm.trans hrec)⟩
  next => exact ⟨h.recordStart_lt, h.recordStart_eq⟩

theorem spill_recordStart_of_start (h : Tracks short size b f) (hread : b.readError = false) (hstart : short = true ∨ FitsInt f.start)
    (hrec : b.recording = true) : b.spill.recordStart = 0 := by
  obtain ⟨-, hle⟩ := h.text hstart
  obtain ⟨hlo, hhi⟩ := hle hrec hread
  have hlt := h.inBuffer hread
  have hu := uintptr_eq hlo h.recordStart_lt
  rw [TokenBuffer.spill, if_pos ⟨hrec, by omega⟩]

theorem nextChar_refresh (h : Tracks short size b f) (hread : b.readError = false)
    (hlen : b.bufferPos + 1 = b.buffer.length) : Tracks short size b.nextChar f.nextChar := by
  obtain ⟨hrest, hpos, -, hsize⟩ := h.nextChar_cursor hread
  rw [hlen, List.drop_length, List.nil_append] at hrest
  have hget : b.buffer[b.bufferPos + 1]? = none := List.getElem?_eq_none (Nat.le_of_eq hlen.symm)
  have hline : (f.nextChar.line, f.nextChar.column) = advance b.currentChar b.line b.column := by
    rw [h.currentChar, h.line, h.column]
    rfl
  have hnext : b.nextChar = { b with
      line := f.nextChar.line, column := f.nextChar.column, bufferPos := b.bufferPos + 1, text := b.spill.text,
      recordStart := b.spill.recordStart }.load := by
    unfold TokenBuffer.nextChar
    rw [← hline]
    dsimp only
    rw [hget]
    dsimp only
    rw [TokenBuffer.refresh, if_neg (by rw [hread]; exact Bool.false_ne_true), spill_moved]
  have htext : short = true ∨ FitsInt f.start → b.spill.text ++ [] = f.nextChar.text := fun hstart => by
    rw [List.append_nil]
    exact h.spill_text hread hlen hstart
  have hzero : short = true ∨ FitsInt f.start → b.recording = true → b.spill.recordStart = 0 :=
    h.spill_recordStart_of_start hread
  obtain ⟨hlt, hnone⟩ := h.spill_recordStart
  have hchunks := h.chunks
  rw [hnext, TokenBuffer.load]
  dsimp only
  cases hinput : b.input with
  | nil =>
    rw [hinput, List.flatten_nil] at hrest
    exact {
      rest := hrest.symm
      currentChar := by rw [Cursor.currentChar, hrest]; rfl
      readError := by rw [hrest]; rfl
      inBuffer := nofun
      buffer_eq := fun _ => rfl
      chunks := by simp
      line := rfl
      column := rfl
      recording := h.recording
      pos_add := by rw [hpos]; exact hsize
      bufferPos_le := nofun
      short_le := fun hshort => ⟨Nat.zero_le _, by simp⟩
      text := fun hstart => ⟨by
        rw [← htext hstart]
        simp [TokenBuffer.pending], nofun⟩
      recordStart_lt := hlt
      recordStart_eq := hnone }
  | cons c rest =>
    rw [hinput] at hrest hchunks
    cases c with
    | nil => exact absurd rfl (hchunks [] List.mem_cons_self)
    | cons x xs =>
      exact {
        rest := hrest.symm
        currentChar := by rw [Cursor.currentChar, hrest]; rfl
        readError := by
          rw [hrest]
          exact hread
        inBuffer := fun _ => Nat.succ_pos _
        buffer_eq := fun htrue => Bool.noConfusion (hread.symm.trans htrue)
        chunks := fun c hc => hchunks c (List.mem_cons_of_mem _ hc)
        line := rfl
        column := rfl
        recording := h.recording
        pos_add := by rw [hpos]; exact hsize
        bufferPos_le := fun _ => Nat.zero_le _
        short_le := fun hshort => by
          have hall := (h.short_le hshort).2
          rw [hinput] at hall
          exact ⟨hall _ List.mem_cons_self, fun c hc => hall c (List.mem_cons_of_mem _ hc)⟩
        text := fun hstart => ⟨by
          rw [← htext hstart]
          simp [TokenBuffer.pending], fun hrec _ => by
            have := hzero hstart hrec
            exact ⟨Int.le_of_eq this.symm, Int.le_of_eq this⟩⟩
        recordStart_lt := hlt
        recordStart_eq := hnone }

theorem nextChar (h : Tracks short size b f) : Tracks short size b.nextChar f.nextChar := by
  cases hread : b.readError with
  | true => exact h.nextChar_end hread
  | false =>
    obtain hlt | heq := Nat.lt_or_eq_of_le (Nat.succ_le_of_lt (h.inBuffer hread))
    · exact h.nextChar_inside hread hlt
    · exact h.nextChar_refresh hread heq

theorem toInt32_lt (a : Int) : toInt32 a < 2 ^ 31 := by
  rw [toInt32]
  omega

theorem pending_nil (h : Tracks short size b f) {rs : Int} (hint : b.readError = false → rs = b.bufferPos) :
    (b.buffer.take b.bufferPos).drop rs.toNat = [] := by
  cases hread : b.readError with
  | true => rw [h.buffer_eq hread, List.take_nil, List.drop_nil]
  | false =>
    refine List.drop_eq_nil_of_le ?_
    rw [List.length_take, hint hread]
    exact Nat.min_le_left _ _

/-- A recording that starts at the position, or at another one if that does not fit. -/
theorem startToken_at (h : Tracks short size b f) {rs : Int} (hlt : rs < 2 ^ 31)
    (hint : short = true ∨ FitsInt f.pos → b.readError = false → rs = b.bufferPos) :
    Tracks short size { b with text := [], recording := true, recordStart := rs }
      { f with text := [], recording := true, start := f.pos } := by
  refine { h with
    recording := rfl
    text := fun hstart => ⟨h.pending_nil (hint hstart), fun _ hread => ?_⟩
    recordStart_lt := hlt
    recordStart_eq := nofun }
  have heq := hint hstart hread
  exact ⟨heq ▸ Int.natCast_nonneg _, Int.le_of_eq heq⟩

theorem startToken (h : Tracks short size b f) :
    Tracks short size { b with text := [] }.recordTo { f with text := [], recording := true, start := f.pos } := by
  have hint : short = true ∨ FitsInt f.pos → b.readError = false → toInt32 b.bufferPos = b.bufferPos := by
    intro hstart hread
    have hle := h.bufferPos_le hread
    have hlt := h.inBuffer hread
    obtain hshort | hfits := hstart
    · have := (h.short_le hshort).1
      exact toInt32_eq (by omega) (by omega)
    · unfold FitsInt at hfits
      exact toInt32_eq (by omega) (by omega)
  exact h.startToken_at (toInt32_lt _) hint

/-- What is appended to the text at the end of a token. -/
theorem stopRecording_text (h : Tracks short size b f) (hsize : size < 2 ^ 64) (hstart : short = true ∨ FitsInt f.start) :
    b.stopRecording.text = f.text := by
  obtain ⟨heq, hle⟩ := h.text hstart
  have hpos := h.pos_add
  rw [TokenBuffer.stopRecording]
  cases hread : b.readError with
  | true =>
    have hbuffer := h.buffer_eq hread
    rw [TokenBuffer.pending, hbuffer, List.take_nil, List.drop_nil, ite_self, List.append_nil] at heq
    split
    · rw [← heq, hbuffer, List.take_nil, List.drop_nil]
      exact List.append_nil _
    · exact heq
  | false =>
    have hbp := h.bufferPos_le hread
    cases hrec : b.recording with
    | false =>
      have hrs := h.recordStart_eq hrec
      have hu : uintptr b.recordStart = 2 ^ 64 - 1 := by
        rw [hrs]
        decide
      rw [if_neg (by rw [hu]; omega)]
      rw [TokenBuffer.pending, hrec] at heq
      rw [← heq]
      exact (List.append_nil _).symm
    | true =>
      obtain ⟨hlo, hhi⟩ := hle hrec hread
      rw [TokenBuffer.pending, hrec, if_pos rfl] at heq
      rw [uintptr_eq hlo h.recordStart_lt]
      split
      · exact heq
      · rw [← heq, List.drop_eq_nil_of_le (by rw [List.length_take]; omega), List.append_nil]

theorem endToken (h : Tracks short size b f) (hsize : size < 2 ^ 64) :
    Tracks short size b.stopRecording { f with recording := false } := by
  have hstop : b.stopRecording =
      { b with text := b.stopRecording.text, recording := false, recordStart := -1 } := by
    rw [TokenBuffer.stopRecording]
    split <;> rfl
  rw [hstop]
  refine { h with
    recording := rfl
    text := fun hstart => ⟨?_, nofun⟩
    recordStart_lt := show (-1 : Int) < 2 ^ 31 by decide
    recordStart_eq := fun _ => rfl }
  change b.stopRecording.text ++ [] = f.text
  rw [List.append_nil]
  exact h.stopRecording_text hsize hstart

end Step

/-- **The buffer follows the cursor**, whatever the tokenizer asks for. -/
theorem step {short : Bool} {size : Nat} (hsize : size < 2 ^ 64) (c : TokCall) (b : TokenBuffer) (f : Cursor) (h : Tracks short size b f) :
    (TokenBuffer.serve c b).1 = (Cursor.serve c f).1 ∧
      Tracks short size (TokenBuffer.serve c b).2 (Cursor.serve c f).2 := by
  cases c with
  | currentChar => exact ⟨congrArg Except.ok h.currentChar, h⟩
  | readError => exact ⟨congrArg Except.ok h.readError, h⟩
  | line => exact ⟨congrArg Except.ok h.line, h⟩
  | column => exact ⟨congrArg Except.ok h.column, h⟩
  | nextChar => exact ⟨rfl, h.nextChar⟩
  | backColumn n => exact ⟨rfl, { h with column := congrArg (· - n) h.column }⟩
  | startToken => exact ⟨rfl, h.startToken⟩
  | endToken => exact ⟨rfl, h.endToken hsize⟩

/-- The tokenizer of a stream of chunks, at the start. -/
theorem new {short : Bool} {chunks : List (List UInt8)} (hne : ∀ c ∈ chunks, c ≠ [])
    (hshort : short = true → ∀ c ∈ chunks, c.length ≤ 2 ^ 31) :
    Tracks short chunks.flatten.length (TokenBuffer.new chunks) (Cursor.new chunks.flatten) := by
  have hrecord : (-1 : Int) < 2 ^ 31 := by decide
  cases chunks with
  | nil =>
    exact {
      rest := rfl
      currentChar := rfl
      readError := rfl
      inBuffer := nofun
      buffer_eq := fun _ => rfl
      chunks := nofun
      line := rfl
      column := rfl
      recording := rfl
      pos_add := rfl
      bufferPos_le := nofun
      short_le := fun _ => ⟨Nat.zero_le _, nofun⟩
      text := fun _ => ⟨rfl, nofun⟩
      recordStart_lt := hrecord
      recordStart_eq := fun _ => rfl }
  | cons c rest =>
    cases c with
    | nil => exact absurd rfl (hne [] List.mem_cons_self)
    | cons x xs =>
      exact {
        rest := rfl
        currentChar := rfl
        readError := rfl
        inBuffer := fun _ => Nat.succ_pos _
        buffer_eq := nofun
        chunks := fun c hc => hne c (List.mem_cons_of_mem _ hc)
        line := rfl
        column := rfl
        recording := rfl
        pos_add := Nat.zero_add _
        bufferPos_le := fun _ => Nat.zero_le _
        short_le := fun h => ⟨hshort h _ List.mem_cons_self, fun c hc => hshort h c (List.mem_cons_of_mem _ hc)⟩
        text := fun _ => ⟨rfl, nofun⟩
        recordStart_lt := hrecord
        recordStart_eq := fun _ => rfl }

end Tracks

/-- A buffer that holds the whole input: what is recorded starts at the position as an `int`. -/
structure Whole (b : TokenBuffer) (f : Cursor) : Prop where
  input : b.input = []
  bufferPos : b.readError = false → b.bufferPos = f.pos
  recorded : b.recording = true → b.readError = false →
    b.text = [] ∧ b.recordStart = toInt32 f.start ∧ f.text.length + f.start = f.pos
  /-- The text is not the one that was read if its start does not fit. -/
  ended : b.recording = false ∨ b.readError = true → ¬FitsInt f.start → f.text ≠ [] →
    b.text.length ≠ f.text.length

namespace Whole

section Step

variable {size : Nat} {b : TokenBuffer} {f : Cursor}

/-- The bytes from a start on that does not fit are not as many as the bytes from the start as an `int` on. -/
theorem length_ne {start n : Nat} {rs : Int} (h : ¬FitsInt start) (hrs : rs = toInt32 start) (hlt : start < n) :
    (uintptr rs < n → n - rs.toNat ≠ n - start) ∧ 0 ≠ n - start := by
  unfold FitsInt at h
  rw [toInt32] at hrs
  rw [uintptr]
  refine ⟨fun hu => ?_, by omega⟩
  omega

theorem nextChar_end (h : Whole b f) (hf : Tracks false size b f) (hread : b.readError = true) :
    Whole b.nextChar f.nextChar := by
  have hrest : f.rest = [] := List.isEmpty_iff.mp (hf.readError.symm.trans hread)
  have hbuffer := hf.buffer_eq hread
  have hnext : b.nextChar = { b with
      line := (advance b.currentChar b.line b.column).1, column := (advance b.currentChar b.line b.column).2,
      bufferPos := b.bufferPos + 1, currentChar := 0 } := by
    simp only [TokenBuffer.nextChar, hbuffer, List.getElem?_nil, TokenBuffer.refresh, hread, if_true]
  have htext : f.nextChar.text = f.text := by
    simp only [Cursor.nextChar, hrest, List.take_nil, List.append_nil, ite_self]
  rw [hnext]
  exact {
    input := h.input
    bufferPos := fun hfalse => Bool.noConfusion (hread.symm.trans hfalse)
    recorded := fun _ hfalse => Bool.noConfusion (hread.symm.trans hfalse)
    ended := fun hend hfits hne => by
      rw [htext] at hne ⊢
      exact h.ended hend hfits hne }

theorem nextChar_inside (h : Whole b f) (hf : Tracks false size b f) (hread : b.readError = false)
    (hlt : b.bufferPos + 1 < b.buffer.length) : Whole b.nextChar f.nextChar := by
  obtain ⟨-, hpos, htext, -⟩ := hf.nextChar_cursor hread
  have hnext : b.nextChar = { b with
      line := (advance b.currentChar b.line b.column).1, column := (advance b.currentChar b.line b.column).2,
      bufferPos := b.bufferPos + 1, currentChar := b.buffer[b.bufferPos + 1] } := by
    simp only [TokenBuffer.nextChar, List.getElem?_eq_getElem hlt]
  rw [hnext]
  refine {
    input := h.input
    bufferPos := fun _ => hpos ▸ congrArg (· + 1) (h.bufferPos hread)
    recorded := fun hrec _ => ?_
    ended := fun hend hfits hne => ?_ }
  · obtain ⟨hnil, hstart, hlen⟩ := h.recorded hrec hread
    refine ⟨hnil, hstart, ?_⟩
    rw [htext, hpos, ← hf.recording, show b.recording = true from hrec, if_pos rfl, List.length_append,
      List.length_singleton]
    change f.text.length + 1 + f.start = f.pos + 1
    omega
  · have hrec : b.recording = false := hend.resolve_right fun htrue => Bool.noConfusion (hread.symm.trans htrue)
    rw [htext, ← hf.recording, hrec, if_neg Bool.false_ne_true] at hne ⊢
    exact h.ended (.inl hrec) hfits hne

theorem nextChar_refresh (h : Whole b f) (hf : Tracks false size b f) (hread : b.readError = false)
    (hlen : b.bufferPos + 1 = b.buffer.length) : Whole b.nextChar f.nextChar := by
  obtain ⟨-, hpos, htext, -⟩ := hf.nextChar_cursor hread
  have hnext : b.nextChar.input = [] ∧ b.nextChar.readError = true ∧ b.nextChar.text = b.spill.text := by
    unfold TokenBuffer.nextChar
    dsimp only
    rw [List.getElem?_eq_none (Nat.le_of_eq hlen.symm)]
    dsimp only
    rw [TokenBuffer.refresh, if_neg (by rw [hread]; exact Bool.false_ne_true), Tracks.spill_moved, TokenBuffer.load]
    dsimp only
    rw [h.input]
    exact ⟨rfl, rfl, rfl⟩
  obtain ⟨hinput, hend, hspill⟩ := hnext
  refine {
    input := hinput
    bufferPos := fun hfalse => Bool.noConfusion (hend.symm.trans hfalse)
    recorded := fun _ hfalse => Bool.noConfusion (hend.symm.trans hfalse)
    ended := fun _ hfits hne => ?_ }
  rw [htext, ← hf.recording] at hne
  rw [hspill, htext, ← hf.recording, TokenBuffer.spill]
  cases hrec : b.recording with
  | false =>
    rw [hrec] at hne
    simpa using h.ended (.inl hrec) hfits hne
  | true =>
    obtain ⟨hnil, hstart, hlenf⟩ := h.recorded hrec hread
    have hbp := h.bufferPos hread
    obtain ⟨hne, hzero⟩ := length_ne (n := b.buffer.length) hfits hstart (by change f.start < _; omega)
    have hlong : (f.text ++ [f.currentChar]).length = b.buffer.length - f.start := by
      rw [List.length_append, List.length_singleton]
      omega
    rw [if_pos rfl, hlong]
    split
    next hspill =>
      dsimp only
      rw [hnil, List.nil_append, List.length_drop]
      exact hne hspill.2
    next =>
      rw [hnil]
      exact hzero

theorem nextChar (h : Whole b f) (hf : Tracks false size b f) : Whole b.nextChar f.nextChar := by
  cases hread : b.readError with
  | true => exact h.nextChar_end hf hread
  | false =>
    obtain hlt | heq := Nat.lt_or_eq_of_le (Nat.succ_le_of_lt (hf.inBuffer hread))
    · exact h.nextChar_inside hf hread hlt
    · exact h.nextChar_refresh hf hread heq

theorem startToken_at (h : Whole b f) {rs : Int} (hrs : b.readError = false → rs = toInt32 f.pos) :
    Whole { b with text := [], recording := true, recordStart := rs }
      { f with text := [], recording := true, start := f.pos } where
  input := h.input
  bufferPos := h.bufferPos
  recorded := fun _ hread => ⟨rfl, hrs hread, Nat.zero_add _⟩
  ended := fun _ _ hne => absurd rfl hne

theorem startToken (h : Whole b f) :
    Whole { b with text := [] }.recordTo { f with text := [], recording := true, start := f.pos } :=
  h.startToken_at fun hread => by rw [h.bufferPos hread]

theorem stopRecording_length (h : Whole b f) (hf : Tracks false size b f) (hsize : size < 2 ^ 64)
    (hfits : ¬FitsInt f.start) (hne : f.text ≠ []) : b.stopRecording.text.length ≠ f.text.length := by
  rw [TokenBuffer.stopRecording]
  cases hread : b.readError with
  | true =>
    have hended := h.ended (.inr hread) hfits hne
    have hbuffer := hf.buffer_eq hread
    split
    · dsimp only
      rw [hbuffer, List.take_nil, List.drop_nil, List.append_nil]
      exact hended
    · exact hended
  | false =>
    have hle := hf.bufferPos_le hread
    have hpos := hf.pos_add
    cases hrec : b.recording with
    | false =>
      have hu : uintptr b.recordStart = 2 ^ 64 - 1 := by
        rw [hf.recordStart_eq hrec]
        decide
      rw [if_neg (by rw [hu]; omega)]
      exact h.ended (.inl hrec) hfits hne
    | true =>
      obtain ⟨hnil, hstart, hlenf⟩ := h.recorded hrec hread
      have hbp := h.bufferPos hread
      have hlt := hf.inBuffer hread
      have hlen : 0 < f.text.length := List.length_pos_iff.mpr hne
      obtain ⟨hdiff, hzero⟩ := length_ne (n := b.bufferPos) hfits hstart (by omega)
      have hlong : f.text.length = b.bufferPos - f.start := by omega
      rw [hlong]
      split
      next hu =>
        dsimp only
        rw [hnil, List.nil_append, List.length_drop, List.length_take, Nat.min_eq_left (Nat.le_of_lt hlt)]
        exact hdiff hu
      next =>
        rw [hnil]
        exact hzero

theorem endToken (h : Whole b f) (hf : Tracks false size b f) (hsize : size < 2 ^ 64) :
    Whole b.stopRecording { f with recording := false } := by
  have hstop : b.stopRecording =
      { b with text := b.stopRecording.text, recording := false, recordStart := -1 } := by
    rw [TokenBuffer.stopRecording]
    split <;> rfl
  rw [hstop]
  exact {
    input := h.input
    bufferPos := h.bufferPos
    recorded := nofun
    ended := fun _ hfits hne => h.stopRecording_length hf hsize hfits hne }

end Step

/-- A buffer with the whole input follows the cursor, and its texts are wrong where they start too late. -/
theorem step {size : Nat} (hsize : size < 2 ^ 64) (c : TokCall) (b : TokenBuffer) (f : Cursor)
    (h : Tracks false size b f ∧ Whole b f) :
    (TokenBuffer.serve c b).1 = (Cursor.serve c f).1 ∧
      Tracks false size (TokenBuffer.serve c b).2 (Cursor.serve c f).2 ∧
      Whole (TokenBuffer.serve c b).2 (Cursor.serve c f).2 := by
  obtain ⟨heq, hfollows⟩ := Tracks.step hsize c b f h.1
  refine ⟨heq, hfollows, ?_⟩
  cases c with
  | currentChar => exact h.2
  | readError => exact h.2
  | line => exact h.2
  | column => exact h.2
  | nextChar => exact h.2.nextChar h.1
  | backColumn n => exact { h.2 with }
  | startToken => exact h.2.startToken
  | endToken => exact h.2.endToken h.1 hsize

theorem new {input : List UInt8} (h : input ≠ []) : Whole (TokenBuffer.new [input]) (Cursor.new input) := by
  cases input with
  | nil => exact absurd rfl h
  | cons c cs => exact ⟨rfl, fun _ => rfl, nofun, fun _ _ hne => absurd rfl hne⟩

end Whole

namespace Tokenizer

/-- The tokens with two services that are related by a simulation. -/
theorem tokensFrom_refines {σ τ : Type} {serve : Serve TokCall TokCall.Reply TokFailure σ}
    {serve' : Serve TokCall TokCall.Reply TokFailure τ} {Rel : σ → τ → Prop}
    (step : ∀ c s t, Rel s t → (serve c s).1 = (serve' c t).1 ∧ Rel (serve c s).2 (serve' c t).2)
    (opts : TokenizerOptions) (inner fuel : Nat) (previous : Token) {s : σ} {t : τ} (h : Rel s t) :
    (tokensFrom serve opts inner fuel previous s).2 = (tokensFrom serve' opts inner fuel previous t).2 ∧
      List.Forall₂ (fun x y => x.1 = y.1 ∧ Rel x.2 y.2) (tokensFrom serve opts inner fuel previous s).1
        (tokensFrom serve' opts inner fuel previous t).1 := by
  induction fuel generalizing previous s t with
  | zero => exact ⟨rfl, .nil⟩
  | succ fuel ih =>
    obtain ⟨heq, hrel⟩ := Client.run_refines step (next opts inner previous) h
    unfold tokensFrom
    generalize (next opts inner previous).run serve s = x at heq hrel ⊢
    generalize (next opts inner previous).run serve' t = y at heq hrel ⊢
    obtain ⟨res, s'⟩ := x
    obtain ⟨res', t'⟩ := y
    obtain rfl : res = res' := heq
    obtain _ | ⟨_ | _, token⟩ := res
    · exact ⟨rfl, .nil⟩
    · exact ⟨rfl, .nil⟩
    · obtain ⟨hlast, htokens⟩ := ih token hrel
      exact ⟨hlast, .cons ⟨rfl, hrel⟩ htokens⟩

theorem map_eq_map_of_forall₂ {α β γ : Type} {R : α → β → Prop} {g : α → γ} {g' : β → γ} {l : List α} {l' : List β}
    (h : List.Forall₂ R l l') (hg : ∀ x, ∀ y ∈ l', R x y → g x = g' y) : l.map g = l'.map g' := by
  induction h with
  | nil => rfl
  | @cons x y l l' hxy _ ih =>
    rw [List.map_cons, List.map_cons, hg x y List.mem_cons_self hxy,
      ih fun x y hy => hg x y (List.mem_cons_of_mem _ hy)]

theorem exists_of_forall₂ {α β γ : Type} {R : α → β → Prop} {g : α → γ} {g' : β → γ} {l : List α} {l' : List β}
    (h : List.Forall₂ R l l') (heq : l.map g = l'.map g') : ∀ y ∈ l', ∃ x, R x y ∧ g x = g' y := by
  induction h with
  | nil => exact nofun
  | @cons x y l l' hxy _ ih =>
    obtain ⟨hhead, htail⟩ := List.cons.inj heq
    exact List.forall_mem_cons.mpr ⟨⟨x, hxy, hhead⟩, ih htail⟩

/-- The tokens of an input with their texts, and how the last call ends. -/
def read (opts : TokenizerOptions) (input : List UInt8) : List (Token × List UInt8) × Except TokFailure Token :=
  ((Cursor.tokens opts input).1.map fun (token, f) => (token, token.text f.text), (Cursor.tokens opts input).2)

/-- Every token whose text is recorded starts at a position that an `int` can hold. -/
def TextsFit (opts : TokenizerOptions) (input : List UInt8) : Prop :=
  ∀ x ∈ (Cursor.tokens opts input).1, x.1.assigned = none → FitsInt x.2.start

theorem tokens_spec (opts : TokenizerOptions) (input : List UInt8) :
    (Cursor.tokens opts input).2 ≠ .error .outOfFuel ∧
      ∀ x ∈ (Cursor.tokens opts input).1, x.1.assigned = none → x.2.recording = false ∧ x.2.text ≠ [] :=
  tokensFrom_spec _ _ (Nat.lt_succ_self _) (Nat.lt_succ_self _)

theorem text_of_assigned {token : Token} {text : List UInt8} (h : token.assigned ≠ none) (text' : List UInt8) :
    token.text text = token.text text' := by
  unfold Token.text
  cases hassigned : token.assigned with
  | none => exact absurd hassigned h
  | some t => rfl

/-- Chunks of at most `2 ^ 31` bytes, or texts that start early enough, are read as they are. -/
theorem tokenize_eq_read (opts : TokenizerOptions) {chunks : List (List UInt8)} (hne : ∀ c ∈ chunks, c ≠ [])
    (hsize : chunks.flatten.length < 2 ^ 64)
    (h : (∀ c ∈ chunks, c.length ≤ 2 ^ 31) ∨ TextsFit opts chunks.flatten) :
    tokenize opts chunks = read opts chunks.flatten := by
  obtain ⟨short, hshort, hfits⟩ : ∃ short : Bool, (short = true → ∀ c ∈ chunks, c.length ≤ 2 ^ 31) ∧
      (short = true ∨ TextsFit opts chunks.flatten) :=
    h.elim (fun hle => ⟨true, fun _ => hle, .inl rfl⟩) fun hfits => ⟨false, nofun, .inr hfits⟩
  obtain ⟨hlast, htokens⟩ := tokensFrom_refines (Tracks.step hsize) opts.normalize (chunks.flatten.length + 1)
    (chunks.flatten.length + 1) Token.start (Tracks.new hne hshort)
  refine Prod.ext (map_eq_map_of_forall₂ htokens ?_) hlast
  rintro ⟨token, b⟩ ⟨token', f⟩ hmem ⟨htoken, hfollows⟩
  obtain rfl : token = token' := htoken
  refine Prod.ext rfl ?_
  change token.text b.text = token.text f.text
  by_cases hassigned : token.assigned = none
  · have hrec : f.recording = false := ((tokens_spec opts chunks.flatten).2 _ hmem hassigned).1
    have htext := (hfollows.text (hfits.imp_right fun hfits => hfits _ hmem hassigned)).1
    rw [TokenBuffer.pending, hfollows.recording, hrec, if_neg Bool.false_ne_true, List.append_nil] at htext
    exact congrArg token.text htext
  · exact text_of_assigned hassigned f.text

/-- A single chunk is read as it is only if the texts start early enough. -/
theorem textsFit_of_tokenize_eq (opts : TokenizerOptions) {input : List UInt8} (hne : input ≠ [])
    (hsize : input.length < 2 ^ 64) (h : tokenize opts [input] = read opts input) : TextsFit opts input := by
  have hflat : [input].flatten = input := List.flatten_singleton
  have hnew : Tracks false input.length (TokenBuffer.new [input]) (Cursor.new input) := by
    have htracks : Tracks false [input].flatten.length (TokenBuffer.new [input]) (Cursor.new [input].flatten) :=
      Tracks.new (by simpa using hne) nofun
    rwa [hflat] at htracks
  obtain ⟨-, htokens⟩ := tokensFrom_refines (Whole.step hsize) opts.normalize (input.length + 1)
    (input.length + 1) Token.start ⟨hnew, Whole.new hne⟩
  have hmap := congrArg Prod.fst h
  rw [tokenize, hflat] at hmap
  intro y hy hassigned
  obtain ⟨x, ⟨htoken, hfollows, hwhole⟩, heq⟩ := exists_of_forall₂ htokens hmap y hy
  obtain ⟨hrec, htext⟩ := (tokens_spec opts input).2 y hy hassigned
  by_contra hfits
  refine hwhole.ended (.inl (hfollows.recording.trans hrec)) hfits htext ?_
  have := congrArg Prod.snd heq
  simp only [Token.text, htoken, hassigned, Option.getD_none] at this
  rw [this]

/-- An empty chunk ends the stream, as no chunk does. -/
theorem tokenize_whole (opts : TokenizerOptions) (input : List UInt8) :
    input = [] ∧ tokenize opts [input] = tokenize opts [] ∨ input ≠ [] := by
  cases input with
  | nil => exact .inl ⟨rfl, rfl⟩
  | cons c cs => exact .inr nofun

theorem tokenize_ends (opts : TokenizerOptions) {chunks : List (List UInt8)} (hne : ∀ c ∈ chunks, c ≠ [])
    (hsize : chunks.flatten.length < 2 ^ 64) : (tokenize opts chunks).2 ≠ .error .outOfFuel := by
  obtain ⟨hlast, -⟩ := tokensFrom_refines (Tracks.step hsize) opts.normalize (chunks.flatten.length + 1)
    (chunks.flatten.length + 1) Token.start (Tracks.new hne nofun : Tracks false chunks.flatten.length _ _)
  intro hfuel
  exact (tokens_spec opts chunks.flatten).1 (hlast.symm.trans hfuel)

/-- The chunks of one byte each. -/
def bytewise (input : List UInt8) : List (List UInt8) := input.map fun c => [c]

theorem bytewise_spec (input : List UInt8) :
    (∀ c ∈ bytewise input, c ≠ []) ∧ (∀ c ∈ bytewise input, c.length ≤ 2 ^ 31) ∧ (bytewise input).flatten = input := by
  refine ⟨?_, ?_, ?_⟩
  · simp [bytewise]
  · simp [bytewise]
  · induction input with
    | nil => rfl
    | cons c cs ih => exact congrArg (c :: ·) ih

/-- The tokens of an input that is cut at every byte are those of the input as one chunk only if the texts start
early enough. -/
theorem textsFit_of_bytewise (opts : TokenizerOptions) {input : List UInt8} (hsize : input.length < 2 ^ 64)
    (h : tokenize opts (bytewise input) = tokenize opts [input]) : TextsFit opts input := by
  obtain ⟨hne, hle, hflat⟩ := bytewise_spec input
  obtain ⟨rfl, -⟩ | hinput := tokenize_whole opts input
  · have hnone : (Cursor.tokens opts []).1 = [] := rfl
    intro x hx
    rw [hnone] at hx
    cases hx
  · have hread := tokenize_eq_read opts hne (by rw [hflat]; exact hsize) (.inl hle)
    rw [hflat] at hread
    exact textsFit_of_tokenize_eq opts hinput hsize (h.symm.trans hread)

/-- **The tokens do not depend on how the input is cut**, if and only if every token whose text is recorded
starts less than `2 ^ 31` bytes after the start of the input; the tokenizer ends either way. -/
theorem tokenize_chunks_iff (opts : TokenizerOptions) (input : List UInt8) (hsize : input.length < 2 ^ 64) :
    (∀ chunks : List (List UInt8), (∀ c ∈ chunks, c ≠ []) → chunks.flatten = input →
        (tokenize opts chunks).2 ≠ .error .outOfFuel) ∧
      ((∀ chunks : List (List UInt8), (∀ c ∈ chunks, c ≠ []) → chunks.flatten = input →
          tokenize opts chunks = tokenize opts [input]) ↔ TextsFit opts input) := by
  refine ⟨fun chunks hne hflat => tokenize_ends opts hne (by rw [hflat]; exact hsize), fun h => ?_, ?_⟩
  · obtain ⟨hne, -, hflat⟩ := bytewise_spec input
    exact textsFit_of_bytewise opts hsize (h _ hne hflat)
  · rintro hfits chunks hne rfl
    rw [tokenize_eq_read opts hne hsize (.inr hfits)]
    obtain ⟨hnil, hempty⟩ | hinput := tokenize_whole opts chunks.flatten
    · have hread : tokenize opts [] = read opts ([] : List (List UInt8)).flatten :=
        tokenize_eq_read opts nofun (by decide) (.inl nofun)
      rw [hempty, hread, hnil, List.flatten_nil]
    · have hflat : [chunks.flatten].flatten = chunks.flatten := List.flatten_singleton
      have hread : tokenize opts [chunks.flatten] = read opts [chunks.flatten].flatten :=
        tokenize_eq_read opts (by simpa using hinput) (by rw [hflat]; exact hsize) (.inr (by rw [hflat]; exact hfits))
      rw [hread, hflat]

/-- The chunks of a line, one per character. -/
theorem tokenize_chunks_iff_line :
    tokenize ⟨false, false, false, false⟩ [[97, 98], [32, 34], [98, 34, 46, 49]] =
      tokenize ⟨false, false, false, false⟩ [[97, 98, 32, 34, 98, 34, 46, 49]] := by
  refine ((tokenize_chunks_iff _ [97, 98, 32, 34, 98, 34, 46, 49] (by decide)).2.mpr ?_) _ (by decide) rfl
  unfold TextsFit FitsInt
  decide

/-- `hpb_ChunkedInputStream`. -/
structure ChunkedInputStream where
  data : List UInt8
  limit : Nat
  position : Nat

/-- `hpb_ChunkedInputStream_Next`: the bytes that are returned. -/
def ChunkedInputStream.next (c : ChunkedInputStream) : List UInt8 × ChunkedInputStream :=
  let chunk := min c.limit (c.data.length - c.position)
  ((c.data.drop c.position).take chunk, { c with position := c.position + chunk })

/-- What the calls return until one returns nothing. -/
def ChunkedInputStream.chunks : Nat → ChunkedInputStream → List (List UInt8)
  | 0, _ => []
  | fuel + 1, c =>
    match c.next with
    | ([], _) => []
    | (chunk, c) => chunk :: c.chunks fuel

/-- The chunks of a stream are the bytes that are left, and not empty. -/
theorem ChunkedInputStream.chunks_spec {c : ChunkedInputStream} (hlimit : 0 < c.limit) (fuel : Nat)
    (hfuel : c.data.length - c.position < fuel) :
    (c.chunks fuel).flatten = c.data.drop c.position ∧ ∀ chunk ∈ c.chunks fuel, chunk ≠ [] := by
  induction fuel generalizing c with
  | zero => exact absurd hfuel (Nat.not_lt_zero _)
  | succ fuel ih =>
    rw [chunks, ChunkedInputStream.next]
    have hlen : ((c.data.drop c.position).take (min c.limit (c.data.length - c.position))).length =
        min c.limit (c.data.length - c.position) := by
      rw [List.length_take, List.length_drop]
      omega
    split
    next _ hchunk =>
      rw [(Prod.mk.inj hchunk).1, List.length_nil] at hlen
      exact ⟨(List.drop_eq_nil_of_le (by omega)).symm, nofun⟩
    next hne hchunk =>
      obtain ⟨rfl, rfl⟩ := Prod.mk.inj hchunk
      have hpos : (c.data.drop c.position).take (min c.limit (c.data.length - c.position)) ≠ [] :=
        hne
      have := List.length_pos_iff.mpr hpos
      obtain ⟨hflat, hall⟩ := ih (c := { c with position := c.position + min c.limit (c.data.length - c.position) })
        hlimit (by change c.data.length - (c.position + _) < fuel; omega)
      refine ⟨?_, List.forall_mem_cons.mpr ⟨hpos, hall⟩⟩
      rw [List.flatten_cons, hflat]
      change _ ++ c.data.drop (c.position + _) = _
      rw [← List.drop_drop, List.take_append_drop]

/-- A chunked stream with any limit has the tokens of its input. -/
theorem tokenize_chunkedInputStream (opts : TokenizerOptions) {input : List UInt8} {limit : Nat} (hlimit : 0 < limit)
    (hsize : input.length < 2 ^ 64) (hfits : TextsFit opts input) :
    tokenize opts (ChunkedInputStream.chunks (input.length + 1) ⟨input, limit, 0⟩) = read opts input := by
  obtain ⟨hflat, hne⟩ := ChunkedInputStream.chunks_spec (c := ⟨input, limit, 0⟩) hlimit
    (input.length + 1) (Nat.lt_succ_self _)
  rw [List.drop_zero] at hflat
  have := tokenize_eq_read opts hne (by rw [hflat]; exact hsize) (.inr (by rw [hflat]; exact hfits))
  rw [this, hflat]

section Late

variable {E : TokFailure → Prop} {f : Cursor}

theorem tryConsumeOne_true {β : Type} {p : UInt8 → Bool} {g : Bool → TokM β} {R : β → Cursor → Prop}
    (hc : p f.currentChar = true) (hg : Client.Wp Cursor.serve E (g true) f.nextChar R) :
    Client.Wp Cursor.serve E (tryConsumeOne p >>= g) f R := by
  refine Client.Wp.bind (Q := fun r f' => r = true ∧ f' = f.nextChar) (Client.Wp.request_bind rfl ?_) ?_
  · rw [hc]
    exact ⟨rfl, rfl⟩
  · rintro _ _ ⟨rfl, rfl⟩
    exact hg

theorem tryConsumeOne_false {β : Type} {p : UInt8 → Bool} {g : Bool → TokM β} {R : β → Cursor → Prop}
    (hc : p f.currentChar = false) (hg : Client.Wp Cursor.serve E (g false) f R) :
    Client.Wp Cursor.serve E (tryConsumeOne p >>= g) f R := by
  refine Client.Wp.bind (Q := fun r f' => r = false ∧ f' = f) (Client.Wp.request_bind rfl ?_) ?_
  · rw [hc]
    exact ⟨rfl, rfl⟩
  · rintro _ _ ⟨rfl, rfl⟩
    exact hg

/-- A run of characters of a class is skipped. -/
theorem consumeZeroOrMore_run {p : UInt8 → Bool} (run rest : List UInt8) (hrun : ∀ c ∈ run, p c = true)
    (hrest : p (rest.headD 0) = false) (hf : f.rest = run ++ rest) {fuel : Nat} (hfuel : run.length < fuel) :
    Client.Wp Cursor.serve E (consumeZeroOrMore p fuel) f fun _ f' => f.Moved f' ∧ f'.rest = rest := by
  induction fuel generalizing run f with
  | zero => exact absurd hfuel (Nat.not_lt_zero _)
  | succ fuel ih =>
    cases run with
    | nil =>
      have hc : p f.currentChar = false := by
        rw [Cursor.currentChar, hf]
        exact hrest
      exact tryConsumeOne_false hc ⟨.refl f, hf⟩
    | cons c run =>
      have hc : p f.currentChar = true := by
        rw [Cursor.currentChar, hf]
        exact hrun c List.mem_cons_self
      have htail : f.nextChar.rest = run ++ rest := by
        change f.rest.tail = _
        rw [hf]
        rfl
      refine tryConsumeOne_true hc (Client.Wp.imp (ih run (fun c hc => hrun c (List.mem_cons_of_mem _ hc)) htail
        (Nat.lt_of_succ_lt_succ hfuel)) fun _ f' h => ⟨(Cursor.Moved.nextChar f).trans h.1, h.2⟩)

/-- Spaces that are not reported, and then a letter: the text starts at the letter. -/
theorem next_letter {spaces : List UInt8} (hspaces : ∀ c ∈ spaces, isWhitespace c = true) (hne : spaces ≠ [])
    (hf : f.rest = spaces ++ ['a'.toUInt8]) {fuel : Nat} (hfuel : f.rest.length < fuel) (previous : Token) :
    Client.Wp Cursor.serve E (next ⟨false, false, false, false⟩ fuel previous) f fun r f' =>
      r.1 = true ∧ r.2.assigned = none ∧ f'.start = f.pos + spaces.length := by
  have hlen : f.rest.length = spaces.length + 1 := by rw [hf, List.length_append, List.length_singleton]
  obtain ⟨c, cs, rfl⟩ := List.exists_cons_of_ne_nil hne
  obtain ⟨hc, hcs⟩ := List.forall_mem_cons.mp hspaces
  obtain ⟨n, rfl⟩ : ∃ n, fuel = n + 1 := ⟨fuel - 1, by omega⟩
  have hread : f.rest.isEmpty = false := by rw [hf]; rfl
  refine Client.Wp.request_bind (r := false) (t := f) (by rw [Cursor.serve, hread]) ?_
  refine Client.Wp.request_bind (t := f.startToken) rfl ?_
  refine Client.Wp.request_bind rfl (Client.Wp.request_bind rfl ?_)
  -- the spaces
  have hspace : Client.Wp Cursor.serve E (tryConsumeWhitespace ⟨false, false, false, false⟩ (n + 1)) f.startToken
      fun r f' => r = none ∧ f.startToken.Moved f' ∧ f'.rest = ['a'.toUInt8] := by
    have hcur : isWhitespace f.startToken.currentChar = true := by
      change isWhitespace (f.rest.headD 0) = true
      rw [hf]
      exact hc
    have htail : f.startToken.nextChar.rest = cs ++ ['a'.toUInt8] := by
      change f.rest.tail = _
      rw [hf]
      rfl
    refine tryConsumeOne_true hcur ?_
    refine Client.Wp.bind (consumeZeroOrMore_run _ _ hcs (by decide) htail ?_) ?_
    · rw [List.length_cons] at hlen
      omega
    · rintro _ f' ⟨hmoved, hrest⟩
      exact ⟨rfl, (Cursor.Moved.nextChar _).trans hmoved, hrest⟩
  refine Client.Wp.bind hspace ?_
  rintro _ f₁ ⟨rfl, hmoved, hrest⟩
  have hcur : f₁.currentChar = 'a'.toUInt8 := by rw [Cursor.currentChar, hrest]; rfl
  have hpos : f₁.pos = f.pos + (c :: cs).length := by
    have : f₁.pos + f₁.rest.length = f.pos + f.rest.length := hmoved.pos
    rw [hrest, hlen, List.length_singleton] at this
    omega
  refine Client.Wp.request_bind (t := { f₁ with recording := false }) rfl (Client.Wp.request_bind rfl ?_)
  -- the letter
  refine Client.Wp.bind (Q := fun r f' => r = CommentType.none ∧ f' = { f₁ with recording := false }) ?_ ?_
  · refine tryConsumeOne_false ?_ ⟨rfl, rfl⟩
    change (f₁.currentChar == _) = false
    rw [hcur]
    decide
  rintro _ _ ⟨rfl, rfl⟩
  refine Client.Wp.request_bind (r := false) (t := { f₁ with recording := false })
    (by rw [Cursor.serve, hrest]; rfl) ?_
  refine Client.Wp.bind (Q := fun r f' => r = false ∧ f' = { f₁ with recording := false })
    (Client.Wp.request_bind rfl ⟨?_, rfl⟩) ?_
  · change (isUnprintable f₁.currentChar || f₁.currentChar == 0) = false
    rw [hcur]
    decide
  rintro _ _ ⟨rfl, rfl⟩
  refine Client.Wp.request_bind (t := f₁.startToken) rfl (Client.Wp.request_bind rfl (Client.Wp.request_bind rfl ?_))
  have hletter : Client.Wp Cursor.serve E (consumeToken ⟨false, false, false, false⟩ (n + 1) previous f₁.startToken.line
      f₁.startToken.column) f₁.startToken fun _ f' => f₁.startToken.Moved f' := by
    refine tryConsumeOne_true ?_ ?_
    · change isLetter f₁.currentChar = true
      rw [hcur]
      decide
    · refine Client.Wp.bind (consumeZeroOrMore_run [] [] (List.forall_mem_nil _) (by decide) ?_ (Nat.succ_pos n)) ?_
      · change f₁.rest.tail = _
        rw [hrest]
        rfl
      · rintro _ f' ⟨hmoved, -⟩
        exact (Cursor.Moved.nextChar _).trans hmoved
  refine Client.Wp.bind hletter fun _ f₂ hmoved₂ => ?_
  refine Client.Wp.request_bind (t := { f₂ with recording := false }) rfl (Client.Wp.request_bind rfl ?_)
  exact ⟨rfl, rfl, hmoved₂.start.trans hpos⟩

theorem mem_tokensFrom {opts : TokenizerOptions} {inner fuel : Nat} {previous token : Token} {f f' : Cursor}
    (h : (next opts inner previous).run Cursor.serve f = (.ok (true, token), f')) :
    (token, f') ∈ (tokensFrom Cursor.serve opts inner (fuel + 1) previous f).1 := by
  rw [tokensFrom, h]
  exact List.mem_cons_self

/-- A letter after spaces that an `int` cannot count. -/
theorem not_textsFit_of_spaces {spaces : List UInt8} (hspaces : ∀ c ∈ spaces, isWhitespace c = true)
    (hlen : ¬FitsInt spaces.length) : ¬TextsFit ⟨false, false, false, false⟩ (spaces ++ ['a'.toUInt8]) := by
  intro hfits
  have hne : spaces ≠ [] := by
    rintro rfl
    exact hlen (by unfold FitsInt; decide)
  have hnext := next_letter (E := fun _ => False) (f := Cursor.new (spaces ++ ['a'.toUInt8])) hspaces hne rfl
    (Nat.lt_succ_self _) Token.start
  match hrun : (next ⟨false, false, false, false⟩ ((spaces ++ ['a'.toUInt8]).length + 1) Token.start).run Cursor.serve
    (Cursor.new (spaces ++ ['a'.toUInt8])) with
  | (.error e, f') => exact hnext.error_of_run hrun
  | (.ok (more, token), f') =>
    obtain ⟨rfl, hassigned, hstart⟩ := hnext.of_run hrun
    have hfit := hfits _ (mem_tokensFrom hrun) hassigned
    rw [hstart] at hfit
    exact hlen ((Nat.zero_add spaces.length) ▸ hfit)

/-- Lines of `n` spaces. -/
def blankLines (lines n : Nat) : List UInt8 := (List.replicate lines (List.replicate n 32 ++ [10])).flatten

theorem blankLines_spec (lines n : Nat) :
    (∀ c ∈ blankLines lines n, isWhitespace c = true) ∧ (blankLines lines n).length = lines * (n + 1) := by
  refine ⟨fun c hc => ?_, by simp [blankLines]⟩
  obtain ⟨line, hline, hc⟩ := List.mem_flatten.mp hc
  rw [List.eq_of_mem_replicate hline] at hc
  obtain hc | hc := List.mem_append.mp hc
  · rw [List.eq_of_mem_replicate hc]
    decide
  · rw [List.mem_singleton.mp hc]
    decide

end Late

/-- The text of a letter after `65536` lines of `32767` spaces depends on the chunks. -/
theorem not_tokenize_chunks_late :
    ¬∀ (opts : TokenizerOptions) (input : List UInt8) (chunks : List (List UInt8)), input.length < 2 ^ 64 →
      (∀ c ∈ chunks, c ≠ []) → chunks.flatten = input → tokenize opts chunks = tokenize opts [input] := by
  intro h
  obtain ⟨hspaces, hlen⟩ := blankLines_spec 65536 32767
  have hsize : (blankLines 65536 32767 ++ ['a'.toUInt8]).length < 2 ^ 64 := by
    rw [List.length_append, hlen, List.length_singleton]
    omega
  have hlate : ¬FitsInt (blankLines 65536 32767).length := by
    rw [hlen, FitsInt]
    omega
  obtain ⟨hne, -, hflat⟩ := bytewise_spec (blankLines 65536 32767 ++ ['a'.toUInt8])
  exact not_textsFit_of_spaces hspaces hlate (textsFit_of_bytewise _ hsize (h _ _ _ hsize hne hflat))

end Tokenizer

end Hpb
