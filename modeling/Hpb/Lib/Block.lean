import Mathlib.Data.List.Basic
import Mathlib.Tactic.Common
import Mathlib.Tactic.Linarith

/-!
# Blocks of cells

A block is a list of cells. `readAt` reads a range of it and `overwrite` writes one; a range that a write
does not meet reads as before. A table of records of one length in a block is `recordsAt`.
-/

section

variable {α : Type*}

/-- The `n` cells from an offset on. -/
def readAt (l : List α) (off n : Nat) : List α := (l.drop off).take n

/-- The block with other cells from an offset on. -/
def overwrite (l : List α) (off : Nat) (cells : List α) : List α :=
  l.take off ++ cells ++ l.drop (off + cells.length)

variable {l l' cells : List α} {off i m n : Nat}

theorem length_readAt (h : off + n ≤ l.length) : (readAt l off n).length = n := by
  unfold readAt
  rw [List.length_take, List.length_drop]
  omega

theorem length_overwrite (h : off + cells.length ≤ l.length) : (overwrite l off cells).length = l.length := by
  unfold overwrite
  rw [List.length_append, List.length_append, List.length_take, List.length_drop]
  omega

theorem readAt_self (h : l.length = n) : readAt l 0 n = l := by
  rw [readAt, List.drop_zero, ← h, List.take_length]

theorem readAt_add : readAt l off (m + n) = readAt l off m ++ readAt l (off + m) n := by
  unfold readAt
  rw [List.take_add, List.drop_drop]

theorem readAt_readAt (h : i + n ≤ m) : readAt (readAt l off m) i n = readAt l (off + i) n := by
  unfold readAt
  rw [List.drop_take, List.take_take, List.drop_drop, Nat.min_eq_left (by omega)]

theorem readAt_append_left (h : off + n ≤ l.length) : readAt (l ++ l') off n = readAt l off n := by
  unfold readAt
  rw [List.drop_append_of_le_length (by omega), List.take_append_of_le_length (by simp; omega)]

theorem readAt_append_right : readAt (l ++ l') (l.length + off) n = readAt l' off n := by
  unfold readAt
  rw [List.drop_append, List.drop_eq_nil_of_le (by omega), List.nil_append, Nat.add_sub_cancel_left]

theorem readAt_overwrite_self (h : off ≤ l.length) :
    readAt (overwrite l off cells) off cells.length = cells := by
  have hoff : (l.take off).length = off := by rw [List.length_take]; omega
  unfold overwrite
  have hskip : readAt (l.take off ++ (cells ++ l.drop (off + cells.length))) ((l.take off).length + 0)
      cells.length = readAt (cells ++ l.drop (off + cells.length)) 0 cells.length := readAt_append_right
  rw [Nat.add_zero, hoff] at hskip
  rw [List.append_assoc, hskip, readAt_append_left (by omega), readAt_self rfl]

theorem readAt_overwrite_before (h : i + n ≤ off) (hl : off ≤ l.length) :
    readAt (overwrite l off cells) i n = readAt l i n := by
  have hoff : (l.take off).length = off := by rw [List.length_take]; omega
  unfold overwrite
  rw [List.append_assoc, readAt_append_left (by omega)]
  unfold readAt
  rw [List.drop_take, List.take_take, Nat.min_eq_left (by omega)]

theorem readAt_overwrite_after (h : off + cells.length ≤ i) (hl : off ≤ l.length) :
    readAt (overwrite l off cells) i n = readAt l i n := by
  have hoff : (l.take off ++ cells).length = off + cells.length := by
    rw [List.length_append, List.length_take]
    omega
  obtain ⟨k, rfl⟩ := Nat.exists_eq_add_of_le h
  unfold overwrite
  rw [← hoff, readAt_append_right, hoff]
  unfold readAt
  rw [List.drop_drop]

/-- A read that starts in what was written. -/
theorem readAt_overwrite_inside (h : off ≤ l.length) (hi : i + n ≤ cells.length) :
    readAt (overwrite l off cells) (off + i) n = readAt cells i n := by
  have hself : readAt (overwrite l off cells) off cells.length = cells := readAt_overwrite_self h
  rw [← readAt_readAt hi, hself]

theorem take_overwrite (h : off ≤ l.length) : (overwrite l off cells).take off = l.take off := by
  have hoff : (l.take off).length = off := by rw [List.length_take]; omega
  rw [overwrite, List.append_assoc, List.take_append_of_le_length (by omega), List.take_take, Nat.min_self]

theorem drop_overwrite (h : off ≤ l.length) :
    (overwrite l off cells).drop off = overwrite (l.drop off) 0 cells := by
  have hoff : (l.take off).length = off := by rw [List.length_take]; omega
  rw [overwrite, overwrite, List.append_assoc, List.drop_append_of_le_length (by omega),
    List.drop_eq_nil_of_le (by omega), List.take_zero, List.nil_append, List.nil_append, List.drop_drop,
    Nat.zero_add]

/-- What is in a range already. -/
theorem overwrite_readAt (h : off + n ≤ l.length) : overwrite l off (readAt l off n) = l := by
  rw [overwrite, length_readAt h, readAt, List.append_assoc, ← List.drop_drop, List.take_append_drop,
    List.take_append_drop]

/-- A write over an earlier one of the same length. -/
theorem overwrite_overwrite {cells' : List α} (h : off ≤ l.length) (hlen : cells'.length = cells.length) :
    overwrite (overwrite l off cells) off cells' = overwrite l off cells' := by
  have hoff : (l.take off ++ cells).length = off + cells'.length := by
    rw [List.length_append, List.length_take, hlen]
    omega
  rw [overwrite, take_overwrite h, overwrite, List.drop_left' hoff, overwrite, hlen]

/-- A write and one right behind it. -/
theorem overwrite_append {cells' : List α} (h : off ≤ l.length) :
    overwrite (overwrite l off cells) (off + cells.length) cells' = overwrite l off (cells ++ cells') := by
  have hoff : (l.take off ++ cells).length = off + cells.length := by
    rw [List.length_append, List.length_take]
    omega
  have hdrop : (overwrite l off cells).drop (off + cells.length + cells'.length) =
      l.drop (off + (cells ++ cells').length) := by
    rw [← List.drop_drop, overwrite, List.drop_left' hoff, List.drop_drop, List.length_append, Nat.add_assoc]
  rw [overwrite, hdrop, overwrite, List.take_left' hoff, overwrite, List.append_assoc (l.take off)]

/-- A write in a range of the block is a write of the whole range. -/
theorem overwrite_range (hr : off + n ≤ l.length) (hi : i + cells.length ≤ n) :
    overwrite l (off + i) cells = overwrite l off (overwrite (readAt l off n) i cells) := by
  have hrange : (readAt l off n).length = n := length_readAt hr
  have hlen : (overwrite (readAt l off n) i cells).length = n := by
    rw [length_overwrite (by omega), hrange]
  have hhead : (readAt l off n).take i = (l.drop off).take i := by
    rw [readAt, List.take_take, Nat.min_eq_left (by omega)]
  have htail : (readAt l off n).drop (i + cells.length) ++ l.drop (off + n) =
      l.drop (off + i + cells.length) := by
    have hsplit : l.drop (off + n) = ((l.drop off).drop (i + cells.length)).drop (n - (i + cells.length)) := by
      rw [List.drop_drop, List.drop_drop]
      congr 1
      omega
    rw [readAt, List.drop_take, hsplit, List.take_append_drop, List.drop_drop, Nat.add_assoc]
  calc overwrite l (off + i) cells
      = l.take off ++ (l.drop off).take i ++ cells ++ l.drop (off + i + cells.length) := by
        rw [overwrite, List.take_add]
    _ = overwrite l off (overwrite (readAt l off n) i cells) := by
        rw [overwrite, hlen, overwrite, hhead, ← htail]
        simp only [List.append_assoc]

/-! ### Records -/

/-- The `n` records of `k` cells from an offset on. -/
def recordsAt (l : List α) (k off n : Nat) : List (List α) :=
  (List.range n).map fun i => readAt l (off + i * k) k

variable {k : Nat}

@[simp] theorem length_recordsAt : (recordsAt l k off n).length = n := by simp [recordsAt]

theorem getElem?_recordsAt (h : i < n) : (recordsAt l k off n)[i]? = some (readAt l (off + i * k) k) := by
  simp [recordsAt, h]

theorem recordsAt_succ : recordsAt l k off (n + 1) = readAt l off k :: recordsAt l k (off + k) n := by
  unfold recordsAt
  rw [List.range_succ_eq_map, List.map_cons, List.map_map, Nat.zero_mul, Nat.add_zero]
  refine congrArg (_ :: ·) (List.map_congr_left fun i _ => ?_)
  rw [Function.comp_apply, Nat.succ_mul, Nat.add_comm (i * k) k, Nat.add_assoc]

/-- The records depend only on their own cells. -/
theorem recordsAt_congr {off' : Nat} (h : readAt l' off' (n * k) = readAt l off (n * k)) :
    recordsAt l' k off' n = recordsAt l k off n := by
  refine List.map_congr_left fun i hi => ?_
  rw [List.mem_range] at hi
  have hle : i * k + k ≤ n * k := by
    rw [← Nat.succ_mul]
    exact Nat.mul_le_mul_right k hi
  rw [← readAt_readAt hle, h, readAt_readAt hle]

/-- A write of one record. -/
theorem recordsAt_overwrite (hi : i < n) (hc : cells.length = k) (hl : off + n * k ≤ l.length) :
    recordsAt (overwrite l (off + i * k) cells) k off n = (recordsAt l k off n).set i cells := by
  have hle : ∀ j, j < n → j * k + k ≤ n * k := fun j hj => by
    rw [← Nat.succ_mul]
    exact Nat.mul_le_mul_right k hj
  have hi' := hle i hi
  refine List.ext_getElem? fun j => ?_
  by_cases hj : j < n
  · rw [getElem?_recordsAt hj, List.getElem?_set, length_recordsAt, getElem?_recordsAt hj]
    obtain hlt | rfl | hgt := Nat.lt_trichotomy i j
    · have hij : i * k + k ≤ j * k := by
        rw [← Nat.succ_mul]
        exact Nat.mul_le_mul_right k hlt
      rw [if_neg (Nat.ne_of_lt hlt), readAt_overwrite_after (by omega) (by omega)]
    · rw [if_pos rfl, if_pos hi]
      have hself : readAt (overwrite l (off + i * k) cells) (off + i * k) cells.length = cells :=
        readAt_overwrite_self (by omega)
      rw [hc] at hself
      rw [hself]
    · have hji : j * k + k ≤ i * k := by
        rw [← Nat.succ_mul]
        exact Nat.mul_le_mul_right k hgt
      rw [if_neg (Nat.ne_of_gt hgt), readAt_overwrite_before (by omega) (by omega)]
  · rw [List.getElem?_eq_none (by simpa using hj), List.getElem?_eq_none (by simpa using hj)]

end
