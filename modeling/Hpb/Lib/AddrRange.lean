import Mathlib.Tactic.Common
import Mathlib.Tactic.Linarith

/-!
# Ranges of addresses

A memory is a function from addresses to cells. A range goes from a start to before a stop; ranges that are apart
have no address in common, and a write to one leaves what is in the other.
-/

/-- The addresses from a start to before a stop. -/
structure AddrRange where
  start : Nat
  stop : Nat
  deriving DecidableEq

namespace AddrRange

variable {r s t : AddrRange}

/-- One range is part of another. -/
def Within (r s : AddrRange) : Prop := s.start ≤ r.start ∧ r.stop ≤ s.stop

/-- No address of one range is in the other, whatever lies between. -/
def Apart (r s : AddrRange) : Prop := r.stop ≤ s.start ∨ s.stop ≤ r.start

instance : DecidableRel Apart := fun r s => inferInstanceAs (Decidable (r.stop ≤ s.start ∨ s.stop ≤ r.start))

theorem Apart.symm (h : r.Apart s) : s.Apart r := Or.symm h

instance : Std.Symm Apart := ⟨fun _ _ => Apart.symm⟩

theorem Within.trans (h : r.Within s) (h' : s.Within t) : r.Within t :=
  ⟨Nat.le_trans h'.1 h.1, Nat.le_trans h.2 h'.2⟩

theorem Within.apart (h : r.Within s) (h' : s.Apart t) : r.Apart t :=
  h'.imp (fun hs => Nat.le_trans h.2 hs) fun hs => Nat.le_trans hs h.1

end AddrRange

section Memory

variable {α : Type*} {mem : Nat → α} {cells : List α} {addr i : Nat}

/-- Some cells are written from an address on. -/
def storeAt (mem : Nat → α) (addr : Nat) (cells : List α) : Nat → α :=
  fun x => if addr ≤ x then (cells[x - addr]?).getD (mem x) else mem x

theorem storeAt_outside (h : i < addr ∨ addr + cells.length ≤ i) : storeAt mem addr cells i = mem i := by
  rw [storeAt]
  split
  · rw [List.getElem?_eq_none (by omega), Option.getD_none]
  · rfl

theorem storeAt_within (h : i < cells.length) : storeAt mem addr cells (addr + i) = cells[i] := by
  rw [storeAt, if_pos (by omega), Nat.add_sub_cancel_left, List.getElem?_eq_getElem h, Option.getD_some]

/-- The cells of a range. -/
def loadAt (mem : Nat → α) (addr n : Nat) : List α := (List.range n).map fun i => mem (addr + i)

theorem length_loadAt (n : Nat) : (loadAt mem addr n).length = n := by
  rw [loadAt, List.length_map, List.length_range]

theorem getElem_loadAt {n : Nat} (h : i < (loadAt mem addr n).length) : (loadAt mem addr n)[i] = mem (addr + i) := by
  simp [loadAt]

theorem loadAt_congr {mem' : Nat → α} {addr' n : Nat} (h : ∀ i < n, mem' (addr' + i) = mem (addr + i)) :
    loadAt mem' addr' n = loadAt mem addr n := List.map_congr_left fun i hi => h i (List.mem_range.mp hi)

theorem loadAt_add (m n : Nat) : loadAt mem addr (m + n) = loadAt mem addr m ++ loadAt mem (addr + m) n := by
  simp only [loadAt, List.range_add, List.map_append, List.map_map, Function.comp_def, Nat.add_assoc]

/-- What was written is read. -/
theorem loadAt_storeAt_self : loadAt (storeAt mem addr cells) addr cells.length = cells := by
  refine List.ext_getElem (length_loadAt _) fun i hi hi' => ?_
  rw [getElem_loadAt, storeAt_within hi']

/-- A read beside a write. -/
theorem loadAt_storeAt_outside {addr' n : Nat} (h : addr' + n ≤ addr ∨ addr + cells.length ≤ addr') :
    loadAt (storeAt mem addr cells) addr' n = loadAt mem addr' n :=
  loadAt_congr fun i hi => storeAt_outside (by omega)

end Memory
