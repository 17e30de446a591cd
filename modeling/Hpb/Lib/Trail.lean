import Mathlib.Data.List.Flatten
import Mathlib.Data.List.Perm.Basic
import Mathlib.Tactic.Linarith

/-!
# Walks that keep the path to where they are

A walk through a tree keeps the entries of the path to where it is on a stack. What it finds it reports:
the path and a last entry are added to a list, followed by a mark that ends the path. A step of the walk may
forget to pop what it pushed.

* `Trail`: the state of a walk, with `push`, `pop` and `report`.
* `Walks its step`: a step meets `its`, where `some p` is something found at the end of the path `p`, and
  `none` an entry that stays on the stack. Steps compose (`Walks.comp`, `Walks.foldl`), and a step between a
  push and a pop meets the same one entry further down (`Walks.within`).
* `Walks.reported_iff`: a walk reports the right paths exactly when it finds nothing after an entry that
  stays.
-/

namespace Hpb

/-- The state of a walk. -/
structure Trail (E : Type) where
  stack : List E
  out : List E
  found : Bool
  save : Bool

namespace Trail

variable {E : Type}

/-- Go one entry down. -/
def push (t : Trail E) (e : E) : Trail E := if t.save then { t with stack := t.stack ++ [e] } else t

/-- Go one entry up. -/
def pop (t : Trail E) : Trail E := if t.save then { t with stack := t.stack.dropLast } else t

/-- Report an entry here. -/
def report (stop : E) (t : Trail E) (e : E) : Trail E :=
  if t.save then { t with found := true, out := t.out ++ t.stack ++ [e, stop] }
  else { t with found := true }

/-- A list of paths, each with the mark that ends it. -/
def flat (stop : E) (paths : List (List E)) : List E := paths.flatMap fun p => p ++ [stop]

/-- What was found, among what was met. -/
def paths (its : List (Option (List E))) : List (List E) := its.filterMap id

/-- The number of entries that stay. -/
def leaks (its : List (Option (List E))) : Nat := its.countP Option.isNone

/-- Nothing is found after an entry that stays. -/
def Quiet (its : List (Option (List E))) : Prop := its.Pairwise fun a b => a = none → b = none

variable (isStop : E → Bool) (stop : E)

/-- The stack is the path, with some more entries in it. -/
structure Stands (t : Trail E) (path : List E) (extra : Nat) : Prop where
  length_eq : t.stack.length = path.length + extra
  eq_of_zero : extra = 0 → t.stack = path
  entries : ∀ e ∈ t.stack, isStop e = false

/-- What a walk with some more entries on its stack reports of what it meets. -/
inductive Emits : Nat → List (Option (List E)) → List E → Prop where
  | nil (extra : Nat) : Emits extra [] []
  | report {extra : Nat} {p c : List E} {its : List (Option (List E))} {o : List E}
      (hlength : c.length = p.length + extra + 1) (hexact : extra = 0 → c = p ++ [stop])
      (hstop : c.countP isStop = 1) (h : Emits extra its o) : Emits extra (some p :: its) (c ++ o)
  | leak {extra : Nat} {its : List (Option (List E))} {o : List E} (h : Emits (extra + 1) its o) :
      Emits extra (none :: its) o

variable {isStop stop} {extra : Nat} {its its' : List (Option (List E))} {o o' : List E}

theorem paths_append : paths (its ++ its') = paths its ++ paths its' := List.filterMap_append

theorem leaks_append : leaks (its ++ its') = leaks its + leaks its' := List.countP_append

theorem Emits.append (h : Emits isStop stop extra its o)
    (h' : Emits isStop stop (extra + leaks its) its' o') :
    Emits isStop stop extra (its ++ its') (o ++ o') := by
  induction h with
  | nil extra => exact h'
  | report hlength hexact hstop _ ih =>
    rw [List.cons_append, List.append_assoc]
    exact .report hlength hexact hstop (ih h')
  | @leak extra its o _ ih =>
    refine .leak (ih ?_)
    have hleaks : leaks (none :: its) = leaks its + 1 := List.countP_cons_of_pos rfl
    rwa [hleaks, ← Nat.add_assoc, Nat.add_right_comm] at h'

/-! ### What is right -/

theorem flat_cons {p : List E} {ps : List (List E)} : flat stop (p :: ps) = p ++ [stop] ++ flat stop ps :=
  List.flatMap_cons

theorem length_flat_cons {p : List E} {ps : List (List E)} :
    (flat stop (p :: ps)).length = p.length + 1 + (flat stop ps).length := by
  rw [flat_cons, List.length_append, List.length_append, List.length_singleton]

/-- Every report has one mark. -/
theorem Emits.countP_eq (h : Emits isStop stop extra its o) : o.countP isStop = (paths its).length := by
  induction h with
  | nil => rfl
  | report _ _ hstop _ ih =>
    rw [List.countP_append, hstop, ih, Nat.add_comm]
    rfl
  | leak _ ih => exact ih

/-- Entries that stay make the reports longer. -/
theorem Emits.length_le (h : Emits isStop stop extra its o) :
    (flat stop (paths its)).length + extra * (paths its).length ≤ o.length := by
  induction h with
  | nil => exact Nat.le_refl _
  | @report extra p c its o hlength _ _ _ ih =>
    have hpaths : paths (some p :: its) = p :: paths its := rfl
    rw [hpaths, length_flat_cons, List.length_append, List.length_cons, hlength, Nat.mul_succ]
    omega
  | @leak extra its o _ ih =>
    have hpaths : paths (none :: its) = paths its := rfl
    rw [Nat.succ_mul] at ih
    rw [hpaths]
    omega

theorem quiet_cons_some {p : List E} : Quiet (some p :: its) ↔ Quiet its := by
  rw [Quiet, List.pairwise_cons]
  exact and_iff_right fun _ _ h => nomatch h

theorem quiet_cons_none : Quiet (none :: its) ↔ paths its = [] := by
  have hall : (∀ b ∈ its, b = none) ↔ paths its = [] := by
    rw [paths, List.filterMap_eq_nil_iff]
    rfl
  rw [Quiet, List.pairwise_cons, ← hall]
  refine ⟨fun h b hb => h.1 b hb rfl, fun h => ⟨fun b hb _ => h b hb, ?_⟩⟩
  exact (List.pairwise_of_forall fun _ _ => trivial : its.Pairwise fun _ _ => True).imp_of_mem
    fun _ hb _ _ => h _ hb

/-- The reports have the right length only if nothing is found after an entry that stays. -/
theorem Emits.quiet (h : Emits isStop stop extra its o) (hlen : o.length = (flat stop (paths its)).length) :
    (extra = 0 ∨ paths its = []) ∧ Quiet its := by
  induction h with
  | nil => exact ⟨.inr rfl, List.Pairwise.nil⟩
  | @report extra p c its o hlength _ _ h ih =>
    have hpaths : paths (some p :: its) = p :: paths its := rfl
    rw [hpaths, length_flat_cons, List.length_append, hlength] at hlen
    have hle := h.length_le
    have hzero : extra = 0 := by omega
    exact ⟨.inl hzero, quiet_cons_some.mpr (ih (by omega)).2⟩
  | @leak extra its o h ih =>
    have hpaths : paths (none :: its) = paths its := rfl
    rw [hpaths] at hlen ⊢
    obtain ⟨hno | hno, -⟩ := ih hlen
    · exact nomatch hno
    · exact ⟨.inr hno, quiet_cons_none.mpr hno⟩

/-- The reports are right if nothing is found after an entry that stays. -/
theorem Emits.eq_flat (h : Emits isStop stop extra its o) (hquiet : Quiet its)
    (hextra : extra = 0 ∨ paths its = []) : o = flat stop (paths its) := by
  induction h with
  | nil => rfl
  | @report extra p c its o _ hexact _ _ ih =>
    have hzero : extra = 0 := hextra.resolve_right fun h => nomatch h
    rw [hexact hzero, ih (quiet_cons_some.mp hquiet) (.inl hzero)]
    exact flat_cons.symm
  | leak _ ih =>
    have hnone := quiet_cons_none.mp hquiet
    exact ih (List.Pairwise.of_cons hquiet) (.inr hnone)

theorem countP_flat (hstop : isStop stop = true) {ps : List (List E)}
    (h : ∀ p ∈ ps, p.countP isStop = 0) : (flat stop ps).countP isStop = ps.length := by
  induction ps with
  | nil => rfl
  | cons p ps ih =>
    obtain ⟨hp, hps⟩ := List.forall_mem_cons.mp h
    rw [flat_cons, List.countP_append, List.countP_append, hp, ih hps, List.countP_singleton, hstop,
      List.length_cons]
    simp
    omega

/-- What a walk reports is the list of some paths, all of which it finds or which it does not come to. -/
theorem Emits.reports_iff (h : Emits isStop stop 0 its o) (hstop : isStop stop = true) {full : List (List E)}
    (hsub : (paths its).Sublist full) (hfull : ∀ p ∈ full, p.countP isStop = 0) :
    (∃ ps : List (List E), o = flat stop ps ∧ ps.Perm full) ↔ Quiet its ∧ paths its = full := by
  constructor
  · rintro ⟨ps, rfl, hperm⟩
    have hcount := h.countP_eq
    rw [countP_flat hstop fun p hp => hfull p (hperm.mem_iff.mp hp), hperm.length_eq] at hcount
    have heq := hsub.eq_of_length hcount.symm
    refine ⟨(h.quiet ?_).2, heq⟩
    rw [heq]
    exact (hperm.flatMap_right _).length_eq
  · rintro ⟨hquiet, rfl⟩
    exact ⟨_, h.eq_flat hquiet (.inl rfl), .refl _⟩

/-! ### Walks -/

variable (isStop stop) in
/-- A step of a walk meets some things, each at the end of a path from where the walk is. -/
structure Walks (its : List (Option (List E))) (step : Trail E → Trail E) : Prop where
  save : ∀ t, (step t).save = t.save
  found : ∀ t, (step t).found = (t.found || its.any Option.isSome)
  clean : ∀ p ∈ paths its, p.countP isStop = 0
  trail : ∀ (t : Trail E) (path : List E) (extra : Nat), t.save = true → Stands isStop t path extra →
    Stands isStop (step t) path (extra + leaks its) ∧
      ∃ o, (step t).out = t.out ++ o ∧ Emits isStop stop extra (its.map (Option.map (path ++ ·))) o

namespace Walks

variable {step step' : Trail E → Trail E} {e : E}

theorem id : Walks isStop stop [] fun t => t where
  save _ := rfl
  found t := (Bool.or_false t.found).symm
  clean _ h := nomatch h
  trail t _ extra _ h := ⟨h, [], (List.append_nil t.out).symm, .nil extra⟩

theorem leaks_map (path : List E) : leaks (its.map (Option.map (path ++ ·))) = leaks its := by
  rw [leaks, leaks, List.countP_map]
  exact List.countP_congr fun x _ => by cases x <;> rfl

theorem comp (h : Walks isStop stop its step) (h' : Walks isStop stop its' step') :
    Walks isStop stop (its ++ its') fun t => step' (step t) where
  save t := (h'.save _).trans (h.save t)
  found t := by rw [h'.found, h.found, List.any_append, Bool.or_assoc]
  clean := by
    rw [paths_append]
    exact List.forall_mem_append.mpr ⟨h.clean, h'.clean⟩
  trail t path extra hsave hstands := by
    obtain ⟨hstands₁, o₁, ho₁, hemits₁⟩ := h.trail t path extra hsave hstands
    obtain ⟨hstands₂, o₂, ho₂, hemits₂⟩ := h'.trail (step t) path _ ((h.save t).trans hsave) hstands₁
    refine ⟨?_, o₁ ++ o₂, by rw [ho₂, ho₁, List.append_assoc], ?_⟩
    · rwa [leaks_append, ← Nat.add_assoc]
    · rw [List.map_append]
      refine hemits₁.append ?_
      rwa [leaks_map]

/-- A step between a push and a pop. -/
theorem within (he : isStop e = false) (h : Walks isStop stop its step) :
    Walks isStop stop (its.map (Option.map (e :: ·))) fun t => (step (t.push e)).pop where
  save t := by
    have hpop : ∀ t : Trail E, t.pop.save = t.save := fun t => by rw [pop]; split <;> rfl
    have hpush : (t.push e).save = t.save := by rw [push]; split <;> rfl
    rw [hpop, h.save, hpush]
  found t := by
    have hpop : ∀ t : Trail E, t.pop.found = t.found := fun t => by rw [pop]; split <;> rfl
    have hpush : (t.push e).found = t.found := by rw [push]; split <;> rfl
    rw [hpop, h.found, hpush, List.any_map]
    congr 1
    exact congrArg its.any (funext fun x => by cases x <;> rfl)
  clean p hp := by
    obtain ⟨x, hx, hsome⟩ := List.mem_filterMap.mp hp
    obtain ⟨y, hy, rfl⟩ := List.mem_map.mp hx
    obtain ⟨p, rfl, rfl⟩ := Option.map_eq_some_iff.mp hsome
    rw [List.countP_cons_of_neg (by rw [he]; exact Bool.false_ne_true)]
    exact h.clean p (List.mem_filterMap.mpr ⟨_, hy, rfl⟩)
  trail t path extra hsave hstands := by
    have hpush : t.push e = { t with stack := t.stack ++ [e] } := if_pos hsave
    have hstands' : Stands isStop (t.push e) (path ++ [e]) extra := by
      rw [hpush]
      refine ⟨?_, fun hzero => by rw [hstands.eq_of_zero hzero], fun x hx => ?_⟩
      · rw [List.length_append, List.length_append, hstands.length_eq]
        omega
      · obtain hx | hx := List.mem_append.mp hx
        · exact hstands.entries x hx
        · rwa [List.mem_singleton.mp hx]
    have hsave' : (t.push e).save = true := by rw [hpush]; exact hsave
    obtain ⟨hafter, o, ho, hemits⟩ := h.trail _ _ _ hsave' hstands'
    have hpop : (step (t.push e)).pop =
        { step (t.push e) with stack := (step (t.push e)).stack.dropLast } :=
      if_pos ((h.save _).trans hsave')
    have hleaks : leaks (its.map (Option.map (e :: ·))) = leaks its := leaks_map [e]
    refine ⟨?_, o, ?_, ?_⟩
    · rw [hpop, hleaks]
      refine ⟨?_, fun hzero => ?_, fun x hx => hafter.entries x ((List.dropLast_sublist _).subset hx)⟩
      · rw [List.length_dropLast, hafter.length_eq, List.length_append, List.length_singleton]
        omega
      · rw [hafter.eq_of_zero hzero, List.dropLast_concat]
    · rw [hpop]
      exact ho.trans (by rw [hpush])
    · rw [List.map_map]
      have hfun : (Option.map (path ++ ·)) ∘ (Option.map (e :: ·)) =
          Option.map (fun p : List E => path ++ [e] ++ p) := by
        funext x
        cases x with
        | none => rfl
        | some p => exact congrArg some (List.append_cons path e p)
      rwa [hfun]

/-- An entry that stays on the stack. -/
theorem push (he : isStop e = false) : Walks isStop stop [none] fun t => t.push e where
  save t := by rw [Trail.push]; split <;> rfl
  found t := by
    rw [Trail.push]
    split <;> exact (Bool.or_false _).symm
  clean _ h := nomatch h
  trail t path extra hsave hstands := by
    have hpush : t.push e = { t with stack := t.stack ++ [e] } := if_pos hsave
    rw [hpush]
    refine ⟨⟨?_, fun h => (nomatch h), fun x hx => ?_⟩, [], (List.append_nil _).symm, .leak (.nil _)⟩
    · rw [List.length_append, hstands.length_eq, List.length_singleton, Nat.add_assoc]
      rfl
    · obtain hx | hx := List.mem_append.mp hx
      · exact hstands.entries x hx
      · rwa [List.mem_singleton.mp hx]

/-- Something is found here. -/
theorem report (hstop : isStop stop = true) (he : isStop e = false) :
    Walks isStop stop [some [e]] fun t => t.report stop e where
  save t := by rw [Trail.report]; split <;> rfl
  found t := by
    rw [Trail.report]
    split <;> exact (Bool.or_true _).symm
  clean p hp := by
    obtain rfl := List.mem_singleton.mp hp
    rw [List.countP_singleton, he]
    rfl
  trail t path extra hsave hstands := by
    have hreport : t.report stop e = { t with found := true, out := t.out ++ t.stack ++ [e, stop] } :=
      if_pos hsave
    rw [hreport]
    refine ⟨⟨hstands.length_eq, hstands.eq_of_zero, hstands.entries⟩, t.stack ++ [e, stop],
      List.append_assoc .., ?_⟩
    rw [← List.append_nil (t.stack ++ [e, stop])]
    refine .report ?_ (fun hzero => ?_) ?_ (.nil extra)
    · rw [List.length_append, List.length_append, hstands.length_eq]
      simp only [List.length_cons, List.length_nil]
      omega
    · rw [hstands.eq_of_zero hzero, List.append_assoc]
      rfl
    · have hstack : t.stack.countP isStop = 0 :=
        List.countP_eq_zero.mpr fun x hx => by rw [hstands.entries x hx]; exact Bool.false_ne_true
      rw [List.countP_append, hstack, List.countP_cons_of_neg (by rw [he]; exact Bool.false_ne_true),
        List.countP_singleton, hstop]
      rfl

/-- A loop of steps. -/
theorem foldl {α : Type} {l : List α} {its : α → List (Option (List E))} {step : α → Trail E → Trail E}
    (h : ∀ x ∈ l, Walks isStop stop (its x) (step x)) :
    Walks isStop stop (l.flatMap its) fun t => l.foldl (fun t x => step x t) t := by
  induction l with
  | nil => exact id
  | cons x l ih =>
    obtain ⟨hx, hl⟩ := List.forall_mem_cons.mp h
    exact hx.comp (ih hl)

/-- **What a whole walk reports is right** exactly when nothing is found after an entry that stays, and
everything is found. -/
theorem reported_iff (h : Walks isStop stop its step) (hstop : isStop stop = true) {full : List (List E)}
    (hsub : (paths its).Sublist full) (hfull : ∀ p ∈ full, p.countP isStop = 0) :
    (∃ ps : List (List E), (step ⟨[], [], false, true⟩).out = flat stop ps ∧ ps.Perm full) ↔
      Quiet its ∧ paths its = full := by
  obtain ⟨-, o, ho, hemits⟩ := h.trail ⟨[], [], false, true⟩ [] 0 rfl
    ⟨rfl, fun _ => rfl, fun _ hx => nomatch hx⟩
  have hmap : its.map (Option.map ([] ++ ·)) = its := by
    have hid : (Option.map fun p : List E => [] ++ p) = fun x => x := by
      funext x
      cases x <;> rfl
    rw [hid, List.map_id']
  rw [hmap] at hemits
  rw [ho, List.nil_append]
  exact hemits.reports_iff hstop hsub hfull

/-- A whole walk finds something if there is something to find. -/
theorem found_iff (h : Walks isStop stop its step) (save : Bool) :
    (step ⟨[], [], false, save⟩).found = true ↔ paths its ≠ [] := by
  rw [h.found, Bool.false_or, List.any_eq_true, paths, ne_eq, List.filterMap_eq_nil_iff]
  simp [Option.isSome_iff_ne_none]

end Walks

end Trail

end Hpb
