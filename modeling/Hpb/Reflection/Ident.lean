import Hpb.Reflection.DefBuilder

/-!
# Identifiers (`hpb/reflection/def_builder.c`)

The two fast checks of a name go over it without branches. They call the slow check only for its error message.

* `checkIdentSlow_part`, `checkIdentSlow_full`: the names in which the slow check finds no error,
* `identFullGood_iff`: what the loop of the fast check of a full name accepts,
* `checkIdent_agree`: how the checks agree. The fast check of a full name takes one dot at its end, too.
-/

namespace Hpb

namespace Reflection

/-- A letter or an underscore, then letters, underscores and digits. -/
def IsIdent : StrKey → Prop
  | [] => False
  | c :: cs => isLetter c = true ∧ ∀ d ∈ cs, (isLetter d || isDigit d) = true

/-- **One or more identifiers with dots between them.** -/
def Dotted (name : StrKey) : Prop :=
  ∃ parts : List StrKey, parts ≠ [] ∧ (∀ part ∈ parts, IsIdent part) ∧ name = [46].intercalate parts

/-! ### The slow check -/

theorem isLetter_dot : isLetter 46 = false := by decide

theorem isDigit_dot : isDigit 46 = false := by decide

theorem IsIdent.dot_notMem {part : StrKey} (h : IsIdent part) : 46 ∉ part := by
  cases part with
  | nil => exact List.not_mem_nil
  | cons c cs =>
    intro hmem
    obtain hc | hc := List.mem_cons.mp hmem
    · exact absurd (hc ▸ h.1) (by decide)
    · exact absurd (h.2 46 hc) (by decide)

/-- Inside an identifier, the slow check without dots goes on to its end. -/
theorem checkIdentSlow_inside (name cs : StrKey) :
    checkIdentSlow name false false cs = .undefined ↔ ∀ d ∈ cs, (isLetter d || isDigit d) = true := by
  induction cs with
  | nil => simp [checkIdentSlow]
  | cons c cs ih =>
    rw [checkIdentSlow, List.forall_mem_cons]
    by_cases hdot : c = 46
    · subst hdot
      simp [isLetter_dot, isDigit_dot]
    by_cases hc : (isLetter c || isDigit c) = true
    · simp [hdot, hc, ih]
    · simp [hdot, hc]

/-- **The slow check finds no error in a relative name** if and only if the name is an identifier. -/
theorem checkIdentSlow_part (name cs : StrKey) : checkIdentSlow name false true cs = .undefined ↔ IsIdent cs := by
  cases cs with
  | nil => simp [checkIdentSlow, IsIdent]
  | cons c cs =>
    rw [checkIdentSlow, IsIdent]
    by_cases hdot : c = 46
    · subst hdot
      simp [isLetter_dot]
    by_cases hc : isLetter c = true
    · simp [hdot, hc, checkIdentSlow_inside]
    · simp [hdot, hc]

/-- With dots: the check is at the start of a part, or inside one. -/
theorem checkIdentSlow_parts (name cs : StrKey) :
    (checkIdentSlow name true true cs = .undefined ↔ ∀ part ∈ cs.splitOn 46, IsIdent part) ∧
      (checkIdentSlow name true false cs = .undefined ↔ ∃ part parts, cs.splitOn 46 = part :: parts ∧
        (∀ d ∈ part, (isLetter d || isDigit d) = true) ∧ ∀ part ∈ parts, IsIdent part) := by
  induction cs with
  | nil => simp [checkIdentSlow, IsIdent]
  | cons c cs ih =>
    obtain ⟨hstart, hinside⟩ := ih
    rw [checkIdentSlow, checkIdentSlow, List.splitOn_cons_eq_if_modifyHead]
    by_cases hdot : c = 46
    · subst hdot
      simp [hstart, IsIdent]
    obtain ⟨part, parts, hsplit⟩ := List.exists_cons_of_ne_nil (List.splitOn_ne_nil 46 cs)
    rw [hsplit] at hstart hinside
    have hne : (c == 46) = false := beq_eq_false_iff_ne.mpr hdot
    rw [hne, hsplit, if_neg Bool.false_ne_true, List.modifyHead_cons, if_neg hdot, if_neg hdot]
    constructor
    · by_cases hc : isLetter c = true
      · simp [hc, hinside, IsIdent]
      · simp [hc, IsIdent]
    · have hhead : ∀ p ps, (c :: part) :: parts = p :: ps ↔ p = c :: part ∧ ps = parts := by
        intro p ps
        rw [List.cons.injEq, eq_comm, eq_comm (a := parts)]
      rw [if_neg Bool.false_ne_true]
      cases hc : isLetter c || isDigit c with
      | true => simp [hinside, hhead, Bool.or_eq_true_iff.mp hc]
      | false => simp [hhead, Bool.or_eq_false_iff.mp hc]

/-- **The slow check finds no error in a full name** if and only if the name is identifiers with dots between them. -/
theorem checkIdentSlow_full (name cs : StrKey) : checkIdentSlow name true true cs = .undefined ↔ Dotted cs := by
  rw [(checkIdentSlow_parts name cs).1]
  constructor
  · intro h
    exact ⟨cs.splitOn 46, List.splitOn_ne_nil 46 cs, h, (List.intercalate_splitOn 46).symm⟩
  · rintro ⟨parts, hne, hparts, rfl⟩
    rwa [List.splitOn_intercalate 46 (fun part hpart => (hparts part hpart).dot_notMem) hne]

/-! ### The fast checks -/

theorem pure_ne_fail (f : Failure) : (pure () : Build Unit) ≠ Build.fail f := by
  intro h
  have := congrFun h ⟨[], [], [], 0⟩
  cases this

theorem fail_injective {f g : Failure} (h : (Build.fail f : Build Unit) = Build.fail g) : f = g := by
  have := congrFun h ⟨[], [], [], 0⟩
  cases this
  rfl

/-- A check that goes to the slow one for its error. -/
theorem ite_accepts {p : Prop} [Decidable p] {f : Failure} :
    (if p then pure () else Build.fail f) = (pure () : Build Unit) ↔ p := by
  constructor
  · intro h
    by_contra hp
    rw [if_neg hp] at h
    exact pure_ne_fail f h.symm
  · exact fun hp => if_pos hp

theorem ite_rejects {p : Prop} [Decidable p] {f g : Failure}
    (h : (if p then pure () else Build.fail f) = (Build.fail g : Build Unit)) : ¬p ∧ f = g := by
  by_cases hp : p
  · rw [if_pos hp] at h
    exact absurd h (pure_ne_fail g)
  · rw [if_neg hp] at h
    exact ⟨hp, fail_injective h⟩

/-- One round of the slow check of a full name. -/
theorem checkIdentSlow_cons (name : StrKey) (start : Bool) (c : UInt8) (cs : StrKey) :
    checkIdentSlow name true start (c :: cs) = .undefined ↔
      (c = 46 ∧ start = false ∧ checkIdentSlow name true true cs = .undefined) ∨
        (c ≠ 46 ∧ (isLetter c || isDigit c && !start) = true ∧ checkIdentSlow name true false cs = .undefined) := by
  rw [checkIdentSlow]
  by_cases hdot : c = 46
  · cases start <;> simp [hdot]
  · cases start <;> cases hl : isLetter c <;> cases hd : isDigit c <;> simp [hdot]

/-- One round of the fast check. -/
theorem identFullGood_cons (start : Bool) (c : UInt8) (cs : StrKey) :
    identFullGood start (c :: cs) = true ↔ (c = 46 ∧ start = false ∧ identFullGood true cs = true) ∨
      (c ≠ 46 ∧ (isLetter c || isDigit c && !start) = true ∧ identFullGood false cs = true) := by
  rw [identFullGood]
  by_cases hdot : c = 46
  · subst hdot
    cases start <;> simp [isLetter_dot, isDigit_dot]
  · simp [hdot]

/-- **The loop of the fast check** goes on where the slow one does, and over the end of a name that ends in a dot. -/
theorem identFullGood_iff (name cs : StrKey) (start : Bool) :
    identFullGood start cs = true ↔ checkIdentSlow name true start cs = .undefined ∨ (start = true ∧ cs = []) ∨
      ∃ p, cs = p ++ [46] ∧ checkIdentSlow name true start p = .undefined := by
  induction cs generalizing start with
  | nil => cases start <;> simp [identFullGood, checkIdentSlow]
  | cons c cs ih =>
    have hlast : (∃ p, c :: cs = p ++ [46] ∧ checkIdentSlow name true start p = .undefined) ↔
        (c = 46 ∧ cs = [] ∧ start = false) ∨
          ∃ p, cs = p ++ [46] ∧ checkIdentSlow name true start (c :: p) = .undefined := by
      constructor
      · rintro ⟨p, hp, hslow⟩
        cases p with
        | nil =>
          cases hp
          cases start with
          | true => cases hslow
          | false => exact .inl ⟨rfl, rfl, rfl⟩
        | cons a p =>
          cases hp
          exact .inr ⟨p, rfl, hslow⟩
      · rintro (⟨rfl, rfl, rfl⟩ | ⟨p, rfl, hslow⟩)
        · exact ⟨[], rfl, rfl⟩
        · exact ⟨c :: p, rfl, hslow⟩
    rw [identFullGood_cons, ih true, ih false, hlast, checkIdentSlow_cons]
    simp only [checkIdentSlow_cons]
    by_cases hdot : c = 46
    · cases start <;> simp [hdot]
    · grind

/-- **How the checks of a name agree**: the check of a relative name with the slow one; the check of a full name too,
but for a name with one dot behind it. Neither gets to the end of the slow check. -/
theorem checkIdent_agree :
    (∀ name, checkIdentNotFull name = pure () ↔ checkIdentSlow name false true name = .undefined) ∧
      (∀ name, checkIdentFull name = pure () ↔ checkIdentSlow name true true name = .undefined ∨
        ∃ p, name = p ++ [46] ∧ checkIdentSlow p true true p = .undefined) ∧
      (∀ name, checkIdentNotFull name ≠ Build.fail .undefined ∧ checkIdentFull name ≠ Build.fail .undefined) ∧
      ∀ name, checkIdentFull name = pure () → Dotted name ∨ ∃ p, name = p ++ [46] ∧ Dotted p := by
  have hpart : ∀ name, checkIdentNotFull name = pure () ↔ checkIdentSlow name false true name = .undefined := by
    intro name
    unfold checkIdentNotFull
    rw [checkIdentSlow_part, ite_accepts]
    cases name with
    | nil => simp [IsIdent]
    | cons c cs => simp [IsIdent]
  have hfull : ∀ name, checkIdentFull name = pure () ↔ checkIdentSlow name true true name = .undefined ∨
      ∃ p, name = p ++ [46] ∧ checkIdentSlow p true true p = .undefined := by
    intro name
    rw [checkIdentFull, ite_accepts, identFullGood_iff name]
    simp only [checkIdentSlow_full]
    constructor
    · rintro ⟨hne, h | ⟨-, h⟩ | h⟩
      · exact .inl h
      · exact absurd h hne
      · exact .inr h
    · rintro (h | ⟨p, rfl, h⟩)
      · refine ⟨?_, .inl h⟩
        rintro rfl
        exact absurd ((checkIdentSlow_full [] []).mpr h) (by simp [checkIdentSlow])
      · exact ⟨by simp, .inr (.inr ⟨p, rfl, h⟩)⟩
  refine ⟨hpart, hfull, fun name => ⟨fun h => ?_, fun h => ?_⟩, fun name h => ?_⟩
  · have hslow : checkIdentSlow name false true name = .undefined := by
      unfold checkIdentNotFull at h
      exact (ite_rejects h).2
    exact absurd (((hpart name).mpr hslow).symm.trans h) (pure_ne_fail _)
  · have hslow : checkIdentSlow name true true name = .undefined := by
      unfold checkIdentFull at h
      exact (ite_rejects h).2
    exact absurd (((hfull name).mpr (.inl hslow)).symm.trans h) (pure_ne_fail _)
  · simpa only [checkIdentSlow_full] using (hfull name).mp h

/-- The name `foo.`: the fast check takes it, the slow one finds an empty part in it. -/
theorem not_checkIdent_agree :
    checkIdentFull [102, 111, 111, 46] = pure () ∧
      checkIdentSlow [102, 111, 111, 46] true true [102, 111, 111, 46] =
        .error "invalid name: empty part (%.*s)" [.str [102, 111, 111, 46]] ∧
      ¬Dotted [102, 111, 111, 46] := by
  refine ⟨ite_accepts.mpr (by decide), by decide, fun h => ?_⟩
  exact absurd ((checkIdentSlow_full [] _).mpr h) (by decide)

end Reflection

end Hpb
