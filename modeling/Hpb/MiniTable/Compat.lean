import Mathlib.Data.List.Perm.Subperm
import Hpb.MiniTable.Field
import Hpb.MiniTable.Schema

/-!
# Comparing mini tables (`hpb/mini_table/compat.c`)

`hpb_deep_check` looks every field of one table up in another one and compares the two, then their sub-tables. It does
not look at what it finds before it reads it, and has no end where the tables have none.

* `Same`, `Trips`: the two ways in which a check may go on to the end, or to a field that is missing.
* `deepCheck_same`, `deepCheck_trips` and their converses: what a check comes to.
* `deepCheck_ends`: it comes to an end if there is no cycle of sub-messages.
* `equalsRight_iff`: when `hpb_MiniTable_Equals` and `hpb_MiniTable_Compatible` are defined, and then they are right.
-/

namespace Hpb

/-- What a check comes to: a result, or a read through a pointer that is `NULL` or that points to no table. -/
inductive Checked where
  | done (result : Bool)
  | fault
  deriving DecidableEq, Repr

namespace MiniTable

/-- `hpb_MiniTable_FindFieldByNumber`: the field. -/
def fieldByNumber (t : MiniTable) (number : Nat) : Option MiniTableField :=
  (findFieldByNumber t.fields t.denseBelow t.fieldCount number).bind fun i => t.fields[i]?

end MiniTable

/-- What `hpb_deep_check` compares of two fields. -/
def MiniTableField.Matches (f g : MiniTableField) : Prop :=
  f.cType = g.cType ∧ f.mode = g.mode ∧ f.offset = g.offset ∧ f.presence = g.presence ∧ f.submsgIndex = g.submsgIndex

instance (f g : MiniTableField) : Decidable (f.Matches g) := inferInstanceAs (Decidable (_ ∧ _))

namespace Schema

/-- The loop of `hpb_deep_check`, where `check` is the call of `hpb_MiniTable_Equals`. -/
def checkFields (check : Nat → Nat → Option Checked) (src dst : MiniTable) (eq : Bool) :
    List MiniTableField → Option Checked
  | [] => some (.done true)
  | f :: fields =>
    match dst.fieldByNumber f.number with
    | none => some .fault
    | some g =>
      if ¬f.Matches g then some (.done false)
      else if ¬eq then checkFields check src dst eq fields -- only checking for compatibility
      else if f.cType = .message then
        match src.getSubMessageTable f, dst.getSubMessageTable g with
        | some none, some _ => checkFields check src dst eq fields
        | some (some a), some (some b) =>
          match check a b with
          | some (.done true) => checkFields check src dst eq fields
          | r => r
        | _, _ => some .fault
      else checkFields check src dst eq fields

/-- `hpb_deep_check`, if calls are nested at most `fuel` deep. -/
def deepCheck (s : Schema) : Nat → TableRef → TableRef → Bool → Option Checked
  | 0, _, _, _ => none
  | fuel + 1, src, dst, eq =>
    if (s.table src).fieldCount ≠ (s.table dst).fieldCount then some (.done false)
    else checkFields (fun a b => s.deepCheck fuel (.table a) (.table b) true) (s.table src) (s.table dst) eq
      (s.table src).fields

/-- The call comes to `r`. -/
def Ends (s : Schema) (src dst : TableRef) (eq : Bool) (r : Checked) : Prop := ∃ fuel, s.deepCheck fuel src dst eq = some r

/-- All sub-message fields are linked. -/
def Linked (s : Schema) : Prop :=
  ∀ t, ∀ f ∈ (s.table t).fields, f.cType = .message → ∃ id, (s.table t).getSubMessageTable f = some (some id)

/-- `a` is the table of a sub-message field of `b`. -/
def SubOf (s : Schema) (a b : TableRef) : Prop :=
  ∃ f ∈ (s.table b).fields, f.cType = .message ∧ ∃ id, (s.table b).getSubMessageTable f = some (some id) ∧ a = .table id

/-- **Two tables have the same fields**, and with `eq` the same sub-tables, which have an end. -/
inductive Same (s : Schema) : TableRef → TableRef → Bool → Prop where
  | intro {a b : TableRef} {eq : Bool} (hcount : (s.table a).fieldCount = (s.table b).fieldCount)
      (hfields : ∀ f ∈ (s.table a).fields, ∃ g, (s.table b).fieldByNumber f.number = some g ∧ f.Matches g)
      (hsubs : eq = true → ∀ f ∈ (s.table a).fields, f.cType = .message → ∀ g, (s.table b).fieldByNumber f.number = some g →
        ∀ i j, (s.table a).getSubMessageTable f = some (some i) → (s.table b).getSubMessageTable g = some (some j) →
          Same s (.table i) (.table j) true) : Same s a b eq

/-- The field `f` of `a` is in `b`, and with `eq` the sub-tables are the same. -/
def SameField (s : Schema) (a b : TableRef) (eq : Bool) (f : MiniTableField) : Prop :=
  ∃ g, (s.table b).fieldByNumber f.number = some g ∧ f.Matches g ∧
    (eq = true → f.cType = .message → ∀ i j, (s.table a).getSubMessageTable f = some (some i) →
      (s.table b).getSubMessageTable g = some (some j) → s.Same (.table i) (.table j) true)

/-- **The first difference of two tables is a field that the second one does not have**, or with `eq` it is in the
sub-tables of a field, and is such a field there. -/
inductive Trips (s : Schema) : TableRef → TableRef → Bool → Prop where
  | missing {a b : TableRef} {eq : Bool} {before after : List MiniTableField} {f : MiniTableField}
      (hcount : (s.table a).fieldCount = (s.table b).fieldCount) (hfields : (s.table a).fields = before ++ f :: after)
      (hbefore : ∀ f ∈ before, s.SameField a b eq f) (hf : (s.table b).fieldByNumber f.number = none) : Trips s a b eq
  | sub {a b : TableRef} {before after : List MiniTableField} {f g : MiniTableField} {i j : Nat}
      (hcount : (s.table a).fieldCount = (s.table b).fieldCount) (hfields : (s.table a).fields = before ++ f :: after)
      (hbefore : ∀ f ∈ before, s.SameField a b true f) (hf : (s.table b).fieldByNumber f.number = some g)
      (hmatches : f.Matches g) (hmessage : f.cType = .message) (hi : (s.table a).getSubMessageTable f = some (some i))
      (hj : (s.table b).getSubMessageTable g = some (some j)) (htrips : Trips s (.table i) (.table j) true) :
      Trips s a b true

section

variable {s : Schema} {a b : TableRef} {eq : Bool} {f g : MiniTableField} {fields : List MiniTableField}
  {check check' : Nat → Nat → Option Checked} {r r' : Checked} {n m : Nat}

/-! ### One field -/

theorem fieldByNumber_of_mem (hf : f ∈ (s.table a).fields) : (s.table a).fieldByNumber f.number = some f := by
  obtain ⟨i, hi⟩ := List.mem_iff_getElem?.mp hf
  unfold MiniTable.fieldByNumber
  rw [s.table_fieldCount, MiniTable.findFieldByNumber_eq (s.table_searchable a) hi, Option.bind_some, hi]

theorem fieldByNumber_eq_some {number : Nat} (hg : (s.table a).fieldByNumber number = some g) :
    g ∈ (s.table a).fields ∧ g.number = number := by
  obtain ⟨i, hi, hg⟩ := Option.bind_eq_some_iff.mp hg
  obtain ⟨g', hg', hnumber⟩ := MiniTable.findFieldByNumber_some (s.table_searchable a) hi
  obtain rfl := Option.some.inj (hg.symm.trans hg')
  exact ⟨List.mem_of_getElem? hg, hnumber⟩

/-- The field `f` of `a` is in `b`, and with `eq` its sub-tables pass `check`. -/
def Passes (s : Schema) (check : Nat → Nat → Option Checked) (a b : TableRef) (eq : Bool) (f : MiniTableField) : Prop :=
  ∃ g, (s.table b).fieldByNumber f.number = some g ∧ f.Matches g ∧
    (eq = true → f.cType = .message → ∀ i j, (s.table a).getSubMessageTable f = some (some i) →
      (s.table b).getSubMessageTable g = some (some j) → check i j = some (.done true))

/-- Both sub-tables are there. -/
theorem Linked.subs (h : s.Linked) (hf : f ∈ (s.table a).fields) (hg : (s.table b).fieldByNumber f.number = some g)
    (hmatches : f.Matches g) (hmessage : f.cType = .message) :
    ∃ i j, (s.table a).getSubMessageTable f = some (some i) ∧ (s.table b).getSubMessageTable g = some (some j) := by
  obtain ⟨i, hi⟩ := h a f hf hmessage
  obtain ⟨j, hj⟩ := h b g (fieldByNumber_eq_some hg).1 (hmatches.1.symm.trans hmessage)
  exact ⟨i, j, hi, hj⟩

theorem checkFields_pass (h : s.Linked) (hf : f ∈ (s.table a).fields) (hpass : s.Passes check a b eq f) :
    checkFields check (s.table a) (s.table b) eq (f :: fields) =
      checkFields check (s.table a) (s.table b) eq fields := by
  obtain ⟨g, hg, hmatches, hsub⟩ := hpass
  rw [checkFields, hg]
  dsimp only
  rw [if_neg (not_not.mpr hmatches)]
  split
  · rfl
  · next heq =>
    split
    · next hmessage =>
      obtain ⟨i, j, hi, hj⟩ := h.subs hf hg hmatches hmessage
      rw [hi, hj]
      dsimp only
      rw [hsub (by simpa using heq) hmessage i j hi hj]
    · rfl

theorem checkFields_missing (hf : (s.table b).fieldByNumber f.number = none) :
    checkFields check (s.table a) (s.table b) eq (f :: fields) = some .fault := by
  rw [checkFields, hf]

theorem checkFields_sub (hg : (s.table b).fieldByNumber f.number = some g) (hmatches : f.Matches g)
    (hmessage : f.cType = .message) {i j : Nat} (hi : (s.table a).getSubMessageTable f = some (some i))
    (hj : (s.table b).getSubMessageTable g = some (some j)) (hr : r ≠ .done true) (hcheck : check i j = some r) :
    checkFields check (s.table a) (s.table b) true (f :: fields) = some r := by
  rw [checkFields, hg]
  dsimp only
  rw [if_neg (not_not.mpr hmatches), if_neg (by simp), if_pos hmessage, hi, hj]
  dsimp only
  rw [hcheck]
  split
  · next hdone => exact absurd (Option.some.inj hdone) hr
  · rfl

/-- **Where a check stops**: behind the last field, or at the first one that does not pass. -/
theorem checkFields_stops (h : s.Linked) (hfields : ∀ f ∈ fields, f ∈ (s.table a).fields)
    (hr : checkFields check (s.table a) (s.table b) eq fields = some r) :
    (r = .done true ∧ ∀ f ∈ fields, s.Passes check a b eq f) ∨
      ∃ before f after, fields = before ++ f :: after ∧ (∀ f ∈ before, s.Passes check a b eq f) ∧
        ((s.table b).fieldByNumber f.number = none ∧ r = .fault ∨ r = .done false ∨
          ∃ g i j, (s.table b).fieldByNumber f.number = some g ∧ f.Matches g ∧ eq = true ∧ f.cType = .message ∧
            (s.table a).getSubMessageTable f = some (some i) ∧ (s.table b).getSubMessageTable g = some (some j) ∧
              check i j = some r ∧ r ≠ .done true) := by
  induction fields with
  | nil =>
    cases hr
    exact .inl ⟨rfl, fun f hf => absurd hf List.not_mem_nil⟩
  | cons f fields ih =>
    have hf := hfields f List.mem_cons_self
    by_cases hpass : s.Passes check a b eq f
    · rw [checkFields_pass h hf hpass] at hr
      obtain ⟨rfl, hall⟩ | ⟨before, f', after, rfl, hbefore, hstop⟩ := ih (fun f hf => hfields f (List.mem_cons_of_mem _ hf)) hr
      · exact .inl ⟨rfl, List.forall_mem_cons.mpr ⟨hpass, hall⟩⟩
      · exact .inr ⟨f :: before, f', after, rfl, List.forall_mem_cons.mpr ⟨hpass, hbefore⟩, hstop⟩
    · refine .inr ⟨[], f, fields, rfl, fun f hf => absurd hf List.not_mem_nil, ?_⟩
      cases hg : (s.table b).fieldByNumber f.number with
      | none =>
        rw [checkFields_missing hg] at hr
        cases hr
        exact .inl ⟨rfl, rfl⟩
      | some g =>
        by_cases hmatches : f.Matches g
        · obtain ⟨heq, hmessage⟩ : eq = true ∧ f.cType = .message := by
            by_contra hno
            exact hpass ⟨g, hg, hmatches, fun heq hmessage => absurd ⟨heq, hmessage⟩ hno⟩
          subst heq
          obtain ⟨i, j, hi, hj⟩ := h.subs hf hg hmatches hmessage
          rw [checkFields, hg] at hr
          dsimp only at hr
          rw [if_neg (not_not.mpr hmatches), if_neg (by simp), if_pos hmessage, hi, hj] at hr
          dsimp only at hr
          split at hr
          · next hdone =>
            refine absurd ⟨g, hg, hmatches, fun _ _ i' j' hi' hj' => ?_⟩ hpass
            rw [hi] at hi'
            rw [hj] at hj'
            cases hi'
            cases hj'
            exact hdone
          · next hnot =>
            exact .inr (.inr ⟨g, i, j, rfl, hmatches, rfl, hmessage, hi, hj, hr, fun he => hnot (he ▸ hr)⟩)
        · rw [checkFields, hg] at hr
          dsimp only at hr
          rw [if_pos hmatches] at hr
          cases hr
          exact .inr (.inl rfl)

/-! ### More fuel -/

theorem checkFields_mono {src dst : MiniTable} (h : ∀ i j r, check i j = some r → check' i j = some r)
    (hr : checkFields check src dst eq fields = some r) : checkFields check' src dst eq fields = some r := by
  induction fields with
  | nil => exact hr
  | cons f fields ih =>
    rw [checkFields] at hr ⊢
    cases hg : dst.fieldByNumber f.number with
    | none =>
      rw [hg] at hr
      exact hr
    | some g =>
      rw [hg] at hr
      dsimp only at hr ⊢
      split at hr
      · next hmatches => rwa [if_pos hmatches]
      · next hmatches =>
        rw [if_neg hmatches]
        split at hr
        · next heq =>
          rw [if_pos heq]
          exact ih hr
        · next heq =>
          rw [if_neg heq]
          split at hr
          · next hmessage =>
            rw [if_pos hmessage]
            split at hr
            · exact ih hr
            · next i j _ _ =>
              cases hcheck : check i j with
              | none =>
                rw [hcheck] at hr
                cases hr
              | some c =>
                rw [hcheck] at hr
                rw [h _ _ _ hcheck]
                cases c with
                | fault => exact hr
                | done c =>
                  cases c with
                  | false => exact hr
                  | true => exact ih hr
            · exact hr
          · next hmessage =>
            rw [if_neg hmessage]
            exact ih hr

theorem deepCheck_mono (h : s.deepCheck n a b eq = some r) (hle : n ≤ m) : s.deepCheck m a b eq = some r := by
  induction n generalizing m a b eq r with
  | zero => cases h
  | succ n ih =>
    obtain ⟨m, rfl⟩ := Nat.exists_eq_add_of_le' (Nat.le_trans (Nat.succ_le_succ (Nat.zero_le n)) hle)
    rw [deepCheck] at h ⊢
    split at h
    · next hcount => rwa [if_pos hcount]
    · next hcount =>
      rw [if_neg hcount]
      exact checkFields_mono (fun i j r hr => ih hr (Nat.le_of_succ_le_succ hle)) h

/-- A call comes to one outcome. -/
theorem Ends.unique (h : s.Ends a b eq r) (h' : s.Ends a b eq r') : r = r' := by
  obtain ⟨n, hn⟩ := h
  obtain ⟨m, hm⟩ := h'
  have hn := deepCheck_mono hn (Nat.le_max_left n m)
  have hm := deepCheck_mono hm (Nat.le_max_right n m)
  exact Option.some.inj (hn.symm.trans hm)

/-! ### What a check comes to -/

variable (eq) in
/-- Fields that pass are passed with enough fuel. -/
theorem checkFields_prefix {before : List MiniTableField} (h : s.Linked) (hmem : ∀ f ∈ before, f ∈ (s.table a).fields)
    (hpass : ∀ f ∈ before, ∃ g, (s.table b).fieldByNumber f.number = some g ∧ f.Matches g ∧
      (eq = true → f.cType = .message → ∀ i j, (s.table a).getSubMessageTable f = some (some i) →
        (s.table b).getSubMessageTable g = some (some j) → s.Ends (.table i) (.table j) true (.done true))) :
    ∃ n, ∀ m, n ≤ m → ∀ rest, checkFields (fun i j => s.deepCheck m (.table i) (.table j) true) (s.table a) (s.table b) eq
      (before ++ rest) = checkFields (fun i j => s.deepCheck m (.table i) (.table j) true) (s.table a) (s.table b) eq rest := by
  induction before with
  | nil => exact ⟨0, fun m _ rest => rfl⟩
  | cons f before ih =>
    obtain ⟨n₁, h₁⟩ := ih (fun f hf => hmem f (List.mem_cons_of_mem _ hf)) (fun f hf => hpass f (List.mem_cons_of_mem _ hf))
    have hf := hmem f List.mem_cons_self
    obtain ⟨g, hg, hmatches, hends⟩ := hpass f List.mem_cons_self
    obtain ⟨n₂, h₂⟩ : ∃ n, ∀ m, n ≤ m → s.Passes (fun i j => s.deepCheck m (.table i) (.table j) true) a b eq f := by
      by_cases hsub : eq = true ∧ f.cType = .message
      · obtain ⟨i, j, hi, hj⟩ := h.subs hf hg hmatches hsub.2
        obtain ⟨n, hn⟩ := hends hsub.1 hsub.2 i j hi hj
        refine ⟨n, fun m hle => ⟨g, hg, hmatches, fun _ _ i' j' hi' hj' => ?_⟩⟩
        rw [hi] at hi'
        rw [hj] at hj'
        cases hi'
        cases hj'
        exact deepCheck_mono hn hle
      · exact ⟨0, fun m _ => ⟨g, hg, hmatches, fun heq hmessage => absurd ⟨heq, hmessage⟩ hsub⟩⟩
    refine ⟨max n₁ n₂, fun m hle rest => ?_⟩
    rw [List.cons_append, checkFields_pass h hf (h₂ m (Nat.le_trans (Nat.le_max_right _ _) hle)),
      h₁ m (Nat.le_trans (Nat.le_max_left _ _) hle)]

theorem ends_of_checkFields (hcount : (s.table a).fieldCount = (s.table b).fieldCount)
    (h : checkFields (fun i j => s.deepCheck n (.table i) (.table j) true) (s.table a) (s.table b) eq (s.table a).fields =
      some r) : s.Ends a b eq r := by
  refine ⟨n + 1, ?_⟩
  rw [deepCheck, if_neg (not_not.mpr hcount)]
  exact h

/-- Tables that are the same pass. -/
theorem Same.ends (hl : s.Linked) (h : s.Same a b eq) : s.Ends a b eq (.done true) := by
  induction h with
  | @intro a b eq hcount hfields hsubs ih =>
    obtain ⟨n, hn⟩ := checkFields_prefix eq hl (fun f hf => hf) fun f hf => by
      obtain ⟨g, hg, hmatches⟩ := hfields f hf
      exact ⟨g, hg, hmatches, fun heq hmessage => ih heq f hf hmessage g hg⟩
    have hrest := hn n (Nat.le_refl n) []
    rw [List.append_nil] at hrest
    exact ends_of_checkFields hcount hrest

/-- A missing field is met. -/
theorem Trips.ends (hl : s.Linked) (h : s.Trips a b eq) : s.Ends a b eq .fault := by
  have hprefix : ∀ {a b : TableRef} {eq : Bool} {before after : List MiniTableField} {f : MiniTableField},
      (s.table a).fields = before ++ f :: after → (∀ f ∈ before, s.SameField a b eq f) → ∃ n, ∀ m, n ≤ m →
        checkFields (fun i j => s.deepCheck m (.table i) (.table j) true) (s.table a) (s.table b) eq (s.table a).fields =
          checkFields (fun i j => s.deepCheck m (.table i) (.table j) true) (s.table a) (s.table b) eq (f :: after) := by
    intro a b eq before after f hfields hbefore
    have hmem : ∀ f ∈ before, f ∈ (s.table a).fields := by
      rw [hfields]
      exact fun f hf => List.mem_append_left _ hf
    obtain ⟨n, hn⟩ := checkFields_prefix eq hl hmem fun f hf => by
      obtain ⟨g, hg, hmatches, hsame⟩ := hbefore f hf
      exact ⟨g, hg, hmatches, fun heq hmessage i j hi hj => (hsame heq hmessage i j hi hj).ends hl⟩
    exact ⟨n, fun m hle => hfields ▸ hn m hle (f :: after)⟩
  induction h with
  | missing hcount hfields hbefore hf =>
    obtain ⟨n, hn⟩ := hprefix hfields hbefore
    exact ends_of_checkFields hcount ((hn n (Nat.le_refl n)).trans (checkFields_missing hf))
  | sub hcount hfields hbefore hg hmatches hmessage hi hj _ ih =>
    obtain ⟨n₁, h₁⟩ := hprefix hfields hbefore
    obtain ⟨n₂, h₂⟩ := ih
    have hcheck := deepCheck_mono h₂ (Nat.le_max_right n₁ n₂)
    refine ends_of_checkFields hcount ((h₁ _ (Nat.le_max_left n₁ n₂)).trans ?_)
    exact checkFields_sub hg hmatches hmessage hi hj (by simp) hcheck

theorem Passes.sameField (h : s.Passes check a b eq f)
    (hcheck : ∀ i j, check i j = some (.done true) → s.Same (.table i) (.table j) true) : s.SameField a b eq f := by
  obtain ⟨g, hg, hmatches, hsub⟩ := h
  exact ⟨g, hg, hmatches, fun heq hmessage i j hi hj => hcheck i j (hsub heq hmessage i j hi hj)⟩

/-- **A check that passes has seen the same tables**, and one that meets a missing field has seen that. -/
theorem deepCheck_inv (hl : s.Linked) (h : s.deepCheck n a b eq = some r) :
    (r = .done true → s.Same a b eq) ∧ (r = .fault → s.Trips a b eq) := by
  induction n generalizing a b eq r with
  | zero => cases h
  | succ n ih =>
    rw [deepCheck] at h
    by_cases hcount : (s.table a).fieldCount = (s.table b).fieldCount
    · rw [if_neg (not_not.mpr hcount)] at h
      have hsame : ∀ i j, s.deepCheck n (.table i) (.table j) true = some (.done true) →
          s.Same (.table i) (.table j) true := fun i j hij => (ih hij).1 rfl
      obtain ⟨rfl, hall⟩ | ⟨before, f, after, hfields, hbefore, hstop⟩ := checkFields_stops hl (fun f hf => hf) h
      · refine ⟨fun _ => ⟨hcount, fun f hf => ?_, fun heq f hf hmessage g hg => ?_⟩, fun hr => by cases hr⟩
        · obtain ⟨g, hg, hmatches, -⟩ := hall f hf
          exact ⟨g, hg, hmatches⟩
        · obtain ⟨g', hg', -, hsub⟩ := hall f hf
          obtain rfl := Option.some.inj (hg.symm.trans hg')
          exact fun i j hi hj => hsame i j (hsub heq hmessage i j hi hj)
      · have hbefore : ∀ f ∈ before, s.SameField a b eq f := fun f hf => (hbefore f hf).sameField hsame
        obtain ⟨hf, rfl⟩ | rfl | ⟨g, i, j, hg, hmatches, rfl, hmessage, hi, hj, hcheck, hne⟩ := hstop
        · exact ⟨fun hr => (by cases hr), fun _ => .missing hcount hfields hbefore hf⟩
        · exact ⟨fun hr => (by cases hr), fun hr => by cases hr⟩
        · refine ⟨fun hr => absurd hr hne, fun hr => ?_⟩
          exact .sub hcount hfields hbefore hg hmatches hmessage hi hj ((ih hcheck).2 hr)
    · rw [if_pos hcount] at h
      cases h
      exact ⟨fun hr => (by cases hr), fun hr => by cases hr⟩

theorem ends_done_iff (hl : s.Linked) : s.Ends a b eq (.done true) ↔ s.Same a b eq :=
  ⟨fun ⟨_, h⟩ => (deepCheck_inv hl h).1 rfl, fun h => h.ends hl⟩

theorem ends_fault_iff (hl : s.Linked) : s.Ends a b eq .fault ↔ s.Trips a b eq :=
  ⟨fun ⟨_, h⟩ => (deepCheck_inv hl h).2 rfl, fun h => h.ends hl⟩

variable (b eq) in
/-- **A check comes to an end** if the sub-messages do. -/
theorem deepCheck_ends (hl : s.Linked) (h : Acc s.SubOf a) : ∃ r, s.Ends a b eq r := by
  induction h generalizing b eq with
  | intro a _ ih =>
    by_cases hcount : (s.table a).fieldCount = (s.table b).fieldCount
    · have hall : ∀ fields : List MiniTableField, (∀ f ∈ fields, f ∈ (s.table a).fields) → ∃ n r, ∀ m, n ≤ m →
          checkFields (fun i j => s.deepCheck m (.table i) (.table j) true) (s.table a) (s.table b) eq fields = some r := by
        intro fields
        induction fields with
        | nil => exact fun _ => ⟨0, _, fun m _ => rfl⟩
        | cons f fields ihf =>
          intro hmem
          have hf := hmem f List.mem_cons_self
          obtain ⟨n₁, r₁, h₁⟩ := ihf fun f hf => hmem f (List.mem_cons_of_mem _ hf)
          cases hg : (s.table b).fieldByNumber f.number with
          | none => exact ⟨0, _, fun m _ => checkFields_missing hg⟩
          | some g =>
            by_cases hmatches : f.Matches g
            · by_cases hsub : eq = true ∧ f.cType = .message
              · obtain ⟨rfl, hmessage⟩ := hsub
                obtain ⟨i, j, hi, hj⟩ := hl.subs hf hg hmatches hmessage
                obtain ⟨r₂, n₂, h₂⟩ := ih (.table i) ⟨f, hf, hmessage, i, hi, rfl⟩ (.table j) true
                by_cases hr : r₂ = .done true
                · subst hr
                  refine ⟨max n₁ n₂, r₁, fun m hle => ?_⟩
                  rw [checkFields_pass hl hf, h₁ m (Nat.le_trans (Nat.le_max_left _ _) hle)]
                  refine ⟨g, hg, hmatches, fun _ _ i' j' hi' hj' => ?_⟩
                  rw [hi] at hi'
                  rw [hj] at hj'
                  cases hi'
                  cases hj'
                  exact deepCheck_mono h₂ (Nat.le_trans (Nat.le_max_right _ _) hle)
                · exact ⟨n₂, r₂, fun m hle => checkFields_sub hg hmatches hmessage hi hj hr (deepCheck_mono h₂ hle)⟩
              · refine ⟨n₁, r₁, fun m hle => ?_⟩
                rw [checkFields_pass hl hf, h₁ m hle]
                exact ⟨g, hg, hmatches, fun heq hmessage => absurd ⟨heq, hmessage⟩ hsub⟩
            · refine ⟨0, .done false, fun m _ => ?_⟩
              rw [checkFields, hg]
              dsimp only
              rw [if_pos hmatches]
      obtain ⟨n, r, hn⟩ := hall (s.table a).fields fun f hf => hf
      exact ⟨r, ends_of_checkFields hcount (hn n (Nat.le_refl n))⟩
    · exact ⟨.done false, 1, by rw [deepCheck, if_pos hcount]⟩

/-! ### Tables that are the same -/

theorem Same.refl (h : Acc s.SubOf a) : s.Same a a eq := by
  induction h generalizing eq with
  | intro a _ ih =>
    refine .intro rfl (fun f hf => ⟨f, fieldByNumber_of_mem hf, rfl, rfl, rfl, rfl, rfl⟩) ?_
    intro heq f hf hmessage g hg i j hi hj
    obtain rfl := Option.some.inj ((fieldByNumber_of_mem hf).symm.trans hg)
    rw [hi] at hj
    cases hj
    exact ih (.table i) ⟨f, hf, hmessage, i, hi, rfl⟩

/-- A table that is the same as itself has an end. -/
theorem Same.acc (h : s.Same a b eq) (hab : a = b) (heq : eq = true) : Acc s.SubOf a := by
  induction h with
  | intro hcount hfields hsubs ih =>
    subst hab
    refine ⟨_, fun y hy => ?_⟩
    obtain ⟨f, hf, hmessage, i, hi, rfl⟩ := hy
    exact ih heq f hf hmessage f (fieldByNumber_of_mem hf) i i hi hi rfl rfl

theorem numbers_nodup (s : Schema) (a : TableRef) : ((s.table a).fields.map (·.number)).Nodup := by
  rw [List.nodup_iff_pairwise_ne, List.pairwise_map]
  exact (s.table_searchable a).ascending.imp fun hlt => Nat.ne_of_lt hlt

/-- With as many fields as `a`, all of them in `a`, `b` has no other fields. -/
theorem exists_field (hcount : (s.table a).fieldCount = (s.table b).fieldCount)
    (h : ∀ f ∈ (s.table a).fields, ∃ g, (s.table b).fieldByNumber f.number = some g ∧ f.Matches g)
    (hg : g ∈ (s.table b).fields) : ∃ f ∈ (s.table a).fields, f.number = g.number := by
  have hsub : (s.table a).fields.map (·.number) ⊆ (s.table b).fields.map (·.number) := by
    intro number hin
    obtain ⟨f, hf, rfl⟩ := List.mem_map.mp hin
    obtain ⟨g, hg, -⟩ := h f hf
    obtain ⟨hmem, hnumber⟩ := fieldByNumber_eq_some hg
    exact List.mem_map.mpr ⟨g, hmem, hnumber⟩
  have hlen : ((s.table b).fields.map (·.number)).length ≤ ((s.table a).fields.map (·.number)).length := by
    refine Nat.le_of_eq ?_
    rw [List.length_map, List.length_map, ← s.table_fieldCount, ← s.table_fieldCount, hcount]
  have hperm := (List.subperm_of_subset (s.numbers_nodup a) hsub).perm_of_length_le hlen
  exact List.mem_map.mp (hperm.mem_iff.mpr (List.mem_map.mpr ⟨g, hg, rfl⟩))

theorem Same.symm (h : s.Same a b eq) : s.Same b a eq := by
  induction h with
  | @intro a b eq hcount hfields hsubs ih =>
    have hpartner : ∀ g ∈ (s.table b).fields, ∃ f ∈ (s.table a).fields, (s.table a).fieldByNumber g.number = some f ∧
        (s.table b).fieldByNumber f.number = some g ∧ f.Matches g := by
      intro g hg
      obtain ⟨f, hf, hnumber⟩ := exists_field hcount hfields hg
      obtain ⟨g', hg', hmatches⟩ := hfields f hf
      have hfound := fieldByNumber_of_mem hg
      rw [← hnumber] at hfound
      obtain rfl := Option.some.inj (hg'.symm.trans hfound)
      exact ⟨f, hf, hnumber ▸ fieldByNumber_of_mem hf, hfound, hmatches⟩
    refine .intro hcount.symm (fun g hg => ?_) fun heq g hg hmessage f hf j i hj hi => ?_
    · obtain ⟨f, -, hf, -, hc, hm, ho, hp, hs⟩ := hpartner g hg
      exact ⟨f, hf, hc.symm, hm.symm, ho.symm, hp.symm, hs.symm⟩
    · obtain ⟨f', hmem, hf', hg', hmatches⟩ := hpartner g hg
      obtain rfl := Option.some.inj (hf.symm.trans hf')
      exact ih heq f hmem (hmatches.1.trans hmessage) g hg' i j hi hj

theorem Same.compatible (h : s.Same a b eq) : s.Same a b false := by
  obtain ⟨hcount, hfields, -⟩ := h
  exact .intro hcount hfields fun heq => by cases heq

/-! ### The two checks -/

/-- **`hpb_MiniTable_Equals` and `hpb_MiniTable_Compatible` come to a result** for the two tables, in both orders; the
first is reflexive and symmetric and implies the second. -/
structure EqualsRight (s : Schema) (a b : TableRef) : Prop where
  ends : ∀ eq, (∃ r, s.Ends a b eq (.done r)) ∧ ∃ r, s.Ends b a eq (.done r)
  refl : s.Ends a a true (.done true) ∧ s.Ends b b true (.done true)
  symm : ∀ r, s.Ends a b true (.done r) ↔ s.Ends b a true (.done r)
  compatible : s.Ends a b true (.done true) → s.Ends a b false (.done true)

/-- A check that ends and meets no missing field has a result. -/
theorem ends_done (hl : s.Linked) (h : Acc s.SubOf a) (hno : ¬s.Trips a b eq) : ∃ r, s.Ends a b eq (.done r) := by
  obtain ⟨r, hr⟩ := deepCheck_ends b eq hl h
  cases r with
  | done r => exact ⟨r, hr⟩
  | fault => exact absurd ((ends_fault_iff hl).mp hr) hno

/-- **The checks are defined and right** if and only if no sub-messages of the two tables go on without an end, and the
first difference of the tables, in either order, is no field that the other one does not have. -/
theorem equalsRight_iff (hl : s.Linked) : s.EqualsRight a b ↔
    Acc s.SubOf a ∧ Acc s.SubOf b ∧ ∀ eq, ¬s.Trips a b eq ∧ ¬s.Trips b a eq := by
  constructor
  · rintro ⟨hends, ⟨ha, hb⟩, -, -⟩
    refine ⟨((ends_done_iff hl).mp ha).acc rfl rfl, ((ends_done_iff hl).mp hb).acc rfl rfl, fun eq => ⟨fun h => ?_, fun h => ?_⟩⟩
    · obtain ⟨r, hr⟩ := (hends eq).1
      exact absurd (hr.unique (h.ends hl)) (by simp)
    · obtain ⟨r, hr⟩ := (hends eq).2
      exact absurd (hr.unique (h.ends hl)) (by simp)
  · rintro ⟨ha, hb, hno⟩
    have hsymm : ∀ {a b : TableRef}, Acc s.SubOf b → ¬s.Trips b a true → ∀ r, s.Ends a b true (.done r) →
        s.Ends b a true (.done r) := by
      intro a b hb hno r hr
      obtain ⟨r', hr'⟩ := ends_done hl hb hno
      suffices r' = r by rwa [← this]
      cases r' with
      | true =>
        have hsame := ((ends_done_iff hl).mp hr').symm.ends hl
        exact (Checked.done.inj (hsame.unique hr))
      | false =>
        cases r with
        | false => rfl
        | true =>
          have hsame := ((ends_done_iff hl).mp hr).symm.ends hl
          exact (Checked.done.inj (hr'.unique hsame))
    refine ⟨fun eq => ⟨ends_done hl ha (hno eq).1, ends_done hl hb (hno eq).2⟩,
      ⟨(Same.refl ha).ends hl, (Same.refl hb).ends hl⟩, fun r => ⟨hsymm hb (hno true).2 r, hsymm ha (hno true).1 r⟩,
      fun h => ?_⟩
    exact ((ends_done_iff hl).mp h).compatible.ends hl

end

/-- A message with one field, of a table in `tables`. -/
def oneField (f : MiniTableField) (sub : List MiniTableSub) : MiniTable := ⟨sub, [f], 16, 1, 0, 0, 255, 0⟩

theorem oneField_searchable (f : MiniTableField) (sub : List MiniTableSub) :
    MiniTable.Searchable (oneField f sub).fields (oneField f sub).denseBelow :=
  ⟨List.pairwise_singleton _ _, fun _ hi => absurd hi (Nat.not_lt_zero _)⟩

/-- A program whose tables have one field each. -/
def oneFields (field : Nat → MiniTableField) (sub : Nat → List MiniTableSub) : Schema where
  tables id := oneField (field id) (sub id)
  enums _ := ⟨0, 0, []⟩
  exts _ := ⟨⟨1, 0, 0, noSub, .int32, 66⟩, .empty, .emptyMessage⟩
  fieldCount_eq _ := rfl
  searchable _ := oneField_searchable _ _

/-- A message with an `int32` in a message. -/
def nested : Schema :=
  oneFields (fun id => if id = 0 then ⟨1, 8, 1, 0, .message, 194⟩ else ⟨1, 8, 1, noSub, .int32, 66⟩)
    fun id => if id = 0 then [.submsg 1] else []

theorem equalsRight_nested : nested.EqualsRight (.table 0) (.table 0) := by
  have hinner : ∀ id ≠ 0, ∀ f ∈ (nested.table (.table id)).fields, f.cType ≠ .message := by
    intro id hid f hf
    change f ∈ [if id = 0 then _ else _] at hf
    rw [if_neg hid, List.mem_singleton] at hf
    subst hf
    decide
  have hl : nested.Linked := by
    rintro (_ | id) f hf hmessage
    · exact absurd hf List.not_mem_nil
    · by_cases hid : id = 0
      · subst hid
        obtain rfl := List.mem_singleton.mp hf
        exact ⟨1, rfl⟩
      · exact absurd hmessage (hinner id hid f hf)
  have hacc : Acc nested.SubOf (.table 0) := by
    refine ⟨_, fun y hy => ⟨_, fun z hz => ?_⟩⟩
    obtain ⟨f, hf, -, i, hi, rfl⟩ := hy
    obtain rfl := List.mem_singleton.mp hf
    cases hi
    obtain ⟨g, hg, hmessage, -⟩ := hz
    exact absurd hmessage (hinner 1 (by decide) g hg)
  refine (equalsRight_iff hl).mpr ⟨hacc, hacc, fun eq => ?_⟩
  have hno : ¬nested.Trips (.table 0) (.table 0) eq := by
    intro h
    have hdone : nested.Ends (.table 0) (.table 0) eq (.done true) := ⟨2, by cases eq <;> decide⟩
    exact absurd (hdone.unique (h.ends hl)) (by simp)
  exact ⟨hno, hno⟩

/-- A message that contains itself. -/
def recursive : Schema := oneFields (fun _ => ⟨1, 8, 1, 0, .message, 194⟩) fun _ => [.submsg 0]

/-- Messages with one `int32`, with another number each. -/
def numbered : Schema := oneFields (fun id => ⟨id + 1, 8, 1, noSub, .int32, 66⟩) fun _ => []

/-- A recursive message is compared with itself without an end, and a field that is not in the other table is read. -/
theorem not_equalsRight : recursive.Linked ∧ (∀ fuel, recursive.deepCheck fuel (.table 0) (.table 0) true = none) ∧
    ¬recursive.EqualsRight (.table 0) (.table 0) ∧ numbered.Linked ∧
      numbered.Ends (.table 0) (.table 1) false .fault ∧ ¬numbered.EqualsRight (.table 0) (.table 1) := by
  have hnone : ∀ fuel, recursive.deepCheck fuel (.table 0) (.table 0) true = none := by
    intro fuel
    induction fuel with
    | zero => rfl
    | succ fuel ih =>
      have hstep : recursive.deepCheck (fuel + 1) (.table 0) (.table 0) true =
          match recursive.deepCheck fuel (.table 0) (.table 0) true with
          | some (.done true) => some (.done true)
          | r => r := rfl
      rw [hstep, ih]
  have hfault : numbered.Ends (.table 0) (.table 1) false .fault := ⟨1, by decide⟩
  refine ⟨?_, hnone, fun h => ?_, ?_, hfault, fun h => ?_⟩
  · rintro (_ | id) f hf -
    · exact absurd hf List.not_mem_nil
    · obtain rfl := List.mem_singleton.mp hf
      exact ⟨0, rfl⟩
  · obtain ⟨fuel, hr⟩ := h.refl.1
    rw [hnone] at hr
    cases hr
  · rintro (_ | id) f hf hmessage
    · exact absurd hf List.not_mem_nil
    · obtain rfl := List.mem_singleton.mp hf
      exact absurd ((MiniTableField.cType_message_iff _).mp hmessage) Bool.false_ne_true
  · obtain ⟨r, hr⟩ := (h.ends false).1
    exact absurd (hfault.unique hr) (by simp)

end Schema

end Hpb
