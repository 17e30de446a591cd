import Hpb.Mem.ArenaFree

/-!
# Calls that run alone return

`hpb_Arena_Fuse` and `hpb_Arena_Free` retry when another thread got in between, so a call need not
return while others keep changing its roots. It returns when it runs alone, from whatever state the
others left it in: after at most one more failed attempt it finds the roots as they are.

* `Safe`: the state has all the invariants, with some ghost state.
* `Safe.step_isSome`: no step touches an arena that is not in memory.
* `Safe.returns`: a thread that runs alone becomes idle.
-/

namespace Hpb

namespace ArenaSys

variable {T : Type} [DecidableEq T]

/-- `n` steps of thread `t` alone, without spurious failures. -/
def alone (t : T) : Nat → ArenaSys T → Option (ArenaSys T)
  | 0, s => some s
  | n + 1, s => do alone t n (← s.step t false)

/-- Thread `t` becomes idle when it runs alone. -/
def Returns (s : ArenaSys T) (t : T) : Prop := ∃ n s', s.alone t n = some s' ∧ s'.pc t = .idle

/-- A state with all the invariants. -/
def Safe [Fintype T] (s : ArenaSys T) : Prop := ∃ w π L, s.Inv w π L

section Solo

variable [Fintype T] {s s' : ArenaSys T} {t : T}

omit [Fintype T] in
theorem Returns.of_idle (h : s.pc t = .idle) : s.Returns t := ⟨0, s, rfl, h⟩

omit [Fintype T] in
theorem Returns.of_step (he : s.step t false = some s') (h : s'.Returns t) : s.Returns t := by
  obtain ⟨n, s'', hn, hi⟩ := h
  refine ⟨n + 1, s'', ?_, hi⟩
  simp only [alone, he]
  exact hn

theorem Safe.step (h : s.Safe) {sp : Bool} (he : s.step t sp = some s') : s'.Safe := by
  obtain ⟨w, π, L, h⟩ := h
  exact (h.refs.move (.step sp) trivial he).inv h

omit [DecidableEq T] in
theorem Safe.locals (h : s.Safe) (t : T) : s.PcOk (s.pc t) := by
  obtain ⟨w, π, L, h⟩ := h
  exact (h.refs.threads t).locals

omit [DecidableEq T] [Fintype T] in
/-- From an arena of a live class the `next` pointers come to an end. -/
theorem Links.exists_path {π : Addr → Option Addr} (h : s.Links π) {q : Addr} (hq : s.Managed q) :
    ∃ l, LinkedPath s.next (some q) l none := by
  classical
  have hn : ∀ x ∈ s.arenas.filter s.Managed, ∀ y, s.next x = some y →
      y ∈ s.arenas.filter s.Managed ∧ π y = some x := by
    intro x hx y hy
    have hxy := h.next x y (Finset.mem_filter.mp hx).2 hy
    have hym := (h.edge y x hxy).1
    exact ⟨Finset.mem_filter.mpr ⟨hym.1, hym⟩, hxy⟩
  obtain ⟨l, hl, -⟩ := h.grounded.exists_linkedPath hn (Finset.mem_filter.mpr ⟨hq.1, hq⟩)
  exact ⟨l, hl⟩

omit [DecidableEq T] in
/-- Where a thread has come to while splicing: in memory, and lists start there and at its tail. -/
theorem Safe.pos (h : s.Safe) {p q : Addr} (hp : (s.pc t).pos = some (p, q)) :
    q ∈ s.arenas ∧ (∃ l, LinkedPath s.next (some q) l none) ∧
      ∃ l, LinkedPath s.next (some (s.tail q)) l none := by
  obtain ⟨w, π, L, h⟩ := h
  obtain ⟨hpm, hpq⟩ := h.links.pos t p q hp
  have hqm := (h.links.below hpq hpm).1
  exact ⟨hqm.1, h.links.exists_path hqm,
    h.links.exists_path (h.links.below (h.links.tail q hqm) hqm).1⟩

omit [DecidableEq T] in
theorem Safe.held (h : s.Safe) {x : Addr} (hx : (s.pc t).held = some x) :
    x ∈ s.arenas ∧ ∃ l, LinkedPath s.next (some x) l none := by
  obtain ⟨w, π, L, h⟩ := h
  refine ⟨(h.frees.dead t x (h.frees.mem_of_held hx)).1, L t, ?_⟩
  rw [← hx]
  exact h.frees.path t

omit [DecidableEq T] [Fintype T] in
theorem FindOk.isSome {c : Nat} {f : Find} (h : s.FindOk c f) : (s.stepFind f).isSome = true := by
  cases f with
  | load a =>
    simp only [stepFind, loadPoc, if_pos (show a ∈ s.arenas from h.1)]
    cases s.parentOrCount a <;> rfl
  | next a n =>
    simp only [stepFind, loadPoc, if_pos (show n ∈ s.arenas from h.2.1.1)]
    cases s.parentOrCount n <;> rfl
  | split a n p =>
    simp only [stepFind, loadPoc, if_pos (show a ∈ s.arenas from h.1.1)]
    rfl

/-- **No step touches an arena that is not in memory.** -/
theorem Safe.step_isSome (h : s.Safe) (t : T) (sp : Bool) : (s.step t sp).isSome = true := by
  have hok := h.locals t
  unfold ArenaSys.step
  split
  · rfl
  · rename_i a1 a2 d p hpc
    rw [hpc] at hok
    cases p with
    | find1 f =>
      obtain ⟨⟨s₁, r⟩, hr⟩ := Option.isSome_iff_exists.mp (FindOk.isSome hok)
      simp only [stepFuse, hr]
      cases r <;> rfl
    | find2 r1 c1 f =>
      obtain ⟨⟨s₁, r⟩, hr⟩ := Option.isSome_iff_exists.mp (FindOk.isSome hok.2)
      simp only [stepFuse, hr]
      cases r with
      | inl f => rfl
      | inr r =>
        simp only [Option.bind_eq_bind, Option.bind_some]
        split
        · rfl
        · split <;> rfl
    | addRefs r1 c1 r2 c2 =>
      have hr1 : r1 ∈ s.arenas := hok.2.elim (fun h => h.1.1) fun h => h.1.1
      simp only [stepFuse, loadPoc, if_pos hr1, Option.bind_eq_bind, Option.bind_some]
      split <;> rfl
    | reparent r1 r2 c2 =>
      have hr2 : r2 ∈ s.arenas := hok.2.elim (fun h => h.2.1) fun h => h.2.1
      simp only [stepFuse, loadPoc, if_pos hr2, Option.bind_eq_bind, Option.bind_some]
      split <;> rfl
    | lists parent l =>
      have hparent : parent ∈ s.arenas := hok.2.1
      cases l with
      | tail child => simp [stepFuse, stepLists, loadTail, hparent]
      | walk pt child =>
        obtain ⟨hpt, -⟩ := h.pos (t := t) (p := parent) (q := pt) (by rw [hpc]; rfl)
        simp only [stepFuse, stepLists, loadNext, if_pos hpt]
        cases s.next pt <;> rfl
      | exchange pt child =>
        obtain ⟨hpt, -⟩ := h.pos (t := t) (p := parent) (q := pt) (by rw [hpc]; rfl)
        simp [stepFuse, stepLists, loadNext, hpt]
      | childTail child displaced =>
        obtain ⟨hc, -⟩ := h.pos (t := t) (p := parent) (q := child) (by rw [hpc]; rfl)
        simp only [stepFuse, stepLists, loadTail, if_pos hc]
        cases displaced <;> rfl
      | store pt => simp [stepFuse, stepLists, loadTail, hparent]
    | fixup r =>
      simp only [stepFuse, loadPoc, if_pos (show r ∈ s.arenas from hok.2.1)]
      cases s.parentOrCount r <;> rfl
    | fixupCas r n =>
      simp only [stepFuse, loadPoc, if_pos (show r ∈ s.arenas from hok.2.1), Option.bind_eq_bind,
        Option.bind_some]
      split <;> rfl
  · rename_i a q hpc
    rw [hpc] at hok
    cases q with
    | load x => simp [stepFree, loadPoc, show x ∈ s.arenas from hok.1]
    | cas x n =>
      simp only [stepFree, loadPoc, if_pos (show x ∈ s.arenas from hok.1.1), Option.bind_eq_bind,
        Option.bind_some]
      split <;> rfl
    | next x =>
      obtain ⟨hx, -⟩ := h.held (t := t) (x := x) (by rw [hpc]; rfl)
      simp [stepFree, loadNext, hx]
    | blocks x n =>
      obtain ⟨hx, -⟩ := h.held (t := t) (x := x) (by rw [hpc]; rfl)
      simp only [stepFree, loadNext, if_pos hx]
      cases n <;> rfl

/-- The step of a thread that is not idle, as a computation. -/
theorem Safe.returns_of_step (h : s.Safe) (s' : ArenaSys T) (he : s.step t false = some s')
    (hr : s'.Safe → s'.Returns t) : s.Returns t :=
  .of_step he (hr (h.step he))

section Fuse

variable {a1 a2 : Addr}

/-- Another attempt to fuse `a1` and `a2` returns. -/
def RetryReturns (t : T) (a1 a2 : Addr) : Prop :=
  ∀ (s : ArenaSys T) d, s.Safe → s.pc t = retry a1 a2 d → s.Returns t

theorem Safe.returns_fixupCas (h : s.Safe) {d r n : Nat}
    (hpc : s.pc t = .fuse a1 a2 d (.fixupCas r n))
    (hr : s.parentOrCount r = .count n ∨ RetryReturns t a1 a2) : s.Returns t := by
  have hok := h.locals t
  rw [hpc] at hok
  have hm : r ∈ s.arenas := hok.2.1
  by_cases hn : s.parentOrCount r = .count n
  · refine h.returns_of_step ((s.setPoc r (.count (n - d))).goto t .idle) ?_ fun _ =>
      .of_idle (Function.update_self ..)
    simp [ArenaSys.step, hpc, stepFuse, loadPoc, hm, hn]
  · refine h.returns_of_step (s.goto t (retry a1 a2 d)) ?_ fun h' =>
      hr.resolve_left hn _ d h' (Function.update_self ..)
    simp [ArenaSys.step, hpc, stepFuse, loadPoc, hm, hn]

theorem Safe.returns_fixup (h : s.Safe) {d r : Nat} (hpc : s.pc t = .fuse a1 a2 d (.fixup r))
    (hr : (∃ n, s.parentOrCount r = .count n) ∨ RetryReturns t a1 a2) : s.Returns t := by
  have hok := h.locals t
  rw [hpc] at hok
  have hm : r ∈ s.arenas := hok.2.1
  cases hn : s.parentOrCount r with
  | count n =>
    refine h.returns_of_step (s.goto t (.fuse a1 a2 d (.fixupCas r n))) ?_ fun h' =>
      h'.returns_fixupCas (Function.update_self ..) (.inl hn)
    simp [ArenaSys.step, hpc, stepFuse, loadPoc, hm, hn]
  | parent p =>
    refine h.returns_of_step (s.goto t (retry a1 a2 d)) ?_ fun h' =>
      hr.resolve_left (fun hcount => ?_) _ d h' (Function.update_self ..)
    · simp [ArenaSys.step, hpc, stepFuse, loadPoc, hm, hn]
    · obtain ⟨n, hn'⟩ := hcount
      rw [hn] at hn'
      cases hn'

theorem Safe.returns_fused (h : s.Safe) {d r : Nat} (hpc : s.pc t = fused a1 a2 d r)
    (hr : (∃ n, s.parentOrCount r = .count n) ∨ RetryReturns t a1 a2) : s.Returns t := by
  unfold fused at hpc
  split at hpc
  · exact .of_idle hpc
  · exact h.returns_fixup hpc hr

/-- From the last load of the walk on. -/
theorem Safe.returns_childTail_none (h : s.Safe) {d parent child : Nat}
    (hpc : s.pc t = .fuse a1 a2 d (.lists parent (.childTail child none)))
    (hr : (∃ n, s.parentOrCount parent = .count n) ∨ RetryReturns t a1 a2) : s.Returns t := by
  have hok := h.locals t
  rw [hpc] at hok
  have hm : parent ∈ s.arenas := hok.2.1
  obtain ⟨hc, -⟩ := h.pos (t := t) (p := parent) (q := child) (by rw [hpc]; rfl)
  refine h.returns_of_step
    (s.goto t (.fuse a1 a2 d (.lists parent (.store (s.tail child))))) ?_ fun h' => ?_
  · simp [ArenaSys.step, hpc, stepFuse, stepLists, loadTail, hc]
  refine h'.returns_of_step
    (((s.goto t (.fuse a1 a2 d (.lists parent (.store (s.tail child))))).setTail parent
      (s.tail child)).goto t (fused a1 a2 d parent)) ?_ fun h' =>
      h'.returns_fused (Function.update_self ..) hr
  simp [ArenaSys.step, goto, stepFuse, stepLists, loadTail, hm]

theorem Safe.returns_walk (h : s.Safe) {d parent pt child : Nat} {l : List Addr}
    (hpc : s.pc t = .fuse a1 a2 d (.lists parent (.walk pt child)))
    (hl : LinkedPath s.next (some pt) l none)
    (hr : (∃ n, s.parentOrCount parent = .count n) ∨ RetryReturns t a1 a2) : s.Returns t := by
  -- along the list from `pt`; it does not change while the thread walks
  induction l generalizing s pt with
  | nil => cases hl
  | cons x l ih =>
    obtain ⟨hx, hl⟩ := hl
    obtain rfl : pt = x := Option.some.inj hx
    obtain ⟨hpt, -⟩ := h.pos (t := t) (p := parent) (q := pt) (by rw [hpc]; rfl)
    cases hn : s.next pt with
    | some n =>
      rw [hn] at hl
      refine h.returns_of_step (s.goto t (.fuse a1 a2 d (.lists parent (.walk n child)))) ?_
        fun h' => ih h' (Function.update_self ..) hl hr
      simp [ArenaSys.step, hpc, stepFuse, stepLists, loadNext, hpt, hn]
    | none =>
      refine h.returns_of_step (s.goto t (.fuse a1 a2 d (.lists parent (.exchange pt child)))) ?_
        fun h' => ?_
      · simp [ArenaSys.step, hpc, stepFuse, stepLists, loadNext, hpt, hn]
      refine h'.returns_of_step
        (((s.goto t (.fuse a1 a2 d (.lists parent (.exchange pt child)))).setNext pt
          (some child)).goto t (.fuse a1 a2 d (.lists parent (.childTail child none)))) ?_ fun h' =>
          h'.returns_childTail_none (Function.update_self ..) hr
      simp [ArenaSys.step, goto, stepFuse, stepLists, loadNext, hpt, hn]

/-- Splicing ends, wherever it was. -/
theorem Safe.returns_lists (h : s.Safe) {d parent : Nat} {l : Lists}
    (hpc : s.pc t = .fuse a1 a2 d (.lists parent l))
    (hr : (∃ n, s.parentOrCount parent = .count n) ∨ RetryReturns t a1 a2) : s.Returns t := by
  have hok := h.locals t
  rw [hpc] at hok
  have hm : parent ∈ s.arenas := hok.2.1
  have hchild : ∀ {s : ArenaSys T} {child o}, s.Safe →
      s.pc t = .fuse a1 a2 d (.lists parent (.childTail child o)) →
      ((∃ n, s.parentOrCount parent = .count n) ∨ RetryReturns t a1 a2) → s.Returns t := by
    intro s child o h hpc hr
    cases o with
    | none => exact h.returns_childTail_none hpc hr
    | some e =>
      obtain ⟨hc, -, l, hl⟩ := h.pos (t := t) (p := parent) (q := child) (by rw [hpc]; rfl)
      refine h.returns_of_step
        (s.goto t (.fuse a1 a2 d (.lists parent (.walk (s.tail child) e)))) ?_ fun h' =>
          h'.returns_walk (Function.update_self ..) hl hr
      simp [ArenaSys.step, hpc, stepFuse, stepLists, loadTail, hc]
  cases l with
  | tail child =>
    obtain ⟨-, -, l, hl⟩ := h.pos (t := t) (p := parent) (q := parent) (by rw [hpc]; rfl)
    refine h.returns_of_step
      (s.goto t (.fuse a1 a2 d (.lists parent (.walk (s.tail parent) child)))) ?_ fun h' =>
        h'.returns_walk (Function.update_self ..) hl hr
    simp [ArenaSys.step, hpc, stepFuse, stepLists, loadTail, hm]
  | walk pt child =>
    obtain ⟨-, ⟨l, hl⟩, -⟩ := h.pos (t := t) (p := parent) (q := pt) (by rw [hpc]; rfl)
    exact h.returns_walk hpc hl hr
  | exchange pt child =>
    obtain ⟨hpt, -⟩ := h.pos (t := t) (p := parent) (q := pt) (by rw [hpc]; rfl)
    refine h.returns_of_step ((s.setNext pt (some child)).goto t
      (.fuse a1 a2 d (.lists parent (.childTail child (s.next pt))))) ?_ fun h' =>
        hchild h' (Function.update_self ..) hr
    simp [ArenaSys.step, hpc, stepFuse, stepLists, loadNext, hpt]
  | childTail child o => exact hchild h hpc hr
  | store pt =>
    refine h.returns_of_step ((s.setTail parent pt).goto t (fused a1 a2 d parent)) ?_ fun h' =>
      h'.returns_fused (Function.update_self ..) hr
    simp [ArenaSys.step, hpc, stepFuse, stepLists, loadTail, hm]

theorem Safe.returns_reparent (h : s.Safe) {d r1 r2 c2 : Nat}
    (hpc : s.pc t = .fuse a1 a2 d (.reparent r1 r2 c2))
    (hr : (s.parentOrCount r2 = .count c2 ∧ ∃ n, s.parentOrCount r1 = .count n) ∨
      RetryReturns t a1 a2) : s.Returns t := by
  have hok := h.locals t
  rw [hpc] at hok
  have hlt : r1 < r2 := hok.1
  have hm : r2 ∈ s.arenas := hok.2.elim (fun h => h.2.1) fun h => h.2.1
  by_cases hn : s.parentOrCount r2 = .count c2
  · refine h.returns_of_step (((s.setPoc r2 (.parent r1)).merge r1 r2).goto t
      (.fuse a1 a2 d (.lists r1 (.tail r2)))) ?_ fun h' =>
        h'.returns_lists (Function.update_self ..) (hr.imp_left fun ⟨_, n, hn1⟩ => ⟨n, ?_⟩)
    · simp [ArenaSys.step, hpc, stepFuse, loadPoc, hm, hn]
    · exact (Function.update_of_ne (Nat.ne_of_lt hlt) ..).trans hn1
  · refine h.returns_of_step (s.goto t (retry a1 a2 (d + c2))) ?_ fun h' =>
      hr.resolve_left (fun h => hn h.1) _ _ h' (Function.update_self ..)
    simp [ArenaSys.step, hpc, stepFuse, loadPoc, hm, hn]

theorem Safe.returns_addRefs (h : s.Safe) {d r1 c1 r2 c2 : Nat}
    (hpc : s.pc t = .fuse a1 a2 d (.addRefs r1 c1 r2 c2))
    (hr : (s.parentOrCount r1 = .count c1 ∧ s.parentOrCount r2 = .count c2) ∨
      RetryReturns t a1 a2) : s.Returns t := by
  have hok := h.locals t
  rw [hpc] at hok
  have hlt : r1 < r2 := hok.1
  have hm : r1 ∈ s.arenas := hok.2.elim (fun h => h.1.1) fun h => h.1.1
  by_cases hn : s.parentOrCount r1 = .count c1
  · refine h.returns_of_step ((s.setPoc r1 (.count (c1 + c2))).goto t
      (.fuse a1 a2 d (.reparent r1 r2 c2))) ?_ fun h' =>
        h'.returns_reparent (Function.update_self ..)
          (hr.imp_left fun ⟨_, hn2⟩ => ⟨?_, c1 + c2, Function.update_self ..⟩)
    · simp [ArenaSys.step, hpc, stepFuse, loadPoc, hm, hn]
    · exact (Function.update_of_ne (Nat.ne_of_gt hlt) ..).trans hn2
  · refine h.returns_of_step (s.goto t (retry a1 a2 d)) ?_ fun h' =>
      hr.resolve_left (fun h => hn h.1) _ _ h' (Function.update_self ..)
    simp [ArenaSys.step, hpc, stepFuse, loadPoc, hm, hn]

/-- Alone, `_hpb_Arena_FindRoot` comes to a root with its present count. `K` is the call it is in, `I`
what that call knows about the memory: path splitting does not affect it. -/
theorem Safe.returns_find {K : Find → Pc} {I : ArenaSys T → Prop} {f : Find} (h : s.Safe)
    (hpc : s.pc t = K f) (hi : I s)
    (hsplit : ∀ (s : ArenaSys T) x p, I s → s.IsParent x → I (s.setPoc x (.parent p)))
    (hgo : ∀ (s : ArenaSys T) p, I s → I (s.goto t p))
    (hok : ∀ (s : ArenaSys T) f, s.Safe → s.pc t = K f → ∃ c, s.FindOk c f)
    (hstep : ∀ (s : ArenaSys T) f s₁ f', s.pc t = K f → s.stepFind f = some (s₁, .inl f') →
      s.step t false = some (s₁.goto t (K f')))
    (hdone : ∀ (s : ArenaSys T) f r n, s.Safe → I s → s.pc t = K f →
      s.stepFind f = some (s, .inr (r, n)) → s.parentOrCount r = .count n → s.Returns t) :
    s.Returns t := by
  have hnextOf : ∀ (s : ArenaSys T) a n p, s.Safe → I s → s.pc t = K (.split a n p) →
      (∀ s : ArenaSys T, s.Safe → I s → s.pc t = K (.next n p) → s.Returns t) → s.Returns t := by
    intro s a n p h hi hpc hnext
    obtain ⟨c, ha, -, -, -, -, hap, -⟩ := hok s _ h hpc
    refine h.returns_of_step _ (hstep s _ (s.setPoc a (.parent p)) (.next n p) hpc ?_) fun h' =>
      hnext _ h' (hgo _ _ (hsplit _ _ _ hi hap)) (Function.update_self ..)
    simp [stepFind, loadPoc, ha.1]
  have hnext : ∀ n (s : ArenaSys T) a, s.Safe → I s → s.pc t = K (.next a n) → s.Returns t := by
    intro n
    induction n using Nat.strong_induction_on with
    | _ n ih =>
      intro s a h hi hpc
      obtain ⟨c, -, hn, -, -⟩ := hok s _ h hpc
      cases hp : s.parentOrCount n with
      | count k => exact hdone s _ n k h hi hpc (by simp [stepFind, loadPoc, hn.1, hp]) hp
      | parent p =>
        refine h.returns_of_step _ (hstep s _ s (.split a n p) hpc ?_) fun h' => ?_
        · simp [stepFind, loadPoc, hn.1, hp]
        have hpc' : (s.goto t (K (.split a n p))).pc t = K (.split a n p) := Function.update_self ..
        obtain ⟨c, -, -, -, hlt, -⟩ := hok _ _ h' hpc'
        exact hnextOf _ a n p h' (hgo _ _ hi) hpc' fun s h hi hpc => ih p hlt s n h hi hpc
  cases f with
  | load a =>
    obtain ⟨c, ha⟩ := hok s _ h hpc
    cases hp : s.parentOrCount a with
    | count k => exact hdone s _ a k h hi hpc (by simp [stepFind, loadPoc, ha.1, hp]) hp
    | parent p =>
      refine h.returns_of_step _ (hstep s _ s (.next a p) hpc ?_) fun h' =>
        hnext p _ a h' (hgo _ _ hi) (Function.update_self ..)
      simp [stepFind, loadPoc, ha.1, hp]
  | next a n => exact hnext n s a h hi hpc
  | split a n p => exact hnextOf s a n p h hi hpc fun s h hi hpc => hnext p s n h hi hpc

theorem Safe.returns_find2 (h : s.Safe) {d r1 c1 : Nat} {f : Find}
    (hpc : s.pc t = .fuse a1 a2 d (.find2 r1 c1 f))
    (hr : s.parentOrCount r1 = .count c1 ∨ RetryReturns t a1 a2) : s.Returns t := by
  refine h.returns_find (K := fun f => .fuse a1 a2 d (.find2 r1 c1 f))
    (I := fun s => s.parentOrCount r1 = .count c1 ∨ RetryReturns t a1 a2) hpc hr
    (fun s x p hi hx => hi.imp_left fun hi => ?_) (fun _ _ hi => hi) (fun s f h hpc => ?_)
    (fun s f s₁ f' hpc hs => ?_) fun s f r2 c2 h hi hpc hs hn => ?_
  · refine (Function.update_of_ne ?_ ..).trans hi
    rintro rfl
    obtain ⟨q, hq⟩ := hx
    rw [hi] at hq
    cases hq
  · have hok := h.locals t
    rw [hpc] at hok
    exact ⟨_, hok.2⟩
  · simp [ArenaSys.step, hpc, stepFuse, hs]
  · by_cases heq : r1 = r2
    · subst heq
      refine h.returns_of_step (s.goto t (fused a1 a2 d r1)) ?_ fun h' =>
        h'.returns_fused (Function.update_self ..) (.inl ⟨c2, hn⟩)
      simp [ArenaSys.step, hpc, stepFuse, hs]
    · by_cases hlt : r2 < r1
      · refine h.returns_of_step (s.goto t (.fuse a1 a2 d (.addRefs r2 c2 r1 c1))) ?_ fun h' =>
          h'.returns_addRefs (Function.update_self ..) (hi.imp_left fun hi => ⟨hn, hi⟩)
        simp [ArenaSys.step, hpc, stepFuse, hs, heq, hlt]
      · refine h.returns_of_step (s.goto t (.fuse a1 a2 d (.addRefs r1 c1 r2 c2))) ?_ fun h' =>
          h'.returns_addRefs (Function.update_self ..) (hi.imp_left fun hi => ⟨hi, hn⟩)
        simp [ArenaSys.step, hpc, stepFuse, hs, heq, hlt]

theorem Safe.returns_find1 (h : s.Safe) {d : Nat} {f : Find}
    (hpc : s.pc t = .fuse a1 a2 d (.find1 f)) : s.Returns t := by
  refine h.returns_find (K := fun f => .fuse a1 a2 d (.find1 f)) (I := fun _ => True) hpc trivial
    (fun _ _ _ _ _ => trivial) (fun _ _ _ => trivial) (fun s f h hpc => ?_)
    (fun s f s₁ f' hpc hs => ?_) fun s f r n h _ hpc hs hn => ?_
  · have hok := h.locals t
    rw [hpc] at hok
    exact ⟨_, hok⟩
  · simp [ArenaSys.step, hpc, stepFuse, hs]
  · refine h.returns_of_step (s.goto t (.fuse a1 a2 d (.find2 r n (.load a2)))) ?_ fun h' =>
      h'.returns_find2 (Function.update_self ..) (.inl hn)
    simp [ArenaSys.step, hpc, stepFuse, hs]

theorem retryReturns (t : T) (a1 a2 : Addr) : RetryReturns t a1 a2 :=
  fun _ _ h hpc => h.returns_find1 hpc

end Fuse

section Free

variable {a : Addr}

theorem Safe.returns_next (h : s.Safe) {x : Addr} {l : List Addr} (hpc : s.pc t = .free a (.next x))
    (hl : LinkedPath s.next (some x) l none) : s.Returns t := by
  induction l generalizing s x with
  | nil => cases hl
  | cons y l ih =>
    obtain ⟨hy, hl⟩ := hl
    obtain rfl : x = y := Option.some.inj hy
    obtain ⟨hx, -⟩ := h.held (t := t) (x := x) (by rw [hpc]; rfl)
    refine h.returns_of_step (s.goto t (.free a (.blocks x (s.next x)))) ?_ fun h' => ?_
    · simp [ArenaSys.step, hpc, stepFree, loadNext, hx]
    cases hn : s.next x with
    | none =>
      rw [hn] at h'
      refine h'.returns_of_step (({ s.goto t (.free a (.blocks x none)) with
        arenas := s.arenas.erase x, freed := s.serial x :: s.freed } : ArenaSys T).goto t .idle) ?_
        fun _ => .of_idle (Function.update_self ..)
      simp [ArenaSys.step, goto, stepFree, loadNext, hx]
    | some n =>
      rw [hn] at h' hl
      refine h'.returns_of_step (({ s.goto t (.free a (.blocks x (some n))) with
        arenas := s.arenas.erase x, freed := s.serial x :: s.freed } : ArenaSys T).goto t
          (.free a (.next n))) ?_ fun h' => ih h' (Function.update_self ..) hl
      simp [ArenaSys.step, goto, stepFree, loadNext, hx]

/-- From a step that has read the word of `x`. -/
theorem Safe.returns_freeWith (h : s.Safe) {x : Addr} (ha : a ∈ (s.pc t).args)
    (hx : s.In (s.cls a) x) (he : s.step t false = some (s.freeWith t a x (s.parentOrCount x)))
    (hload : ∀ (s : ArenaSys T) p, s.Safe → s.pc t = .free a (.load p) → p < x → s.Returns t) :
    s.Returns t := by
  refine h.returns_of_step _ he fun h' => ?_
  cases hp : s.parentOrCount x with
  | parent p =>
    rw [hp] at h'
    obtain ⟨w, π, L, hinv⟩ := h
    have hh := (hinv.refs.threads t).args a ha
    exact hload _ p h' (Function.update_self ..)
      (hinv.refs.mem.parent_in ⟨a, hh, rfl⟩ hx hp).2
  | count n =>
    rw [hp] at h'
    unfold freeWith at h' ⊢
    by_cases hn : n = 1
    · simp only [if_pos hn] at h' ⊢
      obtain ⟨-, l, hl⟩ := h'.held (t := t) (x := x) (by simp [goto, Pc.held])
      exact h'.returns_next (Function.update_self ..) hl
    · simp only [if_neg hn] at h' ⊢
      refine h'.returns_of_step ((((s.goto t (.free a (.cas x n))).setPoc x
        (.count (n - 1))).release a).goto t .idle) ?_ fun _ => .of_idle (Function.update_self ..)
      simp [ArenaSys.step, goto, stepFree, loadPoc, hx.1, hp]

theorem Safe.returns_load (h : s.Safe) {x : Addr} (hpc : s.pc t = .free a (.load x)) :
    s.Returns t := by
  induction x using Nat.strong_induction_on generalizing s with
  | _ x ih =>
    have hok := h.locals t
    rw [hpc] at hok
    have hx : s.In (s.cls a) x := hok
    refine h.returns_freeWith (a := a) ?_ hx ?_ fun s' p h' hpc' hlt => ih p hlt h' hpc'
    · rw [hpc]
      exact List.mem_singleton.mpr rfl
    · simp [ArenaSys.step, hpc, stepFree, loadPoc, hx.1]

theorem Safe.returns_free (h : s.Safe) {q : Free} (hpc : s.pc t = .free a q) : s.Returns t := by
  cases q with
  | load x => exact h.returns_load hpc
  | cas x n =>
    have hok := h.locals t
    rw [hpc] at hok
    have hx : s.In (s.cls a) x := hok.1
    by_cases hn : s.parentOrCount x = .count n
    · refine h.returns_of_step (((s.setPoc x (.count (n - 1))).release a).goto t .idle) ?_
        fun _ => .of_idle (Function.update_self ..)
      simp [ArenaSys.step, hpc, stepFree, loadPoc, hx.1, hn]
    · refine h.returns_freeWith (a := a) ?_ hx ?_ fun s' p h' hpc' _ => h'.returns_load hpc'
      · rw [hpc]
        exact List.mem_singleton.mpr rfl
      · simp [ArenaSys.step, hpc, stepFree, loadPoc, hx.1, hn]
  | next x =>
    obtain ⟨-, l, hl⟩ := h.held (t := t) (x := x) (by rw [hpc]; rfl)
    exact h.returns_next hpc hl
  | blocks x n =>
    obtain ⟨hx, -⟩ := h.held (t := t) (x := x) (by rw [hpc]; rfl)
    cases n with
    | none =>
      refine h.returns_of_step (({ s with
        arenas := s.arenas.erase x, freed := s.serial x :: s.freed } : ArenaSys T).goto t .idle) ?_
        fun _ => .of_idle (Function.update_self ..)
      simp [ArenaSys.step, hpc, stepFree, loadNext, hx]
    | some n =>
      refine h.returns_of_step (({ s with
        arenas := s.arenas.erase x, freed := s.serial x :: s.freed } : ArenaSys T).goto t
          (.free a (.next n))) ?_ fun h' => ?_
      · simp [ArenaSys.step, hpc, stepFree, loadNext, hx]
      · obtain ⟨-, l, hl⟩ := h'.held (t := t) (x := n) (by simp [goto, Pc.held])
        exact h'.returns_next (Function.update_self ..) hl

end Free

/-- **A call that runs alone returns**, from any state that other threads left it in. -/
theorem Safe.returns (h : s.Safe) (t : T) : s.Returns t := by
  cases hpc : s.pc t with
  | idle => exact .of_idle hpc
  | free a q => exact h.returns_free hpc
  | fuse a1 a2 d p =>
    have hr := retryReturns t a1 a2
    cases p with
    | find1 f => exact h.returns_find1 hpc
    | find2 r1 c1 f => exact h.returns_find2 hpc (.inr hr)
    | addRefs r1 c1 r2 c2 => exact h.returns_addRefs hpc (.inr hr)
    | reparent r1 r2 c2 => exact h.returns_reparent hpc (.inr hr)
    | lists parent l => exact h.returns_lists hpc (.inr hr)
    | fixup r => exact h.returns_fixup hpc (.inr hr)
    | fixupCas r n => exact h.returns_fixupCas hpc (.inr hr)

end Solo

end ArenaSys

end Hpb
