import Hpb.Mem.ArenaConc

/-!
# One thread that makes, fuses and frees arenas

The same code run by a single thread, one call after the other. Between calls no reference is in
excess and nothing is pending, so the count of a root is the number of unfreed handles and the list
of a class is complete.

* `Call s act s'`: a call, from its first step until it has returned.
* `Seq`: the states between the calls of a sequence of calls.
* `SeqSafe`: what holds in them, and what the next call will do.
-/

namespace Hpb

theorem Pc.Calm.eq_of_args {p : Pc} {a1 a2 : Addr} (h : p.Calm)
    (ha : p.args = [a1, a2] ∨ p.args = []) : p = .idle ∨ ∃ d q, p = .fuse a1 a2 d q := by
  cases p with
  | idle => exact .inl rfl
  | fuse b1 b2 d q =>
    obtain ha | ha := ha <;> cases ha
    exact .inr ⟨d, q, rfl⟩
  | free b q => cases q <;> first | exact h.elim | (obtain ha | ha := ha <;> cases ha)

namespace ArenaSys

/-- A call, not a step of one. -/
def Act.IsCall : Act → Prop
  | .step _ => False
  | _ => True

/-- Steps of the only thread. -/
def Steps : ArenaSys Unit → ArenaSys Unit → Prop :=
  Relation.ReflTransGen fun s s' => ∃ sp, s.step () sp = some s'

/-- A call that returns. -/
def Call (s : ArenaSys Unit) (act : Act) (s' : ArenaSys Unit) : Prop :=
  act.IsCall ∧ s.Legal () act ∧ (∃ s₁, s.exec () act = some s₁ ∧ Steps s₁ s') ∧ s'.pc () = .idle

/-- The states between the calls of a sequence of calls. -/
inductive Seq : ArenaSys Unit → Prop
  | start : Seq start
  | call {s s' : ArenaSys Unit} (act : Act) : Seq s → Call s act s' → Seq s'

section Runs

variable {s s' s₀ : ArenaSys Unit} {act : Act}

theorem Reach.steps (h : Reach s) (hs : Steps s s') : Reach s' := by
  induction hs with
  | refl => exact h
  | tail _ hst ih =>
    obtain ⟨sp, hst⟩ := hst
    exact .exec () (.step sp) ih trivial hst

theorem Call.reach (h : Reach s) (hc : Call s act s') : Reach s' := by
  obtain ⟨-, hl, ⟨s₁, he, hs⟩, -⟩ := hc
  exact (Reach.exec () act h hl he).steps hs

theorem Seq.reach (h : Seq s) : Reach s ∧ s.pc () = .idle := by
  induction h with
  | start => exact ⟨.start, rfl⟩
  | call _ _ hc ih => exact ⟨hc.reach ih.1, hc.2.2.2⟩

theorem steps_of_alone {n : Nat} (h : s.alone () n = some s') : Steps s s' := by
  induction n generalizing s with
  | zero =>
    cases h
    exact .refl
  | succ n ih =>
    simp only [alone, Option.bind_eq_bind, Option.bind_eq_some_iff] at h
    obtain ⟨s₁, hs, h⟩ := h
    exact .head ⟨false, hs⟩ (ih h)

/-- An idle thread makes no steps. -/
theorem Steps.eq_of_idle (hi : s.pc () = .idle) (h : Steps s s') : s' = s := by
  induction h with
  | refl => rfl
  | tail _ hst ih =>
    obtain ⟨sp, hst⟩ := hst
    subst ih
    simp only [ArenaSys.step, hi, Option.some.injEq] at hst
    exact hst.symm

/-- **Every legal call returns.** -/
theorem Seq.exists_call (h : Seq s) (act : Act) (ha : act.IsCall) (hl : s.Legal () act) : ∃ s', Call s act s' := by
  obtain ⟨s₁, he⟩ := Option.isSome_iff_exists.mp (Safe.exec_isSome h.reach.1.inv () act)
  obtain ⟨n, s', hs', hi⟩ := Safe.returns (Reach.exec () act h.reach.1 hl he).inv ()
  exact ⟨s', ha, hl, ⟨s₁, he, steps_of_alone hs'⟩, hi⟩

end Runs

section Quiescent

variable {s : ArenaSys Unit} {w : Unit → Addr → Nat} {π : Addr → Option Addr} {L : Unit → List Addr}

/-- Between calls an arena is in memory only as long as its class is live. -/
theorem Inv.live_of_idle (h : s.Inv w π L) (hi : s.pc () = .idle) {x : Addr} (hx : x ∈ s.arenas) :
    s.Managed x := by
  by_contra hm
  obtain ⟨t, ht⟩ := h.frees.complete x hx hm
  have hp := h.frees.path t
  rw [show s.pc t = .idle from hi] at hp
  cases hL : L t with
  | nil =>
    rw [hL] at ht
    cases ht
  | cons y l =>
    rw [hL] at hp
    cases hp.1

/-- Between calls nothing is in excess. -/
theorem Inv.count_of_idle (h : s.Inv w π L) (hi : s.pc () = .idle) {r : Addr} {n : Nat}
    (hr : s.Managed r) (hn : s.parentOrCount r = .count n) : n = s.handles (s.cls r) := by
  have hw : ∀ t x, w t x = 0 := by
    intro t x
    by_contra hx
    obtain ⟨-, a, ha, -⟩ := (h.refs.threads t).support x hx
    rw [show s.pc t = .idle from hi] at ha
    cases ha
  rw [h.refs.mem.count r n hr hn, weigh_eq]
  simp [excess, hw]

end Quiescent

section Effects

variable {s s' s₀ : ArenaSys Unit}

/-- What a step of `hpb_Arena_Fuse(a1, a2)` can have changed since the call began in `s₀`: the classes
of its arguments may have become one. -/
structure Fusing (s₀ : ArenaSys Unit) (a1 a2 : Addr) (s : ArenaSys Unit) : Prop where
  arenas : s.arenas = s₀.arenas
  handle : s.handle = s₀.handle
  freed : s.freed = s₀.freed
  pc : s.pc () = .idle ∨ ∃ d p, s.pc () = .fuse a1 a2 d p
  cls : s.cls = s₀.cls ∨ (s.cls a1 = s.cls a2 ∧ ∀ x y, s.cls x = s.cls y ↔ s₀.cls x = s₀.cls y ∨
    (s₀.cls x = s₀.cls a1 ∨ s₀.cls x = s₀.cls a2) ∧ (s₀.cls y = s₀.cls a1 ∨ s₀.cls y = s₀.cls a2))
  done : s.pc () = .idle → s.cls a1 = s.cls a2

theorem Fusing.step {a1 a2 d : Addr} {p : Fuse} {sp : Bool} (h : Fusing s₀ a1 a2 s)
    (hpc : s.pc () = .fuse a1 a2 d p) (hinv : s.Safe) (he : s.step () sp = some s') :
    Fusing s₀ a1 a2 s' := by
  obtain ⟨w, π, L, hinv⟩ := hinv
  have hdone := hinv.refs.fused_on_return hpc he
  have hok := hinv.refs.threads ()
  rw [hpc] at hok
  have hkeep : s'.arenas = s.arenas → s'.handle = s.handle → s'.freed = s.freed → s'.cls = s.cls →
      (s'.pc () = .idle ∨ ∃ d p, s'.pc () = .fuse a1 a2 d p) → Fusing s₀ a1 a2 s' := by
    intro ha hh hf hc hp
    refine ⟨ha.trans h.arenas, hh.trans h.handle, hf.trans h.freed, hp, ?_, hdone⟩
    rw [hc]
    exact h.cls
  have hcont : ∀ {p'}, p'.Calm → s.Continues (s.pc ()) p' →
      p' = .idle ∨ ∃ d q, p' = .fuse a1 a2 d q := fun hc c => by
    have := c.args
    rw [hpc] at this
    exact hc.eq_of_args (this.imp_right And.left)
  have hfused : ∀ r, fused a1 a2 d r = .idle ∨ ∃ d' q, fused a1 a2 d r = .fuse a1 a2 d' q := by
    intro r
    unfold fused
    split
    exacts [.inl rfl, .inr ⟨_, _, rfl⟩]
  cases hinv.refs.move (.step sp) trivial he with
  | stay hi => rw [hpc] at hi; cases hi
  | go _ hc' c => exact hkeep rfl rfl rfl rfl (hcont hc' c)
  | call hi => rw [hpc] at hi; cases hi
  | split _ hc' c => exact hkeep rfl rfl rfl rfl (hcont hc' c)
  | addRefs hpc' => rw [hpc] at hpc'; cases hpc'; exact hkeep rfl rfl rfl rfl (.inr ⟨_, _, rfl⟩)
  | @reparent b1 b2 r1 r2 d c2 hpc' hr hn =>
    rw [hpc] at hpc'
    cases hpc'
    obtain ⟨hm1, hm2⟩ := hr.managed (hok.args a1 (by simp [Pc.args])) (hok.args a2 (by simp [Pc.args]))
    have hne : s.cls r1 ≠ s.cls r2 := fun hc => (hinv.refs.mem.root_le hm2 hn hm1 hc).not_gt hr.1
    have hroots : (s.cls r1 = s.cls a1 ∧ s.cls r2 = s.cls a2) ∨ (s.cls r1 = s.cls a2 ∧ s.cls r2 = s.cls a1) :=
      hr.2.imp (fun h => ⟨h.1.2, h.2.2⟩) fun h => ⟨h.1.2, h.2.2⟩
    have hcls : s.cls = s₀.cls := by
      refine h.cls.resolve_right fun hc => hne ?_
      obtain ⟨h1, h2⟩ | ⟨h1, h2⟩ := hroots <;> rw [h1, h2, hc.1]
    rw [hcls] at hroots hne
    have hmerge : ∀ x, ((s.setPoc r2 (.parent r1)).merge r1 r2).cls x =
        if s₀.cls x = s₀.cls r2 then s₀.cls r1 else s₀.cls x := by
      intro x
      rw [← hcls]
      rfl
    refine ⟨h.arenas, h.handle, h.freed, .inr ⟨_, _, rfl⟩, .inr ⟨?_, fun x y => ?_⟩, hdone⟩
    · change ((s.setPoc r2 (.parent r1)).merge r1 r2).cls a1 =
        ((s.setPoc r2 (.parent r1)).merge r1 r2).cls a2
      rw [hmerge, hmerge]
      grind
    · change ((s.setPoc r2 (.parent r1)).merge r1 r2).cls x =
        ((s.setPoc r2 (.parent r1)).merge r1 r2).cls y ↔ _
      rw [hmerge, hmerge]
      grind
  | fixup hpc' => exact hkeep rfl rfl rfl rfl (.inl rfl)
  | drop hpc' => rw [hpc] at hpc'; cases hpc'
  | last hpc' => rw [hpc] at hpc'; cases hpc'
  | tail hpc' => rw [hpc] at hpc'; cases hpc'; exact hkeep rfl rfl rfl rfl (.inr ⟨_, _, rfl⟩)
  | walkOn hpc' => rw [hpc] at hpc'; cases hpc'; exact hkeep rfl rfl rfl rfl (.inr ⟨_, _, rfl⟩)
  | walkEnd hpc' => rw [hpc] at hpc'; cases hpc'; exact hkeep rfl rfl rfl rfl (.inr ⟨_, _, rfl⟩)
  | exchange hpc' => rw [hpc] at hpc'; cases hpc'; exact hkeep rfl rfl rfl rfl (.inr ⟨_, _, rfl⟩)
  | reinstall hpc' => rw [hpc] at hpc'; cases hpc'; exact hkeep rfl rfl rfl rfl (.inr ⟨_, _, rfl⟩)
  | spliced hpc' => rw [hpc] at hpc'; cases hpc'; exact hkeep rfl rfl rfl rfl (.inr ⟨_, _, rfl⟩)
  | store hpc' => rw [hpc] at hpc'; cases hpc'; exact hkeep rfl rfl rfl rfl (hfused _)
  | freeNext hpc' => rw [hpc] at hpc'; cases hpc'
  | freeBlocks hpc' => rw [hpc] at hpc'; cases hpc'
  | new hi => rw [hpc] at hi; cases hi

/-- What a step of `hpb_Arena_Free(a)` can have changed since the call began in `s₀`. -/
structure Freeing (s₀ : ArenaSys Unit) (a : Addr) (s : ArenaSys Unit) : Prop where
  cls : s.cls = s₀.cls
  phase :
    -- the handle is not given up yet
    ((∃ q, s.pc () = .free a q ∧ a ∈ (s.pc ()).args) ∧ s.handle = s₀.handle ∧ s.arenas = s₀.arenas) ∨
    -- it was given up, and another one of the class is left
    (s.pc () = .idle ∧ s.handle = Function.update s₀.handle a false ∧ s.arenas = s₀.arenas ∧
      s.LiveCls (s.cls a)) ∨
    -- it was the last one
    ((s.pc () = .idle ∨ ∃ q, s.pc () = .free a q ∧ a ∉ (s.pc ()).args) ∧
      s.handle = Function.update s₀.handle a false ∧ ¬s.LiveCls (s.cls a) ∧
      s.arenas ⊆ s₀.arenas ∧ ∀ x ∈ s₀.arenas, x ∉ s.arenas → s.cls x = s.cls a)

/-- A step that has read the word of `x`. -/
theorem Freeing.freeWith {a x : Addr} {w : Unit → Addr → Nat} (hr : s.Refs w) (hc : s.cls = s₀.cls)
    (hh : s.handle = s₀.handle) (ha : s.arenas = s₀.arenas) (hargs : a ∈ (s.pc ()).args)
    (hx : s.In (s.cls a) x) : Freeing s₀ a (s.freeWith () a x (s.parentOrCount x)) := by
  cases hp : s.parentOrCount x with
  | parent p => exact ⟨hc, .inl ⟨⟨_, rfl, List.mem_singleton.mpr rfl⟩, hh, ha⟩⟩
  | count n =>
    simp only [ArenaSys.freeWith]
    split
    · rename_i hn
      subst hn
      refine ⟨hc, .inr (.inr ⟨.inr ⟨_, rfl, fun h => by cases h⟩, ?_, ?_, ha.subset, ?_⟩)⟩
      · change Function.update s.handle a false = _
        rw [hh]
      · exact hr.last_handle ((hr.threads ()).args a hargs) hx hp
      · exact fun y hy hy' => absurd (ha ▸ hy) hy'
    · exact ⟨hc, .inl ⟨⟨_, rfl, List.mem_singleton.mpr rfl⟩, hh, ha⟩⟩

theorem Freeing.step {a : Addr} {q : Free} {sp : Bool} (h : Freeing s₀ a s)
    (hlive : ∀ x ∈ s₀.arenas, s₀.Managed x) (hpc : s.pc () = .free a q) (hinv : s.Safe)
    (he : s.step () sp = some s') : Freeing s₀ a s' := by
  obtain ⟨w, π, L, hinv⟩ := hinv
  have hok := (hinv.refs.threads ()).locals
  rw [hpc] at hok
  simp only [ArenaSys.step, hpc] at he
  have hphase := h.phase
  simp only [hpc] at hphase
  cases q with
  | load x =>
    obtain ⟨-, hh, ha⟩ | ⟨hi, -⟩ | ⟨hi | ⟨_, -, hi⟩, -⟩ := hphase
    · simp only [stepFree, Option.bind_eq_bind, Option.bind_eq_some_iff, loadPoc_eq_some] at he
      obtain ⟨_, ⟨-, rfl⟩, he⟩ := he
      cases he
      exact Freeing.freeWith hinv.refs h.cls hh ha (by simp [hpc, Pc.args]) hok
    · cases hi
    · cases hi
    · exact absurd (List.mem_singleton.mpr rfl) hi
  | cas x n =>
    obtain ⟨-, hh, ha⟩ | ⟨hi, -⟩ | ⟨hi | ⟨_, -, hi⟩, -⟩ := hphase
    · simp only [stepFree, Option.bind_eq_bind, Option.bind_eq_some_iff, loadPoc_eq_some] at he
      obtain ⟨_, ⟨-, rfl⟩, he⟩ := he
      split at he
      · rename_i hn
        cases he
        refine ⟨h.cls, .inr (.inl ⟨rfl, ?_, ha, hinv.refs.drop_live hpc hok.1 hn.1 hok.2⟩)⟩
        change Function.update s.handle a false = _
        rw [hh]
      · cases he
        exact Freeing.freeWith hinv.refs h.cls hh ha (by simp [hpc, Pc.args]) hok.1
    · cases hi
    · cases hi
    · exact absurd (List.mem_singleton.mpr rfl) hi
  | next x =>
    obtain ⟨⟨_, -, hi⟩, -⟩ | ⟨hi, -⟩ | ⟨-, hh, hd, hsub, her⟩ := hphase
    · cases hi
    · cases hi
    · simp only [stepFree, Option.bind_eq_bind, Option.bind_eq_some_iff, loadNext_eq_some] at he
      obtain ⟨_, ⟨-, rfl⟩, he⟩ := he
      cases he
      exact ⟨h.cls, .inr (.inr ⟨.inr ⟨_, rfl, fun h => by cases h⟩, hh, hd, hsub, her⟩)⟩
  | blocks x n =>
    obtain ⟨⟨_, -, hi⟩, -⟩ | ⟨hi, -⟩ | ⟨-, hh, hd, hsub, her⟩ := hphase
    · cases hi
    · cases hi
    · simp only [stepFree, Option.bind_eq_bind, Option.bind_eq_some_iff, loadNext_eq_some] at he
      obtain ⟨_, ⟨hx, -⟩, he⟩ := he
      -- the freed block was of a class without handles, so of the class of `a`
      have hxa : s.cls x = s.cls a := by
        obtain ⟨-, y, hy, hyx⟩ := hlive x (hsub hx)
        by_cases hya : y = a
        · rw [h.cls, ← hya, hyx]
        · refine absurd ⟨y, ?_, ?_⟩ (hinv.frees.dead_blocks hpc)
          · rw [hh, Function.update_of_ne hya]
            exact hy
          · rw [h.cls]
            exact hyx
      have hsub' : s.arenas.erase x ⊆ s₀.arenas := (Finset.erase_subset ..).trans hsub
      have her' : ∀ y ∈ s₀.arenas, y ∉ s.arenas.erase x → s.cls y = s.cls a := by
        intro y hy hy'
        by_cases hyx : y = x
        · rwa [hyx]
        · exact her y hy fun h => hy' (Finset.mem_erase.mpr ⟨hyx, h⟩)
      cases n with
      | none =>
        cases he
        exact ⟨h.cls, .inr (.inr ⟨.inl rfl, hh, hd, hsub', her'⟩)⟩
      | some n =>
        cases he
        exact ⟨h.cls, .inr (.inr ⟨.inr ⟨_, rfl, fun h => by cases h⟩, hh, hd, hsub', her'⟩)⟩

/-- Properties of the run of a call, from those of its steps. -/
theorem Steps.induct {I : ArenaSys Unit → Prop} (hr : Reach s) (h : Steps s s') (h0 : I s)
    (hs : ∀ s s' sp, Reach s → I s → s.pc () ≠ .idle → s.step () sp = some s' → I s') : I s' := by
  have : Reach s' ∧ I s' := by
    induction h with
    | refl => exact ⟨hr, h0⟩
    | @tail s₁ s₂ _ hst ih =>
      obtain ⟨sp, hst⟩ := hst
      refine ⟨.exec () (.step sp) ih.1 trivial hst, ?_⟩
      by_cases hi : s₁.pc () = .idle
      · simp only [ArenaSys.step, hi, Option.some.injEq] at hst
        exact hst ▸ ih.2
      · exact hs s₁ s₂ sp ih.1 ih.2 hi hst
  exact this.2

/-- `hpb_Arena_New` makes an arena with a class of its own. -/
theorem Call.new_effect {a : Addr} {initial : Bool} (h : Seq s) (hc : Call s (.new a initial) s') :
    s'.arenas = insert a s.arenas ∧ s'.handle = Function.update s.handle a true ∧
      (∀ x ∈ s.arenas, s'.cls x ≠ s'.cls a) ∧
      ∀ x ∈ s.arenas, ∀ y ∈ s.arenas, s'.cls x = s'.cls y ↔ s.cls x = s.cls y := by
  obtain ⟨hr, hi⟩ := h.reach
  obtain ⟨-, ⟨-, ha⟩, ⟨s₁, he, hs⟩, -⟩ := hc
  cases he
  obtain rfl : s' = s.new a initial := hs.eq_of_idle hi
  obtain ⟨w, π, L, hinv⟩ := hr.inv
  have hcls : ∀ x ∈ s.arenas, (s.new a initial).cls x = s.cls x := fun x hx =>
    Function.update_of_ne (show x ≠ a from fun hxa => ha (hxa ▸ hx)) ..
  refine ⟨rfl, rfl, fun x hx hc => ?_, fun x hx y hy => ?_⟩
  · rw [hcls x hx, show (s.new a initial).cls a = s.issued from Function.update_self ..] at hc
    have := hinv.refs.mem.cls_lt x hx
    omega
  · rw [hcls x hx, hcls y hy]

/-- `hpb_Arena_Fuse` makes the classes of its arguments one, unless one has an initial block. -/
theorem Call.fuse_effect {a1 a2 : Addr} (h : Seq s) (hc : Call s (.fuse a1 a2) s') :
    s'.arenas = s.arenas ∧ s'.handle = s.handle ∧ s'.freed = s.freed ∧
      ∀ x y, s'.cls x = s'.cls y ↔ s.cls x = s.cls y ∨
        (s.initial a1 = false ∧ s.initial a2 = false) ∧
        (s.cls x = s.cls a1 ∨ s.cls x = s.cls a2) ∧ (s.cls y = s.cls a1 ∨ s.cls y = s.cls a2) := by
  obtain ⟨hr, hi⟩ := h.reach
  obtain ⟨-, hl, ⟨s₁, he, hs⟩, hi'⟩ := hc
  have hreach := Reach.exec () _ hr hl he
  simp only [exec] at he
  split at he
  · rename_i heq
    subst heq
    cases he
    obtain rfl := hs.eq_of_idle hi
    refine ⟨rfl, rfl, rfl, fun x y => ⟨.inl, ?_⟩⟩
    rintro (h | ⟨-, hx | hx, hy | hy⟩)
    exacts [h, hx.trans hy.symm, hx.trans hy.symm, hx.trans hy.symm, hx.trans hy.symm]
  · split at he
    · rename_i hini
      cases he
      obtain rfl := hs.eq_of_idle hi
      refine ⟨rfl, rfl, rfl, fun x y => ⟨.inl, ?_⟩⟩
      rintro (h | ⟨⟨h1, h2⟩, -⟩)
      · exact h
      · obtain hini | hini := hini
        · rw [h1] at hini
          cases hini
        · rw [h2] at hini
          cases hini
    · rename_i hini
      cases he
      have hstart : Fusing s a1 a2 (s.goto () (retry a1 a2 0)) :=
        ⟨rfl, rfl, rfl, .inr ⟨_, _, rfl⟩, .inl rfl, fun h => by cases h⟩
      have hf := hs.induct (I := Fusing s a1 a2) hreach hstart fun u u' sp hu hf hne hst => by
        obtain hp | ⟨d, p, hp⟩ := hf.pc
        · exact absurd hp hne
        · exact hf.step hp hu.inv hst
      refine ⟨hf.arenas, hf.handle, hf.freed, fun x y => ?_⟩
      have hnini : s.initial a1 = false ∧ s.initial a2 = false := by
        simpa [not_or] using hini
      simp only [hnini, and_self, true_and]
      obtain hcls | ⟨-, hcls⟩ := hf.cls
      · have hd := hf.done hi'
        rw [hcls] at hd ⊢
        rw [hd]
        refine ⟨.inl, ?_⟩
        rintro (h | ⟨hx | hx, hy | hy⟩)
        exacts [h, hx.trans hy.symm, hx.trans hy.symm, hx.trans hy.symm, hx.trans hy.symm]
      · exact hcls x y

/-- `hpb_Arena_Free` frees the arenas of the class when it gets its last handle, and else none. -/
theorem Call.free_effect {a : Addr} (h : Seq s) (hc : Call s (.free a) s') :
    s'.handle = Function.update s.handle a false ∧ s'.cls = s.cls ∧
      ∀ x, x ∈ s'.arenas ↔ x ∈ s.arenas ∧
        (s.cls x = s.cls a → ∃ y, s'.handle y = true ∧ s.cls y = s.cls a) := by
  obtain ⟨hr, hi⟩ := h.reach
  have hr' := hc.reach hr
  obtain ⟨-, hl, ⟨s₁, he, hs⟩, hi'⟩ := hc
  have hreach := Reach.exec () _ hr hl he
  obtain ⟨w, π, L, hinv⟩ := hr.inv
  obtain ⟨w', π', L', hinv'⟩ := hr'.inv
  cases he
  have hstart : Freeing s a (s.goto () (.free a (.load a))) :=
    ⟨rfl, .inl ⟨⟨_, rfl, List.mem_singleton.mpr rfl⟩, rfl, rfl⟩⟩
  have hlive : ∀ x ∈ s.arenas, s.Managed x := fun x => hinv.live_of_idle hi
  have hf := hs.induct (I := Freeing s a) hreach hstart fun u u' sp hu hf hne hst => by
    obtain ⟨⟨q, hp, -⟩, -⟩ | ⟨hp, -⟩ | ⟨hp | ⟨q, hp, -⟩, -⟩ := hf.phase
    · exact hf.step hlive hp hu.inv hst
    · exact absurd hp hne
    · exact absurd hp hne
    · exact hf.step hlive hp hu.inv hst
  obtain ⟨⟨q, hp, -⟩, -⟩ | ⟨-, hh, ha, y, hy, hyc⟩ | ⟨-, hh, hd, hsub, her⟩ := hf.phase
  · rw [hi'] at hp
    cases hp
  · refine ⟨hh, hf.cls, fun x => ?_⟩
    rw [ha]
    rw [hf.cls] at hyc
    exact ⟨fun hx => ⟨hx, fun _ => ⟨y, hy, hyc⟩⟩, And.left⟩
  · refine ⟨hh, hf.cls, fun x => ⟨fun hx => ⟨hsub hx, fun hxa => ?_⟩, fun ⟨hx, hlast⟩ => ?_⟩⟩
    · obtain ⟨-, y, hy, hyx⟩ := hinv'.live_of_idle hi' hx
      rw [hf.cls] at hyx
      exact ⟨y, hy, hyx.trans hxa⟩
    · by_contra hx'
      have hxa := her x hx hx'
      rw [hf.cls] at hxa
      obtain ⟨y, hy, hya⟩ := hlast hxa
      exact hd ⟨y, hy, by rw [hf.cls]; exact hya⟩

end Effects

/-- What holds between the calls of a single thread, and what its next call does. -/
structure SeqSafe (s : ArenaSys Unit) : Prop where
  /-- Following parents never comes back. -/
  acyclic : ∀ x, ¬Relation.TransGen s.ParentOf x x
  /-- Every class has one root. -/
  one_root : ∀ x ∈ s.arenas, ∃! r, s.In (s.cls x) r ∧ ∃ n, s.parentOrCount r = .count n
  /-- Its count is the number of unfreed handles of the class. -/
  count : ∀ r ∈ s.arenas, ∀ n, s.parentOrCount r = .count n → n = s.handles (s.cls r)
  /-- The list from the root has every arena of the class once, and its tail is on it. -/
  list : ∀ r ∈ s.arenas, ∀ n, s.parentOrCount r = .count n →
    ∃ l, LinkedPath s.next (some r) l none ∧ l.Nodup ∧
      (∀ x, x ∈ l ↔ x ∈ s.arenas ∧ s.cls x = s.cls r) ∧ s.tail r ∈ l
  /-- An arena is in memory as long as its class has an unfreed handle; else it was freed, once. -/
  live : ∀ x ∈ s.arenas, 0 < s.handles (s.cls x)
  freed_once : s.freed.Nodup ∧ ∀ n < s.issued, n ∈ s.freed ↔ ¬∃ x ∈ s.arenas, s.serial x = n
  /-- Every legal call returns. -/
  returns : ∀ act : Act, act.IsCall → s.Legal () act → ∃ s', Call s act s'
  new : ∀ a initial s', Call s (.new a initial) s' →
    s'.arenas = insert a s.arenas ∧ s'.handle = Function.update s.handle a true ∧
      (∀ x ∈ s.arenas, s'.cls x ≠ s'.cls a) ∧
      ∀ x ∈ s.arenas, ∀ y ∈ s.arenas, s'.cls x = s'.cls y ↔ s.cls x = s.cls y
  fuse : ∀ a1 a2 s', Call s (.fuse a1 a2) s' →
    s'.arenas = s.arenas ∧ s'.handle = s.handle ∧ s'.freed = s.freed ∧
      ∀ x y, s'.cls x = s'.cls y ↔ s.cls x = s.cls y ∨
        (s.initial a1 = false ∧ s.initial a2 = false) ∧
        (s.cls x = s.cls a1 ∨ s.cls x = s.cls a2) ∧ (s.cls y = s.cls a1 ∨ s.cls y = s.cls a2)
  /-- Freeing a handle frees the arenas of its class if it is the last one, and else none. -/
  free : ∀ a s', Call s (.free a) s' →
    s'.handle = Function.update s.handle a false ∧ s'.cls = s.cls ∧
      ∀ x, x ∈ s'.arenas ↔ x ∈ s.arenas ∧
        (s.cls x = s.cls a → ∃ y, s'.handle y = true ∧ s.cls y = s.cls a)

/-- **One thread that makes, fuses and frees arenas**: after every sequence of calls the trees, counts
and lists agree with the classes, and blocks are freed with the last handle of their class. -/
theorem arena_sequential (s : ArenaSys Unit) (h : Seq s) : s.SeqSafe := by
  obtain ⟨hr, hi⟩ := h.reach
  obtain ⟨w, π, L, hinv⟩ := hr.inv
  have hlive : ∀ {x}, x ∈ s.arenas → s.Managed x := hinv.live_of_idle hi
  refine ⟨hinv.descends.acyclic, fun x hx => ?_, fun r hr' n => hinv.count_of_idle hi (hlive hr'),
    fun r hr' n hn => ?_, fun x hx => ?_, ⟨hinv.history.freed_nodup, fun n hn => ?_⟩,
    fun act => h.exists_call act, fun a i s' hc => hc.new_effect h, fun a1 a2 s' hc => hc.fuse_effect h,
    fun a s' hc => hc.free_effect h⟩
  · obtain ⟨-, y, hy, hyx⟩ := hlive hx
    rw [← hyx]
    exact hinv.refs.mem.existsUnique_root hy
  · obtain ⟨l, hl, hmem, htail⟩ := hinv.links.class_path hinv.refs (hlive hr') hn fun u p q hu => by
      rw [show s.pc u = .idle from hi] at hu
      cases hu
    exact ⟨l, hl, hl.nodup, hmem, htail⟩
  · obtain ⟨-, y, hy, hyx⟩ := hlive hx
    refine Finset.card_pos.mpr ⟨y, Finset.mem_filter.mpr ⟨hinv.refs.mem.handle_mem y hy, hyx, hy⟩⟩
  · constructor
    · rintro hf ⟨x, hx, rfl⟩
      exact hinv.history.apart x hx hf
    · exact fun hx => ((hinv.history.issued n).mp hn).resolve_right hx

/-- After two arenas were made and fused. -/
theorem arena_sequential_new_new_fuse :
    ∃ s : ArenaSys Unit, Seq s ∧ s.arenas = {2, 1} ∧ s.cls 1 = s.cls 2 ∧ s.SeqSafe := by
  have h1 : Seq (start.new 1 false) :=
    .call (.new 1 false) .start ⟨trivial, ⟨rfl, by simp [start]⟩, ⟨_, rfl, .refl⟩, rfl⟩
  have h2 : Seq ((start.new 1 false).new 2 false) :=
    .call (.new 2 false) h1 ⟨trivial, ⟨rfl, by simp [start, ArenaSys.new]⟩, ⟨_, rfl, .refl⟩, rfl⟩
  have hl : ((start.new 1 false).new 2 false).Legal () (.fuse 1 2) := by
    refine ⟨rfl, fun a ha => ⟨?_, fun u p hu => ?_⟩⟩
    · obtain rfl | rfl : a = 1 ∨ a = 2 := by simpa using ha
      · rfl
      · rfl
    · cases hu
  obtain ⟨s, hc⟩ := h2.exists_call (.fuse 1 2) trivial hl
  have hs : Seq s := h2.call _ hc
  obtain ⟨ha, -, -, hcls⟩ := hc.fuse_effect h2
  refine ⟨s, hs, ha, (hcls 1 2).mpr (.inr ⟨⟨rfl, rfl⟩, .inl rfl, .inr rfl⟩), arena_sequential s hs⟩

end ArenaSys

end Hpb
