import Hpb.Mem.ArenaLinks

/-!
# Freeing whole lists

The thread that sees the last reference of a class frees all of its arenas, by following the `next`
pointers from the root. When it begins, no other thread holds a handle of the class, so nothing is
pending in it and the pointers visit every arena of the class.

* `Frees s L`: `L t` is the list that thread `t` has yet to free. The arenas of dead classes are just
  those on these lists.
* `History s`: an arena is in memory or freed, and freed once.
* `Reach.inv`: all the invariants hold in every reachable state.
-/

namespace Hpb

/-- The arena that `arena_dofree` has come to. -/
def Pc.held : Pc → Option Addr
  | .free _ (.next x) => some x
  | .free _ (.blocks x _) => some x
  | _ => none

theorem Pc.Calm.held {p : Pc} (h : p.Calm) : p.held = none := by
  cases p with
  | idle => rfl
  | fuse a1 a2 d p => rfl
  | free a q => cases q <;> first | rfl | exact h.elim

namespace ArenaSys

variable {T : Type}

/-- The lists that are being freed. -/
structure Frees (s : ArenaSys T) (L : T → List Addr) : Prop where
  path : ∀ t, LinkedPath s.next (s.pc t).held (L t) none
  read : ∀ t a x n, s.pc t = .free a (.blocks x n) → s.next x = n
  dead : ∀ t, ∀ y ∈ L t, y ∈ s.arenas ∧ ¬s.Managed y
  disjoint : ∀ t u, t ≠ u → ∀ y ∈ L t, y ∉ L u
  complete : ∀ y ∈ s.arenas, ¬s.Managed y → ∃ t, y ∈ L t

/-- Every arena that was made is in memory or was freed, not both, and freed at most once. -/
structure History (s : ArenaSys T) : Prop where
  serial_inj : ∀ x ∈ s.arenas, ∀ y ∈ s.arenas, s.serial x = s.serial y → x = y
  freed_nodup : s.freed.Nodup
  issued : ∀ n, n < s.issued ↔ n ∈ s.freed ∨ ∃ x ∈ s.arenas, s.serial x = n
  apart : ∀ x ∈ s.arenas, s.serial x ∉ s.freed

section Frees

variable {s s' : ArenaSys T} {L : T → List Addr} {t : T}

theorem Frees.mem_of_held (h : s.Frees L) {x : Addr} (hx : (s.pc t).held = some x) : x ∈ L t := by
  have hp := h.path t
  rw [hx] at hp
  refine hp.start_mem ?_
  intro hl
  rw [hl] at hp
  cases hp

/-- The block that is freed next belongs to a dead class. -/
theorem Frees.dead_blocks (h : s.Frees L) {a x : Addr} {n : Option Addr}
    (hpc : s.pc t = .free a (.blocks x n)) : ¬s.LiveCls (s.cls x) := by
  obtain ⟨hx, hm⟩ := h.dead t x (h.mem_of_held (by rw [hpc]; rfl))
  exact fun hl => hm ⟨hx, hl⟩

/-- A step that neither begins nor continues to free, and links only arenas of live classes. -/
theorem Frees.keep (h : s.Frees L) (hheld : ∀ u, (s'.pc u).held = (s.pc u).held)
    (hread : ∀ u a x n, s'.pc u = .free a (.blocks x n) → s'.next x = n)
    (ha : s'.arenas = s.arenas) (hm : ∀ x, s'.Managed x ↔ s.Managed x)
    (hn : ∀ x, ¬s.Managed x → s'.next x = s.next x) : s'.Frees L := by
  refine ⟨fun u => ?_, hread, fun u y hy => ?_, h.disjoint, fun y hy hym => ?_⟩
  · rw [hheld]
    exact (h.path u).congr fun y hy => (hn y (h.dead u y hy).2).symm
  · rw [ha, hm]
    exact h.dead u y hy
  · rw [ha] at hy
    rw [hm] at hym
    exact h.complete y hy hym

variable [DecidableEq T]

/-- `Frees.keep` for a step of a thread that is not freeing before or after it. -/
theorem Frees.goto (h : s.Frees L) {p : Pc} (hpc : s'.pc = Function.update s.pc t p)
    (hp : p.held = none) (hp0 : (s.pc t).held = none) (ha : s'.arenas = s.arenas)
    (hm : ∀ x, s'.Managed x ↔ s.Managed x) (hn : ∀ x, ¬s.Managed x → s'.next x = s.next x) :
    s'.Frees L := by
  refine h.keep (fun u => ?_) (fun u a x n hu => ?_) ha hm hn
  · rw [hpc]
    by_cases hut : u = t
    · subst hut
      rw [Function.update_self, hp, hp0]
    · rw [Function.update_of_ne hut]
  · rw [hpc] at hu
    by_cases hut : u = t
    · subst hut
      rw [Function.update_self] at hu
      subst hu
      cases hp
    · rw [Function.update_of_ne hut] at hu
      have hx := h.dead u x (h.mem_of_held (by rw [hu]; rfl))
      rw [hn x hx.2]
      exact h.read u a x n hu

/-- A class dies: its arenas are the list that thread `t` will free. -/
theorem Frees.begin (h : s.Frees L) {p : Pc} {l : List Addr} {r : Addr}
    (hpc : s'.pc = Function.update s.pc t p) (hp : p.held = some r)
    (hb : ∀ a x n, p ≠ .free a (.blocks x n)) (hp0 : (s.pc t).held = none)
    (ha : s'.arenas = s.arenas) (hn : s'.next = s.next) (hl : LinkedPath s.next (some r) l none)
    (hm : ∀ x ∈ s.arenas, ¬s'.Managed x ↔ ¬s.Managed x ∨ x ∈ l)
    (hlm : ∀ x ∈ l, s.Managed x) : s'.Frees (Function.update L t l) := by
  have hself : s'.pc t = p := by rw [hpc, Function.update_self]
  have hother : ∀ {u}, u ≠ t → s'.pc u = s.pc u := fun hu => by rw [hpc, Function.update_of_ne hu]
  have hLt : L t = [] := by
    have := h.path t
    rw [hp0] at this
    cases hL : L t with
    | nil => rfl
    | cons a l =>
      rw [hL] at this
      cases this.1
  refine ⟨fun u => ?_, fun u a x n hu => ?_, fun u y hy => ?_, fun u v huv y hu hv => ?_,
    fun y hy hym => ?_⟩
  · rw [hn]
    by_cases hut : u = t
    · subst hut
      rw [hself, hp, Function.update_self]
      exact hl
    · rw [hother hut, Function.update_of_ne hut]
      exact h.path u
  · rw [hn]
    by_cases hut : u = t
    · subst hut
      exact absurd (hself.symm.trans hu) (hb a x n)
    · rw [hother hut] at hu
      exact h.read u a x n hu
  · rw [ha]
    by_cases hut : u = t
    · subst hut
      rw [Function.update_self] at hy
      exact ⟨(hlm y hy).1, (hm y (hlm y hy).1).mpr (.inr hy)⟩
    · rw [Function.update_of_ne hut] at hy
      obtain ⟨hya, hym⟩ := h.dead u y hy
      exact ⟨hya, (hm y hya).mpr (.inl hym)⟩
  · by_cases hut : u = t
    · subst hut
      rw [Function.update_self] at hu
      rw [Function.update_of_ne (Ne.symm huv)] at hv
      exact (h.dead v y hv).2 (hlm y hu)
    · rw [Function.update_of_ne hut] at hu
      by_cases hvt : v = t
      · subst hvt
        rw [Function.update_self] at hv
        exact (h.dead u y hu).2 (hlm y hv)
      · rw [Function.update_of_ne hvt] at hv
        exact h.disjoint u v huv y hu hv
  · rw [ha] at hy
    obtain hym | hyl := (hm y hy).mp hym
    · obtain ⟨u, hu⟩ := h.complete y hy hym
      refine ⟨u, ?_⟩
      rwa [Function.update_of_ne]
      rintro rfl
      rw [hLt] at hu
      cases hu
    · exact ⟨t, by rwa [Function.update_self]⟩

/-- The first arena of its list is freed by thread `t`. -/
theorem Frees.blocks (h : s.Frees L) {a x : Addr} {n : Option Addr} (l : List Nat)
    (hpc : s.pc t = .free a (.blocks x n)) :
    (({ s with arenas := s.arenas.erase x, freed := l } : ArenaSys T).goto t
      (n.elim .idle fun n => .free a (.next n))).Frees (Function.update L t (L t).tail) := by
  generalize hp : (n.elim Pc.idle fun n => Pc.free a (.next n)) = p
  have hheld : p.held = n := by
    subst hp
    cases n <;> rfl
  have hpath := h.path t
  rw [hpc] at hpath
  obtain ⟨rest, hL⟩ : ∃ rest, L t = x :: rest := by
    cases hL : L t with
    | nil =>
      rw [hL] at hpath
      cases hpath
    | cons y rest =>
      rw [hL] at hpath
      cases hpath.1
      exact ⟨rest, rfl⟩
  rw [hL] at hpath
  have hnodup := hpath.nodup
  rw [hL, List.tail_cons]
  have hread := h.read t a x n hpc
  obtain ⟨hxa, hxm⟩ := h.dead t x (by rw [hL]; exact List.mem_cons_self)
  have hm : ∀ y, (({ s with arenas := s.arenas.erase x, freed := l } : ArenaSys T).goto t p).Managed y ↔
      s.Managed y := by
    refine fun y => ⟨fun hy => ⟨Finset.mem_of_mem_erase hy.1, hy.2⟩, fun hy => ⟨?_, hy.2⟩⟩
    refine Finset.mem_erase.mpr ⟨?_, hy.1⟩
    rintro rfl
    exact hxm hy
  have hsub : ∀ u y, y ∈ Function.update L t rest u → y ∈ L u ∧ y ≠ x := by
    intro u y hy
    by_cases hut : u = t
    · subst hut
      rw [Function.update_self] at hy
      refine ⟨hL ▸ List.mem_cons_of_mem _ hy, ?_⟩
      rintro rfl
      exact (List.nodup_cons.mp hnodup).1 hy
    · rw [Function.update_of_ne hut] at hy
      refine ⟨hy, ?_⟩
      rintro rfl
      exact h.disjoint u t hut y hy (hL ▸ List.mem_cons_self)
  refine ⟨fun u => ?_, fun u b y k hu => ?_, fun u y hy => ?_, fun u v huv y hu hv => ?_,
    fun y hy hym => ?_⟩
  · by_cases hut : u = t
    · subst hut
      simp only [ArenaSys.goto, Function.update_self, hheld]
      rw [← hread]
      exact hpath.2
    · simp only [ArenaSys.goto, Function.update_of_ne hut]
      exact h.path u
  · simp only [ArenaSys.goto] at hu
    by_cases hut : u = t
    · subst hut
      rw [Function.update_self] at hu
      subst hp
      cases n <;> cases hu
    · rw [Function.update_of_ne hut] at hu
      exact h.read u b y k hu
  · obtain ⟨hy, hyx⟩ := hsub u y hy
    obtain ⟨hya, hym⟩ := h.dead u y hy
    exact ⟨Finset.mem_erase.mpr ⟨hyx, hya⟩, fun hy' => hym ((hm y).mp hy')⟩
  · exact h.disjoint u v huv y (hsub u y hu).1 (hsub v y hv).1
  · obtain ⟨hyx, hya⟩ := Finset.mem_erase.mp hy
    obtain ⟨u, hu⟩ := h.complete y hya fun hy' => hym ((hm y).mpr hy')
    refine ⟨u, ?_⟩
    by_cases hut : u = t
    · subst hut
      rw [Function.update_self]
      rw [hL] at hu
      exact (List.mem_cons.mp hu).resolve_left hyx
    · rwa [Function.update_of_ne hut]

omit [DecidableEq T] in
/-- A new arena is of a live class. -/
theorem Frees.new (h : s.Frees L) {a : Addr} (initial : Bool) (ha : a ∉ s.arenas)
    (hm : ∀ x, (s.new a initial).Managed x ↔ s.Managed x ∨ x = a) : (s.new a initial).Frees L := by
  have hne : ∀ {u y}, y ∈ L u → y ≠ a := fun hy hya => ha (hya ▸ (h.dead _ _ hy).1)
  have hnext : ∀ {y}, y ≠ a → (s.new a initial).next y = s.next y := fun hy =>
    Function.update_of_ne hy ..
  refine ⟨fun u => (h.path u).congr fun y hy => (hnext (hne hy)).symm, fun u b x n hu => ?_,
    fun u y hy => ?_, h.disjoint, fun y hy hym => ?_⟩
  · rw [hnext (hne (h.mem_of_held (t := u) (by rw [show s.pc u = _ from hu]; rfl)))]
    exact h.read u b x n hu
  · obtain ⟨hya, hym⟩ := h.dead u y hy
    refine ⟨Finset.mem_insert_of_mem hya, fun hy' => ?_⟩
    obtain hy' | hy' := (hm y).mp hy'
    exacts [hym hy', hne hy hy']
  · rw [hm, not_or] at hym
    exact h.complete y (Finset.mem_of_mem_insert_of_ne hy hym.2) hym.1

end Frees

section ClassPath

variable [Fintype T] {s : ArenaSys T} {w : T → Addr → Nat} {π : Addr → Option Addr}

/-- The arena at the top of a tree is the root of its class. -/
theorem Links.root_anc (hl : s.Links π) (h : s.Refs w) {r x : Addr} {n : Nat} (hr : s.Managed r)
    (hn : s.parentOrCount r = .count n) (hx : s.Managed x) (hc : s.cls x = s.cls r) : Anc π r x := by
  obtain ⟨r', hr', hanc⟩ := hl.grounded x
  obtain ⟨hm', hc'⟩ := hl.above hanc hx
  cases hp : s.parentOrCount r' with
  | parent p =>
    obtain ⟨y, hy, -⟩ := hl.covered r' hm' ⟨p, hp⟩
    rw [hr'] at hy
    cases hy
  | count m =>
    rwa [h.mem.root_unique r r' n m hr hm' hn hp (hc.symm.trans hc')]

/-- **The list of a class that no thread is splicing**: from the root, `next` visits just the arenas of
the class. -/
theorem Links.class_path (hl : s.Links π) (h : s.Refs w) {r : Addr} {n : Nat} (hr : s.Managed r)
    (hn : s.parentOrCount r = .count n)
    (hquiet : ∀ u p q, (s.pc u).pos = some (p, q) → s.cls p ≠ s.cls r) :
    ∃ l, LinkedPath s.next (some r) l none ∧
      (∀ x, x ∈ l ↔ x ∈ s.arenas ∧ s.cls x = s.cls r) ∧ s.tail r ∈ l := by
  have hmem : ∀ {x}, x ∈ s.arenas.filter (s.cls · = s.cls r) ↔ s.Managed x ∧ s.cls x = s.cls r := by
    intro x
    rw [Finset.mem_filter]
    exact ⟨fun ⟨hx, hc⟩ => ⟨⟨hx, hc ▸ hr.2⟩, hc⟩, fun ⟨hx, hc⟩ => ⟨hx.1, hc⟩⟩
  have hnext : ∀ x ∈ s.arenas.filter (s.cls · = s.cls r), ∀ y, s.next x = some y →
      y ∈ s.arenas.filter (s.cls · = s.cls r) ∧ π y = some x := by
    intro x hx y hy
    obtain ⟨hxm, hxc⟩ := hmem.mp hx
    have hyx := hl.next x y hxm hy
    obtain ⟨hym, -, -, hxy⟩ := hl.edge y x hyx
    exact ⟨hmem.mpr ⟨hym, hxy.symm.trans hxc⟩, hyx⟩
  obtain ⟨l, hpath, hsub⟩ := hl.grounded.exists_linkedPath hnext (hmem.mpr ⟨hr, rfl⟩)
  have hall : ∀ x, s.Managed x → s.cls x = s.cls r → x ∈ l := by
    intro x hx hc
    refine hpath.mem_of_anc (N := s.arenas.filter (s.cls · = s.cls r)) (fun y hy _ z hyz => ?_)
      (hmem.mpr ⟨hx, hc⟩) (hl.root_anc h hr hn hx hc)
    obtain ⟨hym, hyc⟩ := hmem.mp hy
    obtain ⟨-, hyp, hzm, hzy⟩ := hl.edge y z hyz
    refine ⟨hmem.mpr ⟨hzm, hzy.trans hyc⟩, ?_⟩
    obtain ⟨z', hz', hcov⟩ := hl.covered y hym hyp
    rw [hyz] at hz'
    cases hz'
    refine hcov.resolve_right fun ⟨u, hu⟩ => ?_
    -- a pending arena would be spliced by its thread
    obtain ⟨p, hp⟩ := Pc.pos_of_pend hu
    obtain ⟨hpm, hpz⟩ := hl.pos u p z hp
    exact hquiet u p z hp ((hl.below hpz hpm).2.symm.trans (hzy.trans hyc))
  have htail := hl.below (hl.tail r hr) hr
  refine ⟨l, hpath, fun x => ⟨fun hx => ?_, fun ⟨hx, hc⟩ => hall x ⟨hx, hc ▸ hr.2⟩ hc⟩,
    hall _ htail.1 htail.2⟩
  obtain ⟨hxm, hxc⟩ := hmem.mp (hsub x hx)
  exact ⟨hxm.1, hxc⟩

end ClassPath

section Invariant

variable [DecidableEq T] [Fintype T] {s s' : ArenaSys T} {t : T}

/-- Parents have lower addresses, also in classes that are being freed. -/
def Descends (s : ArenaSys T) : Prop := ∀ x ∈ s.arenas, ∀ p, s.parentOrCount x = .parent p → p < x

/-- All that is invariant. -/
structure Inv (s : ArenaSys T) (w : T → Addr → Nat) (π : Addr → Option Addr) (L : T → List Addr) :
    Prop where
  refs : s.Refs w
  links : s.Links π
  frees : s.Frees L
  history : s.History
  descends : s.Descends

variable {w : T → Addr → Nat} {π : Addr → Option Addr} {L : T → List Addr}

/-- Every step keeps the lists that are being freed. -/
theorem Move.frees (h : s.Inv w π L) (m : Move s t s') : ∃ L', s'.Frees L' := by
  have hf := h.frees
  have hfuse : ∀ {a1 a2 d p}, s.pc t = .fuse a1 a2 d p → (s.pc t).held = none := fun hpc => by
    rw [hpc]
    rfl
  have hlists : ∀ {a1 a2 d p a1' a2' d' p'}, s.pc t = .fuse a1 a2 d p →
      (s.goto t (.fuse a1' a2' d' p')).Frees L := fun hpc =>
    hf.goto rfl rfl (hfuse hpc) rfl (fun _ => .rfl) fun _ _ => rfl
  cases m with
  | stay => exact ⟨L, hf⟩
  | go hc hc' => exact ⟨L, hf.goto rfl hc'.held hc.held rfl (fun _ => .rfl) fun _ _ => rfl⟩
  | call hi hc' => exact ⟨L, hf.goto rfl hc'.held (by rw [hi]; rfl) rfl (fun _ => .rfl) fun _ _ => rfl⟩
  | split hc hc' => exact ⟨L, hf.goto rfl hc'.held hc.held rfl (fun _ => .rfl) fun _ _ => rfl⟩
  | addRefs hpc => exact ⟨L, hf.goto rfl rfl (hfuse hpc) rfl (fun _ => .rfl) fun _ _ => rfl⟩
  | reparent hpc hr =>
    have ht := h.refs.threads t
    rw [hpc] at ht
    obtain ⟨hm1, hm2⟩ := hr.managed (ht.args _ (by simp [Pc.args])) (ht.args _ (by simp [Pc.args]))
    exact ⟨L, hf.goto rfl rfl (hfuse hpc) rfl (managed_merge hm1 hm2) fun _ _ => rfl⟩
  | fixup hpc => exact ⟨L, hf.goto rfl rfl (hfuse hpc) rfl (fun _ => .rfl) fun _ _ => rfl⟩
  | drop hpc hr hn hne =>
    exact ⟨L, hf.goto rfl rfl (by rw [hpc]; rfl) rfl
      (managed_release (h.refs.drop_live hpc hr hn hne)) fun _ _ => rfl⟩
  | @last a r q hpc ha hr hn =>
    have hh := (h.refs.threads t).args a ha
    have hrm : s.Managed r := hr.managed hh rfl
    obtain ⟨l, hl, hmem, -⟩ := h.links.class_path h.refs hrm hn fun u p q hu => by
      rw [hr.2]
      exact h.refs.last_quiet hpc ha hr hn u p q hu
    have hdead := managed_release_last (h.refs.last_handle hh hr hn)
    have hheld : (s.pc t).held = none := by
      rw [hpc] at ha ⊢
      cases q <;> first | rfl | cases ha
    refine ⟨_, hf.begin (p := .free a (.next r)) rfl rfl (fun _ _ _ h => by cases h) hheld rfl rfl hl
      (fun x hx => ?_) fun x hx => ?_⟩
    · rw [hmem, hr.2]
      refine Iff.trans (not_congr (hdead x)) ?_
      simp only [hx, true_and]
      tauto
    · obtain ⟨hxa, hxc⟩ := (hmem x).mp hx
      exact ⟨hxa, hxc ▸ hrm.2⟩
  | tail hpc => exact ⟨L, hlists hpc⟩
  | walkOn hpc => exact ⟨L, hlists hpc⟩
  | walkEnd hpc => exact ⟨L, hlists hpc⟩
  | exchange hpc =>
    refine ⟨L, hf.goto rfl rfl (hfuse hpc) rfl (fun _ => .rfl) fun x hx => Function.update_of_ne ?_ ..⟩
    rintro rfl
    exact hx (h.links.exchange_facts hpc).2.2.1
  | reinstall hpc => exact ⟨L, hlists hpc⟩
  | spliced hpc => exact ⟨L, hlists hpc⟩
  | store hpc =>
    exact ⟨L, hf.goto rfl (fused_calm ..).held (hfuse hpc) rfl (fun _ => .rfl) fun _ _ => rfl⟩
  | @freeNext a x hpc =>
    refine ⟨L, hf.keep (fun u => ?_) (fun u b y n hu => ?_) rfl (fun _ => .rfl) fun _ _ => rfl⟩
    · simp only [ArenaSys.goto]
      by_cases hut : u = t
      · subst hut
        rw [Function.update_self, hpc]
        rfl
      · rw [Function.update_of_ne hut]
    · simp only [ArenaSys.goto] at hu
      by_cases hut : u = t
      · subst hut
        rw [Function.update_self] at hu
        cases hu
        rfl
      · rw [Function.update_of_ne hut] at hu
        exact hf.read u b y n hu
  | freeBlocks hpc => exact ⟨_, hf.blocks _ hpc⟩
  | new _ ha =>
    exact ⟨L, hf.new _ ha (managed_new h.refs.mem.cls_lt h.refs.mem.handle_mem _ ha)⟩

omit [DecidableEq T] [Fintype T] in
theorem History.congr (h : s.History) (ha : s'.arenas = s.arenas) (hs : s'.serial = s.serial)
    (hi : s'.issued = s.issued) (hf : s'.freed = s.freed) : s'.History :=
  ⟨by rw [ha, hs]; exact h.serial_inj, by rw [hf]; exact h.freed_nodup,
    by rw [ha, hs, hi, hf]; exact h.issued, by rw [ha, hs, hf]; exact h.apart⟩

omit [DecidableEq T] [Fintype T] in
theorem History.free (h : s.History) {x : Addr} (hx : x ∈ s.arenas) :
    ({ s with arenas := s.arenas.erase x, freed := s.serial x :: s.freed } : ArenaSys T).History := by
  refine ⟨fun y hy z hz => ?_, List.nodup_cons.mpr ⟨h.apart x hx, h.freed_nodup⟩, fun n => ?_,
    fun y hy => ?_⟩
  · exact h.serial_inj y (Finset.mem_of_mem_erase hy) z (Finset.mem_of_mem_erase hz)
  · rw [h.issued n, List.mem_cons]
    constructor
    · rintro (hn | ⟨y, hy, rfl⟩)
      · exact .inl (.inr hn)
      · by_cases hyx : y = x
        · exact .inl (.inl (hyx ▸ rfl))
        · exact .inr ⟨y, Finset.mem_erase.mpr ⟨hyx, hy⟩, rfl⟩
    · rintro ((rfl | hn) | ⟨y, hy, rfl⟩)
      exacts [.inr ⟨x, hx, rfl⟩, .inl hn, .inr ⟨y, Finset.mem_of_mem_erase hy, rfl⟩]
  · obtain ⟨hyx, hy⟩ := Finset.mem_erase.mp hy
    rw [List.mem_cons, not_or]
    exact ⟨fun heq => hyx (h.serial_inj y hy x hx heq), h.apart y hy⟩

omit [DecidableEq T] [Fintype T] in
theorem History.new (h : s.History) {a : Addr} (initial : Bool) (ha : a ∉ s.arenas) :
    (s.new a initial).History := by
  have hlt : ∀ {x}, x ∈ s.arenas → s.serial x < s.issued := fun hx => (h.issued _).mpr (.inr ⟨_, hx, rfl⟩)
  have hself : (s.new a initial).serial a = s.issued := Function.update_self ..
  have hother : ∀ {x}, x ∈ s.arenas → (s.new a initial).serial x = s.serial x := fun {x} hx =>
    Function.update_of_ne (show x ≠ a from fun hxa => ha (hxa ▸ hx)) ..
  refine ⟨fun x hx y hy hxy => ?_, h.freed_nodup, fun n => ?_, fun x hx => ?_⟩
  · obtain rfl | hx' := Finset.mem_insert.mp hx <;> obtain rfl | hy' := Finset.mem_insert.mp hy
    · rfl
    · rw [hself, hother hy'] at hxy
      have := hlt hy'
      omega
    · rw [hself, hother hx'] at hxy
      have := hlt hx'
      omega
    · rw [hother hx', hother hy'] at hxy
      exact h.serial_inj x hx' y hy' hxy
  · change n < s.issued + 1 ↔ n ∈ s.freed ∨ _
    have hn := h.issued n
    constructor
    · intro hlt
      by_cases hne : n = s.issued
      · exact .inr ⟨a, Finset.mem_insert_self .., hself.trans hne.symm⟩
      · refine (hn.mp (by omega)).imp_right fun ⟨x, hx, hxn⟩ => ?_
        exact ⟨x, Finset.mem_insert_of_mem hx, (hother hx).trans hxn⟩
    · rintro (hf | ⟨x, hx, rfl⟩)
      · have := hn.mpr (.inl hf)
        omega
      · obtain rfl | hx := Finset.mem_insert.mp hx
        · rw [hself]
          omega
        · rw [hother hx]
          have := hlt hx
          omega
  · change _ ∉ s.freed
    obtain rfl | hx := Finset.mem_insert.mp hx
    · rw [hself]
      intro hf
      have := (h.issued _).mpr (.inl hf)
      omega
    · rw [hother hx]
      exact h.apart x hx

omit [Fintype T] in
theorem Move.history (h : s.History) (m : Move s t s') : s'.History := by
  cases m with
  | stay => exact h
  | freeBlocks _ hx => exact (h.free hx).congr rfl rfl rfl rfl
  | new _ ha => exact h.new _ ha
  | _ => exact h.congr rfl rfl rfl rfl

omit [DecidableEq T] [Fintype T] in
theorem Descends.setPoc (h : s.Descends) {y : Addr} {v : Poc} (hv : ∀ p, v = .parent p → p < y) :
    (s.setPoc y v).Descends := by
  intro x hx p hp
  by_cases hxy : x = y
  · subst hxy
    exact hv p ((Function.update_self ..).symm.trans hp)
  · exact h x hx p ((Function.update_of_ne hxy ..).symm.trans hp)

omit [Fintype T] in
theorem Move.descends (h : s.Descends) (m : Move s t s') : s'.Descends := by
  cases m with
  | split _ _ _ _ _ _ hlt => exact h.setPoc fun q hq => by cases hq; exact hlt
  | addRefs => exact h.setPoc fun q hq => by cases hq
  | reparent _ hr => exact h.setPoc fun q hq => by cases hq; exact hr.1
  | fixup => exact h.setPoc fun q hq => by cases hq
  | drop => exact h.setPoc fun q hq => by cases hq
  | freeBlocks => exact fun x hx p hp => h x (Finset.mem_of_mem_erase hx) p hp
  | @new a initial =>
    intro x hx p hp
    by_cases hxa : x = a
    · subst hxa
      cases (Function.update_self ..).symm.trans hp
    · exact h x (Finset.mem_of_mem_insert_of_ne hx hxa) p ((Function.update_of_ne hxa ..).symm.trans hp)
  | _ => exact h

/-- **Every step keeps all the invariants.** -/
theorem Move.inv (h : s.Inv w π L) (m : Move s t s') : ∃ w' π' L', s'.Inv w' π' L' := by
  have hd : ∀ a x n, s.pc t = .free a (.blocks x n) → ¬s.LiveCls (s.cls x) := fun _ _ _ hpc =>
    h.frees.dead_blocks hpc
  obtain ⟨w', hw⟩ := m.refs h.refs hd
  obtain ⟨π', hπ⟩ := m.links h.refs h.links hd
  obtain ⟨L', hL⟩ := m.frees h
  exact ⟨w', π', L', hw, hπ, hL, m.history h.history, m.descends h.descends⟩

omit [DecidableEq T] in
theorem start_inv : (start : ArenaSys T).Inv (fun _ _ => 0) (fun _ => none) fun _ => [] := by
  have hm : ∀ x, ¬(start : ArenaSys T).Managed x := fun x hx => by simp [Managed, start] at hx
  refine ⟨⟨⟨?_, ?_, ?_, ?_, ?_⟩, fun t => ⟨?_, trivial, ?_, rfl, ?_⟩, ?_⟩, ?_, ?_, ?_, ?_⟩
  · intro a ha
    cases ha
  · intro x hx
    cases hx
  · exact fun x _ hx => absurd hx (hm x)
  · exact fun x _ _ _ hx => absurd hx (hm x)
  · exact fun r _ hr => absurd hr (hm r)
  · intro a ha
    cases ha
  · exact fun x hx => absurd rfl hx
  · intro _ _ _ _ _ _ hp
    cases hp
  · intro t a p hp
    cases hp
  · refine ⟨fun x y h => ?_, fun x y hx => absurd hx (hm x), fun t c y h => ?_, fun t c y x h => ?_,
      fun t u c y z _ h => ?_, fun x hx => absurd hx (hm x), fun x => ⟨x, rfl, .refl⟩,
      fun x hx => absurd hx (hm x), fun t p q h => ?_, fun t _ _ _ _ _ _ h => ?_, fun t d x h => ?_,
      fun t u d x q h => ?_⟩ <;> cases h
  · refine ⟨fun t => rfl, fun t a x n h => ?_, fun t y hy => ?_, fun t u _ y hy => ?_, fun y hy => ?_⟩
    · cases h
    all_goals cases hy
  · refine ⟨fun x hx => ?_, List.nodup_nil, fun n => ?_, fun x hx => ?_⟩
    · cases hx
    · simp [start]
    · cases hx
  · intro x hx
    cases hx

/-- **The invariants hold in every reachable state.** -/
theorem Reach.inv (h : Reach s) : ∃ w π L, s.Inv w π L := by
  induction h with
  | start => exact ⟨_, _, _, start_inv⟩
  | exec t act _ hl he ih =>
    obtain ⟨w, π, L, ih⟩ := ih
    exact (ih.refs.move act hl he).inv ih

end Invariant

end ArenaSys

end Hpb
