import Hpb.Mem.ArenaMove
import Hpb.Lib.Forest

/-!
# No arena is lost from the lists

While lists are spliced, an arena is not always linked: between the compare-exchange that reparents it
and the exchange that installs it, or after another thread displaced it, only the locals of a thread
hold it. `Pc.pend` is such an arena with the one it will be installed below. Together with the `next`
pointers this gives every arena that is not a root exactly one predecessor, and the predecessors of a
live class form a forest `π` (in fact one tree, below its root).

* `Links s π`: the invariant.
* `Links.rehang`: a pending arena moves down the tree, to the (stale) tail of its predecessor or along
  a `next` pointer.
* `Move.links`: every step keeps the invariant.

Moving a pending arena to the tail of its predecessor must not move it below itself. That is why the
invariant says (`Links.based_tail`) that an arena that still hangs directly below the arena it was
displaced or reparented to is not above the tail of that arena, and (`Links.based_pos`) not above the
places that threads will store there.
-/

namespace Hpb

/-- The arena that a thread has yet to install, and the arena it hangs below so far. -/
def Pc.pend : Pc → Option (Addr × Addr)
  | .fuse _ _ _ (.lists parent (.tail child)) => some (child, parent)
  | .fuse _ _ _ (.lists _ (.walk pt child)) => some (child, pt)
  | .fuse _ _ _ (.lists _ (.exchange pt child)) => some (child, pt)
  | .fuse _ _ _ (.lists _ (.childTail child (some d))) => some (d, child)
  | _ => none

/-- A pending arena before its thread has read the tail it will go to. -/
def Pc.based : Pc → Option (Addr × Addr)
  | .fuse _ _ _ (.lists parent (.tail child)) => some (child, parent)
  | .fuse _ _ _ (.lists _ (.childTail child (some d))) => some (d, child)
  | _ => none

/-- The arena whose tail a thread will store, and how far it has come. -/
def Pc.pos : Pc → Option (Addr × Addr)
  | .fuse _ _ _ (.lists parent (.tail _)) => some (parent, parent)
  | .fuse _ _ _ (.lists parent (.walk pt _)) => some (parent, pt)
  | .fuse _ _ _ (.lists parent (.exchange pt _)) => some (parent, pt)
  | .fuse _ _ _ (.lists parent (.childTail child _)) => some (parent, child)
  | .fuse _ _ _ (.lists parent (.store pt)) => some (parent, pt)
  | _ => none

/-- Not splicing lists. -/
structure Pc.Quiet (p : Pc) : Prop where
  pend : p.pend = none
  based : p.based = none
  pos : p.pos = none

theorem Pc.Calm.quiet {p : Pc} (h : p.Calm) : p.Quiet := by
  cases p with
  | idle => exact ⟨rfl, rfl, rfl⟩
  | fuse a1 a2 d p => cases p <;> first | exact ⟨rfl, rfl, rfl⟩ | exact h.elim
  | free a q => exact ⟨rfl, rfl, rfl⟩

theorem Pc.based_pend {p : Pc} {x : Addr × Addr} (h : p.based = some x) : p.pend = some x := by
  unfold Pc.based at h
  split at h
  · exact h
  · exact h
  · cases h

theorem Pc.pos_of_pend {p : Pc} {k y : Addr} (h : p.pend = some (k, y)) :
    ∃ x, p.pos = some (x, y) := by
  unfold Pc.pend at h
  split at h <;> cases h <;> exact ⟨_, rfl⟩

namespace ArenaSys

variable {T : Type}

/-- Where every arena of a live class hangs. -/
structure Links (s : ArenaSys T) (π : Addr → Option Addr) : Prop where
  edge : ∀ x y, π x = some y → s.Managed x ∧ s.IsParent x ∧ s.Managed y ∧ s.cls y = s.cls x
  next : ∀ x y, s.Managed x → s.next x = some y → π y = some x
  pend : ∀ t c y, (s.pc t).pend = some (c, y) → π c = some y
  unshared : ∀ t c y x, (s.pc t).pend = some (c, y) → s.Managed x → s.next x ≠ some c
  distinct : ∀ t u c y z, t ≠ u → (s.pc t).pend = some (c, y) → (s.pc u).pend ≠ some (c, z)
  covered : ∀ x, s.Managed x → s.IsParent x →
    ∃ y, π x = some y ∧ (s.next y = some x ∨ ∃ t, (s.pc t).pend = some (x, y))
  grounded : Grounded π
  tail : ∀ x, s.Managed x → Anc π x (s.tail x)
  pos : ∀ t p q, (s.pc t).pos = some (p, q) → s.Managed p ∧ Anc π p q
  inner : ∀ t a1 a2 d p c o, s.pc t = .fuse a1 a2 d (.lists p (.childTail c o)) → c ≠ p
  based_tail : ∀ t d x, (s.pc t).based = some (d, x) → ¬Anc π d (s.tail x)
  based_pos : ∀ t u d x q, (s.pc t).based = some (d, x) → (s.pc u).pos = some (x, q) → ¬Anc π d q

/-- A new arena makes a live class of its own. -/
theorem managed_new {s : ArenaSys T} (hcl : ∀ x ∈ s.arenas, s.cls x < s.issued)
    (hh : ∀ x, s.handle x = true → x ∈ s.arenas) {a : Addr} (initial : Bool) (ha : a ∉ s.arenas)
    (x : Addr) : (s.new a initial).Managed x ↔ s.Managed x ∨ x = a := by
  by_cases hxa : x = a
  · subst hxa
    refine ⟨fun _ => .inr rfl, fun _ => ⟨Finset.mem_insert_self .., x, Function.update_self .., rfl⟩⟩
  · simp only [hxa, or_false]
    have hxc : (s.new a initial).cls x = s.cls x := Function.update_of_ne hxa ..
    constructor
    · rintro ⟨hx', y, hy, hyx⟩
      have hx : x ∈ s.arenas := Finset.mem_of_mem_insert_of_ne hx' hxa
      rw [hxc] at hyx
      have hya : y ≠ a := by
        rintro rfl
        rw [show (s.new y initial).cls y = s.issued from Function.update_self ..] at hyx
        exact absurd (hcl x hx) (by omega)
      exact ⟨hx, y, (Function.update_of_ne hya ..).symm.trans hy,
        (Function.update_of_ne hya ..).symm.trans hyx⟩
    · rintro ⟨hx, y, hy, hyx⟩
      have hya : y ≠ a := fun hya => ha (hya ▸ hh y hy)
      exact ⟨Finset.mem_insert_of_mem hx, y, (Function.update_of_ne hya ..).trans hy,
        (Function.update_of_ne hya ..).trans (hyx.trans hxc.symm)⟩

namespace Links

variable {s s' : ArenaSys T} {π : Addr → Option Addr} {t : T}

/-- What hangs below an arena of a live class is of the same class. -/
theorem below (h : s.Links π) {a x : Addr} (ha : Anc π a x) (hm : s.Managed a) :
    s.Managed x ∧ s.cls x = s.cls a := by
  induction ha with
  | refl => exact ⟨hm, rfl⟩
  | up hp _ ih =>
    obtain ⟨hx, -, -, hc⟩ := h.edge _ _ hp
    exact ⟨hx, hc.symm.trans ih.2⟩

theorem above (h : s.Links π) {a x : Addr} (ha : Anc π a x) (hm : s.Managed x) :
    s.Managed a ∧ s.cls x = s.cls a := by
  induction ha with
  | refl => exact ⟨hm, rfl⟩
  | up hp _ ih =>
    obtain ⟨hx, -, hy, hc⟩ := h.edge _ _ hp
    exact ⟨(ih hy).1, hc.symm.trans (ih hy).2⟩

/-- A store to the tail of `x`, of an arena below it. -/
theorem setTail (h : s.Links π) {x q : Addr} (hxq : Anc π x q)
    (hb : ∀ t d, (s.pc t).based = some (d, x) → ¬Anc π d q) : (s.setTail x q).Links π := by
  refine ⟨h.edge, h.next, h.pend, h.unshared, h.distinct, h.covered, h.grounded, fun y hy => ?_,
    h.pos, h.inner, fun t d y ht => ?_, h.based_pos⟩
  · by_cases hyx : y = x
    · subst hyx
      simpa [ArenaSys.setTail] using hxq
    · simpa [ArenaSys.setTail, Function.update_of_ne hyx] using h.tail y hy
  · by_cases hyx : y = x
    · subst hyx
      simpa [ArenaSys.setTail] using hb t d ht
    · simpa [ArenaSys.setTail, Function.update_of_ne hyx] using h.based_tail t d y ht

variable [DecidableEq T]

/-- The program counter of thread `t` moves without changing what is linked. -/
theorem moved (h : s.Links π) {p : Pc} (hpc : s'.pc = Function.update s.pc t p)
    (hpend0 : p.pend = (s.pc t).pend) (hbased0 : p.based = (s.pc t).based)
    (hpos0 : ∀ a b, p.pos = some (a, b) → s.Managed a ∧ Anc π a b ∧
      ∀ u d, (s.pc u).based = some (d, a) → ¬Anc π d b)
    (hin : ∀ a1 a2 d x c o, p = .fuse a1 a2 d (.lists x (.childTail c o)) → c ≠ x)
    (hn : s'.next = s.next) (htl : s'.tail = s.tail)
    (hm : ∀ x, s'.Managed x ↔ s.Managed x) (hc : s'.cls = s.cls)
    (hp : ∀ x, s.Managed x → (s'.IsParent x ↔ s.IsParent x)) : s'.Links π := by
  have hpend : ∀ u, (s'.pc u).pend = (s.pc u).pend := by
    intro u
    rw [hpc]
    by_cases hu : u = t
    · subst hu
      rw [Function.update_self, hpend0]
    · rw [Function.update_of_ne hu]
  have hbased : ∀ u, (s'.pc u).based = (s.pc u).based := by
    intro u
    rw [hpc]
    by_cases hu : u = t
    · subst hu
      rw [Function.update_self, hbased0]
    · rw [Function.update_of_ne hu]
  have hpos : ∀ u a b, (s'.pc u).pos = some (a, b) → s.Managed a ∧ Anc π a b ∧
      ∀ u d, (s.pc u).based = some (d, a) → ¬Anc π d b := by
    intro u a b hu
    rw [hpc] at hu
    by_cases hut : u = t
    · subst hut
      rw [Function.update_self] at hu
      exact hpos0 a b hu
    · rw [Function.update_of_ne hut] at hu
      obtain ⟨ha, hab⟩ := h.pos u a b hu
      exact ⟨ha, hab, fun v d hv => h.based_pos v u d a b hv hu⟩
  refine ⟨fun x y hx => ?_, fun x y hx hxy => ?_, fun u c y hu => ?_, fun u c y x hu hx => ?_,
    fun u v c y z huv hu hv => ?_, fun x hx hxp => ?_, h.grounded, fun x hx => ?_, fun u p q hu => ?_,
    fun u a1 a2 d p c o hu => ?_, fun u d x hu => ?_, fun u v d x q hu hv => ?_⟩
  · obtain ⟨hx, hxp, hy, hxy⟩ := h.edge x y hx
    exact ⟨(hm x).mpr hx, (hp x hx).mpr hxp, (hm y).mpr hy, by rw [hc]; exact hxy⟩
  · rw [hn] at hxy
    exact h.next x y ((hm x).mp hx) hxy
  · exact h.pend u c y (hpend u ▸ hu)
  · rw [hn]
    exact h.unshared u c y x (hpend u ▸ hu) ((hm x).mp hx)
  · exact h.distinct u v c y z huv (hpend u ▸ hu) (hpend v ▸ hv)
  · obtain ⟨y, hxy, hy⟩ := h.covered x ((hm x).mp hx) ((hp x ((hm x).mp hx)).mp hxp)
    rw [hn]
    exact ⟨y, hxy, hy.imp_right fun ⟨u, hu⟩ => ⟨u, (hpend u).trans hu⟩⟩
  · rw [htl]
    exact h.tail x ((hm x).mp hx)
  · obtain ⟨hp, ha, -⟩ := hpos u p q hu
    exact ⟨(hm p).mpr hp, ha⟩
  · rw [hpc] at hu
    by_cases hut : u = t
    · subst hut
      rw [Function.update_self] at hu
      exact hin a1 a2 d p c o hu
    · rw [Function.update_of_ne hut] at hu
      exact h.inner u a1 a2 d p c o hu
  · rw [htl]
    exact h.based_tail u d x (hbased u ▸ hu)
  · exact (hpos v x q hv).2.2 u d (hbased u ▸ hu)

/-- A step that does not splice. -/
theorem quiet (h : s.Links π) {p : Pc} (hpc : s'.pc = Function.update s.pc t p) (hq : p.Quiet)
    (hq0 : (s.pc t).Quiet) (hn : s'.next = s.next) (htl : s'.tail = s.tail)
    (hm : ∀ x, s'.Managed x ↔ s.Managed x) (hc : s'.cls = s.cls)
    (hp : ∀ x, s.Managed x → (s'.IsParent x ↔ s.IsParent x)) : s'.Links π := by
  refine h.moved hpc (hq.pend.trans hq0.pend.symm) (hq.based.trans hq0.based.symm)
    (fun a b hab => ?_) (fun a1 a2 d x c o hp => ?_) hn htl hm hc hp
  · rw [hq.pos] at hab
    cases hab
  · subst hp
    cases hq.pos

/-- A pending arena `c` is moved down from `b` to `v`. -/
theorem rehang (h : s.Links π) {p : Pc} {b c v x : Addr} (hpc : s'.pc = Function.update s.pc t p)
    (hs : s' = s.goto t p) (hpend0 : (s.pc t).pend = some (c, b)) (hpend : p.pend = some (c, v))
    (hbased : p.based = none) (hpos : p.pos = some (x, v)) (hx : s.Managed x)
    (hin : ∀ a1 a2 d x c o, p ≠ .fuse a1 a2 d (.lists x (.childTail c o)))
    (hbv : Anc π b v) (hcv : ¬Anc π c v) (hxv : Anc π x v)
    (hkeep : ∀ u d y z, u ≠ t → (s.pc u).based = some (d, y) → Anc π y z → ¬Anc π d z →
      ¬Anc (Function.update π c (some v)) d z)
    (hown : ∀ u d, u ≠ t → (s.pc u).based = some (d, x) → ¬Anc π d v) :
    s'.Links (Function.update π c (some v)) := by
  have hcb := h.pend t c b hpend0
  obtain ⟨hcm, hcp, hbm, hbc⟩ := h.edge c b hcb
  obtain ⟨hvm, hvc⟩ := h.below hbv hbm
  have hother : ∀ {u}, u ≠ t → s'.pc u = s.pc u := fun hu => by
    rw [hpc, Function.update_of_ne hu]
  have hself : s'.pc t = p := by rw [hpc, Function.update_self]
  have hne : ∀ {u d y}, u ≠ t → (s.pc u).pend = some (d, y) → d ≠ c := fun hu hd hdc =>
    h.distinct t _ c b _ (Ne.symm hu) hpend0 (hdc ▸ hd)
  have hmono : ∀ {y z}, Anc π y z → Anc (Function.update π c (some v)) y z := fun ha =>
    (anc_rehang_iff h.grounded hcv fun b' hb' => by rw [hcb] at hb'; cases hb'; exact hbv).mpr (.inl ha)
  have hnotbased : ∀ {d y}, (s'.pc t).based ≠ some (d, y) := fun hd => by
    rw [hself, hbased] at hd
    cases hd
  subst hs
  refine ⟨fun y z hy => ?_, fun y z hy hyz => ?_, fun u d y hu => ?_, fun u d y z hu hz => ?_,
    fun u w d y z huw hu hw => ?_, fun y hy hyp => ?_, h.grounded.rehang hcv, fun y hy => hmono (h.tail y hy),
    fun u y q hu => ?_, fun u a1 a2 d y z o hu => ?_, fun u d y hu => ?_, fun u w d y q hu hw => ?_⟩
  · by_cases hyc : y = c
    · subst hyc
      rw [Function.update_self] at hy
      cases hy
      exact ⟨hcm, hcp, hvm, hvc.trans hbc⟩
    · rw [Function.update_of_ne hyc] at hy
      exact h.edge y z hy
  · have hzc : z ≠ c := by
      rintro rfl
      exact h.unshared t z b y hpend0 hy hyz
    rw [Function.update_of_ne hzc]
    exact h.next y z hy hyz
  · by_cases hut : u = t
    · subst hut
      rw [hself, hpend] at hu
      cases hu
      exact Function.update_self ..
    · rw [hother hut] at hu
      rw [Function.update_of_ne (hne hut hu)]
      exact h.pend u d y hu
  · by_cases hut : u = t
    · subst hut
      rw [hself, hpend] at hu
      cases hu
      exact h.unshared u c b z hpend0 hz
    · rw [hother hut] at hu
      exact h.unshared u d y z hu hz
  · by_cases hut : u = t
    · subst hut
      rw [hself, hpend] at hu
      cases hu
      rw [hother (Ne.symm huw)] at hw
      exact hne (Ne.symm huw) hw rfl
    · rw [hother hut] at hu
      by_cases hwt : w = t
      · subst hwt
        rw [hself, hpend] at hw
        cases hw
        exact hne hut hu rfl
      · rw [hother hwt] at hw
        exact h.distinct u w d y z huw hu hw
  · by_cases hyc : y = c
    · subst hyc
      exact ⟨v, Function.update_self .., .inr ⟨t, by rw [hself, hpend]⟩⟩
    · obtain ⟨z, hyz, hz⟩ := h.covered y hy hyp
      refine ⟨z, (Function.update_of_ne hyc ..).trans hyz, hz.imp_right fun ⟨u, hu⟩ => ⟨u, ?_⟩⟩
      rw [hother, hu]
      rintro rfl
      rw [hpend0] at hu
      cases hu
      exact hyc rfl
  · by_cases hut : u = t
    · subst hut
      rw [hself, hpos] at hu
      cases hu
      exact ⟨hx, hmono hxv⟩
    · rw [hother hut] at hu
      obtain ⟨hym, hyq⟩ := h.pos u y q hu
      exact ⟨hym, hmono hyq⟩
  · by_cases hut : u = t
    · subst hut
      rw [hself] at hu
      exact absurd hu (hin a1 a2 d y z o)
    · rw [hother hut] at hu
      exact h.inner u a1 a2 d y z o hu
  · by_cases hut : u = t
    · exact absurd hu (hut ▸ hnotbased)
    · rw [hother hut] at hu
      have hym := (h.edge d y (h.pend u d y (Pc.based_pend hu))).2.2.1
      exact hkeep u d y _ hut hu (h.tail y hym) (h.based_tail u d y hu)
  · by_cases hut : u = t
    · exact absurd hu (hut ▸ hnotbased)
    · rw [hother hut] at hu
      by_cases hwt : w = t
      · subst hwt
        rw [hself, hpos] at hw
        cases hw
        exact hkeep u d x v hut hu hxv (hown u d hut hu)
      · rw [hother hwt] at hw
        exact hkeep u d y q hut hu (h.pos w y q hw).2 (h.based_pos u w d y q hu hw)

/-- `parent->tail` is read. -/
theorem tailRead (h : s.Links π) {a1 a2 parent child : Addr} {d : Nat}
    (hpc : s.pc t = .fuse a1 a2 d (.lists parent (.tail child))) :
    (s.goto t (.fuse a1 a2 d (.lists parent (.walk (s.tail parent) child)))).Links
      (Function.update π child (some (s.tail parent))) := by
  have hpend : (s.pc t).pend = some (child, parent) := by rw [hpc]; rfl
  have hbased : (s.pc t).based = some (child, parent) := by rw [hpc]; rfl
  have hx := (h.pos t parent parent (by rw [hpc]; rfl)).1
  have hcp := h.pend t child parent hpend
  have hcv := h.based_tail t child parent hbased
  refine h.rehang rfl rfl hpend rfl rfl rfl hx (fun _ _ _ _ _ _ hp => by cases hp) (h.tail parent hx)
    hcv (h.tail parent hx) (fun u d y z _ hu hyz hdz => ?_) fun u d _ hu => h.based_tail u d parent hu
  refine not_anc_rehang h.grounded hcp (h.tail parent hx) hcv (h.pend u d y (Pc.based_pend hu)) hyz
    hdz ?_
  rintro rfl
  exact h.based_tail u d y hu

/-- `parent_tail` moves on to the next arena. -/
theorem walkOn (h : s.Links π) {a1 a2 parent child pt n : Addr} {d : Nat}
    (hpc : s.pc t = .fuse a1 a2 d (.lists parent (.walk pt child))) (hn : s.next pt = some n) :
    (s.goto t (.fuse a1 a2 d (.lists parent (.walk n child)))).Links
      (Function.update π child (some n)) := by
  have hpend : (s.pc t).pend = some (child, pt) := by rw [hpc]; rfl
  have hpos : (s.pc t).pos = some (parent, pt) := by rw [hpc]; rfl
  obtain ⟨hx, hpt⟩ := h.pos t parent pt hpos
  have hptm := (h.below hpt hx).1
  have hnp := h.next pt n hptm hn
  have hcp := h.pend t child pt hpend
  have hne : child ≠ n := by
    rintro rfl
    exact h.unshared t child pt pt hpend hptm hn
  obtain ⟨hcn, -⟩ := anc_rehang_sibling (y := child) (x := n) h.grounded hcp hnp hne
  -- `n` is linked, so it is not pending
  have hdn : ∀ u d y, (s.pc u).based = some (d, y) → d ≠ n := by
    rintro u d y hu rfl
    exact h.unshared u d y pt (Pc.based_pend hu) hptm hn
  refine h.rehang rfl rfl hpend rfl rfl rfl hx (fun _ _ _ _ _ _ hp => by cases hp) (.of_pred hnp) hcn
    (hpt.trans (.of_pred hnp)) (fun u d y z _ hu _ hdz hdz' => ?_) fun u d _ hu hdv => ?_
  · obtain hdz' | ⟨hdn', -⟩ := (anc_rehang_sibling h.grounded hcp hnp hne).2.mp hdz'
    exacts [hdz hdz', hdn u d y hu hdn']
  · exact h.based_pos u t d parent pt hu hpos (hdv.pred_of (hdn u d parent hu) hnp)

omit [DecidableEq T] in
/-- A thread that has installed `child` may go on to its tail. -/
theorem childTail_pos (h : s.Links π) {a1 a2 parent child : Addr} {d : Nat} {o : Option Addr}
    (hpc : s.pc t = .fuse a1 a2 d (.lists parent (.childTail child o))) :
    s.Managed parent ∧ Anc π parent (s.tail child) ∧ Anc π child (s.tail child) ∧
      ∀ u e, (s.pc u).based = some (e, parent) → ¬Anc π e (s.tail child) := by
  have hpos : (s.pc t).pos = some (parent, child) := by rw [hpc]; rfl
  obtain ⟨hx, hc⟩ := h.pos t parent child hpos
  have htail := h.tail child (h.below hc hx).1
  refine ⟨hx, hc.trans htail, htail, fun u e hu he => ?_⟩
  obtain hec | hce := he.comparable htail
  · exact h.based_pos u t e parent child hu hpos hec
  · have hep := h.pend u e parent (Pc.based_pend hu)
    by_cases hne : child = e
    · subst hne
      exact h.based_pos u t child parent child hu hpos .refl
    · exact h.inner t a1 a2 d parent child o hpc
        (h.grounded.antisymm (hce.pred_of hne hep) hc)

/-- The displaced arena goes to the tail of the arena that displaced it. -/
theorem reinstall (h : s.Links π) {a1 a2 parent child displaced : Addr} {d : Nat}
    (hpc : s.pc t = .fuse a1 a2 d (.lists parent (.childTail child (some displaced)))) :
    (s.goto t (.fuse a1 a2 d (.lists parent (.walk (s.tail child) displaced)))).Links
      (Function.update π displaced (some (s.tail child))) := by
  have hpend : (s.pc t).pend = some (displaced, child) := by rw [hpc]; rfl
  have hbased : (s.pc t).based = some (displaced, child) := by rw [hpc]; rfl
  obtain ⟨hx, hxv, hcv, hb⟩ := h.childTail_pos hpc
  have hdc := h.pend t displaced child hpend
  have hdv := h.based_tail t displaced child hbased
  refine h.rehang rfl rfl hpend rfl rfl rfl hx (fun _ _ _ _ _ _ hp => by cases hp) hcv hdv hxv
    (fun u e y z _ hu hyz hez => ?_) fun u e _ hu => hb u e hu
  refine not_anc_rehang h.grounded hdc hcv hdv (h.pend u e y (Pc.based_pend hu)) hyz hez ?_
  rintro rfl
  exact h.based_tail u e y hu

omit [DecidableEq T] in
/-- What the exchange on `pt` finds. -/
theorem exchange_facts (h : s.Links π) {a1 a2 parent child pt : Addr} {d : Nat}
    (hpc : s.pc t = .fuse a1 a2 d (.lists parent (.exchange pt child))) :
    (s.pc t).pend = some (child, pt) ∧ s.Managed parent ∧ s.Managed pt ∧ π child = some pt ∧
      Anc π parent child ∧ child ≠ parent ∧
      ∀ u e, u ≠ t → (s.pc u).based = some (e, parent) → ¬Anc π e child := by
  have hpend : (s.pc t).pend = some (child, pt) := by rw [hpc]; rfl
  have hpos : (s.pc t).pos = some (parent, pt) := by rw [hpc]; rfl
  obtain ⟨hx, hpt⟩ := h.pos t parent pt hpos
  have hcp := h.pend t child pt hpend
  refine ⟨hpend, hx, (h.below hpt hx).1, hcp, hpt.trans (.of_pred hcp), ?_, fun u e hu he hec => ?_⟩
  · rintro rfl
    exact h.grounded.not_anc_pred hcp hpt
  · have hne : e ≠ child := by
      rintro rfl
      exact h.distinct u t e parent pt hu (Pc.based_pend he) hpend
    exact h.based_pos u t e parent pt he hpos (hec.pred_of hne hcp)

/-- The exchange displaced nothing. -/
theorem exchange_none (h : s.Links π) {a1 a2 parent child pt : Addr} {d : Nat}
    (hpc : s.pc t = .fuse a1 a2 d (.lists parent (.exchange pt child))) (hn : s.next pt = none) :
    ((s.setNext pt (some child)).goto t
      (.fuse a1 a2 d (.lists parent (.childTail child none)))).Links π := by
  obtain ⟨hpend, hx, hpt, hcp, hxc, hne, hb⟩ := h.exchange_facts hpc
  generalize hs' : (s.setNext pt (some child)).goto t
    (.fuse a1 a2 d (.lists parent (.childTail child none))) = s'
  have hself : s'.pc t = .fuse a1 a2 d (.lists parent (.childTail child none)) := by
    subst hs'
    exact Function.update_self ..
  have hother : ∀ {u}, u ≠ t → s'.pc u = s.pc u := by
    subst hs'
    exact fun hu => Function.update_of_ne hu ..
  have hnext : s'.next pt = some child := by
    subst hs'
    exact Function.update_self ..
  have hnexto : ∀ {y}, y ≠ pt → s'.next y = s.next y := by
    subst hs'
    exact fun hy => Function.update_of_ne hy ..
  have hnp : ∀ {u x}, (s'.pc u).pend = some x → u ≠ t := by
    rintro u x hu rfl
    rw [hself] at hu
    cases hu
  have hnb : ∀ {u x}, (s'.pc u).based = some x → u ≠ t := fun hu => hnp (Pc.based_pend hu)
  have hm : ∀ {x}, s'.Managed x → s.Managed x := by
    subst hs'
    exact id
  refine ⟨?_, fun y z hy hyz => ?_, fun u c y hu => ?_, fun u c y z hu hz hzc => ?_,
    fun u v c y z huv hu hv => ?_, fun y hy hyp => ?_, h.grounded, ?_, fun u y q hu => ?_,
    fun u b1 b2 e y c o hu => ?_, fun u e y hu => ?_, fun u v e y q hu hv => ?_⟩
  · subst hs'
    exact h.edge
  · by_cases hyp : y = pt
    · subst hyp
      rw [hnext] at hyz
      cases hyz
      exact hcp
    · rw [hnexto hyp] at hyz
      exact h.next y z (hm hy) hyz
  · rw [hother (hnp hu)] at hu
    exact h.pend u c y hu
  · have hut := hnp hu
    rw [hother hut] at hu
    by_cases hzp : z = pt
    · subst hzp
      rw [hnext] at hzc
      cases hzc
      exact h.distinct u t child y z hut hu hpend
    · rw [hnexto hzp] at hzc
      exact h.unshared u c y z hu (hm hz) hzc
  · rw [hother (hnp hu)] at hu
    rw [hother (hnp hv)] at hv
    exact h.distinct u v c y z huv hu hv
  · by_cases hyc : y = child
    · subst hyc
      exact ⟨pt, hcp, .inl hnext⟩
    · obtain ⟨z, hyz, hz⟩ := h.covered y (hm hy) (by subst hs'; exact hyp)
      refine ⟨z, hyz, hz.imp (fun hz => ?_) fun ⟨u, hu⟩ => ⟨u, ?_⟩⟩
      · rw [hnexto, hz]
        rintro rfl
        rw [hn] at hz
        cases hz
      · rw [hother, hu]
        rintro rfl
        rw [hpend] at hu
        cases hu
        exact hyc rfl
  · subst hs'
    exact h.tail
  · by_cases hut : u = t
    · subst hut
      rw [hself] at hu
      cases hu
      exact ⟨by subst hs'; exact hx, hxc⟩
    · rw [hother hut] at hu
      obtain ⟨hym, hyq⟩ := h.pos u y q hu
      exact ⟨by subst hs'; exact hym, hyq⟩
  · by_cases hut : u = t
    · subst hut
      rw [hself] at hu
      cases hu
      exact hne
    · rw [hother hut] at hu
      exact h.inner u b1 b2 e y c o hu
  · rw [hother (hnb hu)] at hu
    subst hs'
    exact h.based_tail u e y hu
  · have hut := hnb hu
    rw [hother hut] at hu
    by_cases hvt : v = t
    · subst hvt
      rw [hself] at hv
      cases hv
      exact hb u e hut hu
    · rw [hother hvt] at hv
      exact h.based_pos u v e y q hu hv

/-- The exchange displaced an arena that another thread had installed. -/
theorem exchange_some (h : s.Links π) {a1 a2 parent child pt e : Addr} {d : Nat}
    (hpc : s.pc t = .fuse a1 a2 d (.lists parent (.exchange pt child))) (hn : s.next pt = some e) :
    ((s.setNext pt (some child)).goto t
      (.fuse a1 a2 d (.lists parent (.childTail child (some e))))).Links
        (Function.update π e (some child)) := by
  obtain ⟨hpend, hx, hpt, hcp, hxc, hne, hb⟩ := h.exchange_facts hpc
  have hep := h.next pt e hpt hn
  have hec : e ≠ child := by
    rintro rfl
    exact h.unshared t e pt pt hpend hpt hn
  -- `e` is linked, so no thread has it pending
  have hnote : ∀ {u c y}, (s.pc u).pend = some (c, y) → c ≠ e := by
    rintro u c y hu rfl
    exact h.unshared u c y pt hu hpt hn
  obtain ⟨hnec, -⟩ := anc_rehang_sibling (y := e) (x := e) h.grounded hep hcp hec
  have hanc : ∀ {y x}, Anc (Function.update π e (some child)) y x ↔ Anc π y x ∨ (y = child ∧ Anc π e x) :=
    (anc_rehang_sibling h.grounded hep hcp hec).2
  generalize hs' : (s.setNext pt (some child)).goto t
    (.fuse a1 a2 d (.lists parent (.childTail child (some e)))) = s'
  have hself : s'.pc t = .fuse a1 a2 d (.lists parent (.childTail child (some e))) := by
    subst hs'
    exact Function.update_self ..
  have hother : ∀ {u}, u ≠ t → s'.pc u = s.pc u := by
    subst hs'
    exact fun hu => Function.update_of_ne hu ..
  have hnext : s'.next pt = some child := by
    subst hs'
    exact Function.update_self ..
  have hnexto : ∀ {y}, y ≠ pt → s'.next y = s.next y := by
    subst hs'
    exact fun hy => Function.update_of_ne hy ..
  have hm : ∀ {x}, s'.Managed x → s.Managed x := by
    subst hs'
    exact id
  have hother_e : ∀ {z}, s.Managed z → s.next z = some e → z = pt := by
    intro z hz hze
    have := h.next z e hz hze
    rw [hep] at this
    cases this
    rfl
  refine ⟨fun y z hy => ?_, fun y z hy hyz => ?_, fun u c y hu => ?_, fun u c y z hu hz hzc => ?_,
    fun u v c y z huv hu hv => ?_, fun y hy hyp => ?_, h.grounded.rehang hnec, fun y hy => ?_,
    fun u y q hu => ?_, fun u b1 b2 k y c o hu => ?_, fun u k y hu => ?_, fun u v k y q hu hv => ?_⟩
  · by_cases hye : y = e
    · subst hye
      rw [Function.update_self] at hy
      cases hy
      obtain ⟨hem, hepar, -, hce⟩ := h.edge y pt hep
      obtain ⟨hcm, -, -, hcc⟩ := h.edge child pt hcp
      subst hs'
      exact ⟨hem, hepar, hcm, hcc.symm.trans hce⟩
    · rw [Function.update_of_ne hye] at hy
      subst hs'
      exact h.edge y z hy
  · by_cases hyp : y = pt
    · subst hyp
      rw [hnext] at hyz
      cases hyz
      rw [Function.update_of_ne (Ne.symm hec)]
      exact hcp
    · rw [hnexto hyp] at hyz
      rw [Function.update_of_ne]
      · exact h.next y z (hm hy) hyz
      · rintro rfl
        exact hyp (hother_e (hm hy) hyz)
  · by_cases hut : u = t
    · subst hut
      rw [hself] at hu
      cases hu
      exact Function.update_self ..
    · rw [hother hut] at hu
      rw [Function.update_of_ne (hnote hu)]
      exact h.pend u c y hu
  · by_cases hut : u = t
    · subst hut
      rw [hself] at hu
      cases hu
      by_cases hzp : z = pt
      · subst hzp
        rw [hnext] at hzc
        cases hzc
        exact hec rfl
      · rw [hnexto hzp] at hzc
        exact hzp (hother_e (hm hz) hzc)
    · rw [hother hut] at hu
      by_cases hzp : z = pt
      · subst hzp
        rw [hnext] at hzc
        cases hzc
        exact h.distinct u t child y z hut hu hpend
      · rw [hnexto hzp] at hzc
        exact h.unshared u c y z hu (hm hz) hzc
  · by_cases hut : u = t
    · subst hut
      rw [hself] at hu
      cases hu
      rw [hother (Ne.symm huv)] at hv
      exact hnote hv rfl
    · rw [hother hut] at hu
      by_cases hvt : v = t
      · subst hvt
        rw [hself] at hv
        cases hv
        exact hnote hu rfl
      · rw [hother hvt] at hv
        exact h.distinct u v c y z huv hu hv
  · by_cases hye : y = e
    · subst hye
      exact ⟨child, Function.update_self .., .inr ⟨t, by rw [hself]; rfl⟩⟩
    · rw [Function.update_of_ne hye]
      by_cases hyc : y = child
      · subst hyc
        exact ⟨pt, hcp, .inl hnext⟩
      · obtain ⟨z, hyz, hz⟩ := h.covered y (hm hy) (by subst hs'; exact hyp)
        refine ⟨z, hyz, hz.imp (fun hz => ?_) fun ⟨u, hu⟩ => ⟨u, ?_⟩⟩
        · rw [hnexto, hz]
          rintro rfl
          rw [hn] at hz
          cases hz
          exact hye rfl
        · rw [hother, hu]
          rintro rfl
          rw [hpend] at hu
          cases hu
          exact hyc rfl
  · subst hs'
    exact hanc.mpr (.inl (h.tail y hy))
  · by_cases hut : u = t
    · subst hut
      rw [hself] at hu
      cases hu
      exact ⟨by subst hs'; exact hx, hanc.mpr (.inl hxc)⟩
    · rw [hother hut] at hu
      obtain ⟨hym, hyq⟩ := h.pos u y q hu
      exact ⟨by subst hs'; exact hym, hanc.mpr (.inl hyq)⟩
  · by_cases hut : u = t
    · subst hut
      rw [hself] at hu
      cases hu
      exact hne
    · rw [hother hut] at hu
      exact h.inner u b1 b2 k y c o hu
  · have htl : s'.tail = s.tail := by
      subst hs'
      rfl
    rw [htl, hanc]
    by_cases hut : u = t
    · subst hut
      rw [hself] at hu
      cases hu
      have hcm := (h.edge child pt hcp).1
      rintro (he | ⟨he, -⟩)
      · exact h.grounded.not_anc_sibling hcp hep (Ne.symm hec) (h.tail child hcm) he
      · exact hec he
    · rw [hother hut] at hu
      rintro (hk | ⟨hk, -⟩)
      · exact h.based_tail u k y hu hk
      · subst hk
        exact h.distinct u t k y pt hut (Pc.based_pend hu) hpend
  · rw [hanc]
    by_cases hut : u = t
    · subst hut
      rw [hself] at hu
      cases hu
      rintro (he | ⟨he, -⟩)
      · by_cases hvt : v = u
        · subst hvt
          rw [hself] at hv
          cases hv
          exact hne rfl
        · rw [hother hvt] at hv
          exact h.grounded.not_anc_sibling hcp hep (Ne.symm hec) (h.pos v child q hv).2 he
      · exact hec he
    · rw [hother hut] at hu
      rintro (hk | ⟨hk, -⟩)
      · by_cases hvt : v = t
        · subst hvt
          rw [hself] at hv
          cases hv
          exact hb u k hut hu hk
        · rw [hother hvt] at hv
          exact h.based_pos u v k y q hu hv hk
      · subst hk
        exact h.distinct u t k y pt hut (Pc.based_pend hu) hpend

/-- The root `r2` of another class is hung below `r1`, by a thread that now has it pending. -/
theorem reparent (h : s.Links π) {a1 a2 r1 r2 : Addr} {d c2 : Nat} (hq : (s.pc t).Quiet)
    (h1 : s.Managed r1) (h2 : s.Managed r2) (hn : s.parentOrCount r2 = .count c2)
    (hne : s.cls r1 ≠ s.cls r2) :
    (((s.setPoc r2 (.parent r1)).merge r1 r2).goto t (.fuse a1 a2 d (.lists r1 (.tail r2)))).Links
      (Function.update π r2 (some r1)) := by
  have hroot : π r2 = none := by
    cases hr : π r2 with
    | none => rfl
    | some y =>
      obtain ⟨-, ⟨p, hp⟩, -, -⟩ := h.edge r2 y hr
      rw [hn] at hp
      cases hp
  have hnotp : ∀ {u c y}, (s.pc u).pend = some (c, y) → c ≠ r2 := by
    rintro u c y hu rfl
    have := h.pend u c y hu
    rw [hroot] at this
    cases this
  -- the two classes share no ancestors
  have hsep : ∀ {y}, Anc π r1 y → ¬Anc π r2 y := fun hy hy' =>
    hne ((h.below hy h1).2.symm.trans (h.below hy' h2).2)
  have hanc : ∀ {y x}, Anc (Function.update π r2 (some r1)) y x ↔
      Anc π y x ∨ (Anc π r2 x ∧ Anc π y r1) :=
    anc_rehang_iff h.grounded (hsep .refl) fun b hb => by rw [hroot] at hb; cases hb
  generalize hs' : ((s.setPoc r2 (.parent r1)).merge r1 r2).goto t
    (.fuse a1 a2 d (.lists r1 (.tail r2))) = s'
  have hcls : ∀ {x y}, s.cls x = s.cls y → s'.cls x = s'.cls y := by
    intro x y hxy
    subst hs'
    change (if s.cls x = s.cls r2 then s.cls r1 else s.cls x) =
      if s.cls y = s.cls r2 then s.cls r1 else s.cls y
    rw [hxy]
  have hjoin : s'.cls r1 = s'.cls r2 := by
    subst hs'
    change (if s.cls r1 = s.cls r2 then s.cls r1 else s.cls r1) =
      if s.cls r2 = s.cls r2 then s.cls r1 else s.cls r2
    rw [ite_self, if_pos rfl]
  have hmg : ∀ {x}, s.Managed x → s'.Managed x := by
    subst hs'
    exact fun hx => (managed_merge h1 h2 _).mpr hx
  have hmg' : ∀ {x}, s'.Managed x → s.Managed x := by
    subst hs'
    exact fun hx => (managed_merge h1 h2 _).mp hx
  have hself : s'.pc t = .fuse a1 a2 d (.lists r1 (.tail r2)) := by
    subst hs'
    exact Function.update_self ..
  have hother : ∀ {u}, u ≠ t → s'.pc u = s.pc u := by
    subst hs'
    exact fun hu => Function.update_of_ne hu ..
  have hpar : ∀ {x}, x ≠ r2 → (s'.IsParent x ↔ s.IsParent x) := by
    intro x hx
    subst hs'
    simp only [IsParent, goto, merge, setPoc, Function.update_of_ne hx]
  have hpar2 : s'.IsParent r2 := by
    subst hs'
    exact ⟨r1, Function.update_self ..⟩
  have hnext : s'.next = s.next := by
    subst hs'
    rfl
  have htail : s'.tail = s.tail := by
    subst hs'
    rfl
  -- an arena that is based below another one stays apart from what it was apart from
  have hkeep : ∀ {u k x y}, (s.pc u).based = some (k, x) → Anc π x y → ¬Anc π k y →
      ¬Anc (Function.update π r2 (some r1)) k y := by
    intro u k x y hu hxy hky
    rw [hanc]
    rintro (hk | ⟨hy2, hk1⟩)
    · exact hky hk
    · obtain ⟨hkm, -, hxm, hkx⟩ := h.edge k x (h.pend u k x (Pc.based_pend hu))
      have e1 := (h.below hxy hxm).2
      have e2 := (h.below hy2 h2).2
      have e3 := (h.below hk1 hkm).2
      exact hne (e3.trans (hkx.symm.trans (e1.symm.trans e2)))
  refine ⟨fun y z hy => ?_, fun y z hy hyz => ?_, fun u c y hu => ?_, fun u c y z hu hz hzc => ?_,
    fun u v c y z huv hu hv => ?_, fun y hy hyp => ?_, h.grounded.rehang (hsep .refl), fun y hy => ?_,
    fun u y q hu => ?_, fun u b1 b2 k y c o hu => ?_, fun u k y hu => ?_, fun u v k y q hu hv => ?_⟩
  · by_cases hy2 : y = r2
    · subst hy2
      rw [Function.update_self] at hy
      cases hy
      exact ⟨hmg h2, hpar2, hmg h1, hjoin⟩
    · rw [Function.update_of_ne hy2] at hy
      obtain ⟨hym, hyp, hzm, hc⟩ := h.edge y z hy
      exact ⟨hmg hym, (hpar hy2).mpr hyp, hmg hzm, hcls hc⟩
  · rw [hnext] at hyz
    have hz := h.next y z (hmg' hy) hyz
    rw [Function.update_of_ne]
    · exact hz
    · rintro rfl
      rw [hroot] at hz
      cases hz
  · by_cases hut : u = t
    · subst hut
      rw [hself] at hu
      cases hu
      exact Function.update_self ..
    · rw [hother hut] at hu
      rw [Function.update_of_ne (hnotp hu)]
      exact h.pend u c y hu
  · rw [hnext] at hzc
    by_cases hut : u = t
    · subst hut
      rw [hself] at hu
      cases hu
      have := h.next z r2 (hmg' hz) hzc
      rw [hroot] at this
      cases this
    · rw [hother hut] at hu
      exact h.unshared u c y z hu (hmg' hz) hzc
  · by_cases hut : u = t
    · subst hut
      rw [hself] at hu
      cases hu
      rw [hother (Ne.symm huv)] at hv
      exact hnotp hv rfl
    · rw [hother hut] at hu
      by_cases hvt : v = t
      · subst hvt
        rw [hself] at hv
        cases hv
        exact hnotp hu rfl
      · rw [hother hvt] at hv
        exact h.distinct u v c y z huv hu hv
  · by_cases hy2 : y = r2
    · subst hy2
      exact ⟨r1, Function.update_self .., .inr ⟨t, by rw [hself]; rfl⟩⟩
    · obtain ⟨z, hyz, hz⟩ := h.covered y (hmg' hy) ((hpar hy2).mp hyp)
      rw [hnext]
      refine ⟨z, (Function.update_of_ne hy2 ..).trans hyz, hz.imp_right fun hpend => ?_⟩
      obtain ⟨u, hu⟩ := hpend
      refine ⟨u, ?_⟩
      rw [hother, hu]
      rintro rfl
      rw [hq.pend] at hu
      cases hu
  · rw [htail]
    exact hanc.mpr (.inl (h.tail y (hmg' hy)))
  · by_cases hut : u = t
    · subst hut
      rw [hself] at hu
      cases hu
      exact ⟨hmg h1, .refl⟩
    · rw [hother hut] at hu
      obtain ⟨hym, hyq⟩ := h.pos u y q hu
      exact ⟨hmg hym, hanc.mpr (.inl hyq)⟩
  · by_cases hut : u = t
    · subst hut
      rw [hself] at hu
      cases hu
    · rw [hother hut] at hu
      exact h.inner u b1 b2 k y c o hu
  · rw [htail]
    by_cases hut : u = t
    · subst hut
      rw [hself] at hu
      cases hu
      rw [hanc]
      rintro (hk | ⟨hk, -⟩) <;> exact hsep (h.tail _ h1) hk
    · rw [hother hut] at hu
      have hym := (h.edge k y (h.pend u k y (Pc.based_pend hu))).2.2.1
      exact hkeep hu (h.tail y hym) (h.based_tail u k y hu)
  · by_cases hut : u = t
    · subst hut
      rw [hself] at hu
      cases hu
      have hq1 : Anc π r1 q := by
        by_cases hvt : v = u
        · subst hvt
          rw [hself] at hv
          cases hv
          exact .refl
        · rw [hother hvt] at hv
          exact (h.pos v _ q hv).2
      rw [hanc]
      rintro (hk | ⟨hk, -⟩) <;> exact hsep hq1 hk
    · rw [hother hut] at hu
      by_cases hvt : v = t
      · subst hvt
        rw [hself] at hv
        cases hv
        refine hkeep hu .refl fun hk => ?_
        exact h.grounded.not_anc_pred (h.pend u k r1 (Pc.based_pend hu)) hk
      · rw [hother hvt] at hv
        exact hkeep hu (h.pos v y q hv).2 (h.based_pos u v k y q hu hv)

/-- The arenas of a class that no thread is splicing are let go. -/
theorem dies (h : s.Links π) {p : Pc} (c : Nat) (hpc : s'.pc = Function.update s.pc t p)
    (hq : p.Quiet) (hq0 : (s.pc t).Quiet) (hn : s'.next = s.next) (htl : s'.tail = s.tail)
    (hc : s'.cls = s.cls) (hp : s'.parentOrCount = s.parentOrCount)
    (hm : ∀ x, s'.Managed x ↔ s.Managed x ∧ s.cls x ≠ c)
    (hfree : ∀ u p q, (s.pc u).pos = some (p, q) → s.cls p ≠ c)
    (hpos : ∀ u k y, (s.pc u).pend = some (k, y) → ∃ p, (s.pc u).pos = some (p, y)) :
    s'.Links fun x => if s.cls x = c then none else π x := by
  have hself : s'.pc t = p := by rw [hpc, Function.update_self]
  have hother : ∀ {u}, u ≠ t → s'.pc u = s.pc u := fun hu => by rw [hpc, Function.update_of_ne hu]
  have hpend : ∀ u x, (s'.pc u).pend = some x → (s.pc u).pend = some x := by
    intro u x hu
    by_cases hut : u = t
    · subst hut
      rw [hself, hq.pend] at hu
      cases hu
    · rwa [hother hut] at hu
  have hpos' : ∀ u x, (s'.pc u).pos = some x → (s.pc u).pos = some x := by
    intro u x hu
    by_cases hut : u = t
    · subst hut
      rw [hself, hq.pos] at hu
      cases hu
    · rwa [hother hut] at hu
  have hbased : ∀ u x, (s'.pc u).based = some x → (s.pc u).based = some x := by
    intro u x hu
    by_cases hut : u = t
    · subst hut
      rw [hself, hq.based] at hu
      cases hu
    · rwa [hother hut] at hu
  have hpendc : ∀ u k y, (s.pc u).pend = some (k, y) → s.cls k ≠ c ∧ s.cls y ≠ c := by
    intro u k y hu
    obtain ⟨p, hpy⟩ := hpos u k y hu
    obtain ⟨hpm, hanc⟩ := h.pos u p y hpy
    have hyc := (h.below hanc hpm).2
    obtain ⟨-, -, -, hky⟩ := h.edge k y (h.pend u k y hu)
    have := hfree u p y hpy
    exact ⟨by rwa [← hky, hyc], by rwa [hyc]⟩
  have hup : ∀ x y, s.cls x ≠ c → π x = some y → s.cls y ≠ c := by
    intro x y hx hxy
    obtain ⟨-, -, -, hyx⟩ := h.edge x y hxy
    rwa [hyx]
  have hon : ∀ x, s.cls x ≠ c → (if s.cls x = c then none else π x) = π x := fun x hx => if_neg hx
  have hanc : ∀ {a x}, s.cls x ≠ c → (Anc (fun x => if s.cls x = c then none else π x) a x ↔ Anc π a x) :=
    fun hx => anc_restrict hup hon hx
  refine ⟨fun x y hx => ?_, fun x y hx hxy => ?_, fun u k y hu => ?_, fun u k y x hu hx => ?_,
    fun u v k y z huv hu hv => ?_, fun x hx hxp => ?_,
    h.grounded.restrict hup hon (fun x hx => if_pos (not_not.mp hx)), fun x hx => ?_, fun u p q hu => ?_,
    fun u a1 a2 d p k o hu => ?_, fun u d x hu => ?_, fun u v d x q hu hv => ?_⟩
  · split at hx
    · cases hx
    · rename_i hxc
      obtain ⟨hxm, hxp, hym, hyx⟩ := h.edge x y hx
      refine ⟨(hm x).mpr ⟨hxm, hxc⟩, by simpa [IsParent, hp] using hxp, (hm y).mpr ⟨hym, ?_⟩, ?_⟩
      · rwa [hyx]
      · rwa [hc]
  · rw [hn] at hxy
    obtain ⟨hxm, hxc⟩ := (hm x).mp hx
    have hy := h.next x y hxm hxy
    obtain ⟨-, -, -, hyx⟩ := h.edge y x hy
    simp only [if_neg (show s.cls y ≠ c by rwa [← hyx])]
    exact hy
  · have hu := hpend u _ hu
    simp only [if_neg (hpendc u k y hu).1]
    exact h.pend u k y hu
  · rw [hn]
    exact h.unshared u k y x (hpend u _ hu) ((hm x).mp hx).1
  · exact h.distinct u v k y z huv (hpend u _ hu) (hpend v _ hv)
  · obtain ⟨hxm, hxc⟩ := (hm x).mp hx
    obtain ⟨y, hxy, hy⟩ := h.covered x hxm (by simpa [IsParent, hp] using hxp)
    refine ⟨y, (if_neg hxc).trans hxy, ?_⟩
    rw [hn]
    refine hy.imp_right fun ⟨u, hu⟩ => ⟨u, ?_⟩
    rw [hother, hu]
    rintro rfl
    rw [hq0.pend] at hu
    cases hu
  · obtain ⟨hxm, hxc⟩ := (hm x).mp hx
    rw [htl]
    refine (hanc ?_).mpr (h.tail x hxm)
    rwa [(h.below (h.tail x hxm) hxm).2]
  · have hu := hpos' u _ hu
    obtain ⟨hpm, hpq⟩ := h.pos u p q hu
    have hpc' := hfree u p q hu
    refine ⟨(hm p).mpr ⟨hpm, hpc'⟩, (hanc ?_).mpr hpq⟩
    rwa [(h.below hpq hpm).2]
  · by_cases hut : u = t
    · subst hut
      rw [hself] at hu
      subst hu
      cases hq.pos
    · rw [hother hut] at hu
      exact h.inner u a1 a2 d p k o hu
  · have hu := hbased u _ hu
    obtain ⟨hdx, hxc⟩ := hpendc u d x (Pc.based_pend hu)
    have hxm := (h.edge d x (h.pend u d x (Pc.based_pend hu))).2.2.1
    rw [htl, hanc]
    · exact h.based_tail u d x hu
    · rwa [(h.below (h.tail x hxm) hxm).2]
  · have hu := hbased u _ hu
    have hv := hpos' v _ hv
    obtain ⟨hxm, hxq⟩ := h.pos v x q hv
    rw [hanc]
    · exact h.based_pos u v d x q hu hv
    · rw [(h.below hxq hxm).2]
      exact hfree v x q hv

omit [DecidableEq T] in
/-- A new arena is a root with nothing below it. -/
theorem new (h : s.Links π) {a : Addr} (initial : Bool) (ha : a ∉ s.arenas)
    (hcl : ∀ x ∈ s.arenas, s.cls x < s.issued)
    (hh : ∀ x, s.handle x = true → x ∈ s.arenas) : (s.new a initial).Links π := by
  have hne : ∀ {x}, s.Managed x → x ≠ a := fun hx hxa => ha (hxa ▸ hx.1)
  have hm : ∀ {x}, s.Managed x → (s.new a initial).Managed x := fun hx =>
    (managed_new hcl hh initial ha _).mpr (.inl hx)
  have hm' : ∀ {x}, (s.new a initial).Managed x → x ≠ a → s.Managed x := fun hx hxa =>
    ((managed_new hcl hh initial ha _).mp hx).resolve_right hxa
  have hnexta : (s.new a initial).next a = none := Function.update_self ..
  have hnext : ∀ {x}, x ≠ a → (s.new a initial).next x = s.next x := fun hx =>
    Function.update_of_ne hx ..
  have htail : ∀ {x}, x ≠ a → (s.new a initial).tail x = s.tail x := fun hx =>
    Function.update_of_ne hx ..
  have hpar : ∀ {x}, x ≠ a → ((s.new a initial).IsParent x ↔ s.IsParent x) := fun hx => by
    simp only [IsParent, ArenaSys.new, Function.update_of_ne hx]
  refine ⟨fun x y hx => ?_, fun x y hx hxy => ?_, h.pend, fun u c y x hu hx hxc => ?_, h.distinct,
    fun x hx hxp => ?_, h.grounded, fun x hx => ?_, fun u p q hu => ?_, h.inner, fun u d x hu => ?_,
    h.based_pos⟩
  · obtain ⟨hxm, hxp, hym, hyx⟩ := h.edge x y hx
    refine ⟨hm hxm, (hpar (hne hxm)).mpr hxp, hm hym, ?_⟩
    simpa [ArenaSys.new, Function.update_of_ne (hne hxm), Function.update_of_ne (hne hym)] using hyx
  · have hxa : x ≠ a := by
      rintro rfl
      rw [hnexta] at hxy
      cases hxy
    rw [hnext hxa] at hxy
    exact h.next x y (hm' hx hxa) hxy
  · have hxa : x ≠ a := by
      rintro rfl
      rw [hnexta] at hxc
      cases hxc
    rw [hnext hxa] at hxc
    exact h.unshared u c y x hu (hm' hx hxa) hxc
  · have hxa : x ≠ a := by
      rintro rfl
      obtain ⟨p, hp⟩ := hxp
      rw [show (s.new x initial).parentOrCount x = .count 1 from Function.update_self ..] at hp
      cases hp
    obtain ⟨y, hxy, hy⟩ := h.covered x (hm' hx hxa) ((hpar hxa).mp hxp)
    rw [← hnext (hne (h.edge x y hxy).2.2.1)] at hy
    exact ⟨y, hxy, hy⟩
  · by_cases hxa : x = a
    · subst hxa
      rw [show (s.new x initial).tail x = x from Function.update_self ..]
      exact .refl
    · rw [htail hxa]
      exact h.tail x (hm' hx hxa)
  · obtain ⟨hp, hpq⟩ := h.pos u p q hu
    exact ⟨hm hp, hpq⟩
  · rw [htail (hne (h.edge d x (h.pend u d x (Pc.based_pend hu))).2.2.1)]
    exact h.based_tail u d x hu

end Links

section Steps

variable {s s' : ArenaSys T} {π : Addr → Option Addr} {w : T → Addr → Nat} {t : T}

theorem isParent_setPoc_count {r x : Addr} {n m : Nat} (hn : s.parentOrCount r = .count n) :
    (s.setPoc r (.count m)).IsParent x ↔ s.IsParent x := by
  by_cases hx : x = r
  · subst hx
    simp [IsParent, setPoc, hn]
  · simp [IsParent, setPoc, Function.update_of_ne hx]

theorem isParent_setPoc_parent {y x p : Addr} (hy : s.IsParent y) :
    (s.setPoc y (.parent p)).IsParent x ↔ s.IsParent x := by
  by_cases hx : x = y
  · subst hx
    simpa [IsParent, setPoc] using hy
  · simp [IsParent, setPoc, Function.update_of_ne hx]

/-- A handle given up while its class stays live changes no arena's state. -/
theorem managed_release {a : Addr} (hl : (s.release a).LiveCls (s.cls a)) (x : Addr) :
    (s.release a).Managed x ↔ s.Managed x := by
  refine ⟨fun ⟨hx, y, hy, hyx⟩ => ⟨hx, y, ?_, hyx⟩, fun ⟨hx, y, hy, hyx⟩ => ⟨hx, ?_⟩⟩
  · by_contra hy'
    by_cases hya : y = a
    · subst hya
      simp [release] at hy
    · exact hy' ((Function.update_of_ne hya ..).symm.trans hy)
  · by_cases hya : y = a
    · subst hya
      exact hyx ▸ hl
    · exact ⟨y, (Function.update_of_ne hya ..).trans hy, hyx⟩

/-- A handle given up with its class takes just that class away. -/
theorem managed_release_last {a : Addr} (hl : ¬(s.release a).LiveCls (s.cls a)) (x : Addr) :
    (s.release a).Managed x ↔ s.Managed x ∧ s.cls x ≠ s.cls a := by
  refine ⟨fun ⟨hx, y, hy, hyx⟩ => ⟨⟨hx, y, ?_, hyx⟩, fun hc => ?_⟩, fun ⟨⟨hx, y, hy, hyx⟩, hc⟩ => ?_⟩
  · by_contra hy'
    by_cases hya : y = a
    · subst hya
      simp [release] at hy
    · exact hy' ((Function.update_of_ne hya ..).symm.trans hy)
  · exact hl ⟨y, hy, hyx.trans hc⟩
  · refine ⟨hx, y, (Function.update_of_ne ?_ ..).trans hy, hyx⟩
    rintro rfl
    exact hc hyx.symm

/-- A thread that splices lists holds a handle of their class. -/
theorem PcOk.pos {p : Pc} (h : s.PcOk p) {x q : Addr} (hp : p.pos = some (x, q)) :
    ∃ b ∈ p.args, s.cls x = s.cls b := by
  cases p with
  | idle => cases hp
  | free a r => cases hp
  | fuse a1 a2 d p =>
    cases p with
    | lists parent l =>
      obtain rfl : parent = x := by
        cases l <;> cases hp <;> rfl
      exact ⟨a1, by simp [Pc.args], h.2.2⟩
    | _ => cases hp

/-- A thread that gives the last reference up is alone with the class. -/
theorem Refs.last_quiet [Fintype T] (h : s.Refs w) {a r : Addr} {q : Free} (hpc : s.pc t = .free a q)
    (ha : a ∈ (s.pc t).args) (hr : s.In (s.cls a) r) (hn : s.parentOrCount r = .count 1) (u : T)
    (p q : Addr) (hu : (s.pc u).pos = some (p, q)) : s.cls p ≠ s.cls a := by
  intro hc
  obtain ⟨b, hb, hpb⟩ := (h.threads u).locals.pos hu
  have hut : u ≠ t := by
    rintro rfl
    rw [hpc] at hu
    cases hu
  refine h.last_handle ((h.threads t).args a ha) hr hn ⟨b, ?_, hpb.symm.trans hc⟩
  exact (Function.update_of_ne (h.ne_of_free hpc ha hut hb) ..).trans ((h.threads u).args b hb)

/-- **Every step keeps the lists in order**, if it frees no block of a live class. -/
theorem Move.links [DecidableEq T] [Fintype T] (h : s.Refs w) (hl : s.Links π) (m : Move s t s')
    (hd : ∀ a x n, s.pc t = .free a (.blocks x n) → ¬s.LiveCls (s.cls x)) : ∃ π', s'.Links π' := by
  have hquiet : ∀ {a q}, s.pc t = .free a q → (s.pc t).Quiet := fun hpc => by
    rw [hpc]
    exact ⟨rfl, rfl, rfl⟩
  have hidle : Pc.idle.Quiet := ⟨rfl, rfl, rfl⟩
  cases m with
  | stay => exact ⟨π, hl⟩
  | go hc hc' _ =>
    exact ⟨π, hl.quiet rfl hc'.quiet hc.quiet rfl rfl (fun _ => .rfl) rfl fun _ _ => .rfl⟩
  | call hi hc' =>
    exact ⟨π, hl.quiet rfl hc'.quiet (hi ▸ hidle) rfl rfl (fun _ => .rfl) rfl fun _ _ => .rfl⟩
  | split hc hc' _ hx hxp =>
    exact ⟨π, hl.quiet rfl hc'.quiet hc.quiet rfl rfl (fun _ => .rfl) rfl fun _ _ =>
      isParent_setPoc_parent hxp⟩
  | addRefs hpc _ hn =>
    refine ⟨π, hl.quiet rfl ⟨rfl, rfl, rfl⟩ ?_ rfl rfl (fun _ => .rfl) rfl fun _ _ =>
      isParent_setPoc_count hn⟩
    rw [hpc]
    exact ⟨rfl, rfl, rfl⟩
  | reparent hpc hr hn =>
    have ht := h.threads t
    rw [hpc] at ht
    obtain ⟨hm1, hm2⟩ := hr.managed (ht.args _ (by simp [Pc.args])) (ht.args _ (by simp [Pc.args]))
    refine ⟨_, hl.reparent ?_ hm1 hm2 hn fun hc => (h.mem.root_le hm2 hn hm1 hc).not_gt hr.1⟩
    rw [hpc]
    exact ⟨rfl, rfl, rfl⟩
  | fixup hpc _ _ hn =>
    refine ⟨π, hl.quiet rfl hidle ?_ rfl rfl (fun _ => .rfl) rfl fun _ _ => isParent_setPoc_count hn⟩
    rw [hpc]
    exact ⟨rfl, rfl, rfl⟩
  | drop hpc hr hn hne =>
    exact ⟨π, hl.quiet rfl hidle (hquiet hpc) rfl rfl
      (managed_release (h.drop_live hpc hr hn hne)) rfl fun _ _ => isParent_setPoc_count hn⟩
  | @last a r q hpc ha hr hn =>
    have hdead := h.last_handle ((h.threads t).args a ha) hr hn
    refine ⟨_, hl.dies (p := .free a (.next r)) (s.cls a) rfl ⟨rfl, rfl, rfl⟩ (hquiet hpc) rfl rfl rfl
      rfl (managed_release_last hdead) (fun u p q hu hc => ?_) fun u k y => Pc.pos_of_pend⟩
    exact h.last_quiet hpc ha hr hn u p q hu hc
  | tail hpc => exact ⟨_, hl.tailRead hpc⟩
  | walkOn hpc hn => exact ⟨_, hl.walkOn hpc hn⟩
  | @walkEnd a1 a2 parent child pt d hpc hn =>
    have hpos : (s.pc t).pos = some (parent, pt) := by rw [hpc]; rfl
    refine ⟨π, hl.moved rfl (by rw [hpc]; rfl) (by rw [hpc]; rfl) (fun a b hab => ?_)
      (fun _ _ _ _ _ _ hp => by cases hp) rfl rfl (fun _ => .rfl) rfl fun _ _ => .rfl⟩
    cases hab
    obtain ⟨hm, ha⟩ := hl.pos t parent pt hpos
    exact ⟨hm, ha, fun u e hu => hl.based_pos u t e parent pt hu hpos⟩
  | @exchange a1 a2 parent child pt d hpc =>
    cases hn : s.next pt with
    | none => exact ⟨_, hl.exchange_none hpc hn⟩
    | some e => exact ⟨_, hl.exchange_some hpc hn⟩
  | reinstall hpc => exact ⟨_, hl.reinstall hpc⟩
  | @spliced a1 a2 parent child d hpc =>
    refine ⟨π, hl.moved rfl (by rw [hpc]; rfl) (by rw [hpc]; rfl) (fun a b hab => ?_)
      (fun _ _ _ _ _ _ hp => by cases hp) rfl rfl (fun _ => .rfl) rfl fun _ _ => .rfl⟩
    cases hab
    obtain ⟨hm, ha, -, hb⟩ := hl.childTail_pos hpc
    exact ⟨hm, ha, hb⟩
  | @store a1 a2 parent pt d hpc =>
    have hpos : (s.pc t).pos = some (parent, pt) := by rw [hpc]; rfl
    have hl' : (s.setTail parent pt).Links π :=
      hl.setTail (hl.pos t parent pt hpos).2 fun u e hu => hl.based_pos u t e parent pt hu hpos
    have hq := (fused_calm a1 a2 d parent).quiet
    refine ⟨π, hl'.moved rfl (hq.pend.trans ?_) (hq.based.trans ?_) (fun a b hab => ?_)
      (fun _ _ _ _ _ _ hp => ?_) rfl rfl (fun _ => .rfl) rfl fun _ _ => .rfl⟩
    · change _ = (s.pc t).pend
      rw [hpc]
      rfl
    · change _ = (s.pc t).based
      rw [hpc]
      rfl
    · rw [hq.pos] at hab
      cases hab
    · rw [hp] at hq
      cases hq.pos
  | freeNext hpc =>
    exact ⟨π, hl.quiet rfl ⟨rfl, rfl, rfl⟩ (hquiet hpc) rfl rfl (fun _ => .rfl) rfl fun _ _ => .rfl⟩
  | @freeBlocks a x n hpc hx =>
    have hdx := hd a x n hpc
    refine ⟨π, hl.quiet rfl ?_ (hquiet hpc) rfl rfl (fun y => ?_) rfl fun _ _ => .rfl⟩
    · cases n <;> exact ⟨rfl, rfl, rfl⟩
    · refine ⟨fun hy => ⟨Finset.mem_of_mem_erase hy.1, hy.2⟩, fun hy => ⟨?_, hy.2⟩⟩
      refine Finset.mem_erase.mpr ⟨?_, hy.1⟩
      rintro rfl
      exact hdx hy.2
  | new hi ha => exact ⟨π, hl.new _ ha h.mem.cls_lt h.mem.handle_mem⟩

end Steps

end ArenaSys

end Hpb
