import Hpb.Mem.Arena
import Mathlib.Algebra.BigOperators.Group.Finset.Piecewise
import Mathlib.Algebra.Order.BigOperators.Group.Finset
import Mathlib.Tactic.Linarith

/-!
# Reference counts under concurrent fuses and frees

The count of a root is the number of unfreed handles of its class and the excess references that
fusing threads have added and not yet removed. `w t x` attributes the excess of thread `t` to the
arenas `x` whose root it was added to; the whole of it is what the thread's `ref_delta` will remove
(`owed`).

* `ArenaSys.Refs s w`: parents have lower addresses and are in the same class, a class has one root,
  and its count is the weight of the class (`weigh`); each thread's locals are in the classes of the
  handles it holds (`PcOk`).
* `Refs.goto`, `Refs.split`, `Refs.addRefs`, `Refs.reparent`, ...: one lemma for each kind of atomic
  step.

A class is live while one of its handles is unfreed. Nothing is said here about the arenas of a class
that is not live: it is being freed.
-/

namespace Hpb

namespace ArenaSys

variable {T : Type}

/-- Some handle of the class `c` is unfreed. -/
def LiveCls (s : ArenaSys T) (c : Nat) : Prop := ∃ y, s.handle y = true ∧ s.cls y = c

/-- An arena of the class `c`. -/
def In (s : ArenaSys T) (c : Nat) (x : Addr) : Prop := x ∈ s.arenas ∧ s.cls x = c

/-- An arena whose class is live. -/
def Managed (s : ArenaSys T) (x : Addr) : Prop := x ∈ s.arenas ∧ s.LiveCls (s.cls x)

/-- `parent_or_count` is a pointer. -/
def IsParent (s : ArenaSys T) (x : Addr) : Prop := ∃ p, s.parentOrCount x = .parent p

section Weights

variable [Fintype T]

/-- The references that an arena stands for: its own handle and the excess attributed to it. -/
def weight (s : ArenaSys T) (w : T → Addr → Nat) (x : Addr) : Nat :=
  (if s.handle x then 1 else 0) + ∑ u, w u x

/-- The references of a class. -/
def weigh (s : ArenaSys T) (w : T → Addr → Nat) (c : Nat) : Nat :=
  ∑ x ∈ s.arenas with s.cls x = c, s.weight w x

end Weights

/-- What a thread's locals say about `_hpb_Arena_FindRoot` on an arena of class `c`. -/
def FindOk (s : ArenaSys T) (c : Nat) : Find → Prop
  | .load a => s.In c a
  | .next a n => s.In c a ∧ s.In c n ∧ n < a ∧ s.IsParent a
  | .split a n p => s.In c a ∧ s.In c n ∧ s.In c p ∧ p < n ∧ n < a ∧ s.IsParent a ∧ s.IsParent n

/-- The two roots a fuse works on, one from the class of each argument. -/
def Roots (s : ArenaSys T) (a1 a2 r1 r2 : Addr) : Prop :=
  r1 < r2 ∧ ((s.In (s.cls a1) r1 ∧ s.In (s.cls a2) r2) ∨ (s.In (s.cls a2) r1 ∧ s.In (s.cls a1) r2))

/-- What a thread's locals say in `hpb_Arena_Fuse(a1, a2)`. -/
def FuseOk (s : ArenaSys T) (a1 a2 : Addr) : Fuse → Prop
  | .find1 f => s.FindOk (s.cls a1) f
  | .find2 r1 _ f => s.In (s.cls a1) r1 ∧ s.FindOk (s.cls a2) f
  | .addRefs r1 _ r2 _ => s.Roots a1 a2 r1 r2
  | .reparent r1 r2 _ => s.Roots a1 a2 r1 r2
  | .lists parent _ => s.cls a1 = s.cls a2 ∧ s.In (s.cls a1) parent
  | .fixup r => s.cls a1 = s.cls a2 ∧ s.In (s.cls a1) r
  | .fixupCas r _ => s.cls a1 = s.cls a2 ∧ s.In (s.cls a1) r

/-- What a thread's locals say. -/
def PcOk (s : ArenaSys T) : Pc → Prop
  | .idle => True
  | .fuse a1 a2 _ p => s.FuseOk a1 a2 p
  | .free a (.load x) => s.In (s.cls a) x
  | .free a (.cas x n) => s.In (s.cls a) x ∧ n ≠ 1
  | .free _ (.next _) => True
  | .free _ (.blocks _ _) => True

/-- The excess references a thread has added and must remove. -/
def owed : Pc → Nat
  | .fuse _ _ d (.reparent _ _ c2) => d + c2
  | .fuse _ _ d _ => d
  | _ => 0

/-- Classes, parents and counts in memory, with the excess references attributed by `w`. -/
structure MemOk [Fintype T] (s : ArenaSys T) (w : T → Addr → Nat) : Prop where
  handle_mem : ∀ a, s.handle a = true → a ∈ s.arenas
  cls_lt : ∀ x ∈ s.arenas, s.cls x < s.issued
  parent : ∀ x p, s.Managed x → s.parentOrCount x = .parent p → s.In (s.cls x) p ∧ p < x
  root_unique : ∀ x y n m, s.Managed x → s.Managed y → s.parentOrCount x = .count n →
    s.parentOrCount y = .count m → s.cls x = s.cls y → x = y
  count : ∀ r n, s.Managed r → s.parentOrCount r = .count n → n = s.weigh w (s.cls r)

/-- A thread at `p` that has added the excess references `v`. -/
structure ThreadOk (s : ArenaSys T) (v : Addr → Nat) (p : Pc) : Prop where
  args : ∀ a ∈ p.args, s.handle a = true
  locals : s.PcOk p
  support : ∀ x, v x ≠ 0 → x ∈ s.arenas ∧ ∃ a ∈ p.args, s.cls x = s.cls a
  total : ∑ x ∈ s.arenas, v x = owed p
  pending : ∀ a1 a2 d r1 r2 c2, p = .fuse a1 a2 d (.reparent r1 r2 c2) → c2 ≤ v r1

/-- A handle that is being freed is used by no other call. -/
def Exclusive (s : ArenaSys T) : Prop :=
  ∀ t a p, s.pc t = .free a p → a ∈ (s.pc t).args → ∀ u, u ≠ t → a ∉ (s.pc u).args

/-- The invariant of reference counting. -/
structure Refs [Fintype T] (s : ArenaSys T) (w : T → Addr → Nat) : Prop where
  mem : s.MemOk w
  threads : ∀ t, s.ThreadOk (w t) (s.pc t)
  excl : s.Exclusive

section Stability

variable {s s' : ArenaSys T}

/-- What the steps of other threads leave true of a thread's locals. -/
structure Ext (s s' : ArenaSys T) : Prop where
  arenas : ∀ x, s.Managed x → x ∈ s'.arenas
  cls : ∀ x y, x ∈ s.arenas → y ∈ s.arenas → s.cls x = s.cls y → s'.cls x = s'.cls y
  isParent : ∀ x, s.Managed x → s.IsParent x → s'.IsParent x

theorem In.managed {c : Nat} {x a : Addr} (h : s.In c x) (ha : s.handle a = true) (hc : s.cls a = c) :
    s.Managed x :=
  ⟨h.1, a, ha, hc.trans h.2.symm⟩

theorem In.ext (e : Ext s s') {x a : Addr} (ha : s.handle a = true) (ham : a ∈ s.arenas)
    (h : s.In (s.cls a) x) : s'.In (s'.cls a) x :=
  ⟨e.arenas x (h.managed ha rfl), e.cls x a h.1 ham h.2⟩

theorem FindOk.ext (e : Ext s s') {a : Addr} (ha : s.handle a = true) (ham : a ∈ s.arenas)
    {f : Find} (h : s.FindOk (s.cls a) f) : s'.FindOk (s'.cls a) f := by
  cases f with
  | load x => exact In.ext e ha ham h
  | next x n =>
    obtain ⟨hx, hn, hlt, hp⟩ := h
    exact ⟨hx.ext e ha ham, hn.ext e ha ham, hlt, e.isParent x (hx.managed ha rfl) hp⟩
  | split x n p =>
    obtain ⟨hx, hn, hp, hpn, hnx, hxp, hnp⟩ := h
    exact ⟨hx.ext e ha ham, hn.ext e ha ham, hp.ext e ha ham, hpn, hnx,
      e.isParent x (hx.managed ha rfl) hxp, e.isParent n (hn.managed ha rfl) hnp⟩

/-- The locals of a thread keep their meaning under the steps of the others. -/
theorem PcOk.ext (e : Ext s s') (hm : ∀ a, s.handle a = true → a ∈ s.arenas) {p : Pc}
    (ha : ∀ a ∈ p.args, s.handle a = true) (h : s.PcOk p) : s'.PcOk p := by
  cases p with
  | idle => trivial
  | fuse a1 a2 d p =>
    have h1 : s.handle a1 = true := ha a1 (by simp [Pc.args])
    have h2 : s.handle a2 = true := ha a2 (by simp [Pc.args])
    have m1 := hm a1 h1
    have m2 := hm a2 h2
    have hroots : ∀ {r1 r2}, s.Roots a1 a2 r1 r2 → s'.Roots a1 a2 r1 r2 := fun ⟨hlt, hr⟩ =>
      ⟨hlt, hr.imp (fun ⟨h, h'⟩ => ⟨h.ext e h1 m1, h'.ext e h2 m2⟩)
        (fun ⟨h, h'⟩ => ⟨h.ext e h2 m2, h'.ext e h1 m1⟩)⟩
    have hjoined : ∀ {r}, s.cls a1 = s.cls a2 ∧ s.In (s.cls a1) r →
        s'.cls a1 = s'.cls a2 ∧ s'.In (s'.cls a1) r := fun ⟨hc, hr⟩ =>
      ⟨e.cls a1 a2 m1 m2 hc, hr.ext e h1 m1⟩
    cases p with
    | find1 f => exact FindOk.ext e h1 m1 h
    | find2 r1 c1 f => exact ⟨h.1.ext e h1 m1, FindOk.ext e h2 m2 h.2⟩
    | addRefs r1 c1 r2 c2 => exact hroots h
    | reparent r1 r2 c2 => exact hroots h
    | lists parent l => exact hjoined h
    | fixup r => exact hjoined h
    | fixupCas r n => exact hjoined h
  | free a p =>
    cases p with
    | load x => exact In.ext e (ha a (by simp [Pc.args])) (hm a (ha a (by simp [Pc.args]))) h
    | cas x n => exact ⟨h.1.ext e (ha a (by simp [Pc.args])) (hm a (ha a (by simp [Pc.args]))), h.2⟩
    | next x => trivial
    | blocks x n => trivial

/-- A sum over the arenas of a function that is zero outside of both sets. -/
theorem sum_arenas_eq {A B : Finset Addr} {v : Addr → Nat} (h : ∀ x, v x ≠ 0 → x ∈ A ∧ x ∈ B) :
    ∑ x ∈ A, v x = ∑ x ∈ B, v x := by
  rw [← Finset.sum_filter_ne_zero, ← Finset.sum_filter_ne_zero (s := B)]
  congr 1
  ext x
  simp only [Finset.mem_filter]
  exact ⟨fun hx => ⟨(h x hx.2).2, hx.2⟩, fun hx => ⟨(h x hx.2).1, hx.2⟩⟩

theorem ThreadOk.ext (e : Ext s s') (hm : ∀ a, s.handle a = true → a ∈ s.arenas) {v : Addr → Nat}
    {p : Pc} (ha : ∀ a ∈ p.args, s'.handle a = true) (h : s.ThreadOk v p) : s'.ThreadOk v p := by
  have hsup : ∀ x, v x ≠ 0 → x ∈ s'.arenas ∧ ∃ a ∈ p.args, s'.cls x = s'.cls a := fun x hx => by
    obtain ⟨hxs, a, hap, hc⟩ := h.support x hx
    exact ⟨e.arenas x ⟨hxs, a, h.args a hap, hc.symm⟩, a, hap,
      e.cls x a hxs (hm a (h.args a hap)) hc⟩
  refine ⟨ha, h.locals.ext e hm h.args, hsup, ?_, h.pending⟩
  rw [← h.total]
  exact sum_arenas_eq fun x hx => ⟨(hsup x hx).1, (h.support x hx).1⟩

end Stability

/-- What `v` has in the class `c`. -/
def excess (s : ArenaSys T) (v : Addr → Nat) (c : Nat) : Nat := ∑ x ∈ s.arenas with s.cls x = c, v x

/-- `k` more at `r`. -/
def addAt (v : Addr → Nat) (r : Addr) (k : Nat) : Addr → Nat := fun x => v x + if x = r then k else 0

theorem excess_addAt {s : ArenaSys T} {v : Addr → Nat} {r : Addr} (hr : r ∈ s.arenas) (k c : Nat) :
    s.excess (addAt v r k) c = s.excess v c + if s.cls r = c then k else 0 := by
  simp [excess, addAt, Finset.sum_add_distrib, Finset.sum_ite_eq', hr]

theorem total_addAt {s : ArenaSys T} {v : Addr → Nat} {r : Addr} (hr : r ∈ s.arenas) (k : Nat) :
    ∑ x ∈ s.arenas, addAt v r k x = (∑ x ∈ s.arenas, v x) + k := by
  simp [addAt, Finset.sum_add_distrib, Finset.sum_ite_eq', hr]

section Memory

variable [Fintype T] {s : ArenaSys T} {w : T → Addr → Nat}

/-- The root of a class has its lowest address. -/
theorem MemOk.root_le (h : s.MemOk w) {r x : Addr} {n : Nat} (hr : s.Managed r)
    (hn : s.parentOrCount r = .count n) (hx : s.Managed x) (hc : s.cls x = s.cls r) : r ≤ x := by
  induction x using Nat.strong_induction_on with
  | _ x ih =>
    cases hp : s.parentOrCount x with
    | count m => exact (h.root_unique r x n m hr hx hn hp hc.symm).le
    | parent p =>
      obtain ⟨⟨hpm, hpc⟩, hlt⟩ := h.parent x p hx hp
      have hmp : s.Managed p := ⟨hpm, by rw [hpc]; exact hx.2⟩
      exact (ih p hlt hmp (hpc.trans hc)).trans hlt.le

theorem le_weigh (w : T → Addr → Nat) {x : Addr} (hx : x ∈ s.arenas) :
    s.weight w x ≤ s.weigh w (s.cls x) :=
  Finset.single_le_sum (f := s.weight w) (fun _ _ => Nat.zero_le _)
    (Finset.mem_filter.mpr ⟨hx, rfl⟩)

/-- Giving up the handle `a` takes one reference from its class. -/
theorem weigh_release (w : T → Addr → Nat) {a : Addr} (ha : a ∈ s.arenas) (hh : s.handle a = true)
    (c : Nat) : (s.release a).weigh w c + (if s.cls a = c then 1 else 0) = s.weigh w c := by
  have hne : ∀ x, x ≠ a → (s.release a).weight w x = s.weight w x := fun x hx => by
    simp [weight, release, Function.update_of_ne hx]
  have ha' : (s.release a).weight w a + 1 = s.weight w a := by
    simp [weight, release, hh, Nat.add_comm]
  by_cases hc : s.cls a = c
  · have hmem : a ∈ s.arenas.filter (s.cls · = c) := Finset.mem_filter.mpr ⟨ha, hc⟩
    have h₁ := Finset.sum_erase_add _ (s.weight w) hmem
    have h₂ := Finset.sum_erase_add _ ((s.release a).weight w) hmem
    have h₃ : ∑ x ∈ (s.arenas.filter (s.cls · = c)).erase a, (s.release a).weight w x =
        ∑ x ∈ (s.arenas.filter (s.cls · = c)).erase a, s.weight w x :=
      Finset.sum_congr rfl fun x hx => hne x (Finset.ne_of_mem_erase hx)
    rw [if_pos hc]
    unfold weigh
    change _ + 1 = _
    change ∑ x ∈ s.arenas.filter (s.cls · = c), (s.release a).weight w x + 1 = _
    omega
  · rw [if_neg hc, Nat.add_zero]
    refine Finset.sum_congr rfl fun x hx => hne x ?_
    rintro rfl
    exact hc (Finset.mem_filter.mp hx).2

variable [DecidableEq T]

theorem sum_update (w : T → Addr → Nat) (t : T) (v : Addr → Nat) (x : Addr) :
    (∑ u, Function.update w t v u x) + w t x = (∑ u, w u x) + v x := by
  have h₁ := Finset.sum_erase_add _ (fun u => w u x) (Finset.mem_univ t)
  have h₂ := Finset.sum_erase_add _ (fun u => Function.update w t v u x) (Finset.mem_univ t)
  have h₃ : ∑ u ∈ Finset.univ.erase t, Function.update w t v u x = ∑ u ∈ Finset.univ.erase t, w u x :=
    Finset.sum_congr rfl fun u hu => by rw [Function.update_of_ne (Finset.ne_of_mem_erase hu)]
  simp only [Function.update_self] at h₂
  omega

/-- The weight of a class when the excess of thread `t` becomes `v`. -/
theorem weigh_update (w : T → Addr → Nat) (t : T) (v : Addr → Nat) (c : Nat) :
    s.weigh (Function.update w t v) c + s.excess (w t) c = s.weigh w c + s.excess v c := by
  simp only [weigh, excess, ← Finset.sum_add_distrib]
  refine Finset.sum_congr rfl fun x _ => ?_
  have := sum_update w t v x
  simp only [weight]
  omega

end Memory

section Effects

variable [Fintype T] {s s' : ArenaSys T} {w w' : T → Addr → Nat}

/-- A state with the same memory, seen through `w'` that gives live classes the same weight. -/
theorem MemOk.mono (h : s.MemOk w) (hp : s'.parentOrCount = s.parentOrCount)
    (ha : s'.arenas = s.arenas) (hc : s'.cls = s.cls) (hi : s'.issued = s.issued)
    (hh : ∀ a, s'.handle a = true → s.handle a = true)
    (hw : ∀ c, s'.LiveCls c → s'.weigh w' c = s.weigh w c) : s'.MemOk w' := by
  have hm : ∀ x, s'.Managed x → s.Managed x := fun x ⟨hx, y, hy, hyc⟩ =>
    ⟨ha ▸ hx, y, hh y hy, by rw [← hc]; exact hyc⟩
  refine ⟨fun a h' => ?_, fun x hx => ?_, fun x p hx hxp => ?_, fun x y n m hx hy hn hm' hcl => ?_,
    fun r n hr hn => ?_⟩
  · rw [ha]
    exact h.handle_mem a (hh a h')
  · rw [hc, hi]
    exact h.cls_lt x (ha ▸ hx)
  · rw [hp] at hxp
    simpa [In, ha, hc] using h.parent x p (hm x hx) hxp
  · rw [hp] at hn hm'
    rw [hc] at hcl
    exact h.root_unique x y n m (hm x hx) (hm y hy) hn hm' hcl
  · rw [hp] at hn
    rw [hw _ hr.2, hc]
    exact h.count r n (hm r hr) hn

theorem MemOk.goto [DecidableEq T] (h : s.MemOk w) (t : T) (p : Pc) : (s.goto t p).MemOk w :=
  h.mono rfl rfl rfl rfl (fun _ h => h) fun _ _ => rfl

/-- Path splitting: `x` gets another parent. -/
theorem MemOk.split (h : s.MemOk w) {x p : Addr} (hx : s.IsParent x) (hp : s.In (s.cls x) p)
    (hlt : p < x) : (s.setPoc x (.parent p)).MemOk w := by
  have hcount : ∀ y n, (s.setPoc x (.parent p)).parentOrCount y = .count n →
      s.parentOrCount y = .count n := by
    intro y n hy
    by_cases hyx : y = x
    · subst hyx
      simp [setPoc] at hy
    · simpa [setPoc, Function.update_of_ne hyx] using hy
  refine ⟨h.handle_mem, h.cls_lt, fun y q hy hq => ?_, fun y z n m hy hz hn hm hc => ?_,
    fun r n hr hn => h.count r n hr (hcount r n hn)⟩
  · by_cases hyx : y = x
    · subst hyx
      simp only [setPoc, Function.update_self, Poc.parent.injEq] at hq
      exact hq ▸ ⟨hp, hlt⟩
    · simp only [setPoc, Function.update_of_ne hyx] at hq
      exact h.parent y q hy hq
  · exact h.root_unique y z n m hy hz (hcount y n hn) (hcount z m hm) hc

/-- The root `r` gets the count `m`, which is what its class weighs then. -/
theorem MemOk.recount (h : s.MemOk w) {r : Addr} {n m : Nat} (hr : s.Managed r)
    (hn : s.parentOrCount r = .count n)
    (hp : s'.parentOrCount = Function.update s.parentOrCount r (.count m))
    (ha : s'.arenas = s.arenas) (hc : s'.cls = s.cls) (hi : s'.issued = s.issued)
    (hh : ∀ a, s'.handle a = true → s.handle a = true) (hm : s'.weigh w' (s.cls r) = m)
    (hw : ∀ c, c ≠ s.cls r → s'.weigh w' c = s.weigh w c) : s'.MemOk w' := by
  have hmg : ∀ x, s'.Managed x → s.Managed x := fun x ⟨hx, y, hy, hyc⟩ =>
    ⟨ha ▸ hx, y, hh y hy, by rw [← hc]; exact hyc⟩
  have hcount : ∀ y k, s'.parentOrCount y = .count k → ∃ k', s.parentOrCount y = .count k' := by
    intro y k hy
    by_cases hyr : y = r
    · exact ⟨n, hyr ▸ hn⟩
    · rw [hp, Function.update_of_ne hyr] at hy
      exact ⟨k, hy⟩
  refine ⟨fun a h' => ?_, fun x hx => ?_, fun y q hy hq => ?_, fun y z k l hy hz hk hl hcl => ?_,
    fun y k hy hk => ?_⟩
  · rw [ha]
    exact h.handle_mem a (hh a h')
  · rw [hc, hi]
    exact h.cls_lt x (ha ▸ hx)
  · rw [hp] at hq
    by_cases hyr : y = r
    · subst hyr
      simp at hq
    · rw [Function.update_of_ne hyr] at hq
      simpa [In, ha, hc] using h.parent y q (hmg y hy) hq
  · obtain ⟨k', hk'⟩ := hcount y k hk
    obtain ⟨l', hl'⟩ := hcount z l hl
    rw [hc] at hcl
    exact h.root_unique y z k' l' (hmg y hy) (hmg z hz) hk' hl' hcl
  · rw [hp] at hk
    rw [hc]
    by_cases hyr : y = r
    · subst hyr
      rw [Function.update_self] at hk
      cases hk
      exact hm.symm
    · rw [Function.update_of_ne hyr] at hk
      rw [hw _ fun hc' => hyr (h.root_unique y r k n (hmg y hy) hr hk hn hc')]
      exact h.count y k (hmg y hy) hk

omit [Fintype T] in
/-- Merging two live classes changes no arena's state. -/
theorem managed_merge {r1 r2 : Addr} (h1 : s.Managed r1) (h2 : s.Managed r2) (x : Addr) :
    (s.merge r1 r2).Managed x ↔ s.Managed x := by
  have hcls : ∀ y, (s.merge r1 r2).cls y = if s.cls y = s.cls r2 then s.cls r1 else s.cls y :=
    fun y => rfl
  refine ⟨fun ⟨hx, y, hy, hyc⟩ => ⟨hx, ?_⟩, fun ⟨hx, y, hy, hyc⟩ => ⟨hx, y, hy, ?_⟩⟩
  · rw [hcls, hcls] at hyc
    by_cases hx2 : s.cls x = s.cls r2
    · exact hx2 ▸ h2.2
    · rw [if_neg hx2] at hyc
      split at hyc
      · exact hyc ▸ h1.2
      · exact ⟨y, hy, hyc⟩
  · rw [hcls, hcls, hyc]

/-- Two roots of different classes become one: `r2` gets the parent `r1`, whose class already has the
references `c2` of the other in its excess. -/
theorem MemOk.reparent (h : s.MemOk w) {r1 r2 : Addr} {c2 : Nat} (h1 : s.Managed r1)
    (h2 : s.Managed r2) (hlt : r1 < r2) (hn : s.parentOrCount r2 = .count c2)
    (hw1 : s.weigh w' (s.cls r1) + c2 = s.weigh w (s.cls r1))
    (hw : ∀ c, c ≠ s.cls r1 → s.weigh w' c = s.weigh w c) :
    ((s.setPoc r2 (.parent r1)).merge r1 r2).MemOk w' := by
  have hne : s.cls r1 ≠ s.cls r2 := fun hc => (h.root_le h2 hn h1 hc).not_gt hlt
  generalize hs' : (s.setPoc r2 (.parent r1)).merge r1 r2 = s'
  have hcls : ∀ x, s'.cls x = if s.cls x = s.cls r2 then s.cls r1 else s.cls x := by
    subst hs'
    exact fun x => rfl
  have hpoc : ∀ x, x ≠ r2 → s'.parentOrCount x = s.parentOrCount x := by
    subst hs'
    exact fun x hx => Function.update_of_ne hx ..
  have hpoc2 : s'.parentOrCount r2 = .parent r1 := by
    subst hs'
    exact Function.update_self ..
  have ha : s'.arenas = s.arenas := by
    subst hs'
    rfl
  have hh : s'.handle = s.handle := by
    subst hs'
    rfl
  have hi : s'.issued = s.issued := by
    subst hs'
    rfl
  have hmg : ∀ x, s'.Managed x → s.Managed x := by
    subst hs'
    exact fun x => (managed_merge h1 h2 x).mp
  have hroot : ∀ x n, s'.Managed x → s'.parentOrCount x = .count n → x ≠ r2 ∧
      s.parentOrCount x = .count n ∧ s'.cls x = s.cls x := by
    intro x n hx hxn
    have hx2 : x ≠ r2 := by
      rintro rfl
      rw [hpoc2] at hxn
      cases hxn
    rw [hpoc x hx2] at hxn
    refine ⟨hx2, hxn, ?_⟩
    rw [hcls, if_neg]
    exact fun hc => hx2 (h.root_unique x r2 n c2 (hmg x hx) h2 hxn hn hc)
  refine ⟨fun a h' => ?_, fun x hx => ?_, fun x p hx hp => ?_, fun x y n m hx hy hxn hym hc => ?_,
    fun r n hr hrn => ?_⟩
  · rw [ha]
    exact h.handle_mem a (hh ▸ h')
  · rw [ha] at hx
    rw [hcls, hi]
    split
    · exact h.cls_lt r1 h1.1
    · exact h.cls_lt x hx
  · by_cases hx2 : x = r2
    · subst hx2
      rw [hpoc2] at hp
      cases hp
      refine ⟨⟨ha ▸ h1.1, ?_⟩, hlt⟩
      rw [hcls, hcls, if_pos rfl, if_neg hne]
    · rw [hpoc x hx2] at hp
      obtain ⟨⟨hpm, hpc⟩, hpx⟩ := h.parent x p (hmg x hx) hp
      refine ⟨⟨ha ▸ hpm, ?_⟩, hpx⟩
      rw [hcls, hcls, hpc]
  · obtain ⟨-, hxn, hxc⟩ := hroot x n hx hxn
    obtain ⟨-, hym, hyc⟩ := hroot y m hy hym
    rw [hxc, hyc] at hc
    exact h.root_unique x y n m (hmg x hx) (hmg y hy) hxn hym hc
  · obtain ⟨hr2, hrn, hrc⟩ := hroot r n hr hrn
    rw [h.count r n (hmg r hr) hrn, hrc]
    have hwt : s'.weight w' = s.weight w' := by
      funext x
      simp [weight, hh]
    by_cases hr1 : s.cls r = s.cls r1
    · -- the class of `r1` and the class of `r2` together
      have hsplit : s'.weigh w' (s.cls r1) = s.weigh w' (s.cls r1) + s.weigh w' (s.cls r2) := by
        unfold weigh
        rw [ha, hwt, ← Finset.sum_union]
        · congr 1
          ext x
          simp only [Finset.mem_filter, Finset.mem_union, hcls]
          split <;> grind
        · refine Finset.disjoint_filter.mpr fun x _ hx hx' => hne (hx.symm.trans hx')
      have h2c := h.count r2 c2 h2 hn
      rw [← hw _ hne.symm] at h2c
      rw [hr1, hsplit]
      omega
    · rw [← hw _ hr1]
      unfold weigh
      rw [ha, hwt]
      congr 1
      ext x
      simp only [Finset.mem_filter, hcls]
      have : s.cls r ≠ s.cls r2 := fun hc => hr2 (h.root_unique r r2 n c2 (hmg r hr) h2 hrn hn hc)
      split <;> grind

/-- The memory of an arena of a dead class is given back. -/
theorem MemOk.erase (h : s.MemOk w) {b : Addr} (hb : ¬s.LiveCls (s.cls b)) (l : List Nat) :
    ({ s with arenas := s.arenas.erase b, freed := l } : ArenaSys T).MemOk w := by
  have hne : ∀ {x}, s.LiveCls (s.cls x) → x ≠ b := fun hx hxb => hb (hxb ▸ hx)
  refine ⟨fun a ha => ?_, fun x hx => h.cls_lt x (Finset.mem_of_mem_erase hx), fun x p hx hp => ?_,
    fun x y n m hx hy => ?_, fun r n hr hn => ?_⟩
  · exact Finset.mem_erase.mpr ⟨hne ⟨a, ha, rfl⟩, h.handle_mem a ha⟩
  · obtain ⟨⟨hpm, hpc⟩, hlt⟩ := h.parent x p ⟨Finset.mem_of_mem_erase hx.1, hx.2⟩ hp
    exact ⟨⟨Finset.mem_erase.mpr ⟨hne (hpc ▸ hx.2), hpm⟩, hpc⟩, hlt⟩
  · exact h.root_unique x y n m ⟨Finset.mem_of_mem_erase hx.1, hx.2⟩
      ⟨Finset.mem_of_mem_erase hy.1, hy.2⟩
  · rw [h.count r n ⟨Finset.mem_of_mem_erase hr.1, hr.2⟩ hn]
    unfold weigh
    refine Finset.sum_congr ?_ fun x _ => rfl
    ext x
    simp only [Finset.mem_filter, Finset.mem_erase]
    exact ⟨fun ⟨hx, hc⟩ => ⟨⟨hne (hc ▸ hr.2), hx⟩, hc⟩, fun ⟨⟨_, hx⟩, hc⟩ => ⟨hx, hc⟩⟩

/-- A new arena is a class of its own. -/
theorem MemOk.new [DecidableEq T] (h : s.MemOk w) {a : Addr} (ha : a ∉ s.arenas)
    (hw : ∀ u, w u a = 0) (initial : Bool) : (s.new a initial).MemOk w := by
  generalize hs' : s.new a initial = s'
  have hcls : ∀ x, x ≠ a → s'.cls x = s.cls x := by
    subst hs'
    exact fun x hx => Function.update_of_ne hx ..
  have hclsa : s'.cls a = s.issued := by
    subst hs'
    exact Function.update_self ..
  have hh : ∀ x, x ≠ a → s'.handle x = s.handle x := by
    subst hs'
    exact fun x hx => Function.update_of_ne hx ..
  have hha : s'.handle a = true := by
    subst hs'
    exact Function.update_self ..
  have hpoc : ∀ x, x ≠ a → s'.parentOrCount x = s.parentOrCount x := by
    subst hs'
    exact fun x hx => Function.update_of_ne hx ..
  have hpoca : s'.parentOrCount a = .count 1 := by
    subst hs'
    exact Function.update_self ..
  have harenas : s'.arenas = insert a s.arenas := by
    subst hs'
    rfl
  have hissued : s'.issued = s.issued + 1 := by
    subst hs'
    rfl
  have hold : ∀ x, s'.Managed x → x ≠ a → s.Managed x ∧ s'.cls x ≠ s.issued := by
    intro x ⟨hx, y, hy, hyc⟩ hxa
    rw [harenas] at hx
    have hx := Finset.mem_of_mem_insert_of_ne hx hxa
    have hlt := h.cls_lt x hx
    rw [hcls x hxa] at hyc ⊢
    have hya : y ≠ a := by
      rintro rfl
      rw [hclsa] at hyc
      omega
    rw [hh y hya] at hy
    rw [hcls y hya] at hyc
    exact ⟨⟨hx, y, hy, hyc⟩, by omega⟩
  have hweight : ∀ x, x ≠ a → s'.weight w x = s.weight w x := fun x hx => by simp [weight, hh x hx]
  refine ⟨fun x hx => ?_, fun x hx => ?_, fun x p hx hp => ?_, fun x y n m hx hy hn hm hc => ?_,
    fun r n hr hn => ?_⟩
  · rw [harenas]
    by_cases hxa : x = a
    · exact Finset.mem_insert.mpr (.inl hxa)
    · exact Finset.mem_insert_of_mem (h.handle_mem x (hh x hxa ▸ hx))
  · rw [harenas] at hx
    rw [hissued]
    by_cases hxa : x = a
    · subst hxa
      omega
    · have := h.cls_lt x (Finset.mem_of_mem_insert_of_ne hx hxa)
      rw [hcls x hxa]
      omega
  · have hxa : x ≠ a := by
      rintro rfl
      rw [hpoca] at hp
      cases hp
    rw [hpoc x hxa] at hp
    obtain ⟨⟨hpm, hpc⟩, hlt⟩ := h.parent x p (hold x hx hxa).1 hp
    have hpa : p ≠ a := fun hpa => ha (hpa ▸ hpm)
    refine ⟨⟨harenas ▸ Finset.mem_insert_of_mem hpm, ?_⟩, hlt⟩
    rw [hcls p hpa, hcls x hxa, hpc]
  · by_cases hxa : x = a <;> by_cases hya : y = a
    · rw [hxa, hya]
    · subst hxa
      rw [hclsa] at hc
      exact absurd hc.symm (hold y hy hya).2
    · subst hya
      rw [hclsa] at hc
      exact absurd hc (hold x hx hxa).2
    · rw [hpoc x hxa] at hn
      rw [hpoc y hya] at hm
      rw [hcls x hxa, hcls y hya] at hc
      exact h.root_unique x y n m (hold x hx hxa).1 (hold y hy hya).1 hn hm hc
  · by_cases hra : r = a
    · subst hra
      rw [hpoca] at hn
      have hfilter : s'.arenas.filter (s'.cls · = s'.cls r) = {r} := by
        ext x
        rw [Finset.mem_filter, harenas, Finset.mem_singleton, Finset.mem_insert, hclsa]
        refine ⟨fun ⟨hx, hc⟩ => hx.elim id fun hx => ?_, fun hx => ⟨.inl hx, hx ▸ hclsa⟩⟩
        by_contra hxr
        have := h.cls_lt x hx
        rw [hcls x hxr] at hc
        omega
      unfold weigh
      rw [hfilter, Finset.sum_singleton]
      simp only [Poc.count.injEq] at hn
      simp [weight, hha, hw, ← hn]
    · rw [hpoc r hra] at hn
      rw [h.count r n (hold r hr hra).1 hn, ← hcls r hra]
      unfold weigh
      have hr' := (hold r hr hra).2
      rw [show s'.arenas.filter (s'.cls · = s'.cls r) = s.arenas.filter (s.cls · = s'.cls r) by
        ext x
        rw [Finset.mem_filter, Finset.mem_filter, harenas, Finset.mem_insert]
        by_cases hxa : x = a
        · subst hxa
          simp only [hclsa, ha, false_and, iff_false]
          exact fun h => hr' h.2.symm
        · simp [hxa, hcls x hxa]]
      refine Finset.sum_congr rfl fun x hx => (hweight x ?_).symm
      rintro rfl
      exact ha (Finset.mem_filter.mp hx).1

end Effects

end ArenaSys

end Hpb
