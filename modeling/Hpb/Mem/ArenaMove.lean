import Hpb.Mem.ArenaRefs

/-!
# What an atomic step can do

`ArenaSys.Move s t s'` lists the steps that thread `t` can make in a state whose references are in
order, with what holds when it makes them. Every invariant is proved over `Move`; the code is read once,
in `Refs.move`.

* `Continues`: what is common to the steps that only move the program counter.
* `Refs.move`: a legal call or step is a `Move`.
* `Move.refs`: a `Move` keeps the references in order.
-/

namespace Hpb

/-- Neither splicing lists nor freeing them. -/
def Pc.Calm : Pc → Prop
  | .fuse _ _ _ (.lists _ _) => False
  | .free _ (.next _) => False
  | .free _ (.blocks _ _) => False
  | _ => True

/-- Before the compare-exchange on `r2`, with excess references added to `r1`. -/
def Pc.Reparenting : Pc → Prop
  | .fuse _ _ _ (.reparent _ _ _) => True
  | _ => False

namespace ArenaSys

variable {T : Type}

/-- The call at `p` goes on at `p'`, with the same handles and the same excess references. -/
structure Continues (s : ArenaSys T) (p p' : Pc) : Prop where
  locals : s.PcOk p'
  owed_eq : owed p' = owed p
  args : p'.args = p.args ∨ (p'.args = [] ∧ owed p' = 0)
  free : ∀ a q, p' = .free a q → a ∈ p'.args → ∃ q', p = .free a q'
  settled : ¬p'.Reparenting

variable [DecidableEq T]

/-- What thread `t` can do in one step. -/
inductive Move (s : ArenaSys T) (t : T) : ArenaSys T → Prop
  | stay : s.pc t = .idle → Move s t s
  /-- A load or a failed compare-exchange. -/
  | go {p' : Pc} : (s.pc t).Calm → p'.Calm → s.Continues (s.pc t) p' → Move s t (s.goto t p')
  | call {p' : Pc} : s.pc t = .idle → p'.Calm → s.PcOk p' → owed p' = 0 → ¬p'.Reparenting →
    (∀ a ∈ p'.args, s.handle a = true) →
    (∀ a q, p' = .free a q → ∀ u, a ∉ (s.pc u).args) →
    (∀ a ∈ p'.args, ∀ u q, s.pc u = .free a q → a ∉ (s.pc u).args) → Move s t (s.goto t p')
  | split {p' : Pc} {x p : Addr} : (s.pc t).Calm → p'.Calm → s.Continues (s.pc t) p' → s.Managed x →
    s.IsParent x → s.In (s.cls x) p → p < x → Move s t ((s.setPoc x (.parent p)).goto t p')
  | addRefs {a1 a2 r1 r2 : Addr} {d c1 c2 : Nat} : s.pc t = .fuse a1 a2 d (.addRefs r1 c1 r2 c2) →
    s.Roots a1 a2 r1 r2 → s.parentOrCount r1 = .count c1 →
    Move s t ((s.setPoc r1 (.count (c1 + c2))).goto t (.fuse a1 a2 d (.reparent r1 r2 c2)))
  | reparent {a1 a2 r1 r2 : Addr} {d c2 : Nat} : s.pc t = .fuse a1 a2 d (.reparent r1 r2 c2) →
    s.Roots a1 a2 r1 r2 → s.parentOrCount r2 = .count c2 →
    Move s t (((s.setPoc r2 (.parent r1)).merge r1 r2).goto t (.fuse a1 a2 d (.lists r1 (.tail r2))))
  | fixup {a1 a2 r : Addr} {d n : Nat} : s.pc t = .fuse a1 a2 d (.fixupCas r n) →
    s.cls a1 = s.cls a2 → s.In (s.cls a1) r → s.parentOrCount r = .count n →
    Move s t ((s.setPoc r (.count (n - d))).goto t .idle)
  | drop {a r : Addr} {n : Nat} : s.pc t = .free a (.cas r n) → s.In (s.cls a) r →
    s.parentOrCount r = .count n → n ≠ 1 →
    Move s t (((s.setPoc r (.count (n - 1))).release a).goto t .idle)
  /-- The last reference. -/
  | last {a r : Addr} {q : Free} : s.pc t = .free a q → a ∈ (s.pc t).args → s.In (s.cls a) r →
    s.parentOrCount r = .count 1 → Move s t ((s.release a).goto t (.free a (.next r)))
  | tail {a1 a2 parent child : Addr} {d : Nat} : s.pc t = .fuse a1 a2 d (.lists parent (.tail child)) →
    Move s t (s.goto t (.fuse a1 a2 d (.lists parent (.walk (s.tail parent) child))))
  | walkOn {a1 a2 parent child pt n : Addr} {d : Nat} :
    s.pc t = .fuse a1 a2 d (.lists parent (.walk pt child)) → s.next pt = some n →
    Move s t (s.goto t (.fuse a1 a2 d (.lists parent (.walk n child))))
  | walkEnd {a1 a2 parent child pt : Addr} {d : Nat} :
    s.pc t = .fuse a1 a2 d (.lists parent (.walk pt child)) → s.next pt = none →
    Move s t (s.goto t (.fuse a1 a2 d (.lists parent (.exchange pt child))))
  | exchange {a1 a2 parent child pt : Addr} {d : Nat} :
    s.pc t = .fuse a1 a2 d (.lists parent (.exchange pt child)) →
    Move s t ((s.setNext pt (some child)).goto t
      (.fuse a1 a2 d (.lists parent (.childTail child (s.next pt)))))
  | reinstall {a1 a2 parent child displaced : Addr} {d : Nat} :
    s.pc t = .fuse a1 a2 d (.lists parent (.childTail child (some displaced))) →
    Move s t (s.goto t (.fuse a1 a2 d (.lists parent (.walk (s.tail child) displaced))))
  | spliced {a1 a2 parent child : Addr} {d : Nat} :
    s.pc t = .fuse a1 a2 d (.lists parent (.childTail child none)) →
    Move s t (s.goto t (.fuse a1 a2 d (.lists parent (.store (s.tail child)))))
  | store {a1 a2 parent pt : Addr} {d : Nat} :
    s.pc t = .fuse a1 a2 d (.lists parent (.store pt)) →
    Move s t ((s.setTail parent pt).goto t (fused a1 a2 d parent))
  | freeNext {a x : Addr} : s.pc t = .free a (.next x) →
    Move s t (s.goto t (.free a (.blocks x (s.next x))))
  | freeBlocks {a x : Addr} {n : Option Addr} : s.pc t = .free a (.blocks x n) → x ∈ s.arenas →
    Move s t (({ s with arenas := s.arenas.erase x, freed := s.serial x :: s.freed } :
      ArenaSys T).goto t (n.elim .idle fun n => .free a (.next n)))
  | new {a : Addr} {initial : Bool} : s.pc t = .idle → a ∉ s.arenas → Move s t (s.new a initial)

section Code

variable [Fintype T] {s s' : ArenaSys T} {w : T → Addr → Nat} {t : T}

omit [DecidableEq T] [Fintype T] in
@[simp] theorem loadPoc_eq_some {a : Addr} {v : Poc} :
    s.loadPoc a = some v ↔ a ∈ s.arenas ∧ s.parentOrCount a = v := by
  simp [loadPoc]

omit [DecidableEq T] [Fintype T] in
@[simp] theorem loadNext_eq_some {a : Addr} {v : Option Addr} :
    s.loadNext a = some v ↔ a ∈ s.arenas ∧ s.next a = v := by
  simp [loadNext]

omit [DecidableEq T] [Fintype T] in
@[simp] theorem loadTail_eq_some {a v : Addr} :
    s.loadTail a = some v ↔ a ∈ s.arenas ∧ s.tail a = v := by
  simp [loadTail]

omit [DecidableEq T] in
theorem MemOk.parent_in (h : s.MemOk w) {c : Nat} {x p : Addr} (hl : s.LiveCls c) (hx : s.In c x)
    (hp : s.parentOrCount x = .parent p) : s.In c p ∧ p < x := by
  obtain ⟨hxm, rfl⟩ := hx
  exact h.parent x p ⟨hxm, hl⟩ hp

/-- What a step of `_hpb_Arena_FindRoot` does. -/
inductive FindMove (s : ArenaSys T) (c : Nat) : ArenaSys T → Find ⊕ (Addr × Nat) → Prop
  | go {f : Find} : s.FindOk c f → FindMove s c s (.inl f)
  | found {r : Addr} {n : Nat} : s.In c r → FindMove s c s (.inr (r, n))
  | split {x p n : Addr} : s.Managed x → s.IsParent x → s.In (s.cls x) p → p < x →
    s.FindOk c (.next n p) → FindMove s c (s.setPoc x (.parent p)) (.inl (.next n p))

omit [DecidableEq T] in
theorem MemOk.findMove (h : s.MemOk w) {c : Nat} (hl : s.LiveCls c) {f : Find} (hf : s.FindOk c f)
    {r : Find ⊕ (Addr × Nat)} (he : s.stepFind f = some (s', r)) : FindMove s c s' r := by
  cases f with
  | load a =>
    simp only [stepFind, Option.bind_eq_bind, Option.bind_eq_some_iff, loadPoc_eq_some] at he
    obtain ⟨poc, ⟨ha, hpoc⟩, he⟩ := he
    cases poc with
    | count n =>
      cases he
      exact .found hf
    | parent p =>
      cases he
      obtain ⟨hp, hlt⟩ := h.parent_in hl hf hpoc
      exact .go ⟨hf, hp, hlt, p, hpoc⟩
  | next a n =>
    obtain ⟨ha, hn, hlt, hap⟩ := hf
    simp only [stepFind, Option.bind_eq_bind, Option.bind_eq_some_iff, loadPoc_eq_some] at he
    obtain ⟨poc, ⟨-, hpoc⟩, he⟩ := he
    cases poc with
    | count k =>
      cases he
      exact .found hn
    | parent p =>
      cases he
      obtain ⟨hp, hpn⟩ := h.parent_in hl hn hpoc
      exact .go ⟨ha, hn, hp, hpn, hlt, hap, p, hpoc⟩
  | split a n p =>
    obtain ⟨ha, hn, hp, hpn, hna, hap, hnp⟩ := hf
    simp only [stepFind, Option.bind_eq_bind, Option.bind_eq_some_iff, loadPoc_eq_some] at he
    obtain ⟨poc, -, he⟩ := he
    cases he
    refine .split ⟨ha.1, ?_⟩ hap ?_ (hpn.trans hna) ⟨hn, hp, hpn, hnp⟩
    · exact ha.2 ▸ hl
    · exact ha.2 ▸ hp

omit [DecidableEq T] [Fintype T] in
theorem Continues.fuse {a1 a2 : Addr} {d d' : Nat} {p q : Fuse} (hq : s.FuseOk a1 a2 q)
    (ho : owed (.fuse a1 a2 d' q) = owed (.fuse a1 a2 d p))
    (hr : ¬(Pc.fuse a1 a2 d' q).Reparenting) :
    s.Continues (.fuse a1 a2 d p) (.fuse a1 a2 d' q) :=
  ⟨hq, ho, .inl rfl, (fun _ _ h => by cases h), hr⟩

omit [Fintype T] in
theorem fused_calm (a1 a2 d r : Nat) : (fused a1 a2 d r).Calm := by
  unfold fused
  split <;> trivial

omit [DecidableEq T] [Fintype T] in
theorem Continues.fused {a1 a2 r : Addr} {d : Nat} {p : Fuse} (hc : s.cls a1 = s.cls a2)
    (hr : s.In (s.cls a1) r) (ho : owed (.fuse a1 a2 d p) = d) :
    s.Continues (.fuse a1 a2 d p) (fused a1 a2 d r) := by
  unfold ArenaSys.fused
  split
  · rename_i hd
    exact ⟨trivial, hd ▸ ho.symm, .inr ⟨rfl, rfl⟩, (fun _ _ h => by cases h), id⟩
  · exact .fuse ⟨hc, hr⟩ ho.symm id

omit [DecidableEq T] [Fintype T] in
theorem Continues.retry {a1 a2 : Addr} {d d' : Nat} {p : Fuse} (ha : a1 ∈ s.arenas)
    (ho : owed (.fuse a1 a2 d p) = d') : s.Continues (.fuse a1 a2 d p) (retry a1 a2 d') :=
  .fuse (show s.FuseOk a1 a2 (.find1 (.load a1)) from ⟨ha, rfl⟩) ho.symm id

omit [Fintype T] in
/-- A step of `_hpb_Arena_DoFuseArenaLists` is a `Move`. -/
theorem move_lists {a1 a2 parent : Addr} {d : Nat} {l : Lists}
    (hpc : s.pc t = .fuse a1 a2 d (.lists parent l))
    (he : s.stepFuse t a1 a2 d (.lists parent l) = some s') : Move s t s' := by
  simp only [stepFuse, Option.bind_eq_bind, Option.bind_eq_some_iff] at he
  obtain ⟨⟨s₁, l'⟩, hs, he⟩ := he
  cases l with
  | tail child =>
    simp only [stepLists, Option.bind_eq_bind, Option.bind_eq_some_iff, loadTail_eq_some] at hs
    obtain ⟨pt, ⟨-, rfl⟩, hs⟩ := hs
    cases hs
    cases he
    exact .tail hpc
  | walk pt child =>
    simp only [stepLists, Option.bind_eq_bind, Option.bind_eq_some_iff, loadNext_eq_some] at hs
    obtain ⟨n, ⟨-, hn⟩, hs⟩ := hs
    cases n with
    | none =>
      cases hs
      cases he
      exact .walkEnd hpc hn
    | some n =>
      cases hs
      cases he
      exact .walkOn hpc hn
  | exchange pt child =>
    simp only [stepLists, Option.bind_eq_bind, Option.bind_eq_some_iff, loadNext_eq_some] at hs
    obtain ⟨n, ⟨-, rfl⟩, hs⟩ := hs
    cases hs
    cases he
    exact .exchange hpc
  | childTail child displaced =>
    simp only [stepLists, Option.bind_eq_bind, Option.bind_eq_some_iff, loadTail_eq_some] at hs
    obtain ⟨pt, ⟨-, rfl⟩, hs⟩ := hs
    cases displaced with
    | none =>
      cases hs
      cases he
      exact .spliced hpc
    | some d =>
      cases hs
      cases he
      exact .reinstall hpc
  | store pt =>
    simp only [stepLists, Option.bind_eq_bind, Option.bind_eq_some_iff, loadTail_eq_some] at hs
    obtain ⟨_, -, hs⟩ := hs
    cases hs
    cases he
    exact .store hpc

/-- A step of `hpb_Arena_Fuse` is a `Move`. -/
theorem Refs.move_fuse (h : s.Refs w) {a1 a2 : Addr} {d : Nat} {p : Fuse}
    (hpc : s.pc t = .fuse a1 a2 d p) (he : s.stepFuse t a1 a2 d p = some s') : Move s t s' := by
  have ht := h.threads t
  rw [hpc] at ht
  have hh1 : s.handle a1 = true := ht.args a1 (by simp [Pc.args])
  have hh2 : s.handle a2 = true := ht.args a2 (by simp [Pc.args])
  have hm1 := h.mem.handle_mem a1 hh1
  have hl1 : s.LiveCls (s.cls a1) := ⟨a1, hh1, rfl⟩
  have hl2 : s.LiveCls (s.cls a2) := ⟨a2, hh2, rfl⟩
  have hgo : ∀ {p'}, (Pc.fuse a1 a2 d p).Calm → p'.Calm → s.Continues (.fuse a1 a2 d p) p' →
      Move s t (s.goto t p') := fun hp hp' hc => .go (hpc ▸ hp) hp' (hpc ▸ hc)
  have hp : s.FuseOk a1 a2 p := ht.locals
  cases p with
  | find1 f =>
    simp only [stepFuse, Option.bind_eq_bind, Option.bind_eq_some_iff] at he
    obtain ⟨⟨s₁, r⟩, hs, he⟩ := he
    cases h.mem.findMove hl1 hp hs with
    | go hf =>
      cases he
      exact hgo trivial trivial (.fuse hf rfl id)
    | @found r c hr =>
      cases he
      have hf : s.FuseOk a1 a2 (.find2 r c (.load a2)) := ⟨hr, h.mem.handle_mem a2 hh2, rfl⟩
      exact hgo trivial trivial (.fuse hf rfl id)
    | split hx hxp hp hlt hf =>
      cases he
      refine .split (hpc ▸ trivial) trivial (hpc ▸ .fuse hf rfl id) hx hxp hp hlt
  | find2 r1 c1 f =>
    simp only [stepFuse, Option.bind_eq_bind, Option.bind_eq_some_iff] at he
    obtain ⟨⟨s₁, r⟩, hs, he⟩ := he
    obtain ⟨hr1, hf⟩ := hp
    cases h.mem.findMove hl2 hf hs with
    | go hf =>
      cases he
      exact hgo trivial trivial (.fuse ⟨hr1, hf⟩ rfl id)
    | @found r2 c2 hr2 =>
      simp only at he
      split at he
      · rename_i heq
        subst heq
        cases he
        exact hgo trivial (fused_calm ..) (.fused (hr1.2.symm.trans hr2.2) hr1 rfl)
      · rename_i hne
        split at he
        · rename_i hlt
          cases he
          have hf : s.FuseOk a1 a2 (.addRefs r2 c2 r1 c1) := ⟨hlt, .inr ⟨hr2, hr1⟩⟩
          exact hgo trivial trivial (.fuse hf rfl id)
        · rename_i hle
          cases he
          have hlt : r1 < r2 := Nat.lt_of_le_of_ne (Nat.le_of_not_lt hle) hne
          have hf : s.FuseOk a1 a2 (.addRefs r1 c1 r2 c2) := ⟨hlt, .inl ⟨hr1, hr2⟩⟩
          exact hgo trivial trivial (.fuse hf rfl id)
    | split hx hxp hp hlt hf =>
      cases he
      exact .split (hpc ▸ trivial) trivial (hpc ▸ .fuse ⟨hr1, hf⟩ rfl id) hx hxp hp hlt
  | addRefs r1 c1 r2 c2 =>
    simp only [stepFuse, Option.bind_eq_bind, Option.bind_eq_some_iff, loadPoc_eq_some] at he
    obtain ⟨poc, ⟨-, hpoc⟩, he⟩ := he
    split at he
    · rename_i heq
      cases he
      exact .addRefs hpc hp (hpoc.trans heq)
    · cases he
      exact hgo trivial trivial (.retry hm1 rfl)
  | reparent r1 r2 c2 =>
    simp only [stepFuse, Option.bind_eq_bind, Option.bind_eq_some_iff, loadPoc_eq_some] at he
    obtain ⟨poc, ⟨-, hpoc⟩, he⟩ := he
    split at he
    · rename_i heq
      cases he
      exact .reparent hpc hp (hpoc.trans heq)
    · cases he
      exact hgo trivial trivial (.retry hm1 rfl)
  | lists parent l => exact move_lists hpc he
  | fixup r =>
    simp only [stepFuse, Option.bind_eq_bind, Option.bind_eq_some_iff, loadPoc_eq_some] at he
    obtain ⟨poc, -, he⟩ := he
    cases poc with
    | parent q =>
      cases he
      exact hgo trivial trivial (.retry hm1 rfl)
    | count n =>
      cases he
      have hf : s.FuseOk a1 a2 (.fixupCas r n) := hp
      exact hgo trivial trivial (.fuse hf rfl id)
  | fixupCas r n =>
    simp only [stepFuse, Option.bind_eq_bind, Option.bind_eq_some_iff, loadPoc_eq_some] at he
    obtain ⟨poc, ⟨-, hpoc⟩, he⟩ := he
    split at he
    · rename_i heq
      cases he
      exact .fixup hpc hp.1 hp.2 (hpoc.trans heq)
    · cases he
      exact hgo trivial trivial (.retry hm1 rfl)

/-- The end of a step of `hpb_Arena_Free` that read the word of `x`. -/
theorem Refs.move_freeWith (h : s.Refs w) {a x : Addr} {q : Free} (hpc : s.pc t = .free a q)
    (hq : (Pc.free a q).args = [a]) (hx : s.In (s.cls a) x) :
    Move s t (s.freeWith t a x (s.parentOrCount x)) := by
  have hh : s.handle a = true := by
    refine (h.threads t).args a ?_
    rw [hpc, hq]
    exact List.mem_singleton.mpr rfl
  have hcalm : (s.pc t).Calm := by
    rw [hpc]
    cases q <;> simp_all [Pc.args, Pc.Calm]
  have hgo : ∀ {q'}, s.PcOk (.free a q') → (Pc.free a q').args = [a] → (Pc.free a q').Calm →
      Move s t (s.goto t (.free a q')) := fun {q'} hp hq' hc => by
    refine .go hcalm hc ⟨hp, ?_, .inl ?_, fun b r hb _ => ?_, id⟩
    · rw [hpc]
      rfl
    · rw [hpc, hq, hq']
    · cases hb
      exact ⟨q, hpc⟩
  cases hp : s.parentOrCount x with
  | parent p => exact hgo (h.mem.parent_in ⟨a, hh, rfl⟩ hx hp).1 rfl trivial
  | count n =>
    simp only [freeWith]
    split
    · rename_i hn
      subst hn
      refine .last hpc ?_ hx hp
      rw [hpc, hq]
      exact List.mem_singleton.mpr rfl
    · rename_i hn
      have hok : s.PcOk (.free a (.cas x n)) := ⟨hx, hn⟩
      exact hgo hok rfl trivial

/-- A step of `hpb_Arena_Free` is a `Move`. -/
theorem Refs.move_free (h : s.Refs w) {a : Addr} {sp : Bool} {q : Free} (hpc : s.pc t = .free a q)
    (he : s.stepFree t a sp q = some s') : Move s t s' := by
  have ht := h.threads t
  rw [hpc] at ht
  cases q with
  | load x =>
    simp only [stepFree, Option.bind_eq_bind, Option.bind_eq_some_iff, loadPoc_eq_some] at he
    obtain ⟨_, ⟨-, rfl⟩, he⟩ := he
    cases he
    exact h.move_freeWith hpc rfl ht.locals
  | cas x n =>
    obtain ⟨hx, hn⟩ : s.In (s.cls a) x ∧ n ≠ 1 := ht.locals
    simp only [stepFree, Option.bind_eq_bind, Option.bind_eq_some_iff, loadPoc_eq_some] at he
    obtain ⟨_, ⟨-, rfl⟩, he⟩ := he
    split at he
    · rename_i hc
      cases he
      exact .drop hpc hx hc.1 hn
    · cases he
      exact h.move_freeWith hpc rfl hx
  | next x =>
    simp only [stepFree, Option.bind_eq_bind, Option.bind_eq_some_iff, loadNext_eq_some] at he
    obtain ⟨_, ⟨-, rfl⟩, he⟩ := he
    cases he
    exact .freeNext hpc
  | blocks x n =>
    simp only [stepFree, Option.bind_eq_bind, Option.bind_eq_some_iff, loadNext_eq_some] at he
    obtain ⟨_, ⟨hx, -⟩, he⟩ := he
    cases n with
    | none =>
      cases he
      exact .freeBlocks hpc hx
    | some n =>
      cases he
      exact .freeBlocks hpc hx

/-- **A legal call or step is a `Move`.** -/
theorem Refs.move (h : s.Refs w) (act : Act) (hl : s.Legal t act) (he : s.exec t act = some s') :
    Move s t s' := by
  cases act with
  | new a initial =>
    cases he
    exact .new hl.1 hl.2
  | fuse a1 a2 =>
    obtain ⟨hi, ha⟩ := hl
    have hm1 := h.mem.handle_mem a1 (ha a1 (by simp)).1
    simp only [exec] at he
    split at he
    · cases he
      exact .stay hi
    · split at he
      · cases he
        exact .stay hi
      · cases he
        refine .call hi trivial (show s.PcOk (.fuse a1 a2 0 (.find1 (.load a1))) from ⟨hm1, rfl⟩) rfl id
          (fun a h => (ha a h).1) (fun _ _ h => by cases h) fun a h => (ha a h).2
  | free a =>
    obtain ⟨hi, hh, hu⟩ := hl
    cases he
    refine .call hi trivial (show s.PcOk (.free a (.load a)) from ⟨h.mem.handle_mem a hh, rfl⟩) rfl id
      (fun b hb => ?_) (fun b q hb u => ?_) fun b hb u q _ => ?_
    · rw [List.mem_singleton.mp hb]
      exact hh
    · cases hb
      exact hu u
    · rw [List.mem_singleton.mp hb]
      exact hu u
  | step sp =>
    simp only [exec, step] at he
    split at he
    · cases he
      exact .stay ‹_›
    · exact h.move_fuse ‹_› he
    · exact h.move_free ‹_› he

end Code

section Preservation

variable {s s' : ArenaSys T} {w : T → Addr → Nat} {t : T}

omit [DecidableEq T] in
theorem ThreadOk.continues {v : Addr → Nat} {p p' : Pc} (h : s.ThreadOk v p)
    (c : s.Continues p p') : s.ThreadOk v p' := by
  obtain hargs | ⟨hargs, h0⟩ := c.args
  · refine ⟨fun a ha => h.args a (hargs ▸ ha), c.locals, fun x hx => ?_, c.owed_eq ▸ h.total, ?_⟩
    · rw [hargs]
      exact h.support x hx
    · rintro a1 a2 d r1 r2 c2 rfl
      exact absurd trivial c.settled
  · have hv : ∀ x, v x = 0 := by
      intro x
      by_contra hx
      have hle := Finset.single_le_sum (f := v) (fun _ _ => Nat.zero_le _) (h.support x hx).1
      rw [h.total, ← c.owed_eq, h0] at hle
      omega
    refine ⟨fun a ha => ?_, c.locals, fun x hx => absurd (hv x) hx, c.owed_eq ▸ h.total, ?_⟩
    · rw [hargs] at ha
      cases ha
    · rintro a1 a2 d r1 r2 c2 rfl
      exact absurd trivial c.settled

theorem Exclusive.update (h : s.Exclusive) {p : Pc} (hpc : s'.pc = Function.update s.pc t p)
    (hargs : p.args = (s.pc t).args ∨ p.args = [])
    (hfree : ∀ a q, p = .free a q → a ∈ p.args → ∃ q', s.pc t = .free a q') : s'.Exclusive := by
  have hsub : ∀ u, ∀ a ∈ (s'.pc u).args, a ∈ (s.pc u).args := by
    intro u a ha
    rw [hpc] at ha
    by_cases hut : u = t
    · subst hut
      rw [Function.update_self] at ha
      obtain hargs | hargs := hargs
      · exact hargs ▸ ha
      · rw [hargs] at ha
        cases ha
    · rwa [Function.update_of_ne hut] at ha
  intro u a q hu ha v hv hav
  have hq : ∃ q', s.pc u = .free a q' := by
    rw [hpc] at hu
    by_cases hut : u = t
    · subst hut
      rw [Function.update_self] at hu
      rw [hpc, Function.update_self] at ha
      exact hfree a q hu ha
    · rw [Function.update_of_ne hut] at hu
      exact ⟨q, hu⟩
  obtain ⟨q', hq'⟩ := hq
  exact h u a q' hq' (hsub u a ha) v hv (hsub v a hav)

variable [Fintype T]

/-- Thread `t` goes to `p` with the excess `v`; the others see an extension. -/
theorem Refs.update (h : s.Refs w) {p : Pc} {v : Addr → Nat}
    (hpc : s'.pc = Function.update s.pc t p) (hm : s'.MemOk (Function.update w t v)) (e : Ext s s')
    (hh : ∀ u, u ≠ t → ∀ a ∈ (s.pc u).args, s'.handle a = true) (ht : s'.ThreadOk v p)
    (hx : s'.Exclusive) : s'.Refs (Function.update w t v) := by
  refine ⟨hm, fun u => ?_, hx⟩
  rw [hpc]
  by_cases hut : u = t
  · subst hut
    rwa [Function.update_self, Function.update_self]
  · rw [Function.update_of_ne hut, Function.update_of_ne hut]
    exact (h.threads u).ext e h.mem.handle_mem (hh u hut)

/-- Thread `t` goes on; the memory changes in a way that the locals of no thread notice. -/
theorem Refs.continue (h : s.Refs w) {p : Pc} (c : s.Continues (s.pc t) p)
    (hpc : s'.pc = Function.update s.pc t p) (hm : s'.MemOk w) (e : Ext s s')
    (hh : s'.handle = s.handle) : s'.Refs w := by
  rw [← Function.update_eq_self t w] at hm ⊢
  refine h.update hpc hm e (fun u _ a ha => hh ▸ (h.threads u).args a ha) ?_
    (h.excl.update hpc (c.args.imp_right And.left) c.free)
  have ht := (h.threads t).continues c
  exact ht.ext e h.mem.handle_mem fun a ha => hh ▸ ht.args a ha

omit [Fintype T] [DecidableEq T] in
theorem Roots.managed {a1 a2 r1 r2 : Addr} (h : s.Roots a1 a2 r1 r2) (h1 : s.handle a1 = true)
    (h2 : s.handle a2 = true) : s.Managed r1 ∧ s.Managed r2 := by
  obtain ⟨hr1, hr2⟩ | ⟨hr1, hr2⟩ := h.2
  · exact ⟨hr1.managed h1 rfl, hr2.managed h2 rfl⟩
  · exact ⟨hr1.managed h2 rfl, hr2.managed h1 rfl⟩

theorem Refs.addRefs (h : s.Refs w) {a1 a2 r1 r2 : Addr} {d c1 c2 : Nat}
    (hpc : s.pc t = .fuse a1 a2 d (.addRefs r1 c1 r2 c2)) (hr : s.Roots a1 a2 r1 r2)
    (hn : s.parentOrCount r1 = .count c1) :
    ((s.setPoc r1 (.count (c1 + c2))).goto t (.fuse a1 a2 d (.reparent r1 r2 c2))).Refs
      (Function.update w t (addAt (w t) r1 c2)) := by
  have ht := h.threads t
  rw [hpc] at ht
  have hh1 : s.handle a1 = true := ht.args a1 (by simp [Pc.args])
  have hh2 : s.handle a2 = true := ht.args a2 (by simp [Pc.args])
  obtain ⟨hm1, -⟩ := hr.managed hh1 hh2
  have hweigh : ∀ c, s.weigh (Function.update w t (addAt (w t) r1 c2)) c =
      s.weigh w c + if s.cls r1 = c then c2 else 0 := by
    intro c
    have := s.weigh_update w t (addAt (w t) r1 c2) c
    rw [excess_addAt hm1.1] at this
    omega
  refine h.update rfl ?_ ⟨fun x hx => hx.1, fun x y _ _ hc => hc, fun x _ hx => ?_⟩
    (fun u _ a ha => (h.threads u).args a ha) ?_ (h.excl.update rfl ?_ (fun _ _ h => by cases h))
  · refine h.mem.recount hm1 hn rfl rfl rfl rfl (fun _ h => h) ?_ fun c hc => ?_
    · change s.weigh _ _ = _
      rw [hweigh, if_pos rfl, ← h.mem.count r1 c1 hm1 hn]
    · change s.weigh _ _ = _
      rw [hweigh, if_neg (Ne.symm hc), Nat.add_zero]
  · have hne : x ≠ r1 := by
      rintro rfl
      obtain ⟨p, hp⟩ := hx
      rw [hn] at hp
      cases hp
    obtain ⟨p, hp⟩ := hx
    exact ⟨p, (Function.update_of_ne hne ..).trans hp⟩
  · refine ⟨ht.args, hr, fun x hx => ?_, ?_, ?_⟩
    · by_cases hxr : x = r1
      · subst hxr
        refine ⟨hm1.1, ?_⟩
        obtain ⟨h1, -⟩ | ⟨h1, -⟩ := hr.2
        · exact ⟨a1, by simp [Pc.args], h1.2⟩
        · exact ⟨a2, by simp [Pc.args], h1.2⟩
      · exact ht.support x (by simpa [addAt, hxr] using hx)
    · refine (total_addAt hm1.1 c2).trans ?_
      rw [ht.total]
      rfl
    · intro a1' a2' d' r1' r2' c2' heq
      cases heq
      simp [addAt]
  · rw [hpc]
    exact .inl rfl

theorem Refs.reparent (h : s.Refs w) {a1 a2 r1 r2 : Addr} {d c2 : Nat}
    (hpc : s.pc t = .fuse a1 a2 d (.reparent r1 r2 c2)) (hr : s.Roots a1 a2 r1 r2)
    (hn : s.parentOrCount r2 = .count c2) :
    ∃ w', (((s.setPoc r2 (.parent r1)).merge r1 r2).goto t
      (.fuse a1 a2 d (.lists r1 (.tail r2)))).Refs w' := by
  have ht := h.threads t
  rw [hpc] at ht
  have hh1 : s.handle a1 = true := ht.args a1 (by simp [Pc.args])
  have hh2 : s.handle a2 = true := ht.args a2 (by simp [Pc.args])
  obtain ⟨hm1, hm2⟩ := hr.managed hh1 hh2
  have hc2 : c2 ≤ w t r1 := ht.pending _ _ _ _ _ _ rfl
  -- the references of `r2` are no longer an excess
  obtain ⟨v, hv⟩ : ∃ v, w t = addAt v r1 c2 := by
    refine ⟨fun x => w t x - if x = r1 then c2 else 0, ?_⟩
    funext x
    by_cases hx : x = r1
    · subst hx
      simp only [addAt, if_pos]
      omega
    · simp [addAt, hx]
  have hweigh : ∀ c, s.weigh (Function.update w t v) c + (if s.cls r1 = c then c2 else 0) =
      s.weigh w c := by
    intro c
    have := s.weigh_update w t v c
    rw [hv, excess_addAt hm1.1] at this
    omega
  have hcls : ∀ x y, s.cls x = s.cls y →
      ((s.setPoc r2 (.parent r1)).merge r1 r2).cls x =
        ((s.setPoc r2 (.parent r1)).merge r1 r2).cls y := by
    intro x y hxy
    change (if s.cls x = s.cls r2 then s.cls r1 else s.cls x) =
      if s.cls y = s.cls r2 then s.cls r1 else s.cls y
    rw [hxy]
  have hjoin : ((s.setPoc r2 (.parent r1)).merge r1 r2).cls r1 =
      ((s.setPoc r2 (.parent r1)).merge r1 r2).cls r2 := by
    change (if s.cls r1 = s.cls r2 then s.cls r1 else s.cls r1) =
      if s.cls r2 = s.cls r2 then s.cls r1 else s.cls r2
    rw [ite_self, if_pos rfl]
  refine ⟨_, h.update rfl (v := v) ((h.mem.reparent hm1 hm2 hr.1 hn ?_ fun c hc => ?_).goto _ _)
    ⟨fun x hx => hx.1, fun x y _ _ => hcls x y, fun x _ hx => ?_⟩
    (fun u _ a ha => (h.threads u).args a ha) ?_ (h.excl.update rfl ?_ (fun _ _ h => by cases h))⟩
  · rw [← hweigh, if_pos rfl]
  · rw [← hweigh, if_neg (Ne.symm hc), Nat.add_zero]
  · obtain ⟨p, hp⟩ := hx
    by_cases hx2 : x = r2
    · exact ⟨r1, hx2 ▸ Function.update_self ..⟩
    · exact ⟨p, (Function.update_of_ne hx2 ..).trans hp⟩
  · refine ⟨ht.args, ?_, fun x hx => ?_, ?_, (fun _ _ _ _ _ _ h => by cases h)⟩
    · have hlocals : (s.merge r1 r2).cls a1 = (s.merge r1 r2).cls a2 ∧
          (s.merge r1 r2).In ((s.merge r1 r2).cls a1) r1 := by
        obtain ⟨h1, h2⟩ | ⟨h1, h2⟩ := hr.2
        · exact ⟨(hcls _ _ h1.2).symm.trans (hjoin.trans (hcls _ _ h2.2)), h1.1, hcls _ _ h1.2⟩
        · exact ⟨(hcls _ _ h2.2).symm.trans (hjoin.symm.trans (hcls _ _ h1.2)), h1.1,
            hjoin.trans (hcls _ _ h2.2)⟩
      exact hlocals
    · have hx' : w t x ≠ 0 := by
        rw [hv]
        simp only [addAt]
        omega
      obtain ⟨hxm, a, ha, hc⟩ := ht.support x hx'
      exact ⟨hxm, a, ha, hcls _ _ hc⟩
    · have := ht.total
      rw [hv, total_addAt hm1.1] at this
      change ∑ x ∈ s.arenas, v x = d
      simp only [owed] at this
      omega
  · rw [hpc]
    exact .inl rfl

theorem Refs.fixup (h : s.Refs w) {a1 a2 r : Addr} {d n : Nat}
    (hpc : s.pc t = .fuse a1 a2 d (.fixupCas r n)) (hc : s.cls a1 = s.cls a2)
    (hr : s.In (s.cls a1) r) (hn : s.parentOrCount r = .count n) :
    ((s.setPoc r (.count (n - d))).goto t .idle).Refs (Function.update w t fun _ => 0) := by
  have ht := h.threads t
  rw [hpc] at ht
  have hm := hr.managed (ht.args a1 (by simp [Pc.args])) rfl
  have hsup : ∀ x, w t x ≠ 0 → s.cls x = s.cls r := by
    intro x hx
    obtain ⟨-, a, ha, hxa⟩ := ht.support x hx
    obtain rfl | rfl : a = a1 ∨ a = a2 := by simpa [Pc.args] using ha
    · exact hxa.trans hr.2.symm
    · exact hxa.trans (hc.symm.trans hr.2.symm)
  -- all the excess of the thread is in the class of `r`
  have hin : s.excess (w t) (s.cls r) = d := by
    refine (Finset.sum_filter_of_ne fun x _ hx => hsup x hx).trans ht.total
  have hout : ∀ c, c ≠ s.cls r → s.excess (w t) c = 0 := by
    intro c hc
    refine Finset.sum_eq_zero fun x hx => ?_
    by_contra hx0
    exact hc ((Finset.mem_filter.mp hx).2.symm.trans (hsup x hx0))
  have hweigh : ∀ c, s.weigh (Function.update w t fun _ => 0) c + s.excess (w t) c = s.weigh w c := by
    intro c
    rw [s.weigh_update]
    simp [excess]
  refine h.update rfl ?_ ⟨fun x hx => hx.1, fun x y _ _ hc => hc, fun x _ hx => ?_⟩
    (fun u _ a ha => (h.threads u).args a ha) ?_ (h.excl.update rfl (.inr rfl) (fun _ _ h => by cases h))
  · refine h.mem.recount hm hn rfl rfl rfl rfl (fun _ h => h) ?_ fun c hc => ?_
    · change s.weigh _ _ = _
      rw [h.mem.count r n hm hn, ← hweigh, hin, Nat.add_sub_cancel]
    · change s.weigh _ _ = _
      rw [← hweigh, hout c hc, Nat.add_zero]
  · obtain ⟨p, hp⟩ := hx
    have hne : x ≠ r := by
      rintro rfl
      rw [hn] at hp
      cases hp
    exact ⟨p, (Function.update_of_ne hne ..).trans hp⟩
  · exact ⟨(fun _ h => by cases h), trivial, (fun _ h => absurd rfl h), Finset.sum_const_zero,
      (fun _ _ _ _ _ _ h => by cases h)⟩

omit [DecidableEq T] in
/-- Another call does not use the handle that thread `t` is freeing. -/
theorem Refs.ne_of_free (h : s.Refs w) {a : Addr} {q : Free} (hpc : s.pc t = .free a q)
    (ha : a ∈ (s.pc t).args) {u : T} (hu : u ≠ t) {b : Addr} (hb : b ∈ (s.pc u).args) : b ≠ a := by
  rintro rfl
  exact h.excl t b q hpc ha u hu hb

/-- Thread `t` gives its handle up and needs no handle any more. -/
theorem Refs.release (h : s.Refs w) {a : Addr} {q : Free} (hpc : s.pc t = .free a q)
    (ha : a ∈ (s.pc t).args) {p : Pc} (hp : p.args = []) (hok : s'.PcOk p) (ho : owed p = 0)
    (hrp : ¬p.Reparenting) (hpc' : s'.pc = Function.update s.pc t p) (hm : s'.MemOk w)
    (e : Ext s s') (hh : s'.handle = Function.update s.handle a false) : s'.Refs w := by
  have ht := h.threads t
  have hv : ∀ x ∈ s.arenas, w t x = 0 := by
    have := ht.total
    rw [hpc] at this
    exact Finset.sum_eq_zero_iff.mp this
  have hv' : ∀ x, w t x = 0 := by
    intro x
    by_contra hx
    exact hx (hv x (ht.support x hx).1)
  rw [← Function.update_eq_self t w] at hm ⊢
  refine h.update hpc' hm e (fun u hu b hb => ?_) ?_ (h.excl.update hpc' (.inr hp) fun b r _ hb => ?_)
  · rw [hh, Function.update_of_ne (h.ne_of_free hpc ha hu hb)]
    exact (h.threads u).args b hb
  · refine ⟨fun b hb => ?_, hok, fun x hx => absurd (hv' x) hx, ?_, ?_⟩
    · rw [hp] at hb
      cases hb
    · rw [ho]
      exact Finset.sum_eq_zero fun x _ => hv' x
    · rintro a1 a2 d r1 r2 c2 rfl
      exact absurd trivial hrp
  · rw [hp] at hb
    cases hb

theorem Refs.drop (h : s.Refs w) {a r : Addr} {n : Nat} (hpc : s.pc t = .free a (.cas r n))
    (hr : s.In (s.cls a) r) (hn : s.parentOrCount r = .count n) :
    (((s.setPoc r (.count (n - 1))).release a).goto t .idle).Refs w := by
  have ha : a ∈ (s.pc t).args := by
    rw [hpc]
    exact List.mem_singleton.mpr rfl
  have hh := (h.threads t).args a ha
  have hm := hr.managed hh rfl
  refine h.release (p := .idle) hpc ha rfl trivial rfl id rfl ?_
    ⟨fun x hx => hx.1, fun x y _ _ hc => hc, fun x _ hx => ?_⟩ rfl
  · have hweigh := weigh_release w (h.mem.handle_mem a hh) hh
    refine h.mem.recount hm hn rfl rfl rfl rfl (fun b hb => ?_) ?_ fun c hc => ?_
    · by_cases hba : b = a
      · exact hba ▸ hh
      · exact (Function.update_of_ne hba ..).symm.trans hb
    · have := hweigh (s.cls r)
      rw [if_pos hr.2.symm] at this
      change (s.release a).weigh w (s.cls r) = _
      rw [h.mem.count r n hm hn]
      omega
    · have := hweigh c
      rw [if_neg fun hac => hc (hac.symm.trans hr.2.symm)] at this
      exact this
  · obtain ⟨p, hp⟩ := hx
    have hne : x ≠ r := by
      rintro rfl
      rw [hn] at hp
      cases hp
    exact ⟨p, (Function.update_of_ne hne ..).trans hp⟩

omit [DecidableEq T] in
/-- Above the last reference another handle of the class is left. -/
theorem Refs.drop_live (h : s.Refs w) {a r : Addr} {n : Nat} (hpc : s.pc t = .free a (.cas r n))
    (hr : s.In (s.cls a) r) (hn : s.parentOrCount r = .count n) (hne : n ≠ 1) :
    (s.release a).LiveCls (s.cls a) := by
  have ha : a ∈ (s.pc t).args := by
    rw [hpc]
    exact List.mem_singleton.mpr rfl
  have hh := (h.threads t).args a ha
  have hweigh := weigh_release w (h.mem.handle_mem a hh) hh (s.cls a)
  rw [if_pos rfl] at hweigh
  have hcount := h.mem.count r n (hr.managed hh rfl) hn
  rw [hr.2] at hcount
  -- some arena of the class has weight left
  obtain ⟨x, hx, hxw⟩ := Finset.exists_ne_zero_of_sum_ne_zero
    (show (s.release a).weigh w (s.cls a) ≠ 0 by omega)
  obtain ⟨-, hxc⟩ := Finset.mem_filter.mp hx
  by_cases hxh : (s.release a).handle x = true
  · exact ⟨x, hxh, hxc⟩
  · simp only [weight, hxh, Bool.false_eq_true, if_false, Nat.zero_add] at hxw
    obtain ⟨u, -, hu⟩ := Finset.exists_ne_zero_of_sum_ne_zero hxw
    obtain ⟨-, b, hb, hxb⟩ := (h.threads u).support x hu
    have hut : u ≠ t := by
      rintro rfl
      have htot := (h.threads u).total
      rw [hpc] at htot
      exact hu (Finset.sum_eq_zero_iff.mp htot x ((h.threads u).support x hu).1)
    refine ⟨b, ?_, hxb.symm.trans hxc⟩
    exact (Function.update_of_ne (h.ne_of_free hpc ha hut hb) ..).trans ((h.threads u).args b hb)

omit [DecidableEq T] in
/-- With the last reference the class dies: no other handle is left. -/
theorem Refs.last_handle (h : s.Refs w) {a r : Addr} (hh : s.handle a = true)
    (hr : s.In (s.cls a) r) (hn : s.parentOrCount r = .count 1) :
    ¬(s.release a).LiveCls (s.cls a) := by
  rintro ⟨y, hy, hyc⟩
  have hweigh := weigh_release w (h.mem.handle_mem a hh) hh (s.cls a)
  rw [if_pos rfl, ← hr.2, ← h.mem.count r 1 (hr.managed hh rfl) hn] at hweigh
  have hym : y ∈ s.arenas := by
    refine h.mem.handle_mem y ?_
    by_cases hya : y = a
    · exact hya ▸ hh
    · exact (Function.update_of_ne hya ..).symm.trans hy
  have hle : (s.release a).weight w y ≤ (s.release a).weigh w ((s.release a).cls y) := le_weigh w hym
  rw [hyc, ← hr.2] at hle
  have : 1 ≤ (s.release a).weight w y := by
    simp [weight, hy]
  omega

theorem Refs.last (h : s.Refs w) {a r : Addr} {q : Free} (hpc : s.pc t = .free a q)
    (ha : a ∈ (s.pc t).args) (hr : s.In (s.cls a) r) (hn : s.parentOrCount r = .count 1) :
    ((s.release a).goto t (.free a (.next r))).Refs w := by
  have hh := (h.threads t).args a ha
  refine h.release (p := .free a (.next r)) hpc ha rfl trivial rfl id rfl ?_
    ⟨fun x hx => hx.1, fun x y _ _ hc => hc, fun x _ hx => hx⟩ rfl
  refine h.mem.mono rfl rfl rfl rfl (fun b hb => ?_) fun c hc => ?_
  · by_cases hba : b = a
    · exact hba ▸ hh
    · exact (Function.update_of_ne hba ..).symm.trans hb
  · have hweigh := weigh_release w (h.mem.handle_mem a hh) hh c
    rw [if_neg] at hweigh
    · exact hweigh
    · rintro rfl
      exact h.last_handle hh hr hn hc

/-- **A step keeps the references in order**, if it frees no block of a live class. -/
theorem Move.refs (h : s.Refs w) (m : Move s t s')
    (hd : ∀ a x n, s.pc t = .free a (.blocks x n) → ¬s.LiveCls (s.cls x)) : ∃ w', s'.Refs w' := by
  have hsame : ∀ {p'}, s.Continues (s.pc t) p' → (s.goto t p').Refs w := fun c =>
    h.continue c rfl (h.mem.goto _ _) ⟨fun x hx => hx.1, fun x y _ _ hc => hc, fun x _ hx => hx⟩ rfl
  have hlists : ∀ {a1 a2 d parent l} l', s.pc t = .fuse a1 a2 d (.lists parent l) →
      s.Continues (s.pc t) (.fuse a1 a2 d (.lists parent l')) := by
    intro a1 a2 d parent l l' hpc
    have hok := (h.threads t).locals
    rw [hpc] at hok ⊢
    exact .fuse hok rfl id
  cases m with
  | stay => exact ⟨w, h⟩
  | go _ _ c => exact ⟨w, hsame c⟩
  | @call p' hi _ hok ho hrp ha hf he =>
    have hv : ∀ x, w t x = 0 := by
      intro x
      by_contra hx
      obtain ⟨-, a, ha, -⟩ := (h.threads t).support x hx
      rw [hi] at ha
      cases ha
    refine ⟨_, h.update (v := w t) (p := p') rfl ?_
      ⟨fun x hx => hx.1, fun x y _ _ hc => hc, fun x _ hx => hx⟩
      (fun u _ a ha => (h.threads u).args a ha) ?_ ?_⟩
    · rw [Function.update_eq_self]
      exact h.mem.goto _ _
    · refine ⟨ha, hok.ext ⟨fun x hx => hx.1, fun x y _ _ hc => hc, fun x _ hx => hx⟩
        h.mem.handle_mem ha, fun x hx => absurd (hv x) hx, ?_, ?_⟩
      · rw [ho]
        exact Finset.sum_eq_zero fun x _ => hv x
      · rintro a1 a2 d r1 r2 c2 rfl
        exact absurd trivial hrp
    · intro u a q hu hau v hvu hav
      simp only [goto] at hu hau hav
      by_cases hut : u = t
      · subst hut
        rw [Function.update_self] at hu
        rw [Function.update_of_ne hvu] at hav
        exact hf a q hu v hav
      · rw [Function.update_of_ne hut] at hu hau
        by_cases hvt : v = t
        · subst hvt
          rw [Function.update_self] at hav
          exact he a hav u q hu hau
        · rw [Function.update_of_ne hvt] at hav
          exact h.excl u a q hu hau v hvu hav
  | @split p' x p _ _ c hx hxp hp hlt =>
    refine ⟨w, h.continue c rfl ((h.mem.split hxp hp hlt).goto _ _)
      ⟨fun y hy => hy.1, fun _ _ _ _ hc => hc, fun y _ hy => ?_⟩ rfl⟩
    obtain ⟨q, hq⟩ := hy
    by_cases hyx : y = x
    · exact ⟨p, hyx ▸ Function.update_self ..⟩
    · exact ⟨q, (Function.update_of_ne hyx ..).trans hq⟩
  | addRefs hpc hr hn => exact ⟨_, h.addRefs hpc hr hn⟩
  | reparent hpc hr hn => exact h.reparent hpc hr hn
  | fixup hpc hc hr hn => exact ⟨_, h.fixup hpc hc hr hn⟩
  | drop hpc hr hn _ => exact ⟨w, h.drop hpc hr hn⟩
  | last hpc ha hr hn => exact ⟨w, h.last hpc ha hr hn⟩
  | tail hpc => exact ⟨w, hsame (hlists _ hpc)⟩
  | walkOn hpc => exact ⟨w, hsame (hlists _ hpc)⟩
  | walkEnd hpc => exact ⟨w, hsame (hlists _ hpc)⟩
  | exchange hpc =>
    exact ⟨w, h.continue (hlists _ hpc) rfl (h.mem.mono rfl rfl rfl rfl (fun _ h => h) fun _ _ => rfl)
      ⟨fun x hx => hx.1, fun x y _ _ hc => hc, fun x _ hx => hx⟩ rfl⟩
  | reinstall hpc => exact ⟨w, hsame (hlists _ hpc)⟩
  | spliced hpc => exact ⟨w, hsame (hlists _ hpc)⟩
  | @store a1 a2 parent pt d hpc =>
    have hok := (h.threads t).locals
    rw [hpc] at hok
    have c : s.Continues (s.pc t) (fused a1 a2 d parent) := hpc ▸ .fused hok.1 hok.2 rfl
    exact ⟨w, h.continue c rfl (h.mem.mono rfl rfl rfl rfl (fun _ h => h) fun _ _ => rfl)
      ⟨fun x hx => hx.1, fun x y _ _ hc => hc, fun x _ hx => hx⟩ rfl⟩
  | @freeNext a x hpc =>
    refine ⟨w, hsame ⟨trivial, ?_, .inl ?_, fun b q _ hb => (by cases hb), id⟩⟩ <;> rw [hpc] <;> rfl
  | @freeBlocks a x n hpc hx =>
    have hdx := hd a x n hpc
    have c : s.Continues (s.pc t) (n.elim .idle fun n => .free a (.next n)) := by
      rw [hpc]
      cases n <;> exact ⟨trivial, rfl, .inl rfl, fun b q _ hb => (by cases hb), id⟩
    refine ⟨w, h.continue c rfl ((h.mem.erase hdx _).goto _ _)
      ⟨fun y hy => Finset.mem_erase.mpr ⟨?_, hy.1⟩, fun _ _ _ _ hc => hc, fun _ _ hy => hy⟩ rfl⟩
    rintro rfl
    exact hdx hy.2
  | @new a initial hi ha =>
    have hne : ∀ {x}, x ∈ s.arenas → x ≠ a := fun hx hxa => ha (hxa ▸ hx)
    have hw : ∀ u, w u a = 0 := by
      intro u
      by_contra hu
      exact ha ((h.threads u).support a hu).1
    have e : Ext s (s.new a initial) := by
      refine ⟨fun x hx => Finset.mem_insert_of_mem hx.1, fun x y hx hy hc => ?_, fun x hx hp => ?_⟩
      · simpa [ArenaSys.new, Function.update_of_ne (hne hx), Function.update_of_ne (hne hy)] using hc
      · obtain ⟨p, hp⟩ := hp
        exact ⟨p, (Function.update_of_ne (hne hx.1) ..).trans hp⟩
    refine ⟨w, h.mem.new ha hw initial, fun u => ?_, h.excl⟩
    refine (h.threads u).ext e h.mem.handle_mem fun b hb => ?_
    have hbh := (h.threads u).args b hb
    exact (Function.update_of_ne (hne (h.mem.handle_mem b hbh)) ..).trans hbh

end Preservation

end ArenaSys

end Hpb
