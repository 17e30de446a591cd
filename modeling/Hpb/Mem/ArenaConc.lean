import Hpb.Mem.ArenaSolo
import Mathlib.Logic.Relation

/-!
# Fusing and freeing in parallel

What the invariants say about every state that threads reach, in any interleaving of their atomic
steps. The count of a root is the number of unfreed handles of its class and the excess references
that fusing threads still have to remove; a thread owes them as its `ref_delta` (`owed`) and owes none
when it is idle.
-/

namespace Hpb

namespace ArenaSys

variable {T : Type}

/-- The number of unfreed handles of a class. -/
def handles (s : ArenaSys T) (c : Nat) : Nat :=
  (s.arenas.filter fun x => s.cls x = c ∧ s.handle x = true).card

/-- `p` is the parent of the arena `x`. -/
def ParentOf (s : ArenaSys T) (x p : Addr) : Prop := x ∈ s.arenas ∧ s.parentOrCount x = .parent p

section Counts

variable [Fintype T] {s : ArenaSys T} {w : T → Addr → Nat}

theorem weigh_eq (s : ArenaSys T) (w : T → Addr → Nat) (c : Nat) :
    s.weigh w c = s.handles c + ∑ t, s.excess (w t) c := by
  unfold weigh weight handles excess
  rw [Finset.sum_add_distrib, Finset.sum_comm, ← Finset.sum_filter, Finset.filter_filter,
    ← Finset.card_eq_sum_ones]

/-- A live class has a root. -/
theorem MemOk.exists_root (h : s.MemOk w) {x : Addr} (hx : s.Managed x) :
    ∃ r n, s.In (s.cls x) r ∧ s.parentOrCount r = .count n := by
  induction x using Nat.strong_induction_on with
  | _ x ih =>
    cases hp : s.parentOrCount x with
    | count n => exact ⟨x, n, ⟨hx.1, rfl⟩, hp⟩
    | parent p =>
      obtain ⟨⟨hpm, hpc⟩, hlt⟩ := h.parent x p hx hp
      obtain ⟨r, n, hr, hn⟩ := ih p hlt ⟨hpm, hpc ▸ hx.2⟩
      exact ⟨r, n, hpc ▸ hr, hn⟩

/-- A live class has one root. -/
theorem MemOk.existsUnique_root (h : s.MemOk w) {y : Addr} (hy : s.handle y = true) :
    ∃! r, s.In (s.cls y) r ∧ ∃ n, s.parentOrCount r = .count n := by
  obtain ⟨r, n, hr, hn⟩ := h.exists_root ⟨h.handle_mem y hy, y, hy, rfl⟩
  refine ⟨r, ⟨hr, n, hn⟩, fun r' ⟨hr', m, hm⟩ => ?_⟩
  exact h.root_unique r' r m n (hr'.managed hy rfl) (hr.managed hy rfl) hm hn (hr'.2.trans hr.2.symm)

end Counts

theorem Descends.acyclic {s : ArenaSys T} (h : s.Descends) (x : Addr) :
    ¬Relation.TransGen s.ParentOf x x := by
  have hlt : ∀ y, Relation.TransGen s.ParentOf x y → y < x := by
    intro y hy
    induction hy with
    | single hp => exact h _ hp.1 _ hp.2
    | tail _ hp ih => exact (h _ hp.1 _ hp.2).trans ih
  exact fun hx => (hlt x hx).false

variable [DecidableEq T]

/-- What holds in every reachable state. -/
structure RaceSafe [Fintype T] (s : ArenaSys T) : Prop where
  /-- No legal call or step touches an arena that is not in memory. -/
  accesses : ∀ t act, s.Legal t act → (s.exec t act).isSome = true
  /-- No block is freed while a handle of its class is unfreed. -/
  not_early : ∀ t act s', s.Legal t act → s.exec t act = some s' → ∀ x ∈ s.arenas, x ∉ s'.arenas →
    ∀ y, s.handle y = true → s.cls y ≠ s.cls x
  /-- A class with an unfreed handle has one root. -/
  one_root : ∀ y, s.handle y = true →
    ∃! r, s.In (s.cls y) r ∧ ∃ n, s.parentOrCount r = .count n
  /-- Its count is not below the number of unfreed handles. -/
  handles_le : ∀ y, s.handle y = true → ∀ r n, s.In (s.cls y) r → s.parentOrCount r = .count n →
    s.handles (s.cls y) ≤ n
  /-- What it is above them are excess references that threads owe, in the classes of their handles. -/
  excess_owed : ∃ w : T → Addr → Nat,
    (∀ y, s.handle y = true → ∀ r n, s.In (s.cls y) r → s.parentOrCount r = .count n →
      n = s.handles (s.cls y) + ∑ t, s.excess (w t) (s.cls y)) ∧
    (∀ t, ∑ x ∈ s.arenas, w t x = owed (s.pc t)) ∧
    ∀ t x, w t x ≠ 0 → ∃ a ∈ (s.pc t).args, s.cls x = s.cls a
  /-- A thread pays what it owes: its own steps lead to a state in which it owes nothing. -/
  paid : ∀ t, ∃ n s', s.alone t n = some s' ∧ s'.pc t = .idle ∧ owed (s'.pc t) = 0
  /-- Following parents never comes back. -/
  acyclic : ∀ x, ¬Relation.TransGen s.ParentOf x x
  /-- `hpb_Arena_Fuse` returns (after it began) only when its arguments are in one class. -/
  fused_on_return : ∀ t sp s' a1 a2 d p, s.pc t = .fuse a1 a2 d p → s.step t sp = some s' →
    s'.pc t = .idle → s'.cls a1 = s'.cls a2
  /-- Without calls and handles every arena that was made was freed, and freed once. -/
  all_freed : (∀ t, s.pc t = .idle) → (∀ a, s.handle a = false) →
    s.arenas = ∅ ∧ s.freed.Perm (List.range s.issued)

section Race

variable [Fintype T] {s s' : ArenaSys T} {t : T} {w : T → Addr → Nat} {π : Addr → Option Addr}
  {L : T → List Addr}

omit [Fintype T] in
/-- The only step that takes an arena out of memory frees its block. -/
theorem Move.erased (m : Move s t s') {x : Addr} (hx : x ∈ s.arenas) (hx' : x ∉ s'.arenas) :
    ∃ a n, s.pc t = .free a (.blocks x n) := by
  cases m with
  | @freeBlocks a y n hpc =>
    obtain rfl : x = y := by
      by_contra hne
      exact hx' (Finset.mem_erase.mpr ⟨hne, hx⟩)
    exact ⟨a, n, hpc⟩
  | new => exact absurd (Finset.mem_insert_of_mem hx) hx'
  | _ => exact absurd hx hx'

/-- A fuse that returns has its arguments in one class. -/
theorem Refs.fused_on_return (h : s.Refs w) {sp : Bool} {a1 a2 : Addr} {d : Nat} {p : Fuse}
    (hpc : s.pc t = .fuse a1 a2 d p) (he : s.step t sp = some s') (hi : s'.pc t = .idle) :
    s'.cls a1 = s'.cls a2 := by
  have hok := (h.threads t).locals
  rw [hpc] at hok
  simp only [ArenaSys.step, hpc] at he
  cases p with
  | find1 f =>
    simp only [stepFuse, Option.bind_eq_bind, Option.bind_eq_some_iff] at he
    obtain ⟨⟨s₁, f' | ⟨r, n⟩⟩, -, he⟩ := he <;> cases he <;>
      exact absurd ((Function.update_self ..).symm.trans hi) (by simp)
  | find2 r1 c1 f =>
    simp only [stepFuse, Option.bind_eq_bind, Option.bind_eq_some_iff] at he
    obtain ⟨⟨s₁, r⟩, hs, he⟩ := he
    have h2 : s.handle a2 = true := (h.threads t).args a2 (by simp [hpc, Pc.args])
    cases h.mem.findMove ⟨a2, h2, rfl⟩ hok.2 hs with
    | go =>
      cases he
      exact absurd ((Function.update_self ..).symm.trans hi) (by simp)
    | found hr =>
      simp only at he
      split at he
      · rename_i heq
        subst heq
        cases he
        exact hok.1.2.symm.trans hr.2
      · split at he <;> cases he <;>
          exact absurd ((Function.update_self ..).symm.trans hi) (by simp)
    | split =>
      cases he
      exact absurd ((Function.update_self ..).symm.trans hi) (by simp)
  | addRefs r1 c1 r2 c2 =>
    simp only [stepFuse, Option.bind_eq_bind, Option.bind_eq_some_iff] at he
    obtain ⟨poc, -, he⟩ := he
    split at he <;> cases he <;>
      exact absurd ((Function.update_self ..).symm.trans hi) (by simp [retry])
  | reparent r1 r2 c2 =>
    simp only [stepFuse, Option.bind_eq_bind, Option.bind_eq_some_iff] at he
    obtain ⟨poc, -, he⟩ := he
    split at he <;> cases he <;>
      exact absurd ((Function.update_self ..).symm.trans hi) (by simp [retry])
  | lists parent l =>
    have hcls : s'.cls = s.cls := by
      cases move_lists hpc (by simpa [ArenaSys.step] using he) <;> first | rfl | simp_all
    rw [hcls]
    exact hok.1
  | fixup r =>
    simp only [stepFuse, Option.bind_eq_bind, Option.bind_eq_some_iff] at he
    obtain ⟨poc, -, he⟩ := he
    cases poc <;> cases he <;>
      exact absurd ((Function.update_self ..).symm.trans hi) (by simp [retry])
  | fixupCas r n =>
    simp only [stepFuse, Option.bind_eq_bind, Option.bind_eq_some_iff] at he
    obtain ⟨poc, -, he⟩ := he
    split at he <;> cases he
    · exact hok.1
    · exact absurd ((Function.update_self ..).symm.trans hi) (by simp [retry])

/-- No legal call or step touches an arena that is not in memory. -/
theorem Safe.exec_isSome (h : s.Safe) (t : T) (act : Act) : (s.exec t act).isSome = true := by
  cases act with
  | new => rfl
  | fuse a1 a2 =>
    simp only [exec]
    split
    · rfl
    · split <;> rfl
  | free => rfl
  | step sp => exact h.step_isSome t sp

omit [DecidableEq T] in
/-- When nothing is going on and no handle is left, all arenas have been freed. -/
theorem Inv.all_freed (h : s.Inv w π L) (hi : ∀ t, s.pc t = .idle) (hh : ∀ a, s.handle a = false) :
    s.arenas = ∅ ∧ s.freed.Perm (List.range s.issued) := by
  have hempty : s.arenas = ∅ := by
    refine Finset.eq_empty_of_forall_notMem fun y hy => ?_
    obtain ⟨t, ht⟩ := h.frees.complete y hy fun ⟨_, z, hz, _⟩ => by simp [hh z] at hz
    have hp := h.frees.path t
    rw [hi t] at hp
    cases hL : L t with
    | nil =>
      rw [hL] at ht
      cases ht
    | cons x l =>
      rw [hL] at hp
      cases hp.1
  refine ⟨hempty, (List.perm_ext_iff_of_nodup h.history.freed_nodup List.nodup_range).mpr fun n => ?_⟩
  have hn := h.history.issued n
  rw [hempty] at hn
  rw [List.mem_range, hn]
  simp

end Race

end ArenaSys

end Hpb
