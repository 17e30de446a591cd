import Hpb.Hash.RemoveIter

/-!
# One entry less (`hpb_strtable_removeiter`, `hpb_inttable_removeiter`)

An entry is taken out of the table through its slot. The slot that leads to it is looked for among all slots,
and `rm` leaves the link of a slot that it empties as it is. So the search may stop at an empty slot, and the
entry before on the chain keeps its link to the emptied slot. Nothing leads to the head of a chain, and what is
behind it is not moved.

`Unlinks` says that neither happens; then the table is left with all its other entries (`removeIter_run`).
-/

namespace Hpb

namespace Table

variable {K V : Type} {hash : K → Nat} {t : Table K V} {i j : Nat} {k : K} {v : V}

/-- The entry in slot `i` can be taken out: the first slot that leads to it is in use, or it is alone on its
chain. -/
def Unlinks (t : Table K V) (i : Nat) : Prop :=
  (∃ j, t.pointingTo i = some j ∧ (keyAt t.entries j).isSome) ∨
    nextAt t.entries i = none ∧ ∀ j, (keyAt t.entries j).isSome → nextAt t.entries j ≠ some i

section Chains

variable {main : K → Nat} {es : List (TabEnt K V)} {e x : TabEnt K V} {p : Nat} {l : List Nat}

/-- The link of an empty slot does not matter. -/
theorem Chained.set_empty (hc : Chained main es) (hi : keyAt es i = none) (hx : x.key = none) :
    Chained main (es.set i x) := by
  intro j k hk
  have hji : i ≠ j := by
    rintro rfl
    have hlt := lt_of_keyAt hk
    rw [List.length_set] at hlt
    rw [keyAt_set_self hlt, hx] at hk
    cases hk
  rw [keyAt_set_ne hji] at hk
  obtain ⟨l, hl, hj⟩ := hc j k hk
  exact ⟨l, hl.set (hl.not_mem_of_empty hi), hj⟩

/-- A slot in use is followed on its chain by the one that it leads to. -/
theorem Chained.split_next (hc : Chained main es) {kj : K} (hj : keyAt es j = some kj)
    (hnext : nextAt es j = some i) : ∃ l₁ l₂, IsChain main es (main kj) (l₁ ++ j :: i :: l₂) := by
  obtain ⟨l, hl, hjl⟩ := hc j kj hj
  obtain ⟨l₁, l₂, rfl⟩ := List.append_of_mem hjl
  obtain ⟨_, -, rfl, hrest⟩ := LinkedPath.append_iff.mp hl.1
  rw [hnext] at hrest
  cases l₂ with
  | nil => cases hrest
  | cons i' l₂ =>
    obtain rfl : i = i' := Option.some.inj hrest.1
    exact ⟨l₁, l₂, hl⟩

/-- An entry that no other one leads to is in its main position. -/
theorem Chained.alone (hc : Chained main es) (hk : keyAt es i = some k)
    (hnone : ∀ j, (keyAt es j).isSome → nextAt es j ≠ some i) : main k = i := by
  obtain ⟨l, hl, hil⟩ := hc i k hk
  obtain ⟨l₁, l₂, rfl⟩ := List.append_of_mem hil
  rcases List.eq_nil_or_concat l₁ with rfl | ⟨l₀, c, rfl⟩
  · exact Option.some.inj hl.1.1
  · rw [List.concat_eq_append, List.append_assoc] at hl
    obtain ⟨_, -, rfl, hci, -⟩ := LinkedPath.append_iff.mp hl.1
    obtain ⟨kc, hkc, -⟩ := hl.2 c (by simp)
    exact absurd hci (hnone c (by rw [hkc]; rfl))

end Chains

/-- The entries after one was unlinked and its slot emptied: only this slot has lost its key. -/
structure Emptied (i : Nat) (es es' : List (TabEnt K V)) : Prop where
  length : es'.length = es.length
  key : ∀ j, keyAt es' j = if j = i then none else keyAt es j
  val : ∀ j : Nat, (es'[j]?).map TabEnt.val = (es[j]?).map TabEnt.val

/-- The link of a slot `j` may change as well. -/
theorem emptied_set_set {es : List (TabEnt K V)} {je ie : TabEnt K V} {x y : Option Nat} (hj : es[j]? = some je)
    (hi : es[i]? = some ie) :
    Emptied i es ((es.set j { je with next := x }).set i { ie with key := none, next := y }) := by
  have hilt := (List.getElem?_eq_some_iff.mp hi).1
  have hjlt := (List.getElem?_eq_some_iff.mp hj).1
  refine ⟨by simp, fun m => ?_, fun m => ?_⟩
  · by_cases hm : i = m
    · subst hm
      rw [keyAt_set_self (by simpa using hilt), if_pos rfl]
    · rw [keyAt_set_ne hm, if_neg (Ne.symm hm)]
      by_cases hjm : j = m
      · subst hjm
        rw [keyAt_set_self hjlt, keyAt_of_get hj]
      · rw [keyAt_set_ne hjm]
  · by_cases hm : i = m
    · subst hm
      rw [List.getElem?_set_self (by simpa using hilt), hi]
      rfl
    · rw [List.getElem?_set_ne hm]
      by_cases hjm : j = m
      · subst hjm
        rw [List.getElem?_set_self hjlt, hj]
        rfl
      · rw [List.getElem?_set_ne hjm]

theorem emptied_set {es : List (TabEnt K V)} {ie : TabEnt K V} {y : Option Nat} (hi : es[i]? = some ie) :
    Emptied i es (es.set i { ie with key := none, next := y }) := by
  have hilt := (List.getElem?_eq_some_iff.mp hi).1
  refine ⟨by simp, fun m => ?_, fun m => ?_⟩
  · by_cases hm : i = m
    · subst hm
      rw [keyAt_set_self hilt, if_pos rfl]
    · rw [keyAt_set_ne hm, if_neg (Ne.symm hm)]
  · by_cases hm : i = m
    · subst hm
      rw [List.getElem?_set_self hilt, hi]
      rfl
    · rw [List.getElem?_set_ne hm]

/-- The pairs of the other slots are as before. -/
theorem Emptied.pairs_perm {es es' : List (TabEnt K V)} (h : Emptied i es es') {e : TabEnt K V}
    (he : es[i]? = some e) (hk : e.key = some k) :
    (es.filterMap TabEnt.pair).Perm ((k, e.val) :: es'.filterMap TabEnt.pair) := by
  have hilt := (List.getElem?_eq_some_iff.mp he).1
  have hp := filterMap_set_perm TabEnt.pair { e with key := none } he
  have hcongr : es'.filterMap TabEnt.pair = (es.set i { e with key := none }).filterMap TabEnt.pair := by
    refine filterMap_pair_congr (fun j => ?_) fun j => ?_
    · rw [h.key j]
      by_cases hj : i = j
      · subst hj
        rw [keyAt_set_self hilt, if_pos rfl]
      · rw [keyAt_set_ne hj, if_neg (Ne.symm hj)]
    · rw [h.val j]
      by_cases hj : i = j
      · subst hj
        rw [he, List.getElem?_set_self hilt]
        rfl
      · rw [List.getElem?_set_ne hj]
  have hpair : e.pair = some (k, e.val) := by simp [TabEnt.pair, hk]
  rw [hpair] at hp
  rw [hcongr]
  exact hp.symm

/-- Behind the slot the pairs are the same. -/
theorem Emptied.drop_pairs {es es' : List (TabEnt K V)} (h : Emptied i es es') {n : Nat} (hn : i < n) :
    (es'.drop n).filterMap TabEnt.pair = (es.drop n).filterMap TabEnt.pair := by
  refine filterMap_pair_congr (fun j => ?_) fun j => ?_
  · have := h.key (n + j)
    rw [if_neg (by omega)] at this
    simpa only [keyAt, List.getElem?_drop] using this
  · rw [List.getElem?_drop, List.getElem?_drop]
    exact h.val (n + j)

/-- **An entry that can be unlinked is taken out, and nothing else.** -/
theorem removeIter_run (h : t.Inv hash) {e : TabEnt K V} (he : t.entries[i]? = some e) (hk : e.key = some k)
    (hu : t.Unlinks i) :
    ∃ t', t.removeIter i = some t' ∧ t'.Inv hash ∧ t.pairs.Perm ((k, e.val) :: t'.pairs) ∧
      Emptied i t.entries t'.entries ∧ SameShape t t' ∧ t'.count + 1 = t.count := by
  have hki : keyAt t.entries i = some k := by rw [keyAt_of_get he, hk]
  have hilt := lt_of_keyAt hki
  -- what is left to show of the entries that are left
  suffices hes : ∃ es, t.unlink i e = some es ∧ Emptied i t.entries (es.set i { e with key := none, next := none }) ∧
      Chained (fun k => t.getEntry (hash k)) (es.set i { e with key := none, next := none }) by
    obtain ⟨es, hunlink, hempty, hchain⟩ := hes
    have hp := hempty.pairs_perm he hk
    have hcount : t.count = (List.filterMap TabEnt.pair (es.set i { e with key := none, next := none })).length + 1 := by
      rw [h.count_eq, pairs, hp.length_eq, List.length_cons]
    refine ⟨_, by simp [removeIter, he, hunlink], h.sub hempty.length hchain hp, hp, hempty, ⟨rfl, rfl, rfl⟩, ?_⟩
    change t.count - 1 + 1 = t.count
    omega
  unfold Table.unlink
  obtain ⟨j, hj, hused⟩ | ⟨hnext, hnone⟩ := hu
  · -- the entry before is found
    rw [hj]
    obtain ⟨kj, hkj⟩ := Option.isSome_iff_exists.mp hused
    obtain ⟨je, hje, -⟩ := get_of_keyAt hkj
    have hjn : nextAt t.entries j = some i := by simpa using List.find?_some hj
    obtain ⟨l₁, l₂, hl⟩ := h.chained.split_next hkj hjn
    have hne : j ≠ i := by
      have := hl.1.nodup
      simp only [List.nodup_append, List.nodup_cons, List.mem_cons, not_or] at this
      exact this.2.1.1.1
    refine ⟨t.entries.set j { je with next := e.next }, by simp [hje], emptied_set_set hje he, ?_⟩
    have hc := h.chained.unlink_next hl hje he
    have hkey : keyAt ((t.entries.set i { e with key := none }).set j { je with next := e.next }) i = none := by
      rw [keyAt_set_ne hne, keyAt_set_self hilt]
    have := hc.set_empty (x := { e with key := none, next := none }) hkey rfl
    rwa [List.set_comm _ _ hne, List.set_set, List.set_comm _ _ (Ne.symm hne)] at this
  · -- the entry is alone on its chain
    have hmain := h.chained.alone hki hnone
    have hen : e.next = none := by rw [← hnext, nextAt_of_get he]
    have hc : ∀ x : TabEnt K V, x.key = none → Chained (fun k => t.getEntry (hash k)) (t.entries.set i x) := fun x hx =>
      h.chained.unlink_single he hk hmain hen hx
    cases hj : t.pointingTo i with
    | none => exact ⟨_, rfl, emptied_set he, hc _ rfl⟩
    | some j =>
      have hjn : nextAt t.entries j = some i := by simpa using List.find?_some hj
      obtain ⟨je, hje, -⟩ := Option.bind_eq_some_iff.mp hjn
      have hjk : keyAt t.entries j = none := by
        by_contra hused
        exact hnone j (Option.isSome_iff_ne_none.mpr hused) hjn
      have hne : j ≠ i := by
        rintro rfl
        rw [hki] at hjk
        cases hjk
      refine ⟨t.entries.set j { je with next := e.next }, by simp [hje], emptied_set_set hje he, ?_⟩
      have hkj : keyAt (t.entries.set i { e with key := none, next := none }) j = none := by
        rw [keyAt_set_ne (Ne.symm hne), hjk]
      have := (hc { e with key := none, next := none } rfl).set_empty (x := { je with next := e.next }) hkj
        (by rw [← keyAt_of_get hje, hjk])
      rwa [List.set_comm _ _ (Ne.symm hne)] at this

end Table

end Hpb
