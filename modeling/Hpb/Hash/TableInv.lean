import Hpb.Hash.Table
import Hpb.Lib.LinkedPath
import Mathlib.Data.List.Perm.Subperm

/-!
# The invariant of the base hash table

Every key is on the chain that starts at its main position, and every node of that chain has the
same main position (`Chained`). The chains are `LinkedPath`s through the `next` fields; slots that
are on no chain are the empty ones, and their stale `next` fields do not matter.

* `Table.Inv`: the chains, the sizes, the count, and no key twice,
* `Table.insert_spec`, `Table.rm_spec`, `Table.lookup_spec`, `Table.forEach_spec`: what each
  operation does to `Table.pairs`, the keys and values in the order of their slots.
-/

namespace Hpb

/-- The key and the value of an entry in use. -/
def TabEnt.pair {K V : Type} (e : TabEnt K V) : Option (K × V) := e.key.map (·, e.val)

namespace Table

variable {K V : Type}

/-- The key in slot `i`. -/
def keyAt (es : List (TabEnt K V)) (i : Nat) : Option K := (es[i]?).bind (·.key)

/-- The `next` field of slot `i`. -/
def nextAt (es : List (TabEnt K V)) (i : Nat) : Option Nat := (es[i]?).bind (·.next)

/-- `l` is a chain from `p` to its end, of entries whose main position is `p`. -/
def IsChain (main : K → Nat) (es : List (TabEnt K V)) (p : Nat) (l : List Nat) : Prop :=
  LinkedPath (nextAt es) (some p) l none ∧ ∀ i ∈ l, ∃ k, keyAt es i = some k ∧ main k = p

/-- Every key is on the chain of its main position. -/
def Chained (main : K → Nat) (es : List (TabEnt K V)) : Prop :=
  ∀ i k, keyAt es i = some k → ∃ l, IsChain main es (main k) l ∧ i ∈ l

section Entries

variable {main : K → Nat} {es es' : List (TabEnt K V)} {i j p n : Nat} {k : K} {l : List Nat}
  {e x : TabEnt K V}

theorem keyAt_of_get (h : es[i]? = some e) : keyAt es i = e.key := by simp [keyAt, h]

theorem nextAt_of_get (h : es[i]? = some e) : nextAt es i = e.next := by simp [nextAt, h]

theorem get_of_keyAt (h : keyAt es i = some k) : ∃ e, es[i]? = some e ∧ e.key = some k :=
  Option.bind_eq_some_iff.mp h

theorem lt_of_keyAt (h : keyAt es i = some k) : i < es.length := by
  obtain ⟨e, he, -⟩ := get_of_keyAt h
  exact (List.getElem?_eq_some_iff.mp he).1

theorem keyAt_congr (h : es[i]? = es'[i]?) : keyAt es i = keyAt es' i := by rw [keyAt, h, keyAt]

theorem nextAt_congr (h : es[i]? = es'[i]?) : nextAt es i = nextAt es' i := by
  rw [nextAt, h, nextAt]

theorem IsChain.congr (h : IsChain main es p l) (heq : ∀ i ∈ l, es[i]? = es'[i]?) :
    IsChain main es' p l := by
  refine ⟨h.1.congr fun i hi => nextAt_congr (heq i hi), fun i hi => ?_⟩
  obtain ⟨k, hk, hm⟩ := h.2 i hi
  exact ⟨k, by rwa [← keyAt_congr (heq i hi)], hm⟩

/-- The slots a chain does not use may change. -/
theorem IsChain.set (h : IsChain main es p l) (hj : j ∉ l) : IsChain main (es.set j x) p l :=
  h.congr fun i hi => by
    rw [List.getElem?_set_ne]
    rintro rfl
    exact hj hi

theorem IsChain.not_mem_of_empty (h : IsChain main es p l) (hj : keyAt es j = none) : j ∉ l := by
  intro hm
  obtain ⟨k, hk, -⟩ := h.2 j hm
  rw [hj] at hk
  cases hk

theorem IsChain.not_mem_of_main (h : IsChain main es p l) (hj : keyAt es j = some k)
    (hne : main k ≠ p) : j ∉ l := by
  intro hm
  obtain ⟨k', hk', rfl⟩ := h.2 j hm
  rw [hj] at hk'
  cases hk'
  exact hne rfl

/-- A chain in use starts at a slot whose key belongs there. -/
theorem Chained.head (hc : Chained main es) (h : keyAt es i = some k) :
    ∃ k', keyAt es (main k) = some k' ∧ main k' = main k := by
  obtain ⟨l, hl, hi⟩ := hc i k h
  exact hl.2 _ (hl.1.start_mem (List.ne_nil_of_mem hi))

/-- A chain has at most one node for each slot, so the fuel of the walks is enough. -/
theorem IsChain.length_le (h : IsChain main es p l) : l.length ≤ es.length := by
  have hsub : l ⊆ List.range es.length := fun i hi => by
    obtain ⟨k, hk, -⟩ := h.2 i hi
    exact List.mem_range.mpr (lt_of_keyAt hk)
  have := (List.subperm_of_subset h.1.nodup hsub).length_le
  rwa [List.length_range] at this

theorem keyAt_set_self (h : j < es.length) : keyAt (es.set j x) j = x.key := by
  simp [keyAt, h]

theorem keyAt_set_ne (h : j ≠ i) : keyAt (es.set j x) i = keyAt es i := by
  simp [keyAt, h]

theorem nextAt_set_self (h : j < es.length) : nextAt (es.set j x) j = x.next := by
  simp [nextAt, h]

theorem nextAt_set_ne (h : j ≠ i) : nextAt (es.set j x) i = nextAt es i := by
  simp [nextAt, h]

/-- A single entry in its main position that ends there is a chain. -/
theorem IsChain.single (h : es[p]? = some e) (hk : e.key = some k) (hm : main k = p)
    (hn : e.next = none) : IsChain main es p [p] := by
  refine ⟨⟨rfl, ?_⟩, fun i hi => ?_⟩
  · rw [nextAt_of_get h, hn]; rfl
  · obtain rfl := List.mem_singleton.mp hi
    exact ⟨k, by rw [keyAt_of_get h, hk], hm⟩

/-- Every key of the chain of `p` is on the one list that starts at `p`. -/
theorem Chained.mem_chain (hc : Chained main es) (hl : IsChain main es p l)
    (hk : keyAt es i = some k) (hm : main k = p) : i ∈ l := by
  obtain ⟨l', hl', hi⟩ := hc i k hk
  rw [hm] at hl'
  rwa [hl'.1.unique hl.1] at hi

/-- The chain of `p`, when it is in use, is `p` and a rest that avoids `p`. -/
theorem Chained.chain_cons (hc : Chained main es) (hk : keyAt es p = some k) (hm : main k = p) :
    ∃ r, IsChain main es p (p :: r) ∧ p ∉ r := by
  obtain ⟨l, hl, hp⟩ := hc p k hk
  rw [hm] at hl
  cases l with
  | nil => cases hp
  | cons q r =>
    obtain ⟨hq, -⟩ := hl.1
    cases hq
    exact ⟨r, hl, (List.nodup_cons.mp hl.1.nodup).1⟩

theorem IsChain.main_eq (h : IsChain main es p l) (hi : i ∈ l) (hk : keyAt es i = some k) :
    main k = p := by
  obtain ⟨k', hk', hm⟩ := h.2 i hi
  rw [hk] at hk'
  cases hk'
  exact hm

/-- **One chain is replaced**: only the slots in `D` change, those are empty or on the chain of `p`
before and after, and no unchanged slot falls off that chain. -/
theorem Chained.relink (hc : Chained main es) {D : Nat → Prop} (hl : IsChain main es p l)
    (l' : List Nat) (hl' : l' ≠ [] → IsChain main es' p l') (hsame : ∀ i, ¬D i → es[i]? = es'[i]?)
    (hbefore : ∀ i, D i → keyAt es i = none ∨ i ∈ l)
    (hafter : ∀ i, D i → keyAt es' i = none ∨ i ∈ l') (hkeep : ∀ i ∈ l, ¬D i → i ∈ l') :
    Chained main es' := by
  have hD : ∀ i k, D i → keyAt es' i = some k → i ∈ l' := fun i k hi hk =>
    (hafter i hi).resolve_left (by simp [hk])
  intro i k hk
  by_cases hm : main k = p
  · have hi : i ∈ l' := by
      by_cases hd : D i
      · exact hD i k hd hk
      · rw [← keyAt_congr (hsame i hd)] at hk
        exact hkeep i (hc.mem_chain hl hk hm) hd
    rw [hm]
    exact ⟨l', hl' (List.ne_nil_of_mem hi), hi⟩
  · -- a key of another chain: neither it nor its chain is in `D`
    have hd : ¬D i := fun hd => by
      have hi := hD i k hd hk
      exact hm ((hl' (List.ne_nil_of_mem hi)).main_eq hi hk)
    rw [← keyAt_congr (hsame i hd)] at hk
    obtain ⟨l₂, hl₂, hi⟩ := hc i k hk
    refine ⟨l₂, hl₂.congr fun j hj => hsame j fun hdj => ?_, hi⟩
    obtain ⟨k₂, hk₂, hm₂⟩ := hl₂.2 j hj
    have hjl := (hbefore j hdj).resolve_left (by simp [hk₂])
    exact hm (hm₂ ▸ hl.main_eq hjl hk₂)

/-- Insertion, first case: the main position is empty. -/
theorem Chained.put (hc : Chained main es) (hlt : p < es.length) (hp : keyAt es p = none)
    (hx : x.key = some k) (hn : x.next = none) (hm : main k = p) :
    Chained main (es.set p x) := by
  intro i k' hk'
  by_cases hi : p = i
  · subst hi
    rw [keyAt_set_self hlt, hx] at hk'
    cases hk'
    rw [hm]
    exact ⟨[p], IsChain.single (by simp [hlt]) hx hm hn, List.mem_singleton.mpr rfl⟩
  · rw [keyAt_set_ne hi] at hk'
    obtain ⟨l, hl, hil⟩ := hc i k' hk'
    exact ⟨l, hl.set (hl.not_mem_of_empty hp), hil⟩

/-- Insertion, second case: the colliding entry is in its main position, and the new entry `n` is
linked in right after it. -/
theorem Chained.link (hc : Chained main es) {k₀ : K} (hp : es[p]? = some e)
    (he : e.key = some k₀) (hm₀ : main k₀ = p) (hnl : n < es.length) (hnk : keyAt es n = none)
    (hx : x.key = some k) (hxn : x.next = e.next) (hm : main k = p) :
    Chained main ((es.set n x).set p { e with next := some n }) := by
  have hpl : p < es.length := (List.getElem?_eq_some_iff.mp hp).1
  have hpk : keyAt es p = some k₀ := by rw [keyAt_of_get hp, he]
  have hpn : p ≠ n := by
    rintro rfl
    rw [hpk] at hnk
    cases hnk
  obtain ⟨r, hl, hpr⟩ := hc.chain_cons hpk hm₀
  have hnr : n ∉ p :: r := hl.not_mem_of_empty hnk
  have hsame : ∀ i, ¬(i = p ∨ i = n) →
      es[i]? = ((es.set n x).set p { e with next := some n })[i]? := fun i hi => by
    rw [not_or] at hi
    rw [List.getElem?_set_ne (Ne.symm hi.1), List.getElem?_set_ne (Ne.symm hi.2)]
  have hr : ∀ i ∈ r, ¬(i = p ∨ i = n) := by
    rintro i hi (rfl | rfl)
    exacts [hpr hi, hnr (List.mem_cons_of_mem _ hi)]
  refine hc.relink hl (p :: n :: r) (fun _ => ⟨⟨rfl, ?_, ?_⟩, fun i hi => ?_⟩) hsame ?_ ?_ ?_
  · rw [nextAt_set_self (by simpa using hpl)]
  · rw [nextAt_set_ne hpn, nextAt_set_self hnl, hxn, ← nextAt_of_get hp]
    exact hl.1.2.congr fun i hi => nextAt_congr (hsame i (hr i hi))
  · simp only [List.mem_cons] at hi
    obtain rfl | rfl | hi := hi
    · exact ⟨k₀, by rw [keyAt_set_self (by simpa using hpl), he], hm₀⟩
    · exact ⟨k, by rw [keyAt_set_ne hpn, keyAt_set_self hnl, hx], hm⟩
    · obtain ⟨k', hk', hm'⟩ := hl.2 i (List.mem_cons_of_mem _ hi)
      exact ⟨k', by rw [← keyAt_congr (hsame i (hr i hi))]; exact hk', hm'⟩
  · rintro i (rfl | rfl)
    exacts [.inr List.mem_cons_self, .inl hnk]
  · rintro i (rfl | rfl) <;> simp
  · intro i hi _
    simp only [List.mem_cons] at hi ⊢
    exact hi.imp_right .inr

/-- Insertion, third case, first half: the entry `e` at `p`, a node of another chain after `c`, moves
to the empty slot `n`. What `p` holds afterwards does not matter here. -/
theorem Chained.move (hc : Chained main es) {c q : Nat} {k₀ : K} {ec : TabEnt K V} {l₁ l₂ : List Nat}
    (hp : es[p]? = some e) (he : e.key = some k₀) (hl : IsChain main es q (l₁ ++ c :: p :: l₂))
    (hec : es[c]? = some ec) (hnl : n < es.length) (hnk : keyAt es n = none) (hx : x.key = none) :
    Chained main (((es.set n e).set c { ec with next := some n }).set p x) := by
  have hpl : p < es.length := (List.getElem?_eq_some_iff.mp hp).1
  have hcl : c < es.length := (List.getElem?_eq_some_iff.mp hec).1
  have hn : n ∉ l₁ ++ c :: p :: l₂ := hl.not_mem_of_empty hnk
  have hd := hl.1.nodup
  simp only [List.nodup_append, List.nodup_cons, List.mem_cons, List.mem_append, not_or] at hd hn
  obtain ⟨-, ⟨⟨hcp, hcl₂⟩, hpl₂, -⟩, hl₁⟩ := hd
  obtain ⟨hnl₁, hnc, hnp, hnl₂⟩ := hn
  have hsame : ∀ i, ¬(i = p ∨ i = c ∨ i = n) →
      es[i]? = (((es.set n e).set c { ec with next := some n }).set p x)[i]? := fun i hi => by
    simp only [not_or] at hi
    rw [List.getElem?_set_ne (Ne.symm hi.1), List.getElem?_set_ne (Ne.symm hi.2.1),
      List.getElem?_set_ne (Ne.symm hi.2.2)]
  have hout : ∀ i, i ∈ l₁ ∨ i ∈ l₂ → ¬(i = p ∨ i = c ∨ i = n) := by
    rintro i (hi | hi) (rfl | rfl | rfl)
    exacts [hl₁ _ hi _ (.inr (.inl rfl)) rfl, hl₁ _ hi _ (.inl rfl) rfl, hnl₁ hi, hpl₂ hi, hcl₂ hi,
      hnl₂ hi]
  have hck : ∃ k, ec.key = some k ∧ main k = q := by
    obtain ⟨k, hk, hm⟩ := hl.2 c (by simp)
    exact ⟨k, by rw [← hk, keyAt_of_get hec], hm⟩
  have hmk : main k₀ = q := hl.main_eq (i := p) (by simp) (by rw [keyAt_of_get hp, he])
  obtain ⟨y, ps, rfl, hcn, pt⟩ := LinkedPath.append_iff.mp hl.1
  refine hc.relink hl (l₁ ++ c :: n :: l₂) (fun _ => ⟨?_, fun i hi => ?_⟩) hsame ?_ ?_ ?_
  · refine LinkedPath.append_iff.mpr ⟨some c, ?_, rfl, ?_, ?_⟩
    · exact ps.congr fun i hi => nextAt_congr (hsame i (hout i (.inl hi)))
    · rw [nextAt_set_ne (Ne.symm hcp), nextAt_set_self (by simpa using hcl)]
    · rw [nextAt_set_ne (Ne.symm hnp), nextAt_set_ne (Ne.symm hnc), nextAt_set_self hnl,
        ← nextAt_of_get hp]
      exact pt.congr fun i hi => nextAt_congr (hsame i (hout i (.inr hi)))
  · simp only [List.mem_append, List.mem_cons] at hi
    have hrest : i ∈ l₁ ∨ i ∈ l₂ → ∃ k,
        keyAt (((es.set n e).set c { ec with next := some n }).set p x) i = some k ∧ main k = q := by
      intro hi
      rw [← keyAt_congr (hsame i (hout i hi))]
      exact hl.2 i (by simp only [List.mem_append, List.mem_cons]; tauto)
    obtain hi | rfl | rfl | hi := hi
    · exact hrest (.inl hi)
    · obtain ⟨k, hk, hm⟩ := hck
      exact ⟨k, by rw [keyAt_set_ne (Ne.symm hcp), keyAt_set_self (by simpa using hcl), hk], hm⟩
    · refine ⟨k₀, ?_, hmk⟩
      rw [keyAt_set_ne (Ne.symm hnp), keyAt_set_ne (Ne.symm hnc), keyAt_set_self hnl, he]
    · exact hrest (.inr hi)
  · rintro i (rfl | rfl | rfl)
    exacts [.inr (by simp), .inr (by simp), .inl hnk]
  · rintro i (rfl | rfl | rfl)
    exacts [.inl (by rw [keyAt_set_self (by simpa using hpl), hx]), .inr (by simp), .inr (by simp)]
  · intro i hi hne
    simp only [List.mem_append, List.mem_cons] at hi ⊢
    tauto

/-- Removal at the head of a chain with a second node `m`: it moves into the head slot. -/
theorem Chained.unlink_head (hc : Chained main es) {m : Nat} {me : TabEnt K V} (hp : es[p]? = some e)
    (he : e.key = some k) (hm : main k = p) (hn : e.next = some m) (hme : es[m]? = some me) :
    Chained main ((es.set p me).set m { me with key := none }) := by
  have hpl : p < es.length := (List.getElem?_eq_some_iff.mp hp).1
  have hml : m < es.length := (List.getElem?_eq_some_iff.mp hme).1
  obtain ⟨r, hl, hpr⟩ := hc.chain_cons (by rw [keyAt_of_get hp, he]) hm
  obtain ⟨r, rfl⟩ : ∃ r', r = m :: r' := by
    have hpath := hl.1.2
    rw [nextAt_of_get hp, hn] at hpath
    cases r with
    | nil => cases hpath
    | cons q r =>
      obtain ⟨hq, -⟩ := hpath
      cases hq
      exact ⟨r, rfl⟩
  simp only [List.mem_cons, not_or] at hpr
  have hmr : m ∉ r := by
    have := hl.1.nodup
    simp only [List.nodup_cons] at this
    exact this.2.1
  have hsame : ∀ i, ¬(i = p ∨ i = m) →
      es[i]? = ((es.set p me).set m { me with key := none })[i]? := fun i hi => by
    rw [not_or] at hi
    rw [List.getElem?_set_ne (Ne.symm hi.2), List.getElem?_set_ne (Ne.symm hi.1)]
  have hr : ∀ i ∈ r, ¬(i = p ∨ i = m) := by
    rintro i hi (rfl | rfl)
    exacts [hpr.2 hi, hmr hi]
  refine hc.relink hl (p :: r) (fun _ => ⟨⟨rfl, ?_⟩, fun i hi => ?_⟩) hsame ?_ ?_ ?_
  · have hpath := hl.1.2.2
    rw [nextAt_of_get hme] at hpath
    rw [nextAt_set_ne (Ne.symm hpr.1), nextAt_set_self hpl]
    exact hpath.congr fun i hi => nextAt_congr (hsame i (hr i hi))
  · obtain rfl | hi := List.mem_cons.mp hi
    · rw [keyAt_set_ne (Ne.symm hpr.1), keyAt_set_self hpl, ← keyAt_of_get hme]
      exact hl.2 m (by simp)
    · rw [← keyAt_congr (hsame i (hr i hi))]
      exact hl.2 i (by simp [hi])
  · rintro i (rfl | rfl) <;> simp
  · rintro i (rfl | rfl)
    exacts [.inr (by simp), .inl (by rw [keyAt_set_self (by simpa using hml)])]
  · intro i hi hne
    simp only [List.mem_cons] at hi ⊢
    tauto

/-- Removal of the only node of a chain. -/
theorem Chained.unlink_single (hc : Chained main es) (hp : es[p]? = some e) (he : e.key = some k)
    (hm : main k = p) (hn : e.next = none) (hx : x.key = none) : Chained main (es.set p x) := by
  have hpl : p < es.length := (List.getElem?_eq_some_iff.mp hp).1
  refine hc.relink (D := (· = p)) (IsChain.single hp he hm hn) [] (fun h => absurd rfl h)
    (fun i hi => ?_) ?_ ?_ ?_
  · rw [List.getElem?_set_ne (Ne.symm hi)]
  · rintro i rfl; simp
  · rintro i rfl
    exact .inl (by rw [keyAt_set_self hpl, hx])
  · intro i hi hne
    exact absurd (List.mem_singleton.mp hi) hne

/-- Removal of the node `m` after `c`. -/
theorem Chained.unlink_next (hc : Chained main es) {c m : Nat} {ec me : TabEnt K V}
    {l₁ l₂ : List Nat} (hl : IsChain main es p (l₁ ++ c :: m :: l₂)) (hec : es[c]? = some ec)
    (hme : es[m]? = some me) :
    Chained main ((es.set m { me with key := none }).set c { ec with next := me.next }) := by
  have hcl : c < es.length := (List.getElem?_eq_some_iff.mp hec).1
  have hml : m < es.length := (List.getElem?_eq_some_iff.mp hme).1
  have hd := hl.1.nodup
  simp only [List.nodup_append, List.nodup_cons, List.mem_cons, not_or] at hd
  obtain ⟨-, ⟨⟨hcm, hcl₂⟩, hml₂, -⟩, hl₁⟩ := hd
  have hsame : ∀ i, ¬(i = c ∨ i = m) →
      es[i]? = ((es.set m { me with key := none }).set c { ec with next := me.next })[i]? :=
    fun i hi => by
      rw [not_or] at hi
      rw [List.getElem?_set_ne (Ne.symm hi.1), List.getElem?_set_ne (Ne.symm hi.2)]
  have hout : ∀ i, i ∈ l₁ ∨ i ∈ l₂ → ¬(i = c ∨ i = m) := by
    rintro i (hi | hi) (rfl | rfl)
    exacts [hl₁ _ hi _ (.inl rfl) rfl, hl₁ _ hi _ (.inr (.inl rfl)) rfl, hcl₂ hi, hml₂ hi]
  obtain ⟨y, ps, rfl, -, pt⟩ := LinkedPath.append_iff.mp hl.1
  refine hc.relink hl (l₁ ++ c :: l₂) (fun _ => ⟨?_, fun i hi => ?_⟩) hsame ?_ ?_ ?_
  · refine LinkedPath.append_iff.mpr ⟨some c, ?_, rfl, ?_⟩
    · exact ps.congr fun i hi => nextAt_congr (hsame i (hout i (.inl hi)))
    · rw [nextAt_of_get hme] at pt
      rw [nextAt_set_self (by simpa using hcl)]
      exact pt.congr fun i hi => nextAt_congr (hsame i (hout i (.inr hi)))
  · by_cases hic : i = c
    · subst hic
      rw [keyAt_set_self (by simpa using hcl), ← keyAt_of_get hec]
      exact hl.2 i (by simp)
    · have hi' : i ∈ l₁ ∨ i ∈ l₂ := by
        simp only [List.mem_append, List.mem_cons] at hi
        tauto
      rw [← keyAt_congr (hsame i (hout i hi'))]
      exact hl.2 i (by simp only [List.mem_append, List.mem_cons]; tauto)
  · rintro i (rfl | rfl) <;> simp
  · rintro i (rfl | rfl)
    exacts [.inr (by simp), .inl (by rw [keyAt_set_ne hcm, keyAt_set_self hml])]
  · intro i hi hne
    simp only [List.mem_append, List.mem_cons] at hi ⊢
    tauto

/-- The values do not matter for the chains. -/
theorem Chained.set_val (hc : Chained main es) (he : es[i]? = some e) (hk : x.key = e.key)
    (hn : x.next = e.next) : Chained main (es.set i x) := by
  have hlt : i < es.length := (List.getElem?_eq_some_iff.mp he).1
  have hkeys : keyAt (es.set i x) = keyAt es := by
    funext j
    by_cases hj : i = j
    · subst hj
      rw [keyAt_set_self hlt, hk, keyAt_of_get he]
    · exact keyAt_set_ne hj
  have hnexts : nextAt (es.set i x) = nextAt es := by
    funext j
    by_cases hj : i = j
    · subst hj
      rw [nextAt_set_self hlt, hn, nextAt_of_get he]
    · exact nextAt_set_ne hj
  simp only [Chained, IsChain, hkeys, hnexts]
  exact hc

end Entries

end Table

end Hpb
