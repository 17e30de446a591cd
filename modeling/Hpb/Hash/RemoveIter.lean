import Hpb.Hash.StrTableMap

/-!
# Removing entries while iterating (`hpb_strtable_removeiter`)

`removeIter` empties the slot that an iterator is at. It unlinks the entry from its chain when another
entry points to it, but leaves the entries behind a chain's head where they are: no entry points to them
any more, and the main position of their keys is an empty slot.

* `Pruned`: what a table has become after the entries of some slots were removed: the others have their
  keys and values, and each chain links those of its entries that are left.
* `removeIf_spec`: the loop that removes the entries with a value of some kind prunes the table.
* `Pruned.inv`, `Pruned.lost`: what is left is a table again if the head of every chain with an entry left
  is left, and an entry whose chain has lost its head is not found.
-/

namespace Hpb

namespace Table

variable {K V : Type}

/-- The first entry that points to `i`, by a linear search. -/
def pointingTo (t : Table K V) (i : Nat) : Option Nat :=
  (List.range t.size).find? fun j => nextAt t.entries j = some i

/-- The entries once nothing points to `ent` in slot `i`. -/
def unlink (t : Table K V) (i : Nat) (ent : TabEnt K V) : Option (List (TabEnt K V)) :=
  match t.pointingTo i with
  | none => some t.entries
  | some prev => do
    let pe ← t.entries[prev]?
    return t.entries.set prev { pe with next := ent.next }

/-- `hpb_strtable_removeiter`, for an iterator at slot `i`. -/
def removeIter (t : Table K V) (i : Nat) : Option (Table K V) := do
  let ent ← t.entries[i]?
  let es ← t.unlink i ent
  return { t with count := t.count - 1, entries := es.set i { ent with key := none, next := none } }

/-- A loop over the used slots after `i`, in the order of `next`, that removes the entries whose value is
`bad`. -/
def removeLoop (bad : V → Bool) : Nat → Int → Table K V → Option (Table K V)
  | 0, _, _ => none
  | n + 1, i, t =>
    match t.next i with
    | none => some t
    | some j => do
      let p ← t.pairAt j
      let t ← if bad p.2 then t.removeIter j else some t
      removeLoop bad n j t

/-- The whole loop: no more rounds than slots. -/
def removeIf (bad : V → Bool) (t : Table K V) : Option (Table K V) :=
  removeLoop bad (t.size + 1) (-1) t

/-- Two tables of one size. -/
structure SameShape (t t' : Table K V) : Prop where
  mask : t'.mask = t.mask
  maxCount : t'.maxCount = t.maxCount
  sizeLg2 : t'.sizeLg2 = t.sizeLg2

theorem SameShape.trans {t t' t'' : Table K V} (h : SameShape t t') (h' : SameShape t' t'') :
    SameShape t t'' :=
  ⟨h'.mask.trans h.mask, h'.maxCount.trans h.maxCount, h'.sizeLg2.trans h.sizeLg2⟩

/-- An empty slot points nowhere. -/
def Clean (es : List (TabEnt K V)) : Prop := ∀ i, keyAt es i = none → nextAt es i = none

/-- The entries `es` after those in the slots with `gone` were removed. -/
structure Pruned (main : K → Nat) (es : List (TabEnt K V)) (gone : Nat → Bool)
    (es' : List (TabEnt K V)) : Prop where
  length : es'.length = es.length
  key : ∀ i, keyAt es' i = if gone i then none else keyAt es i
  val : ∀ i : Nat, (es'[i]?).map TabEnt.val = (es[i]?).map TabEnt.val
  chain : ∀ p l, IsChain main es p l →
    ∃ x, LinkedPath (nextAt es') x (l.filter fun i => !gone i) none
  clean : Clean es'

section Step

variable {main : K → Nat} {es es' : List (TabEnt K V)} {gone : Nat → Bool} {i c p : Nat} {k : K}
  {l l₁ l₂ : List Nat} {e ent : TabEnt K V}

theorem Pruned.refl (hc : Clean es) : Pruned main es (fun _ => false) es where
  length := rfl
  key _ := by simp
  val _ := rfl
  chain p l hl := ⟨some p, by simpa using hl.1⟩
  clean := hc

/-- The slots may be named by another predicate that agrees on the used ones. -/
theorem Pruned.congr (h : Pruned main es gone es') {gone' : Nat → Bool}
    (heq : ∀ i k, keyAt es i = some k → gone' i = gone i) : Pruned main es gone' es' where
  length := h.length
  key i := by
    rw [h.key i]
    cases hk : keyAt es i with
    | none => simp
    | some k => rw [heq i k hk]
  val := h.val
  chain p l hl := by
    have : (l.filter fun i => !gone' i) = l.filter fun i => !gone i :=
      List.filter_congr fun i hi => by
        obtain ⟨k, hk, -⟩ := hl.2 i hi
        rw [heq i k hk]
    rw [this]
    exact h.chain p l hl
  clean := h.clean

/-- The chain that a slot in use is on, and what is left of it. -/
theorem Pruned.chain_of (h : Pruned main es gone es') (hc : Chained main es)
    (hk : keyAt es' i = some k) :
    ∃ p l, IsChain main es p l ∧ i ∈ l.filter (fun i => !gone i) ∧ keyAt es i = some k ∧ main k = p := by
  have hi := h.key i
  rw [hk] at hi
  split at hi
  · cases hi
  next hg =>
    obtain ⟨l, hl, hil⟩ := hc i k hi.symm
    exact ⟨main k, l, hl, List.mem_filter.mpr ⟨hil, by simpa using hg⟩, hi.symm, rfl⟩

/-- Only the entry before `i` on its chain points to `i`. -/
theorem Pruned.prev_unique (h : Pruned main es gone es') (hc : Chained main es) {p : Nat}
    (hl : IsChain main es p l) (hsplit : (l.filter fun i => !gone i) = l₁ ++ i :: l₂)
    (hj : nextAt es' c = some i) : ∃ l₀, l₁ = l₀ ++ [c] := by
  have hcl : ∃ kc, keyAt es' c = some kc := by
    by_contra hno
    have hnone : keyAt es' c = none := by
      cases hkc : keyAt es' c with
      | none => rfl
      | some kc => exact absurd ⟨kc, hkc⟩ hno
    rw [h.clean c hnone] at hj
    cases hj
  obtain ⟨kc, hkc⟩ := hcl
  obtain ⟨q, m, hm, hcm, hkc₀, hmain⟩ := h.chain_of hc hkc
  obtain ⟨y, hy⟩ := h.chain q m hm
  -- `i` is on the chain of `c`, so the two chains are one
  have him : i ∈ m.filter fun i => !gone i := hy.next_mem hcm hj
  have hil : i ∈ l.filter fun i => !gone i := hsplit ▸ List.mem_append_right _ List.mem_cons_self
  obtain ⟨ki, hki, hmi⟩ := hl.2 i (List.mem_filter.mp hil).1
  have hqp : q = p := by
    rw [← hm.main_eq (List.mem_filter.mp him).1 hki, hmi]
  subst hqp
  obtain rfl : m = l := hm.1.unique hl.1
  obtain ⟨s, t, hst⟩ := List.append_of_mem hcm
  rw [hst] at hy
  have hnd := hy.nodup
  obtain ⟨_, -, rfl, ht⟩ := LinkedPath.append_iff.mp hy
  rw [hj] at ht
  cases t with
  | nil => cases ht
  | cons j t =>
    obtain rfl : i = j := Option.some.inj ht.1
    have heq : (s ++ [c]) ++ i :: t = l₁ ++ i :: l₂ := by
      rw [← hsplit, hst]
      simp
    have hnd' : (l₁ ++ i :: l₂).Nodup := by
      rw [← heq]
      simpa using hnd
    have hi₁ : i ∉ l₁ := fun hi => (List.nodup_append.mp hnd').2.2 i hi i List.mem_cons_self rfl
    have hi₂ : i ∉ l₂ := (List.nodup_cons.mp (List.nodup_append.mp hnd').2.1).1
    exact ⟨s, ((List.append_cons_inj_of_notMem hi₁ hi₂).mp heq.symm).1⟩

/-- A path without one of its nodes. -/
theorem linkedPath_unlink {nxt nxt' : Nat → Option Nat} {x : Option Nat}
    (h : LinkedPath nxt x (l₁ ++ c :: i :: l₂) none) (hc : nxt' c = nxt i)
    (hsame : ∀ j ∈ l₁ ++ l₂, nxt' j = nxt j) : LinkedPath nxt' x (l₁ ++ c :: l₂) none := by
  obtain ⟨_, h₁, rfl, hi, h₂⟩ := LinkedPath.append_iff.mp h
  refine LinkedPath.append_iff.mpr ⟨_, h₁.congr fun j hj => ?_, rfl, ?_⟩
  · exact (hsame j (List.mem_append_left _ hj)).symm
  · rw [hc]
    exact h₂.congr fun j hj => (hsame j (List.mem_append_right _ hj)).symm

/-- The links after slot `i` was taken out of its chain, of which `l₁` and `l₂` are left. -/
structure Unlinked (i : Nat) (l₁ l₂ : List Nat) (es es₁ : List (TabEnt K V)) : Prop where
  length : es₁.length = es.length
  key : ∀ j, keyAt es₁ j = keyAt es j
  val : ∀ j : Nat, (es₁[j]?).map TabEnt.val = (es[j]?).map TabEnt.val
  chain : ∃ x, ∀ nxt, (∀ j, j ≠ i → nxt j = nextAt es₁ j) → LinkedPath nxt x (l₁ ++ l₂) none
  other : ∀ j, j ∉ l₁ → nextAt es₁ j = nextAt es j

theorem Pruned.unlink {t : Table K V} (h : Pruned main es gone t.entries) (hc : Chained main es)
    (hlen : t.entries.length = t.size) (hl : IsChain main es p l)
    (hsplit : (l.filter fun i => !gone i) = l₁ ++ i :: l₂) (hent : t.entries[i]? = some ent) :
    ∃ es₁, t.unlink i ent = some es₁ ∧ Unlinked i l₁ l₂ t.entries es₁ := by
  obtain ⟨x, hx⟩ := h.chain p l hl
  have hnd := hx.nodup
  rw [hsplit] at hx hnd
  unfold Table.unlink
  cases hprev : t.pointingTo i with
  | none =>
    have hl₁ : l₁ = [] := by
      rcases List.eq_nil_or_concat l₁ with rfl | ⟨l₀, c, rfl⟩
      · rfl
      · rw [List.concat_eq_append, List.append_assoc] at hx
        obtain ⟨_, -, rfl, hci, -⟩ := LinkedPath.append_iff.mp hx
        have hcl : c < t.size := by
          rw [← hlen]
          by_contra hge
          rw [nextAt, List.getElem?_eq_none (Nat.not_lt.mp hge)] at hci
          cases hci
        have := List.find?_eq_none.mp hprev c (List.mem_range.mpr hcl)
        exact absurd (decide_eq_true hci) this
    subst hl₁
    refine ⟨t.entries, rfl, rfl, fun _ => rfl, fun _ => rfl, ⟨nextAt t.entries i, fun nxt hn => ?_⟩,
      fun _ _ => rfl⟩
    obtain ⟨-, h₂⟩ := hx
    refine h₂.congr fun j hj => (hn j ?_).symm
    rintro rfl
    exact (List.nodup_cons.mp hnd).1 hj
  | some c =>
    have hci : nextAt t.entries c = some i := by simpa using List.find?_some hprev
    obtain ⟨l₀, rfl⟩ := h.prev_unique hc hl hsplit hci
    obtain ⟨ce, hce, hcn⟩ := Option.bind_eq_some_iff.mp hci
    have hclt := (List.getElem?_eq_some_iff.mp hce).1
    have hi₀ : i ∉ l₀ ++ [c] := fun hi =>
      (List.nodup_append.mp hnd).2.2 i hi i List.mem_cons_self rfl
    have hci' : c ≠ i := fun hci => hi₀ (by simp [hci])
    refine ⟨t.entries.set c { ce with next := ent.next }, by simp [hce], by simp, fun j => ?_,
      fun j => ?_, ⟨x, fun nxt hn => ?_⟩, fun j hj => ?_⟩
    · by_cases hj : c = j
      · subst hj
        rw [keyAt_set_self hclt, keyAt_of_get hce]
      · exact keyAt_set_ne hj
    · by_cases hj : c = j
      · subst hj
        rw [hce, List.getElem?_set_self hclt]
        rfl
      · rw [List.getElem?_set_ne hj]
    · rw [List.append_assoc] at hx hnd ⊢
      refine linkedPath_unlink hx ?_ fun j hj => ?_
      · rw [hn c hci', nextAt_set_self hclt, nextAt_of_get hent]
      · have hji : j ≠ i := by
          rintro rfl
          obtain hj | hj := List.mem_append.mp hj
          · exact hi₀ (List.mem_append_left _ hj)
          · have := (List.nodup_append.mp hnd).2.1
            simp only [List.cons_append, List.nil_append, List.nodup_cons] at this
            exact this.2.1 hj
        have hjc : c ≠ j := by
          rintro rfl
          obtain hj | hj := List.mem_append.mp hj
          · exact (List.nodup_append.mp hnd).2.2 c hj c (by simp) rfl
          · have := (List.nodup_append.mp hnd).2.1
            simp only [List.cons_append, List.nil_append, List.nodup_cons] at this
            exact this.1 (List.mem_cons_of_mem _ hj)
        rw [hn j hji, nextAt_set_ne hjc]
    · exact nextAt_set_ne fun hcj => hj (by simp [hcj])

/-- The entries after the one in slot `i` was unlinked and its slot emptied. -/
theorem Pruned.step {t : Table K V} (h : Pruned main es gone t.entries) (hc : Chained main es)
    (hlen : t.entries.length = t.size) (hk : keyAt t.entries i = some k) :
    ∃ t', t.removeIter i = some t' ∧ SameShape t t' ∧ t'.count = t.count - 1 ∧
      Pruned main es (fun j => gone j || j == i) t'.entries := by
  obtain ⟨ent, hent, -⟩ := get_of_keyAt hk
  have hilt := lt_of_keyAt hk
  obtain ⟨p, l, hl, hil, hki, hmain⟩ := h.chain_of hc hk
  obtain ⟨l₁, l₂, hsplit⟩ := List.append_of_mem hil
  have hnd : (l₁ ++ i :: l₂).Nodup := by
    obtain ⟨x, hx⟩ := h.chain p l hl
    rw [← hsplit]
    exact hx.nodup
  obtain ⟨es₁, hes₁, hlen₁, hkey₁, hval₁, hfront, hother⟩ := h.unlink hc hlen hl hsplit hent
  have hilt₁ : i < es₁.length := hlen₁ ▸ hilt
  refine ⟨{ t with count := t.count - 1,
                   entries := es₁.set i { ent with key := none, next := none } },
    by simp [removeIter, hent, hes₁], ⟨rfl, rfl, rfl⟩, rfl, ?_, fun j => ?_, fun j => ?_, fun q m hm => ?_,
    fun j hj => ?_⟩
  · rw [List.length_set, hlen₁, h.length]
  · by_cases hj : i = j
    · subst hj
      simp [keyAt_set_self hilt₁]
    · rw [keyAt_set_ne hj, hkey₁ j, h.key j]
      simp [Ne.symm hj]
  · by_cases hj : i = j
    · subst hj
      rw [← h.val i, hent]
      simp [hilt₁]
    · rw [List.getElem?_set_ne hj, hval₁ j, h.val j]
  · have hnext : ∀ j, j ≠ i → nextAt (es₁.set i { ent with key := none, next := none }) j = nextAt es₁ j :=
      fun j hj => nextAt_set_ne (Ne.symm hj)
    have hfilter : (m.filter fun j => !(gone j || j == i)) =
        (m.filter fun j => !gone j).filter fun j => !(j == i) := by
      rw [List.filter_filter]
      exact List.filter_congr fun j _ => by cases gone j <;> cases (j == i) <;> rfl
    rw [hfilter]
    by_cases him : i ∈ m
    · -- the chain of `i` itself
      obtain rfl : m = l := by
        obtain ⟨ki, hki', hmi⟩ := hm.2 i him
        rw [hki] at hki'
        cases hki'
        have hqp : q = p := hmi ▸ hmain ▸ rfl
        subst hqp
        exact hm.1.unique hl.1
      obtain ⟨y, hy⟩ := hfront
      have hrest : ((m.filter fun j => !gone j).filter fun j => !(j == i)) = l₁ ++ l₂ := by
        have hi : ∀ j ∈ l₁ ++ l₂, (!(j == i)) = true := by
          intro j hj
          have hne : j ≠ i := by
            rintro rfl
            obtain hj | hj := List.mem_append.mp hj
            · exact (List.nodup_append.mp hnd).2.2 j hj j List.mem_cons_self rfl
            · exact (List.nodup_cons.mp (List.nodup_append.mp hnd).2.1).1 hj
          simpa using hne
        rw [hsplit, List.filter_append, List.filter_cons, if_neg (by simp), ← List.filter_append]
        exact List.filter_eq_self.mpr hi
      rw [hrest]
      exact ⟨y, hy _ hnext⟩
    · obtain ⟨y, hy⟩ := h.chain q m hm
      have hself : ((m.filter fun j => !gone j).filter fun j => !(j == i)) = m.filter fun j => !gone j :=
        List.filter_eq_self.mpr fun j hj => by
          have : j ≠ i := fun hji => him (hji ▸ (List.mem_filter.mp hj).1)
          simpa using this
      rw [hself]
      refine ⟨y, hy.congr fun j hj => ?_⟩
      have hjm := (List.mem_filter.mp hj).1
      have hji : j ≠ i := fun hji => him (hji ▸ hjm)
      rw [hnext j hji, hother j fun hj₁ => ?_]
      -- no slot is on two chains
      obtain ⟨kj, hkj, hmj⟩ := hm.2 j hjm
      have hjl : j ∈ l := by
        have : j ∈ l.filter fun i => !gone i := hsplit ▸ List.mem_append_left _ hj₁
        exact (List.mem_filter.mp this).1
      have hqp : q = p := by rw [← hl.main_eq hjl hkj, hmj]
      subst hqp
      exact him (hm.1.unique hl.1 ▸ (List.mem_filter.mp hil).1)
  · by_cases hji : i = j
    · subst hji
      rw [nextAt_set_self hilt₁]
    · rw [keyAt_set_ne hji, hkey₁ j] at hj
      rw [nextAt_set_ne hji, hother j fun hj₁ => ?_]
      · exact h.clean j hj
      · have hmem : j ∈ l.filter fun i => !gone i := hsplit ▸ List.mem_append_left _ hj₁
        obtain ⟨hjl, hgj⟩ := List.mem_filter.mp hmem
        obtain ⟨kj, hkj, -⟩ := hl.2 j hjl
        have := h.key j
        rw [hj, hkj, if_neg (by simpa using hgj)] at this
        cases this

end Step

/-- Lists of entries with the same keys and values hold the same pairs. -/
theorem filterMap_pair_congr {es es' : List (TabEnt K V)} (hkey : ∀ j, keyAt es' j = keyAt es j)
    (hval : ∀ j : Nat, (es'[j]?).map TabEnt.val = (es[j]?).map TabEnt.val) :
    es'.filterMap TabEnt.pair = es.filterMap TabEnt.pair := by
  have hmap : es'.map TabEnt.pair = es.map TabEnt.pair := by
    refine List.ext_getElem? fun j => ?_
    rw [List.getElem?_map, List.getElem?_map]
    have hk := hkey j
    have hv := hval j
    rw [keyAt, keyAt] at hk
    cases h : es[j]? with
    | none =>
      rw [h] at hv
      rw [Option.map_eq_none_iff.mp hv]
    | some e =>
      rw [h, Option.map_some] at hv
      obtain ⟨e', he', hv'⟩ := Option.map_eq_some_iff.mp hv
      rw [h, he', Option.bind_some, Option.bind_some] at hk
      rw [he', Option.map_some, Option.map_some, TabEnt.pair, TabEnt.pair, hk, hv']
  have := congrArg (List.filterMap id) hmap
  simpa [List.filterMap_map] using this

/-- The entry in slot `i` has a `bad` value. -/
def badAt (bad : V → Bool) (es : List (TabEnt K V)) (i : Nat) : Bool := (es[i]?).any fun e => bad e.val

section Loop

variable {hash : K → Nat} {t : Table K V} {bad : V → Bool}

/-- `next` from before slot `n` passes over the empty slots. -/
theorem next_slot (hlen : t.entries.length = t.size) (n : Nat) :
    (t.next ((n : Int) - 1) = none ∧ ∀ i, n ≤ i → keyAt t.entries i = none) ∨
      ∃ (j : Nat) (e : TabEnt K V) (k : K), t.next ((n : Int) - 1) = some j ∧ n ≤ j ∧
        t.entries[j]? = some e ∧ e.key = some k ∧ ∀ i, n ≤ i → i < j → keyAt t.entries i = none := by
  have hused : ∀ i, t.usedAt i = false → keyAt t.entries i = none := by
    intro i hi
    unfold usedAt at hi
    unfold keyAt
    cases he : t.entries[i]? with
    | none => rfl
    | some e =>
      rw [he] at hi
      simpa [TabEnt.isEmpty] using hi
  have hnat : ((n : Int) - 1 + 1).toNat = n := by omega
  unfold next
  rw [hnat]
  cases hf : (List.range' n (t.size - n)).find? t.usedAt with
  | none =>
    refine .inl ⟨rfl, fun i hi => ?_⟩
    by_cases hlt : i < t.size
    · have hmem : i ∈ List.range' n (t.size - n) := by
        rw [List.mem_range'_1]
        omega
      exact hused i (by simpa using List.find?_eq_none.mp hf i hmem)
    · rw [keyAt, List.getElem?_eq_none (by omega)]
      rfl
  | some j =>
    obtain ⟨hj, hmem, hbefore⟩ := List.find?_range'_eq_some.mp hf
    rw [List.mem_range'_1] at hmem
    unfold usedAt at hj
    cases he : t.entries[j]? with
    | none =>
      rw [he] at hj
      cases hj
    | some e =>
      rw [he] at hj
      obtain ⟨k, hk⟩ : ∃ k, e.key = some k := by
        cases hk : e.key with
        | none => simp [TabEnt.isEmpty, hk] at hj
        | some k => exact ⟨k, rfl⟩
      exact .inr ⟨j, e, k, rfl, hmem.1, he, hk, fun i hi hij => hused i (by simpa using hbefore i hi hij)⟩

theorem removeIter_pairs {i : Nat} {k : K} {t' : Table K V} {main : K → Nat} {es : List (TabEnt K V)}
    {gone : Nat → Bool} (h : Pruned main es gone t.entries) (hk : keyAt t.entries i = some k)
    (h' : Pruned main es (fun j => gone j || j == i) t'.entries) :
    t.pairs.length = t'.pairs.length + 1 := by
  obtain ⟨e, he, hek⟩ := get_of_keyAt hk
  have hp := filterMap_set_perm TabEnt.pair { e with key := none } he
  have hcongr : t'.entries.filterMap TabEnt.pair =
      (t.entries.set i { e with key := none }).filterMap TabEnt.pair := by
    have hilt := lt_of_keyAt hk
    refine filterMap_pair_congr (fun j => ?_) fun j => ?_
    · rw [h'.key j]
      by_cases hj : i = j
      · subst hj
        simp [keyAt_set_self hilt]
      · rw [keyAt_set_ne hj, h.key j]
        simp [Ne.symm hj]
    · rw [h'.val j, ← h.val j]
      by_cases hj : i = j
      · subst hj
        rw [he, List.getElem?_set_self hilt]
        rfl
      · rw [List.getElem?_set_ne hj]
  have hlen := hp.length_eq
  rw [List.length_append, List.length_append, ← hcongr] at hlen
  have he₁ : e.pair.toList.length = 1 := by simp [TabEnt.pair, hek]
  have he₂ : ({ e with key := none } : TabEnt K V).pair.toList.length = 0 := by simp [TabEnt.pair]
  rw [he₁, he₂] at hlen
  rw [pairs, pairs]
  omega

/-- The rounds of the loop from slot `n` on. -/
theorem removeLoop_spec {main : K → Nat} {es : List (TabEnt K V)} (hc : Chained main es) (fuel n : Nat)
    (h : Pruned main es (fun i => decide (i < n) && badAt bad es i) t.entries)
    (hlen : t.entries.length = t.size) (hcount : t.count = t.pairs.length) (hfuel : t.size < fuel + n)
    (hn : n ≤ t.size) :
    ∃ t', removeLoop bad fuel ((n : Int) - 1) t = some t' ∧
      SameShape t t' ∧ t'.count = t'.pairs.length ∧ Pruned main es (badAt bad es) t'.entries := by
  induction fuel generalizing n t with
  | zero => omega
  | succ fuel ih =>
    unfold removeLoop
    obtain ⟨hnext, hrest⟩ | ⟨j, e, k, hnext, hnj, he, hk, hbetween⟩ := next_slot hlen n
    · rw [hnext]
      refine ⟨t, rfl, ⟨rfl, rfl, rfl⟩, hcount, h.congr fun i k hi => ?_⟩
      by_cases hin : i < n
      · simp [hin]
      · have := h.key i
        rw [hrest i (Nat.not_lt.mp hin), hi] at this
        simp [hin] at this
    · rw [hnext]
      have hlt := (List.getElem?_eq_some_iff.mp he).1
      have hkj : keyAt t.entries j = some k := by rw [keyAt_of_get he, hk]
      have hpair : t.pairAt j = some (k, e.val) := by simp [pairAt, he, hk]
      -- the value in slot `j` is the one it had at the start
      have hval : badAt bad es j = bad e.val := by
        have hv := h.val j
        rw [he, Option.map_some] at hv
        obtain ⟨e₀, he₀, hv₀⟩ := Option.map_eq_some_iff.mp hv.symm
        rw [badAt, he₀, Option.any_some, hv₀]
      have hjn : ((j : Int)) = ((j + 1 : Nat) : Int) - 1 := by omega
      simp only [hpair, Option.bind_eq_bind, Option.bind_some]
      -- no slot before `j` is left to be looked at
      have hskip : ∀ i k', keyAt es i = some k' → i < j → ¬i < n →
          (decide (i < n) && badAt bad es i) = true := by
        intro i k' hi hij hin
        have := h.key i
        rw [hbetween i (Nat.not_lt.mp hin) hij, hi] at this
        simp [hin] at this
      by_cases hb : bad e.val = true
      · rw [if_pos hb]
        obtain ⟨t₁, hrm, hshape, hc₁, h₁⟩ := h.step hc hlen hkj
        have hsize : t₁.size = t.size := by rw [size, hshape.sizeLg2, size]
        have hlen₁ : t₁.entries.length = t₁.size := by rw [h₁.length, hsize, ← hlen, h.length]
        have hp := removeIter_pairs h hkj h₁
        have hcount₁ : t₁.count = t₁.pairs.length := by omega
        have h₁' : Pruned main es (fun i => decide (i < j + 1) && badAt bad es i) t₁.entries := by
          refine h₁.congr fun i k' hi => ?_
          by_cases hij : i = j
          · subst hij
            simp [hval, hb]
          · by_cases hlt' : i < j
            · by_cases hin : i < n
              · simp [hin, hij, Nat.lt_succ_of_lt hlt']
              · have := hskip i k' hi hlt' hin
                simp [hin] at this
            · have h1 : ¬i < j + 1 := by omega
              have h2 : ¬i < n := by omega
              simp [h1, h2, hij]
        obtain ⟨t', hrun, hshape', hrest⟩ := ih (j + 1) h₁' hlen₁ hcount₁ (by omega) (by omega)
        refine ⟨t', ?_, hshape.trans hshape', hrest⟩
        rw [hrm, Option.bind_some, hjn, hrun]
      · rw [if_neg hb]
        have h' : Pruned main es (fun i => decide (i < j + 1) && badAt bad es i) t.entries := by
          refine h.congr fun i k' hi => ?_
          by_cases hij : i = j
          · subst hij
            simp [hval, hb]
          · by_cases hlt' : i < j
            · by_cases hin : i < n
              · simp [hin, Nat.lt_succ_of_lt hlt']
              · have := hskip i k' hi hlt' hin
                simp [hin] at this
            · have h1 : ¬i < j + 1 := by omega
              have h2 : ¬i < n := by omega
              simp [h1, h2]
        obtain ⟨t', hrun, hrest⟩ := ih (j + 1) h' hlen hcount (by omega) (by omega)
        refine ⟨t', ?_, hrest⟩
        rw [hjn]
        exact hrun

/-- **The loop prunes the table.** -/
theorem removeIf_spec (h : t.Inv hash) (hclean : Clean t.entries) (bad : V → Bool) :
    ∃ t', t.removeIf bad = some t' ∧ SameShape t t' ∧ t'.count = t'.pairs.length ∧
      Pruned (fun k => t.getEntry (hash k)) t.entries (badAt bad t.entries) t'.entries := by
  refine removeLoop_spec h.chained (t.size + 1) 0 ?_ h.length_eq h.count_eq (by omega) (by omega)
  exact (Pruned.refl hclean).congr fun i k _ => by simp

/-- The pairs that are left. -/
theorem Pruned.pairs {main : K → Nat} {es es' : List (TabEnt K V)}
    (h : Pruned main es (badAt bad es) es') :
    es'.filterMap TabEnt.pair = (es.filterMap TabEnt.pair).filter fun p => !bad p.2 := by
  have hmap : es'.map TabEnt.pair = es.map fun e => e.pair.filter fun p => !bad p.2 := by
    refine List.ext_getElem? fun j => ?_
    rw [List.getElem?_map, List.getElem?_map]
    have hk := h.key j
    have hv := h.val j
    rw [keyAt, keyAt, badAt] at hk
    cases hj : es[j]? with
    | none =>
      rw [hj] at hv
      rw [Option.map_eq_none_iff.mp hv]
      rfl
    | some e =>
      rw [hj, Option.map_some] at hv
      obtain ⟨e', he', hv'⟩ := Option.map_eq_some_iff.mp hv
      rw [hj, he', Option.bind_some, Option.bind_some, Option.any_some] at hk
      rw [he', Option.map_some, Option.map_some, TabEnt.pair, TabEnt.pair, hk, hv']
      cases e.key with
      | none => simp
      | some k => cases hb : bad e.val <;> simp [Option.filter, hb]
  have := congrArg (List.filterMap id) hmap
  rw [List.filterMap_map, List.filterMap_map] at this
  rw [List.filter_filterMap]
  exact this

/-- Every chain that has an entry left has its head left. -/
def HeadsKept (hash : K → Nat) (bad : V → Bool) (t : Table K V) : Prop :=
  ∀ k v, (k, v) ∈ t.pairs → bad v = false → badAt bad t.entries (t.getEntry (hash k)) = false

theorem getEntry_eq_of_mask {t' : Table K V} (h : t'.mask = t.mask) (x : Nat) :
    t'.getEntry x = t.getEntry x := by
  rw [getEntry, getEntry, h]

/-- **What is left is a table again** if the heads are kept. -/
theorem Pruned.inv (h : t.Inv hash) {t' : Table K V} (hshape : SameShape t t')
    (hcount : t'.count = t'.pairs.length)
    (hp : Pruned (fun k => t.getEntry (hash k)) t.entries (badAt bad t.entries) t'.entries)
    (hheads : t.HeadsKept hash bad) : t'.Inv hash where
  lg2_le := hshape.sizeLg2 ▸ h.lg2_le
  length_eq := by rw [hp.length, h.length_eq, size, size, hshape.sizeLg2]
  mask_eq := by rw [hshape.mask, h.mask_eq, size, size, hshape.sizeLg2]
  max_eq := by rw [hshape.maxCount, h.max_eq, size, size, hshape.sizeLg2]
  chained := by
    simp only [getEntry_eq_of_mask hshape.mask]
    intro i k hk
    obtain ⟨p, l, hl, hil, hki, rfl⟩ := hp.chain_of h.chained hk
    obtain ⟨hmem, hgood⟩ := List.mem_filter.mp hil
    -- the head of the chain is its first entry, and it is left
    have hhead : badAt bad t.entries (t.getEntry (hash k)) = false := by
      obtain ⟨e, he, hek⟩ := get_of_keyAt hki
      refine hheads k e.val (mem_pairs.mpr ⟨i, e, he, hek, rfl⟩) ?_
      simpa [badAt, he] using hgood
    obtain ⟨x, hx⟩ := hp.chain _ l hl
    have hstart : x = some (t.getEntry (hash k)) := by
      cases l with
      | nil => cases hmem
      | cons q r =>
        obtain rfl : t.getEntry (hash k) = q := Option.some.inj hl.1.1
        rw [List.filter_cons, if_pos (by simp [hhead])] at hx
        exact hx.1
    subst hstart
    refine ⟨l.filter fun j => !badAt bad t.entries j, ⟨hx, fun j hj => ?_⟩, hil⟩
    obtain ⟨hjl, hgj⟩ := List.mem_filter.mp hj
    obtain ⟨kj, hkj, hmj⟩ := hl.2 j hjl
    refine ⟨kj, ?_, hmj⟩
    rw [hp.key j, if_neg (by simpa using hgj), hkj]
  count_eq := hcount
  nodup := by
    rw [keys, show t'.pairs = t.pairs.filter fun p => !bad p.2 from hp.pairs]
    exact h.nodup.sublist (List.filter_sublist.map _)

/-- **An entry whose chain has lost its head is not found.** -/
theorem Pruned.lost [DecidableEq K] (h : t.Inv hash) {t' : Table K V} (hshape : SameShape t t')
    (hp : Pruned (fun k => t.getEntry (hash k)) t.entries (badAt bad t.entries) t'.entries) {k : K}
    {v : V} (hk : (k, v) ∈ t.pairs) (hhead : badAt bad t.entries (t.getEntry (hash k)) = true) :
    t'.lookup k (hash k) = some none := by
  have h0 := h.slots hk
  obtain ⟨e, he⟩ := h.get_main h0 k
  have hlt := (List.getElem?_eq_some_iff.mp he).1
  obtain ⟨e', he'⟩ : ∃ e', t'.entries[t.getEntry (hash k)]? = some e' :=
    ⟨_, List.getElem?_eq_getElem (hp.length ▸ hlt)⟩
  have hempty : e'.key = none := by
    have := hp.key (t.getEntry (hash k))
    rwa [if_pos hhead, keyAt_of_get he'] at this
  have hfind : t'.findEntry k (hash k) = some none := by
    rw [findEntry, hshape.sizeLg2, if_neg h0, getEntry_eq_of_mask hshape.mask]
    simp [he', TabEnt.isEmpty, hempty]
  rw [lookup, hfind]
  rfl

end Loop

section Clean

variable {es : List (TabEnt K V)} {i : Nat} {x : TabEnt K V} {t t' : Table K V}

theorem Clean.set_used (h : Clean es) (hx : x.key ≠ none) : Clean (es.set i x) := by
  intro j hj
  by_cases hij : i = j
  · subst hij
    by_cases hlt : i < es.length
    · rw [keyAt_set_self hlt] at hj
      exact absurd hj hx
    · rw [nextAt, List.getElem?_eq_none (by simpa using hlt)]
      rfl
  · rw [keyAt_set_ne hij] at hj
    rw [nextAt_set_ne hij]
    exact h j hj

theorem empty_clean [Inhabited V] (s : Nat) : Clean (empty s : Table K V).entries := by
  intro i hi
  rw [nextAt, empty]
  by_cases hlt : i < tableSize s
  · simp [hlt]
  · simp [hlt]

theorem findPrev_next {target : Nat} (fuel c : Nat) {c' : Nat} (h : findPrev es target fuel c = some c') :
    nextAt es c' = some target := by
  induction fuel generalizing c with
  | zero => cases h
  | succ fuel ih =>
    unfold findPrev at h
    obtain ⟨e, he, h⟩ := Option.bind_eq_some_iff.mp h
    obtain ⟨j, hj, h⟩ := Option.bind_eq_some_iff.mp h
    split at h
    next hjt =>
      cases h
      rw [nextAt_of_get he, hj, hjt]
    · exact ih j h

/-- Insertion leaves the empty slots as they are. -/
theorem insert_clean {hash : K → Nat} {k : K} {v : V} {x : Nat} (h : Clean t.entries)
    (hrun : insert hash t k v x = some t') : Clean t'.entries := by
  unfold insert at hrun
  obtain ⟨e, he, hrun⟩ := Option.bind_eq_some_iff.mp hrun
  dsimp only at hrun
  cases hk : e.key with
  | none =>
    rw [hk] at hrun
    cases hrun
    exact h.set_used (by simp)
  | some k₀ =>
    rw [hk] at hrun
    obtain ⟨n, -, hrun⟩ := Option.bind_eq_some_iff.mp hrun
    split at hrun
    · cases hrun
      exact (h.set_used (by simp)).set_used (by simp)
    · have h₁ : Clean (t.entries.set n e) := h.set_used (by simp [hk])
      obtain ⟨c, hc, hrun⟩ := Option.bind_eq_some_iff.mp hrun
      obtain ⟨pe, hpe, hrun⟩ := Option.bind_eq_some_iff.mp hrun
      cases hrun
      refine (h₁.set_used ?_).set_used (by simp)
      -- the entry before the evicted one points to it, so it is in use
      intro hnone
      have hnext := findPrev_next _ _ hc
      rw [h₁ c (by rw [keyAt_of_get hpe]; exact hnone)] at hnext
      cases hnext

end Clean

end Table

namespace StrTable

variable {V : Type} [Inhabited V] {t t' : StrTable V} {k : StrKey} {v : V} {a a' : Alloc} {r : Bool}

omit [Inhabited V] in
theorem insertCopy_clean (h : Table.Clean t.entries) (hrun : insertCopy t k v a = some (r, t', a')) :
    Table.Clean t'.entries := by
  unfold insertCopy at hrun
  split at hrun
  · cases hrun
    exact h
  · obtain ⟨u, hu, hrun⟩ := Option.bind_eq_some_iff.mp hrun
    cases hrun
    exact Table.insert_clean h hu

omit [Inhabited V] in
/-- What every round of a loop keeps, the loop keeps. -/
theorem forEach_keeps {σ : Type} {P : σ → Prop} {body : σ → StrKey × V → Option σ}
    (hbody : ∀ s p s', P s → body s p = some s' → P s') (fuel : Nat) (i : Int) {s s' : σ} (hs : P s)
    (hrun : t.forEach body fuel i s = some s') : P s' := by
  induction fuel generalizing i s with
  | zero => cases hrun
  | succ fuel ih =>
    unfold Table.forEach at hrun
    split at hrun
    · cases hrun
      exact hs
    · obtain ⟨p, -, hrun⟩ := Option.bind_eq_some_iff.mp hrun
      obtain ⟨s₁, hs₁, hrun⟩ := Option.bind_eq_some_iff.mp hrun
      exact ih _ (hbody _ _ _ hs hs₁) hrun

theorem resizeWith_clean
    {ins : StrTable V → StrKey → V → Alloc → Option (Bool × StrTable V × Alloc)}
    (hins : ∀ t k v a r t' a', Table.Clean t.entries → ins t k v a = some (r, t', a') →
      Table.Clean t'.entries) {s : Nat} (h : Table.Clean t.entries)
    (hrun : resizeWith ins t s a = some (r, t', a')) : Table.Clean t'.entries := by
  unfold resizeWith at hrun
  obtain ⟨⟨new, a₁⟩, hinit, hrun⟩ := Option.bind_eq_some_iff.mp hrun
  cases new with
  | none =>
    cases hrun
    exact h
  | some new =>
    obtain ⟨⟨u, a₂⟩, hloop, hrun⟩ := Option.bind_eq_some_iff.mp hrun
    cases hrun
    have hnew : Table.Clean new.entries := by
      unfold Table.init at hinit
      split at hinit
      · cases hinit
      · dsimp only at hinit
        split at hinit
        · split at hinit
          · cases hinit
            exact Table.empty_clean _
          · cases hinit
        · cases hinit
          exact Table.empty_clean _
    refine forEach_keeps (P := fun p : StrTable V × Alloc => Table.Clean p.1.entries) ?_ _ _ hnew hloop
    rintro ⟨u, b⟩ p ⟨u', b'⟩ hu hb
    obtain ⟨⟨r, u₁, b₁⟩, hr, hb⟩ := Option.bind_eq_some_iff.mp hb
    cases hb
    exact hins _ _ _ _ _ _ _ hu hr

/-- An insertion leaves no empty slot that points somewhere. -/
theorem insert_clean (h : Table.Clean t.entries) (hrun : insert t k v a = some (r, t', a')) :
    Table.Clean t'.entries := by
  have hrec : ∀ (n : Nat) (t : StrTable V) (k : StrKey) (v : V) (a : Alloc) (r : Bool) (t' : StrTable V)
      (a' : Alloc), Table.Clean t.entries → insertRec n t k v a = some (r, t', a') →
      Table.Clean t'.entries := by
    intro n
    induction n with
    | zero =>
      intro t k v a r t' a' _ hrun
      cases hrun
    | succ n ih =>
      intro t k v a r t' a' h hrun
      unfold insertRec at hrun
      split at hrun
      · obtain ⟨⟨ok, u, a₁⟩, hres, hrun⟩ := Option.bind_eq_some_iff.mp hrun
        have hu := resizeWith_clean ih h hres
        dsimp only at hrun
        split at hrun
        · exact insertCopy_clean hu hrun
        · cases hrun
          exact hu
      · exact insertCopy_clean h hrun
  exact hrec 2 t k v a r t' a' h hrun

end StrTable

end Hpb
