import Hpb.Collections.Map

/-!
# `hpb_Map` refines a finite map

The calls of a map as a system that stands for a finite map on message values, for all types of keys and values.

Two calls do not do what they should. `hpb_Map_Delete` stores to `*val` also when the key is not there, from a
variable that was never set; and `hpb_Map_SetEntryValue` has no arena for the string view of a value. So a key is
deleted with a `val` only if it is there, and the value of an entry is set only if it is no string (`Callable`).

* `Map.calls_simulate`: one call is answered as by the finite map;
* `map_refines`: so is every sequence of calls on a new map.
-/

namespace Hpb

/-- The calls of a map. -/
inductive MapCall where
  | insert (key val : MessageValue)
  | get (key : MessageValue) (val : Option MessageValue)
  /-- `hpb_Map_Delete`; the last argument is what an unset variable holds. -/
  | delete (key : MessageValue) (val : Option MessageValue) (v : List UInt8)
  | next (iter : Int)
  /-- A whole `hpb_Map_Next` loop. -/
  | iterate
  /-- `hpb_Map_SetEntryValue`; the last argument is what an unset variable holds. -/
  | setEntryValue (iter : Nat) (val : MessageValue) (v : List UInt8)
  | clear
  | size

/-- What a call returns. -/
inductive MapEvent where
  | status (s : MapInsertStatus)
  /-- The result, and what is in `*val` then. -/
  | found (ok : Bool) (val : Option MessageValue)
  /-- The key, the value and the new iterator; `none` is the `false` result. -/
  | entry (e : Option (MessageValue × MessageValue × Int))
  | pairs (l : List (MessageValue × MessageValue))
  | size (n : Nat)
  | done
  deriving DecidableEq

namespace Map

/-- One call. -/
def call (s : Map × Alloc) : MapCall → Option (MapEvent × Map × Alloc)
  | .insert key val => do
    let (status, map, a) ← s.1.insert key val s.2
    return (.status status, map, a)
  | .get key val => do
    let (ok, val) ← s.1.get key val
    return (.found ok val, s)
  | .delete key val v => do
    let (ok, val, map) ← s.1.delete key val (.word v)
    return (.found ok val, map, s.2)
  | .next iter => do
    let e ← s.1.next iter
    return (.entry e, s)
  | .iterate => do
    let l ← s.1.iterate (s.1.table.size + 1) (-1)
    return (.pairs l, s)
  | .setEntryValue iter val v => do
    let map ← s.1.setEntryValue iter val (.word v)
    return (.done, map, s.2)
  | .clear => some (.done, s.1.clear, s.2)
  | .size => some (.size s.1.size, s)

/-- The calls that a client may make and that do what they should: keys and values are of the map's types, a
string key has less than `2 ^ 32` bytes, a deleted key is there if its value is asked for, and the value of an
entry is set only if it is no string. -/
def Callable (map : Map) : MapCall → Prop
  | .insert key val => key.Fits map.keySize ∧ val.Fits map.valSize ∧ key.length < 2 ^ 32
  | .get key _ => key.Fits map.keySize
  | .delete key val _ => key.Fits map.keySize ∧ (val.isSome → tokey key map.keySize ∈ map.table.keys)
  | .next iter => -1 ≤ iter
  | .setEntryValue iter val _ => (map.table.pairAt iter).isSome ∧ val.Fits map.valSize ∧ map.valSize ≠ 0
  | _ => True

/-- The finite map after a call. -/
def callNext (map : Map) (m : Finmap fun _ : MessageValue => MessageValue) :
    MapCall → Finmap fun _ : MessageValue => MessageValue
  | .insert key val => m.insert key val
  | .delete key _ _ => m.erase key
  | .setEntryValue iter val _ => ((map.table.pairAt iter).map fun p => m.insert p.1 val).getD m
  | .clear => ∅
  | _ => m

/-- A value that is looked for: it is stored to `*val` only if it is there. -/
def foundIn (m : Finmap fun _ : MessageValue => MessageValue) (key : MessageValue) (val : Option MessageValue) :
    MapEvent :=
  .found (key ∈ m) ((m.lookup key).elim val fun v => val.map fun _ => v)

/-- The entry of the first slot in use after an iterator. -/
def nextIn (map : Map) (m : Finmap fun _ : MessageValue => MessageValue) (iter : Int) :
    Option (MessageValue × MessageValue × Int) := do
  let j ← map.table.next iter
  let p ← map.table.pairAt j
  let val ← m.lookup p.1
  return (p.1, val, j)

/-- What a finite map answers. -/
def CallAnswers (map : Map) (m : Finmap fun _ : MessageValue => MessageValue) : MapCall → MapEvent → Prop
  | .insert key _, ev => ev = .status (if key ∈ m then .replaced else .inserted)
  | .get key val, ev => ev = foundIn m key val
  | .delete key val _, ev => ev = foundIn m key val
  | .next iter, ev => ev = .entry (nextIn map m iter)
  | .iterate, ev => ∃ l, ev = .pairs l ∧ Listing l m
  | .setEntryValue _ _ _, ev => ev = .done
  | .clear, ev => ev = .done
  | .size, ev => ev = .size m.keys.card

/-- The map as a system. -/
def calls : CallSystem (Map × Alloc) (Finmap fun _ : MessageValue => MessageValue) MapCall MapEvent where
  step := call
  Allowed s := Callable s.1
  GivesUp s c := (call s c).any fun r => r.2.2.failed
  next s := callNext s.1
  Answers s := CallAnswers s.1

/-- A map that was just made, with memory. -/
def Fresh (s : Map × Alloc) : Prop :=
  ∃ a keyType valueType, new a keyType valueType = some (some s.1, s.2) ∧ s.2.failed = false

/-- A key of the map's type is stored as it is. -/
theorem tokey_eq {key : MessageValue} {size : Nat} (h : key.Fits size) : tokey key size = key := by
  rw [tokey]
  split
  · rfl
  next h0 => rw [← h h0, List.take_length]

theorem fromkey_eq {key : MessageValue} {size : Nat} (h : key.Fits size) : fromkey key size = some key := by
  rw [fromkey]
  split
  · rfl
  next h0 => rw [h h0, if_neg (Nat.lt_irrefl _), ← h h0, List.take_length]

/-- A value is read back as it was stored, and a string needs memory. -/
theorem tovalue_run {val : MessageValue} {size : Nat} (h : val.Fits size) (v : TabValue) (a : Alloc) :
    (∃ a', tovalue val size v (some a) = some (none, some a') ∧ a'.failed = true) ∨
      ∃ w a', tovalue val size v (some a) = some (some w, some a') ∧ fromvalue w size = some val ∧
        a'.failed = a.failed := by
  by_cases h0 : size = 0
  · subst h0
    obtain ⟨a', ha, hf⟩ | ⟨a', ha, hf⟩ := StrTable.malloc_cases a 16
    · exact .inl ⟨a', by simp [tovalue, ha], hf⟩
    · exact .inr ⟨.strp val, a', by simp [tovalue, ha], by simp [fromvalue], hf⟩
  · have hlen := h h0
    exact .inr ⟨_, a, by rw [tovalue, if_neg h0], by simp [fromvalue, h0, hlen], rfl⟩

/-- The finite map of the table, read back value by value. -/
def Decodes (size : Nat) (tm : Finmap fun _ : StrKey => TabValue)
    (m : Finmap fun _ : MessageValue => MessageValue) : Prop :=
  ∀ k, (tm.lookup k).map (fromvalue · size) = (m.lookup k).map some

/-- The table of a map stands for a finite map of its values. -/
structure Stands (map : Map) (tm : Finmap fun _ : StrKey => TabValue)
    (m : Finmap fun _ : MessageValue => MessageValue) : Prop where
  table : StrTable.Stands map.table tm
  slots : map.table.sizeLg2 ≠ 0
  decodes : Decodes map.valSize tm m
  keys : ∀ k ∈ m, MessageValue.Fits map.keySize k

namespace Decodes

variable {size : Nat} {tm : Finmap fun _ : StrKey => TabValue} {m : Finmap fun _ : MessageValue => MessageValue}
  {k : StrKey} {v : TabValue} {w : MessageValue}

theorem of_some (h : Decodes size tm m) (hv : tm.lookup k = some v) :
    ∃ w, fromvalue v size = some w ∧ m.lookup k = some w := by
  have hk := h k
  rw [hv, Option.map_some] at hk
  obtain ⟨w, hw, hs⟩ := Option.map_eq_some_iff.mp hk.symm
  exact ⟨w, hs.symm, hw⟩

theorem of_none (h : Decodes size tm m) (hv : tm.lookup k = none) : m.lookup k = none := by
  have hk := h k
  rw [hv, Option.map_none] at hk
  exact Option.map_eq_none_iff.mp hk.symm

theorem mem_iff (h : Decodes size tm m) : k ∈ tm ↔ k ∈ m := by
  cases hv : tm.lookup k with
  | none =>
    rw [← Finmap.lookup_isSome, ← Finmap.lookup_isSome, hv, h.of_none hv]
    exact Iff.rfl
  | some v =>
    obtain ⟨w, -, hw⟩ := h.of_some hv
    rw [← Finmap.lookup_isSome, ← Finmap.lookup_isSome, hv, hw]
    exact Iff.rfl

theorem insert (h : Decodes size tm m) (hv : fromvalue v size = some w) :
    Decodes size (tm.insert k v) (m.insert k w) := by
  intro k'
  by_cases hk : k' = k
  · subst hk
    rw [Finmap.lookup_insert, Finmap.lookup_insert, Option.map_some, Option.map_some, hv]
  · rw [Finmap.lookup_insert_of_ne _ hk, Finmap.lookup_insert_of_ne _ hk]
    exact h k'

theorem erase (h : Decodes size tm m) : Decodes size (tm.erase k) (m.erase k) := by
  intro k'
  by_cases hk : k' = k
  · subst hk
    rw [Finmap.lookup_erase, Finmap.lookup_erase]
    rfl
  · rw [Finmap.lookup_erase_ne hk, Finmap.lookup_erase_ne hk]
    exact h k'

end Decodes

section Operations

variable {map : Map} {tm : Finmap fun _ : StrKey => TabValue} {m : Finmap fun _ : MessageValue => MessageValue}
  {key val : MessageValue}

theorem Stands.mem_keys (h : Stands map tm m) {k : StrKey} : k ∈ map.table.keys ↔ k ∈ m :=
  h.table.listing.mem_keys.trans h.decodes.mem_iff

/-- `hpb_strtable_remove2` in a map. -/
theorem Stands.remove2_run (h : Stands map tm m) (k : StrKey) :
    ∃ t', map.table.remove2 k = some (tm.lookup k, t') ∧ Stands { map with table := t' } (tm.erase k) (m.erase k) := by
  have hkeys : ∀ k' ∈ m.erase k, MessageValue.Fits map.keySize k' := fun k' hk' =>
    h.keys k' (Finmap.mem_erase.mp hk').2
  obtain ⟨hrun, hk⟩ | ⟨v, t', hrun, hinv, hp, hlg⟩ := StrTable.remove2_run h.table.inv h.slots k
  · have hm := mt h.table.listing.mem_keys.mpr hk
    refine ⟨map.table, by rw [hrun, Finmap.lookup_eq_none.mpr hm], ?_, h.slots, h.decodes.erase, hkeys⟩
    rw [Finmap.erase_of_notMem hm]
    exact h.table
  · refine ⟨t', by rw [hrun, h.table.listing.lookup_of_perm hp], ?_, ?_, h.decodes.erase, hkeys⟩
    · exact ⟨hinv, h.table.listing.erase hp⟩
    · dsimp only
      rw [hlg]
      exact h.slots

/-- `hpb_strtable_insert` of a key that is not there. -/
theorem Stands.insert_table (h : Stands map tm m) (hk : key ∉ m) (hkey : key.Fits map.keySize)
    (hlen : key.length < 2 ^ 32) {v : TabValue} (hv : fromvalue v map.valSize = some val) (a : Alloc) :
    ∃ r t' a', StrTable.insert map.table key v a = some (r, t', a') ∧
      (a'.failed = false → a.failed = false ∧ r = true ∧
        Stands { map with table := t' } (tm.insert key v) (m.insert key val)) := by
  have hkt : key ∉ map.table.keys := mt h.mem_keys.mp hk
  obtain ⟨r, t', a', hi⟩ := StrTable.insert_run h.table.inv hkt hlen v a
  refine ⟨r, t', a', hi.run, fun hf => ?_⟩
  obtain ⟨hf₀, hr, hp⟩ := hi.ok hf
  refine ⟨hf₀, hr, ?_, ?_, h.decodes.insert hv, fun k hmem => ?_⟩
  · exact ⟨hi.inv, h.table.listing.insert (mt h.decodes.mem_iff.mp hk) hp⟩
  · have := hi.lg2_le
    have := h.slots
    dsimp only
    omega
  · obtain rfl | hmem := Finmap.mem_insert.mp hmem
    exacts [hkey, h.keys k hmem]

theorem insert_erase (m : Finmap fun _ : MessageValue => MessageValue) (key val : MessageValue) :
    (m.erase key).insert key val = m.insert key val := by
  refine Finmap.ext_lookup fun k => ?_
  by_cases hk : k = key
  · subst hk
    rw [Finmap.lookup_insert, Finmap.lookup_insert]
  · rw [Finmap.lookup_insert_of_ne _ hk, Finmap.lookup_insert_of_ne _ hk, Finmap.lookup_erase_ne hk]

/-- **`hpb_Map_Insert`** puts the value in place of the old one. -/
theorem insert_run (h : Stands map tm m) (hkey : key.Fits map.keySize) (hval : val.Fits map.valSize)
    (hlen : key.length < 2 ^ 32) (a : Alloc) :
    ∃ status map' a', map.insert key val a = some (status, map', a') ∧
      (a'.failed = false → status = (if key ∈ m then .replaced else .inserted) ∧
        ∃ tm', Stands map' tm' (m.insert key val)) := by
  rw [insert, tokey_eq hkey]
  obtain ⟨a₁, hto, hf⟩ | ⟨v, a₁, hto, hv, -⟩ := tovalue_run hval .zero a
  · refine ⟨.outOfMemory, map, a₁, by simp [hto], fun hf' => ?_⟩
    rw [hf] at hf'
    cases hf'
  · obtain ⟨t₁, hrm, hst⟩ := h.remove2_run key
    obtain ⟨r, t', a', hrun, hok⟩ := hst.insert_table Finmap.notMem_erase_self hkey hlen hv a₁
    dsimp only at hrun
    refine ⟨if r then (if (tm.lookup key).isSome then .replaced else .inserted) else .outOfMemory,
      { map with table := t' }, a', by simp [hto, hrm, hrun], fun hf => ?_⟩
    obtain ⟨-, rfl, hst'⟩ := hok hf
    rw [insert_erase] at hst'
    refine ⟨?_, _, hst'⟩
    simp only [if_true, Finmap.lookup_isSome, h.decodes.mem_iff]

/-- **`hpb_Map_Get`** stores to `*val` what was inserted last. -/
theorem get_run (h : Stands map tm m) (hkey : key.Fits map.keySize) (val : Option MessageValue) :
    ∃ ok out, map.get key val = some (ok, out) ∧ MapEvent.found ok out = foundIn m key val := by
  have hlook := StrTable.lookup2_run h.table key
  rw [get, tokey_eq hkey, foundIn]
  cases hv : tm.lookup key with
  | none =>
    have hm := h.decodes.of_none hv
    refine ⟨false, val, by simp [hlook, hv], ?_⟩
    simp [hm, Finmap.lookup_eq_none.mp hm]
  | some v =>
    obtain ⟨w, hw, hm⟩ := h.decodes.of_some hv
    have hmem : key ∈ m := Finmap.mem_iff.mpr ⟨w, hm⟩
    cases val with
    | none => exact ⟨true, none, by simp [hlook, hv], by simp [hm, hmem]⟩
    | some old => exact ⟨true, some w, by simp [hlook, hv, hw], by simp [hm, hmem]⟩

/-- **`hpb_Map_Delete`** takes a key out. Its value is asked for only if the key is there. -/
theorem delete_run (h : Stands map tm m) (hkey : key.Fits map.keySize) {val : Option MessageValue}
    (hval : val.isSome → key ∈ m) (v : TabValue) :
    ∃ ok out map', map.delete key val v = some (ok, out, map') ∧ MapEvent.found ok out = foundIn m key val ∧
      ∃ tm', Stands map' tm' (m.erase key) := by
  obtain ⟨t', hrm, hst⟩ := h.remove2_run key
  rw [delete, tokey_eq hkey, foundIn]
  cases hv : tm.lookup key with
  | none =>
    have hm := h.decodes.of_none hv
    have hmem := Finmap.lookup_eq_none.mp hm
    cases val with
    | none => exact ⟨false, none, _, by simp [hrm, hv], by simp [hm, hmem], _, hst⟩
    | some old => exact absurd (hval rfl) hmem
  | some v' =>
    obtain ⟨w, hw, hm⟩ := h.decodes.of_some hv
    have hmem : key ∈ m := Finmap.mem_iff.mpr ⟨w, hm⟩
    cases val with
    | none => exact ⟨true, none, _, by simp [hrm, hv], by simp [hm, hmem], _, hst⟩
    | some old => exact ⟨true, some w, _, by simp [hrm, hv, hw], by simp [hm, hmem], _, hst⟩

/-- `hpb_Map_SetEntryValue`, for values that are no strings. -/
theorem setEntryValue_run (h : Stands map tm m) (hval : val.Fits map.valSize) (h0 : map.valSize ≠ 0) {iter : Nat}
    {k : StrKey} {w : TabValue} (hp : map.table.pairAt iter = some (k, w)) (v : TabValue) :
    ∃ map' tm', map.setEntryValue iter val v = some map' ∧ Stands map' tm' (m.insert k val) := by
  have hto : tovalue val map.valSize v none = some (some (.word (val ++ v.bytes.drop map.valSize)), none) := by
    rw [tovalue, if_neg h0, ← hval h0, List.take_length]
  have hfrom : fromvalue (.word (val ++ v.bytes.drop map.valSize)) map.valSize = some val := by
    simp [fromvalue, h0, hval h0]
  obtain ⟨t', hset, hinv, r, hperm, hperm'⟩ :=
    StrTable.setEntryValue_run h.table.inv hp (.word (val ++ v.bytes.drop map.valSize))
  have hlg : t'.sizeLg2 = map.table.sizeLg2 := by
    obtain ⟨e, he, -⟩ := StrTable.get_of_pairAt hp
    rw [StrTable.setEntryValue, he] at hset
    cases hset
    rfl
  have hk : k ∈ m := h.decodes.mem_iff.mp (Finmap.mem_iff.mpr ⟨w, h.table.listing.lookup_of_perm hperm⟩)
  refine ⟨{ map with table := t' }, _, by simp [setEntryValue, hto, hset],
    ⟨hinv, h.table.listing.replace hperm hperm'⟩, ?_, h.decodes.insert hfrom, fun k' hk' => ?_⟩
  · dsimp only
    rw [hlg]
    exact h.slots
  · obtain rfl | hk' := Finmap.mem_insert.mp hk'
    exacts [h.keys _ hk, h.keys k' hk']

/-- One step of an iteration yields the entry of the next slot in use. -/
theorem next_run (h : Stands map tm m) {iter : Int} (hi : -1 ≤ iter) : map.next iter = some (nextIn map m iter) := by
  have heq : iter = (((iter + 1).toNat : Nat) : Int) - 1 := by omega
  rw [next, nextIn, StrTable.next2]
  obtain ⟨hnext, -⟩ | ⟨j, ⟨k, v⟩, hnext, -, -, hp, hrest⟩ :=
    Table.next_spec h.table.inv.table.length_eq (iter + 1).toNat
  · rw [← heq] at hnext
    simp [hnext]
  · rw [← heq] at hnext
    have hmem : (k, v) ∈ map.table.pairs := by
      have hin : (k, v) ∈ (map.table.entries.drop (iter + 1).toNat).filterMap TabEnt.pair := by
        rw [hrest]
        exact List.mem_cons_self
      exact ((List.drop_sublist _ _).filterMap _).subset hin
    have hv := (h.table.listing.mem_iff _ _).mp hmem
    obtain ⟨w, hw, hm⟩ := h.decodes.of_some hv
    have hkey : fromkey k map.keySize = some k := fromkey_eq (h.keys k (Finmap.mem_iff.mpr ⟨w, hm⟩))
    simp [hnext, hp, hkey, hw, hm]

/-- The pairs that are read back from those of the table. -/
def readBack (map : Map) (p : StrKey × TabValue) : Option (MessageValue × MessageValue) := do
  let key ← fromkey p.1 map.keySize
  let val ← fromvalue p.2 map.valSize
  return (key, val)

theorem iterate_eq (map : Map) (n : Nat) (iter : Int) :
    map.iterate n iter = (map.table.iterate n iter).bind fun l => l.mapM map.readBack := by
  induction n generalizing iter with
  | zero => rfl
  | succ n ih =>
    rw [iterate, StrTable.iterate, next]
    cases map.table.next2 iter with
    | none => rfl
    | some r =>
      cases r with
      | none => rfl
      | some q =>
        obtain ⟨k, v, iter'⟩ := q
        cases hk : fromkey k map.keySize with
        | none =>
          cases htail : map.table.iterate n iter' <;> simp [hk, htail, readBack]
        | some key =>
          cases hv : fromvalue v map.valSize with
          | none => cases htail : map.table.iterate n iter' <;> simp [hk, hv, htail, readBack]
          | some val => cases htail : map.table.iterate n iter' <;> simp [hk, hv, htail, readBack, ih]

theorem mapM_readBack {ps : List (StrKey × TabValue)} (hk : ∀ p ∈ ps, MessageValue.Fits map.keySize p.1)
    (hv : ∀ p ∈ ps, ∃ w, fromvalue p.2 map.valSize = some w) :
    ∃ l, ps.mapM map.readBack = some l ∧ l.map Prod.fst = ps.map Prod.fst ∧
      ∀ k w, (k, w) ∈ l ↔ ∃ v, (k, v) ∈ ps ∧ fromvalue v map.valSize = some w := by
  induction ps with
  | nil => exact ⟨[], rfl, rfl, by simp⟩
  | cons p ps ih =>
    obtain ⟨k, v⟩ := p
    obtain ⟨w, hw⟩ := hv (k, v) List.mem_cons_self
    have hfrom : fromkey k map.keySize = some k := fromkey_eq (hk (k, v) List.mem_cons_self)
    obtain ⟨l, hl, hfst, hmem⟩ := ih (fun q hq => hk q (List.mem_cons_of_mem _ hq))
      fun q hq => hv q (List.mem_cons_of_mem _ hq)
    refine ⟨(k, w) :: l, by simp [readBack, hfrom, hw, hl], by simp [hfst], fun k' w' => ?_⟩
    rw [List.mem_cons, hmem]
    constructor
    · rintro (heq | ⟨v', hv', hw'⟩)
      · cases heq
        exact ⟨v, List.mem_cons_self, hw⟩
      · exact ⟨v', List.mem_cons_of_mem _ hv', hw'⟩
    · rintro ⟨v', hv', hw'⟩
      obtain heq | hv' := List.mem_cons.mp hv'
      · cases heq
        rw [hw] at hw'
        cases hw'
        exact .inl rfl
      · exact .inr ⟨v', hv', hw'⟩

/-- **`hpb_Map_Next`** visits every entry once. -/
theorem iterate_run (h : Stands map tm m) :
    ∃ l, map.iterate (map.table.size + 1) (-1) = some l ∧ Listing l m := by
  have hlookup : ∀ p ∈ map.table.pairs, tm.lookup p.1 = some p.2 := fun p hp => (h.table.listing.mem_iff _ _).mp hp
  have hkeys : ∀ p ∈ map.table.pairs, MessageValue.Fits map.keySize p.1 := fun p hp =>
    h.keys _ (h.mem_keys.mp (List.mem_map_of_mem hp))
  obtain ⟨l, hl, hfst, hmem⟩ := mapM_readBack hkeys fun p hp => by
    obtain ⟨w, hw, -⟩ := h.decodes.of_some (hlookup p hp)
    exact ⟨w, hw⟩
  refine ⟨l, by rw [iterate_eq, StrTable.iterate_run h.table.inv, Option.bind_some, hl], ?_, fun k w => ?_⟩
  · rw [hfst]
    exact h.table.listing.nodup
  · rw [hmem]
    constructor
    · rintro ⟨v, hv, hw⟩
      obtain ⟨w', hw', hm⟩ := h.decodes.of_some (hlookup (k, v) hv)
      rw [hw] at hw'
      cases hw'
      exact hm
    · intro hm
      obtain ⟨v, hv⟩ := Finmap.mem_iff.mp (h.decodes.mem_iff.mpr (Finmap.mem_iff.mpr ⟨w, hm⟩))
      obtain ⟨w', hw', hm'⟩ := h.decodes.of_some hv
      rw [hm] at hm'
      cases hm'
      exact ⟨v, (h.table.listing.mem_iff _ _).mpr hv, hw'⟩

theorem Stands.size_eq (h : Stands map tm m) : map.size = m.keys.card := by
  have hlen := h.table.listing.length_eq
  have hkeys : tm.keys = m.keys := Finset.ext fun k => by
    rw [Finmap.mem_keys, Finmap.mem_keys, h.decodes.mem_iff]
  rw [size, h.table.inv.table.count_eq, hlen, hkeys]

theorem Stands.clear (h : Stands map tm m) : Stands map.clear ∅ ∅ := by
  refine ⟨StrTable.clear_stands h.table.inv, h.slots, fun k => ?_, fun k hk => absurd hk Finmap.notMem_empty⟩
  rw [Finmap.lookup_empty, Finmap.lookup_empty]
  rfl

end Operations

/-- **A map answers as its finite map does.** -/
theorem calls_simulate : calls.Simulates fun s m => ∃ tm, Stands s.1 tm m := by
  rintro ⟨map, a⟩ m c ⟨tm, h⟩ hc hgives
  cases c with
  | insert key val =>
    obtain ⟨hkey, hval, hlen⟩ := hc
    obtain ⟨status, map', a', hrun, hok⟩ := insert_run h hkey hval hlen a
    have hfailed : a'.failed = false := by simpa [calls, call, hrun] using hgives
    obtain ⟨rfl, hst⟩ := hok hfailed
    exact ⟨_, (map', a'), by simp [calls, call, hrun], rfl, hst⟩
  | get key val =>
    obtain ⟨ok, out, hrun, hans⟩ := get_run h hc val
    exact ⟨_, (map, a), by simp [calls, call, hrun], hans, tm, h⟩
  | delete key val v =>
    obtain ⟨hkey, hval⟩ := hc
    rw [tokey_eq hkey, h.mem_keys] at hval
    obtain ⟨ok, out, map', hrun, hans, hst⟩ := delete_run h hkey hval (.word v)
    exact ⟨_, (map', a), by simp [calls, call, hrun], hans, hst⟩
  | next iter =>
    have hrun := next_run h hc
    exact ⟨_, (map, a), by simp [calls, call, hrun], rfl, tm, h⟩
  | iterate =>
    obtain ⟨l, hrun, hl⟩ := iterate_run h
    exact ⟨_, (map, a), by simp [calls, call, hrun], ⟨l, rfl, hl⟩, tm, h⟩
  | setEntryValue iter val v =>
    obtain ⟨hsome, hval, h0⟩ := hc
    obtain ⟨⟨k, w⟩, hp⟩ := Option.isSome_iff_exists.mp hsome
    obtain ⟨map', tm', hrun, hst⟩ := setEntryValue_run h hval h0 hp (.word v)
    refine ⟨.done, (map', a), by simp [calls, call, hrun], rfl, tm', ?_⟩
    have hnext : calls.next (map, a) m (.setEntryValue iter val v) = m.insert k val := by
      simp [calls, callNext, hp]
    rw [hnext]
    exact hst
  | clear => exact ⟨.done, (map.clear, a), rfl, rfl, ∅, h.clear⟩
  | size => exact ⟨_, (map, a), rfl, congrArg MapEvent.size h.size_eq, tm, h⟩

/-- A new map with memory is empty. -/
theorem fresh_stands {s : Map × Alloc} (h : Fresh s) : Stands s.1 ∅ ∅ := by
  obtain ⟨map, a⟩ := s
  obtain ⟨a₀, keyType, valueType, hnew, hok⟩ := h
  have hlg : log2Ceiling (StrTable.sizeToInt (StrTable.needEntries 4)) = 3 := by decide
  rw [new] at hnew
  obtain ⟨a₁, hm, -⟩ | ⟨a₁, hm, -⟩ := StrTable.malloc_cases a₀ structBytes
  · rw [hm] at hnew
    cases hnew
  rw [hm] at hnew
  dsimp only at hnew
  obtain ⟨a₂, hinit, hf⟩ | ⟨-, a₂, hinit, -⟩ := Table.init_spec (K := StrKey) (V := TabValue) (s := 3) (by decide) a₁
  · rw [StrTable.init, hlg, hinit] at hnew
    cases hnew
    rw [hf] at hok
    cases hok
  · rw [StrTable.init, hlg, hinit] at hnew
    cases hnew
    refine ⟨⟨⟨Table.empty_inv (by decide), Nat.zero_le _, by simp [Table.keys]⟩, ?_⟩, ?_, fun k => ?_,
      fun k hk => absurd hk Finmap.notMem_empty⟩
    · dsimp only [Option.getD_some]
      rw [Table.empty_pairs]
      exact Listing.nil
    · change 3 ≠ 0
      decide
    · rw [Finmap.lookup_empty, Finmap.lookup_empty]
      rfl

end Map

/-- **`hpb_Map` refines a finite map**: every sequence of calls on a new map, for keys and values of any types, is
answered as by the finite map, as long as allocations succeed and the calls meet their conditions. -/
theorem map_refines {s : Map × Alloc} (h : Map.Fresh s) (cs : List MapCall) : Map.calls.Behaves s ∅ cs :=
  Map.calls_simulate.behaves ⟨∅, Map.fresh_stands h⟩ cs

/-- A map from `bool` to `int32` in an arena that has memory: it is made, a key is inserted and found. -/
theorem map_refines_bool :
    ∃ s, Map.Fresh s ∧
      Map.calls.Behaves s ∅ [.insert [1] [7, 0, 0, 0], .get [1] (some [0, 0, 0, 0]), .delete [1] none []] := by
  have hfresh : Map.Fresh (⟨1, 4, Table.empty 3⟩, { Alloc.granting with calls := 2 }) :=
    ⟨.granting, .bool, .int32, rfl, rfl⟩
  exact ⟨_, hfresh, map_refines hfresh _⟩

/-- A key of type `bool` that is not there, deleted with a `val` of type `int32`: what happened to be in a variable
is stored to it. -/
theorem not_map_refines_delete :
    ¬∀ s, Map.Fresh s → ∀ (key : MessageValue) (val : Option MessageValue) (v : List UInt8),
        key.Fits s.1.keySize → v.length = 8 →
        (Map.call s (.delete key val v)).map Prod.fst = some (Map.foundIn ∅ key val) := by
  intro h
  have hfresh : Map.Fresh (⟨1, 4, Table.empty 3⟩, { Alloc.granting with calls := 2 }) :=
    ⟨.granting, .bool, .int32, rfl, rfl⟩
  have hdel := h _ hfresh [1] (some [0, 0, 0, 0]) [1, 2, 3, 4, 5, 6, 7, 8] (fun _ => rfl) rfl
  have hrun : (Map.call (⟨1, 4, Table.empty 3⟩, { Alloc.granting with calls := 2 })
      (.delete [1] (some [0, 0, 0, 0]) [1, 2, 3, 4, 5, 6, 7, 8])).map Prod.fst =
      some (.found false (some [1, 2, 3, 4])) := by decide
  rw [hrun] at hdel
  cases hdel

end Hpb
