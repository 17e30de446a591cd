import Hpb.MiniDescriptor.LayoutKeeps
import Hpb.MiniTable.FindField

/-!
# The field numbers of a built mini table

A descriptor has no numbers in it but distances: a field comes one after the field before it, or as far from it as the
skips between the two say. The parser adds the distances up in 32 bits, counts the fields in 16 bits and those before
the first skip in 8 bits, and checks none of these.

* `tokens`, `distances`: the fields and skips of a descriptor, and the distances that they stand for.
* `parse_numbers`: what the parser makes of them.
* `build_numbersRight_iff`: the numbers are what `hpb_MiniTable_FindFieldByNumber` relies on if and only if the
  distances are positive and stay below `2 ^ 32`, and no more fields are taken for dense than there are.
-/

namespace Hpb

namespace MiniTable

/-- The fields up to `field_count`. -/
def counted (t : MiniTable) : List MiniTableField := t.fields.take t.fieldCount

/-- The numbers of the fields ascend from 1 on, the dense fields have their places for numbers, and
`hpb_MiniTable_FindFieldByNumber` finds every field by its number and nothing else. -/
structure NumbersRight (t : MiniTable) : Prop where
  nonzero : ∀ f ∈ t.counted, f.number ≠ 0
  ascending : t.counted.Pairwise fun f g => f.number < g.number
  dense : ∀ i < t.denseBelow, ∃ f : MiniTableField, t.counted[i]? = some f ∧ f.number = i + 1
  found : ∀ number i, findFieldByNumber t.fields t.denseBelow t.fieldCount number = some i ↔
    ∃ f : MiniTableField, t.counted[i]? = some f ∧ f.number = number

section

variable {fields : List MiniTableField} {number count denseBelow : Nat}

/-- A search below `count` reads no field behind it. -/
theorem searchField_take {fuel : Nat} {lo hi : Int} (hlo : 0 ≤ lo) (hhi : hi < count) :
    searchField (fields.take count) number fuel lo hi = searchField fields number fuel lo hi := by
  induction fuel generalizing lo hi with
  | zero => rfl
  | succ fuel ih =>
    rw [searchField, searchField]
    split
    next hle =>
      dsimp only
      rw [List.getElem?_take_of_lt (by omega : ((lo + hi) / 2).toNat < count)]
      split
      next => rfl
      next => rw [ih (by omega) hhi, ih hlo (by omega)]
    next => rfl

theorem findFieldByNumber_take (fields : List MiniTableField) (denseBelow count number : Nat) :
    findFieldByNumber (fields.take count) denseBelow count number = findFieldByNumber fields denseBelow count number := by
  rw [findFieldByNumber, findFieldByNumber, searchField_take (Int.natCast_nonneg _) (by omega)]

end

/-- What is to be shown of the numbers. -/
theorem numbersRight_iff {t : MiniTable} (hlen : t.counted.length = t.fieldCount) :
    t.NumbersRight ↔ (0 :: t.counted.map (·.number)).Pairwise (· < ·) ∧
      ∀ i < t.denseBelow, ∃ f : MiniTableField, t.counted[i]? = some f ∧ f.number = i + 1 := by
  constructor
  · intro h
    refine ⟨List.pairwise_cons.mpr ⟨fun n hn => ?_, List.pairwise_map.mpr h.ascending⟩, h.dense⟩
    obtain ⟨f, hf, rfl⟩ := List.mem_map.mp hn
    exact Nat.pos_of_ne_zero (h.nonzero f hf)
  · rintro ⟨hpair, hdense⟩
    obtain ⟨hpos, hpair⟩ := List.pairwise_cons.mp hpair
    have hsearch : Searchable t.counted t.denseBelow := ⟨List.pairwise_map.mp hpair, hdense⟩
    refine ⟨fun f hf => ?_, hsearch.ascending, hdense, fun number i => ?_⟩
    · exact Nat.ne_of_gt (hpos _ (List.mem_map_of_mem hf))
    · rw [← findFieldByNumber_take, ← counted, ← hlen]
      constructor
      · exact findFieldByNumber_some hsearch
      · rintro ⟨f, hf, rfl⟩
        exact findFieldByNumber_eq hsearch hf

end MiniTable

/-- What a descriptor has for the numbers of its fields. -/
inductive NumberToken where
  | field
  | skip (n : Nat)
  deriving DecidableEq, Repr

/-- The fields and skips of a descriptor, after the characters that belong to the character before. -/
def tokens : Nat → List UInt8 → List NumberToken
  | _, [] => []
  | skip + 1, _ :: rest => tokens skip rest
  | 0, ch :: rest =>
    if charValue ch ≤ 73 then .field :: tokens 0 rest
    else if 76 ≤ ch ∧ ch ≤ 91 then
      match decodeVarint 76 91 0 0 ch rest with
      | some (skip, _) => tokens skip rest
      | none => []
    else if ch = 94 then []
    else
      match decodeVarint 95 126 0 0 ch rest with
      | some (skip, n) => .skip n.toNat :: tokens skip rest
      | none => []

/-- The distance of the next field after a skip, in 32 bits. -/
def skipped (dist n : Nat) : Nat := (2 ^ 32 - 1 + dist + n) % 2 ^ 32

/-- The distance of each field from the one before it. -/
def distances : List NumberToken → Nat → List Nat
  | [], _ => []
  | .field :: ts, dist => dist :: distances ts 1
  | .skip n :: ts, dist => distances ts (skipped dist n)

/-- The fields before the first skip. -/
def denseFields : List NumberToken → Nat
  | [] => 0
  | .field :: ts => denseFields ts + 1
  | .skip _ :: _ => 0

/-- The numbers at distances. -/
def numbersFrom (prev : Nat) : List Nat → List Nat
  | [] => []
  | j :: js => (prev + j) % 2 ^ 32 :: numbersFrom ((prev + j) % 2 ^ 32) js

/-- **The distances are positive and stay below `2 ^ 32`.** -/
def Climbs (prev : Nat) : List Nat → Prop
  | [] => True
  | j :: js => 0 < j ∧ prev + j < 2 ^ 32 ∧ Climbs (prev + j) js

section Distances

variable {prev dist : Nat} {js : List Nat} {ts : List NumberToken}

theorem length_numbersFrom (prev : Nat) (js : List Nat) : (numbersFrom prev js).length = js.length := by
  induction js generalizing prev with
  | nil => rfl
  | cons j js ih => rw [numbersFrom, List.length_cons, ih, List.length_cons]

theorem take_numbersFrom (prev : Nat) (js : List Nat) (n : Nat) :
    (numbersFrom prev js).take n = numbersFrom prev (js.take n) := by
  induction js generalizing prev n with
  | nil => simp [numbersFrom]
  | cons j js ih =>
    cases n with
    | zero => rfl
    | succ n => rw [numbersFrom, List.take_succ_cons, ih, List.take_succ_cons, numbersFrom]

theorem distances_lt (hdist : dist < 2 ^ 32) : ∀ j ∈ distances ts dist, j < 2 ^ 32 := by
  induction ts generalizing dist with
  | nil => exact fun j hj => absurd hj List.not_mem_nil
  | cons t ts ih =>
    cases t with
    | field =>
      rw [distances]
      exact List.forall_mem_cons.mpr ⟨hdist, ih (by omega)⟩
    | skip n =>
      have hskipped : skipped dist n < 2 ^ 32 := by
        rw [skipped]
        omega
      rw [distances]
      exact ih hskipped

/-- Numbers ascend if and only if their distances climb. -/
theorem ascending_iff (hprev : prev < 2 ^ 32) (hjs : ∀ j ∈ js, j < 2 ^ 32) :
    (prev :: numbersFrom prev js).Pairwise (· < ·) ↔ Climbs prev js := by
  induction js generalizing prev with
  | nil => exact iff_of_true (List.pairwise_singleton _ _) trivial
  | cons j js ih =>
    obtain ⟨hj, hjs⟩ := List.forall_mem_cons.mp hjs
    have ih := ih (Nat.mod_lt (prev + j) (Nat.two_pow_pos 32)) hjs
    rw [numbersFrom, Climbs]
    constructor
    · intro h
      obtain ⟨hlt, hrest⟩ := List.pairwise_cons.mp h
      have hstep : prev < (prev + j) % 2 ^ 32 := hlt _ List.mem_cons_self
      have hsum : (prev + j) % 2 ^ 32 = prev + j := by omega
      rw [hsum] at hrest hstep ih
      exact ⟨by omega, by omega, ih.mp hrest⟩
    · rintro ⟨hpos, hlt, hrest⟩
      rw [Nat.mod_eq_of_lt hlt] at ih ⊢
      have hpair := ih.mpr hrest
      refine List.pairwise_cons.mpr ⟨fun n hn => ?_, hpair⟩
      obtain rfl | hn := List.mem_cons.mp hn
      · omega
      · exact Nat.lt_trans (by omega) ((List.pairwise_cons.mp hpair).1 n hn)

/-- The numbers before the first skip. -/
theorem numbersFrom_dense {i : Nat} (hi : i < denseFields ts) (hlt : prev + i + 1 < 2 ^ 32) :
    (numbersFrom prev (distances ts 1))[i]? = some (prev + i + 1) := by
  induction ts generalizing prev i with
  | nil => exact absurd hi (Nat.not_lt_zero i)
  | cons t ts ih =>
    cases t with
    | skip n => exact absurd hi (Nat.not_lt_zero i)
    | field =>
      have hnext : (prev + 1) % 2 ^ 32 = prev + 1 := Nat.mod_eq_of_lt (by omega)
      rw [distances, numbersFrom, hnext]
      cases i with
      | zero => rw [List.getElem?_cons_zero]
      | succ i =>
        rw [List.getElem?_cons_succ, ih (Nat.lt_of_succ_lt_succ hi) (by omega)]
        exact congrArg some (by omega)

end Distances

namespace MtDecoder

variable {d d' : MtDecoder}

theorem keeps_number : LayoutKeeps MiniTableField.number := fun _ _ _ => rfl

theorem setField_number {p : Platform} {ch : UInt8} {number : Nat} {mods : UInt32} {subs : SubCounts}
    {r : MiniTableField × SubCounts} (h : setField p ch number mods subs = .ok r) : r.1.number = number := by
  obtain ⟨⟨mode, offset, type⟩, -, h⟩ := Except.bind_eq_ok.mp h
  dsimp only at h
  split at h
  · cases h
  split at h
  · cases h
  · cases h
    unfold setTypeAndSub
    dsimp only
    split_ifs <;> rfl

theorem modifyField_number {mods : UInt32} {f g : MiniTableField} (h : modifyField mods f = .ok g) :
    g.number = f.number := by
  obtain ⟨f₁, hf₁, h⟩ := Except.bind_eq_ok.mp h
  have hsame : f₁.number = f.number := by
    unfold flipPacked at hf₁
    split_ifs at hf₁ <;> cases hf₁ <;> rfl
  dsimp only at h
  split_ifs at h <;> cases h <;> exact hsame

/-- The parts of the decoder that the numbers depend on are the same. -/
structure SameNumbers (d d' : MtDecoder) : Prop where
  numbers : d'.fields.map (·.number) = d.fields.map (·.number)
  fieldCount : d'.fieldCount = d.fieldCount
  denseBelow : d'.denseBelow = d.denseBelow
  extension : d'.extension = d.extension

theorem SameNumbers.trans {d'' : MtDecoder} (h : SameNumbers d d') (h' : SameNumbers d' d'') : SameNumbers d d'' :=
  ⟨h'.numbers.trans h.numbers, h'.fieldCount.trans h.fieldCount, h'.denseBelow.trans h.denseBelow,
    h'.extension.trans h.extension⟩

theorem SameNumbers.length (h : SameNumbers d d') : d'.fields.length = d.fields.length := by
  simpa using congrArg List.length h.numbers

theorem pushOneof_numbers {item : LayoutItem} {members : List Nat} (hr : d.pushOneof item members = .ok d') :
    SameNumbers d d' := by
  unfold pushOneof at hr
  split at hr <;> cases hr
  exact ⟨rfl, rfl, rfl, rfl⟩

/-- The oneofs leave the numbers alone. -/
theorem decodeOneofs_numbers {item : LayoutItem} {members : List Nat} {skip : Nat} {data : List UInt8}
    (hr : d.decodeOneofs item members skip data = .ok d') : SameNumbers d d' := by
  induction data generalizing d item members skip with
  | nil =>
    rw [decodeOneofs] at hr
    exact pushOneof_numbers hr
  | cons ch rest ih =>
    cases skip with
    | succ skip =>
      rw [decodeOneofs] at hr
      exact ih hr
    | zero =>
      rw [decodeOneofs] at hr
      split_ifs at hr
      · exact ih hr
      · obtain ⟨d₁, h₁, hr⟩ := Except.bind_eq_ok.mp hr
        exact (pushOneof_numbers h₁).trans (ih hr)
      · obtain ⟨⟨skip, number⟩, -, hr⟩ := Except.bind_eq_ok.mp hr
        obtain ⟨⟨d₁, item₁, members₁⟩, h₁, hr⟩ := Except.bind_eq_ok.mp hr
        obtain ⟨i, f, hf, -, rfl, -, -⟩ := addToOneof_eq_ok h₁
        have hsame : SameNumbers d { d with fields := d.fields.set i { f with offset := item.fieldIndex } } :=
          ⟨map_set_eq hf rfl, rfl, rfl, rfl⟩
        exact hsame.trans (ih hr)

theorem applyModifier_numbers {l l' : Locals} {mod : UInt32} (hr : d.applyModifier l mod = .ok (d', l')) :
    SameNumbers d d' ∧ l'.lastFieldNumber = l.lastFieldNumber ∧ l'.needDenseBelow = l.needDenseBelow := by
  unfold applyModifier at hr
  split at hr
  next f hf =>
    obtain ⟨g, hg, hr⟩ := Except.bind_eq_ok.mp hr
    cases hr
    refine ⟨⟨?_, rfl, rfl, rfl⟩, rfl, rfl⟩
    conv_rhs => rw [← List.dropLast_append_getLast? f hf]
    rw [List.map_append, List.map_append, List.map_singleton, List.map_singleton, modifyField_number hg]
  next =>
    split at hr
    · cases hr
    · cases hr
      exact ⟨⟨rfl, rfl, rfl, rfl⟩, rfl, rfl⟩

/-- The numbers after more of a descriptor, with the number `prev` so far and the distance `dist` to the next one. -/
structure ParsedNumbers (d d' : MtDecoder) (needDenseBelow : Bool) (prev dist : Nat) (ts : List NumberToken) : Prop where
  numbers : d'.fields.map (·.number) = d.fields.map (·.number) ++ numbersFrom prev (distances ts dist)
  count : d'.fieldCount = d'.fields.length % 2 ^ 16
  dense : d'.denseBelow = if needDenseBelow then (d.fields.length + denseFields ts) % 2 ^ 8 else d.denseBelow

theorem SameNumbers.parsedNumbers {need : Bool} {prev dist : Nat} {d'' : MtDecoder} {ts : List NumberToken}
    (h : SameNumbers d d') (h' : ParsedNumbers d' d'' need prev dist ts) : ParsedNumbers d d'' need prev dist ts where
  numbers := by rw [h'.numbers, h.numbers]
  count := h'.count
  dense := by rw [h'.dense, h.length, h.denseBelow]

theorem endParse_numbers (l : Locals) (prev dist : Nat) (hc : d.fieldCount = d.fields.length % 2 ^ 16) :
    ParsedNumbers d (d.endParse l) l.needDenseBelow prev dist [] := by
  have hdense : d.fieldCount % 2 ^ 8 = (d.fields.length + denseFields []) % 2 ^ 8 := by
    rw [hc, denseFields]
    omega
  have hnumbers : d.fields.map (·.number) = d.fields.map (·.number) ++ numbersFrom prev (distances [] dist) := by
    rw [distances, numbersFrom, List.append_nil]
  unfold endParse
  split
  next h => exact ⟨hnumbers, hc, hdense.trans (if_pos h).symm⟩
  next h => exact ⟨hnumbers, hc, (if_neg h).symm⟩

theorem decodeBase92Varint_eq_ok {min max first : UInt8} {rest : List UInt8} {r : Nat × UInt32}
    (h : decodeBase92Varint min max first rest = .ok r) : decodeVarint min max 0 0 first rest = some r := by
  unfold decodeBase92Varint at h
  split at h
  next hr =>
    cases h
    exact hr
  next => cases h

/-- **The numbers of a parsed message** are those at the distances of its descriptor. -/
theorem parse_numbers {l : Locals} {skip prev dist : Nat} {data rest : List UInt8} (ht : d.extension = false)
    (hc : d.fieldCount = d.fields.length % 2 ^ 16)
    (hlast : (l.lastFieldNumber + 1) % 2 ^ 32 = (prev + dist) % 2 ^ 32)
    (hr : d.parse l skip data = .ok (d', rest)) :
    ParsedNumbers d d' l.needDenseBelow prev dist (tokens skip data) := by
  induction data generalizing d l skip prev dist with
  | nil =>
    rw [parse] at hr
    cases hr
    rw [tokens]
    exact endParse_numbers l prev dist hc
  | cons ch data ih =>
    cases skip with
    | succ skip =>
      rw [parse] at hr
      rw [tokens]
      exact ih ht hc hlast hr
    | zero =>
      rw [parse] at hr
      rw [tokens]
      split at hr
      next hfield =>
        rw [if_neg (by simp [ht])] at hr
        rw [if_pos hfield]
        obtain ⟨⟨f, subs⟩, hf, hr⟩ := Except.bind_eq_ok.mp hr
        dsimp only at hr
        have hnumber : f.number = (prev + dist) % 2 ^ 32 := (setField_number hf).trans hlast
        have hrest : ParsedNumbers _ d' l.needDenseBelow ((prev + dist) % 2 ^ 32) 1 (tokens 0 data) :=
          ih (l := ⟨l.msgModifiers, (l.lastFieldNumber + 1) % 2 ^ 32, l.needDenseBelow⟩) (by exact ht) (by simp [hc])
            (by dsimp only; rw [hlast]) hr
        refine ⟨?_, hrest.count, ?_⟩
        · rw [hrest.numbers, List.map_append, List.map_singleton, hnumber, distances, numbersFrom, List.append_assoc]
          rfl
        · rw [hrest.dense, List.length_append, List.length_singleton, denseFields]
          exact if_congr Iff.rfl (congrArg (· % 2 ^ 8) (by omega)) rfl
      next hfield =>
      rw [if_neg hfield]
      split at hr
      next hmod =>
        rw [if_pos hmod]
        obtain ⟨⟨skip, mod⟩, hv, hr⟩ := Except.bind_eq_ok.mp hr
        obtain ⟨⟨d₁, l₁⟩, hm, hr⟩ := Except.bind_eq_ok.mp hr
        obtain ⟨hsame, hlast₁, hneed₁⟩ := applyModifier_numbers hm
        dsimp only at hr
        rw [decodeBase92Varint_eq_ok hv]
        dsimp only
        rw [← hneed₁]
        refine hsame.parsedNumbers ?_
        have hrest : ParsedNumbers _ d' l₁.needDenseBelow prev dist (tokens skip data) :=
          ih (by exact hsame.extension.trans ht) (by rw [hsame.fieldCount, hc, hsame.length])
            (by rw [hlast₁]; exact hlast) hr
        exact ⟨hrest.numbers, hrest.count, hrest.dense⟩
      next hmod =>
      rw [if_neg hmod]
      split at hr
      next hend =>
        rw [if_neg (by simp [ht])] at hr
        rw [if_pos hend]
        obtain ⟨d₁, ho, hr⟩ := Except.bind_eq_ok.mp hr
        cases hr
        have hsame := decodeOneofs_numbers ho
        exact hsame.parsedNumbers (endParse_numbers l prev dist (by rw [hsame.fieldCount, hc, hsame.length]))
      next hend =>
      rw [if_neg hend]
      split at hr
      next hskip =>
        obtain ⟨⟨skip, n⟩, hv, hr⟩ := Except.bind_eq_ok.mp hr
        rw [decodeBase92Varint_eq_ok hv]
        dsimp only at hr ⊢
        have hdense : d.fieldCount % 2 ^ 8 = (d.fields.length + 0) % 2 ^ 8 := by
          rw [hc]
          omega
        have hnext : ((l.lastFieldNumber + n.toNat + (2 ^ 32 - 1)) % 2 ^ 32 + 1) % 2 ^ 32 =
            (prev + skipped dist n.toNat) % 2 ^ 32 := by
          rw [skipped]
          omega
        by_cases hneed : l.needDenseBelow
        · rw [if_pos hneed] at hr
          have hrest : ParsedNumbers _ d' false prev (skipped dist n.toNat) (tokens skip data) :=
            ih (l := ⟨l.msgModifiers, _, false⟩) (by exact ht) (by exact hc) hnext hr
          refine ⟨?_, hrest.count, ?_⟩
          · rw [hrest.numbers, distances]
          · rw [hrest.dense, if_neg (by decide), if_pos hneed, denseFields]
            exact hdense
        · rw [if_neg hneed] at hr
          have hrest : ParsedNumbers _ d' false prev (skipped dist n.toNat) (tokens skip data) :=
            ih (l := ⟨l.msgModifiers, _, false⟩) (by exact ht) (by exact hc) hnext hr
          refine ⟨?_, hrest.count, ?_⟩
          · rw [hrest.numbers, distances]
          · rw [hrest.dense, if_neg (by decide), if_neg hneed]
      next => cases hr

theorem parseMessage_numbers {p : Platform} {data : List UInt8} (hr : parseMessage p data = .ok d) :
    ParsedNumbers (start p) d true 0 1 (tokens 0 data) := by
  obtain ⟨⟨d', rest⟩, hr, hd⟩ := Except.bind_eq_ok.mp hr
  cases hd
  exact parse_numbers rfl rfl rfl hr

theorem allocateSubs_numbers (d : MtDecoder) : SameNumbers d d.allocateSubs := by
  unfold allocateSubs
  split
  · exact ⟨rfl, rfl, rfl, rfl⟩
  · refine ⟨?_, rfl, rfl, rfl⟩
    dsimp only
    rw [List.map_append, List.map_map]
    conv_rhs => rw [← List.take_append_drop d.fieldCount d.fields, List.map_append]
    refine congrArg (· ++ _) (List.map_congr_left fun f _ => ?_)
    dsimp only [Function.comp_apply]
    split <;> rfl

/-- The numbers in a table. -/
structure BuiltNumbers (t : MiniTable) (ts : List NumberToken) : Prop where
  numbers : t.fields.map (·.number) = numbersFrom 0 (distances ts 1)
  count : t.fieldCount = t.fields.length % 2 ^ 16
  dense : t.denseBelow = denseFields ts % 2 ^ 8

theorem ParsedNumbers.built {p : Platform} {t : MiniTable} {ts : List NumberToken}
    (h : ParsedNumbers (start p) d true 0 1 ts) (hf : t.fields.map (·.number) = d.fields.map (·.number))
    (hc : t.fieldCount = d.fieldCount) (hd : t.denseBelow = d.denseBelow) : BuiltNumbers t ts := by
  have hlen : t.fields.length = d.fields.length := by simpa using congrArg List.length hf
  refine ⟨hf.trans h.numbers, by rw [hc, h.count, hlen], ?_⟩
  rw [hd, h.dense, if_pos rfl, start, List.length_nil, Nat.zero_add]

/-- **The numbers of a table that `build` accepts.** -/
theorem build_numbers {p : Platform} {desc : List UInt8} {t : MiniTable} (hb : build p desc = .ok t) :
    BuiltNumbers t (tokens 0 desc.tail) := by
  unfold build at hb
  split at hb
  · cases hb
    exact ⟨rfl, rfl, rfl⟩
  · obtain ⟨d, hd, hb⟩ := Except.bind_eq_ok.mp hb
    obtain ⟨⟨fields, required, bytes⟩, hh, hb⟩ := Except.bind_eq_ok.mp hb
    have hsame := allocateSubs_numbers d
    dsimp only at hb
    split at hb
    · cases hb
    split at hb
    next key val rest =>
      split at hb
      · cases hb
      obtain ⟨_, -, hb⟩ := Except.bind_eq_ok.mp hb
      obtain ⟨_, -, hb⟩ := Except.bind_eq_ok.mp hb
      cases hb
      refine (parseMessage_numbers hd).built ?_ hsame.fieldCount hsame.denseBelow
      exact (assignHasbits_map keeps_number hh).trans hsame.numbers
    next => cases hb
  · obtain ⟨d, hd, hb⟩ := Except.bind_eq_ok.mp hb
    obtain ⟨⟨fields, required, bytes⟩, hl, hb⟩ := Except.bind_eq_ok.mp hb
    cases hb
    exact (parseMessage_numbers hd).built ((layout_map keeps_number hl).trans (allocateSubs_numbers d).numbers) rfl rfl
  · split at hb
    · cases hb
    next hlen =>
      cases hb
      rw [List.eq_nil_of_length_eq_zero (Nat.eq_zero_of_not_pos hlen)]
      exact ⟨rfl, rfl, rfl⟩
  · cases hb

/-- **The numbers of a built table are right** if and only if the distances of the counted fields climb, and no more
fields are dense than there are. -/
theorem build_numbersRight_iff {p : Platform} {desc : List UInt8} {t : MiniTable} (hb : build p desc = .ok t) :
    t.NumbersRight ↔
      Climbs 0 ((distances (tokens 0 desc.tail) 1).take ((distances (tokens 0 desc.tail) 1).length % 2 ^ 16)) ∧
        denseFields (tokens 0 desc.tail) % 2 ^ 8 ≤ (distances (tokens 0 desc.tail) 1).length % 2 ^ 16 := by
  obtain ⟨hnumbers, hcount, hdense⟩ := build_numbers hb
  generalize tokens 0 desc.tail = ts at hnumbers hdense ⊢
  have hlength : t.fields.length = (distances ts 1).length := by
    rw [← length_numbersFrom 0, ← hnumbers, List.length_map]
  rw [← hlength, ← hcount, ← hdense]
  have hlen : t.counted.length = t.fieldCount := by
    rw [MiniTable.counted, List.length_take, hcount]
    exact Nat.min_eq_left (Nat.mod_le _ _)
  have hmap : t.counted.map (·.number) = numbersFrom 0 ((distances ts 1).take t.fieldCount) := by
    rw [MiniTable.counted, List.map_take, hnumbers, take_numbersFrom]
  rw [MiniTable.numbersRight_iff hlen, hmap,
    ascending_iff (by decide) fun j hj => distances_lt (by decide) j (List.mem_of_mem_take hj)]
  refine and_congr_right fun _ => ⟨fun h => ?_, fun hle i hi => ?_⟩
  · -- the field behind the last one is not there
    by_contra hlt
    obtain ⟨f, hf, -⟩ := h t.fieldCount (Nat.lt_of_not_le hlt)
    exact absurd (List.getElem?_eq_some_iff.mp hf).1 (by omega)
  · have hget : t.counted[i]? = t.fields[i]? := List.getElem?_take_of_lt (Nat.lt_of_lt_of_le hi hle)
    have hnumber : (t.fields.map (·.number))[i]? = some (0 + i + 1) := by
      rw [hnumbers]
      have := Nat.mod_le (denseFields ts) (2 ^ 8)
      exact numbersFrom_dense (by omega) (by omega)
    rw [List.getElem?_map] at hnumber
    obtain ⟨f, hf, hn⟩ := Option.map_eq_some_iff.mp hnumber
    exact ⟨f, hget.trans hf, by omega⟩

/-- Two `int32` fields, parsed, the second one with the number `number`. -/
def twoInts (number denseBelow : Nat) : MtDecoder where
  platform := .bits64
  extension := false
  fields := [⟨1, 1, 0, noSub, .int32, 66⟩, ⟨number, 1, 0, noSub, .int32, 66⟩]
  fieldCount := 2
  denseBelow := denseBelow
  ext := 0
  subCounts := ⟨0, 0⟩
  vec := []
  oneofs := []

theorem twoInts_layout (number denseBelow : Nat) : (twoInts number denseBelow).layout = .ok
    ([⟨1, 4, 1, noSub, .int32, 66⟩, ⟨number, 8, 2, noSub, .int32, 66⟩], 0, 12) := by
  have hsort : ∀ fs : List MiniTableField, fieldItems fs 2 = [⟨0, 0, .fourByte, .field⟩, ⟨1, 0, .fourByte, .field⟩] →
      sortLayoutItems { twoInts number denseBelow with fields := fs } =
        [⟨0, 0, .fourByte, .field⟩, ⟨1, 0, .fourByte, .field⟩] := by
    intro fs hfs
    change (fieldItems fs 2).mergeSort _ = _
    rw [hfs]
    exact List.mergeSort_of_pairwise (by decide)
  have hrep : FieldRep.ofBits ((66 : UInt8) >>> 6) = .fourByte := by decide
  change (assignOffsets .bits64 1 (sortLayoutItems { twoInts number denseBelow with fields :=
    [⟨1, 1, 1, noSub, .int32, 66⟩, ⟨number, 1, 2, noSub, .int32, 66⟩] }) _ >>= fun r => .ok (r.1, 0, r.2)) = _
  rw [hsort _ (by simp [fieldItems, List.range_succ, oneofBase, MiniTableField.rep, hrep])]
  rfl

/-- The table of the two fields. -/
theorem build_twoInts {data : List UInt8} {number denseBelow : Nat}
    (hp : parseMessage .bits64 data = .ok (twoInts number denseBelow)) :
    ∃ t, build .bits64 (36 :: data) = .ok t ∧ t.denseBelow = denseBelow ∧
      t.fields = [⟨1, 4, 1, noSub, .int32, 66⟩, ⟨number, 8, 2, noSub, .int32, 66⟩] := by
  have ht : build .bits64 (36 :: data) = (parseMessage .bits64 data >>= messageTable) := rfl
  rw [hp] at ht
  change _ = messageTable _ at ht
  rw [messageTable, twoInts_layout] at ht
  exact ⟨_, ht, rfl, rfl⟩

/-- The fields 1 and 2. -/
theorem build_numbersRight_two : ∃ t, build .bits64 [36, 40, 40] = .ok t ∧ (t.NumbersRight ↔
    Climbs 0 ((distances (tokens 0 [40, 40]) 1).take ((distances (tokens 0 [40, 40]) 1).length % 2 ^ 16)) ∧
      denseFields (tokens 0 [40, 40]) % 2 ^ 8 ≤ (distances (tokens 0 [40, 40]) 1).length % 2 ^ 16) := by
  have hp : parseMessage .bits64 [40, 40] = .ok (twoInts 2 2) := by decide
  obtain ⟨t, ht, -, -⟩ := build_twoInts hp
  exact ⟨t, ht, build_numbersRight_iff ht⟩

/-- A skip of 0 between two fields: both have the number 1. -/
theorem not_build_numbersRight :
    ∃ t, build .bits64 [36, 40, 95, 40] = .ok t ∧ t.fields.map (·.number) = [1, 1] ∧ ¬t.NumbersRight := by
  have hp : parseMessage .bits64 [40, 95, 40] = .ok (twoInts 1 1) := by decide
  obtain ⟨t, ht, -, hf⟩ := build_twoInts hp
  refine ⟨t, ht, by rw [hf]; rfl, fun h => ?_⟩
  have hcount : t.fieldCount = 2 := by
    rw [(build_numbers ht).count, hf]
    rfl
  have hpair := h.ascending
  rw [MiniTable.counted, hcount, hf] at hpair
  exact absurd hpair (by decide)

end MtDecoder

end Hpb
