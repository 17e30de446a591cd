import Hpb.Reflection.AddFileSpec

/-!
# Names in a scope (`_hpb_DefBuilder_ResolveAny`)

The names to look up are put together in one buffer: a prefix of the scope, a dot and the name. The scope is trimmed in
place, from the length that it has.

* `resolveTmp`: the function with its buffer; a write or a read past the end has no result,
* `resolveTmp_eq`: a buffer of `sym.size + baselen + 1` bytes is enough, and the function is `resolveAny`,
* `resolveTmp_run`: it finds the name in the innermost scope that has it.
-/

namespace Hpb

namespace Reflection

/-- `memcpy` to an index of a buffer. -/
def writeAt (buf : StrKey) (i : Nat) (bytes : StrKey) : Option StrKey :=
  if i + bytes.length ≤ buf.length then some (buf.take i ++ bytes ++ buf.drop (i + bytes.length)) else none

/-- The loop of `remove_component`: the new length. -/
def removeComponentFrom (base : StrKey) : Nat → Option Nat
  | 0 => some 0
  | i + 1 => do
    let c ← base[i + 1]?
    if c = 46 then return i + 1 else removeComponentFrom base i

/-- What the buffer holds in a round, and where that ends. -/
def fillTmp (base sym tmp : StrKey) (baselen : Nat) : Option (StrKey × Nat) :=
  if baselen = 0 then do
    let tmp ← writeAt tmp 0 sym
    return (tmp, sym.length)
  else do
    let tmp ← writeAt tmp 0 (base.take baselen)
    let tmp ← writeAt tmp baselen [46]
    let tmp ← writeAt tmp (baselen + 1) sym
    return (tmp, baselen + 1 + sym.length)

/-- The loop of `_hpb_DefBuilder_ResolveAny` with its buffer `tmp`. -/
def resolveLoopTmp (base sym : StrKey) : Nat → StrKey → Nat → Build DefPtr
  | 0, _, _ => Build.fail .undefined
  | n + 1, tmp, baselen =>
    match fillTmp base sym tmp baselen with
    | none => Build.fail .undefined
    | some (tmp, p) => do
      match ← Build.poolCall (.lookupSym (tmp.take p)) with
      | some v => return v
      | none =>
        if baselen = 0 then Build.errf "couldn't resolve name '%.*s'" [.str sym]
        else
          match removeComponentFrom tmp (baselen - 1) with
          | some baselen => resolveLoopTmp base sym n tmp baselen
          | none => Build.fail .undefined

/-- `_hpb_DefBuilder_ResolveAny`, where `malloc` gives a buffer with what happens to be in it. -/
def resolveTmp (malloc : Nat → StrKey) (base : Option StrKey) (sym : StrKey) : Build DefPtr :=
  match sym with
  | [] => Build.errf "couldn't resolve name '%.*s'" [.str sym]
  | 46 :: name => do
    match ← Build.poolCall (.lookupSym name) with
    | some p => return p
    | none => Build.errf "couldn't resolve name '%.*s'" [.str sym]
  | _ =>
    let base := base.getD []
    resolveLoopTmp base sym (base.length + 2) (malloc (sym.length + base.length + 1)) base.length

/-! ### The buffer -/

section Buffer

variable {base sym tmp buf : StrKey} {baselen : Nat}

theorem writeAt_eq {pre : StrKey} {i : Nat} (bytes : StrKey) (hpre : buf.take i = pre) (hi : pre.length = i)
    (hfit : i + bytes.length ≤ buf.length) :
    ∃ buf', writeAt buf i bytes = some buf' ∧ buf'.take (i + bytes.length) = pre ++ bytes ∧
      buf'.length = buf.length := by
  refine ⟨_, if_pos hfit, ?_, ?_⟩
  · rw [hpre, List.take_append_of_le_length (by simp [hi]), List.take_of_length_le (by simp [hi])]
  · simp
    omega

/-- A name in a scope. -/
def inScope (scope sym : StrKey) : StrKey := if scope = [] then sym else scope ++ 46 :: sym

/-- **In every round the buffer holds the next name**, with the scope at its start. -/
theorem fillTmp_eq (hlen : baselen ≤ base.length) (htmp : tmp.length = sym.length + base.length + 1) :
    ∃ tmp' p, fillTmp base sym tmp baselen = some (tmp', p) ∧ tmp'.take p = inScope (base.take baselen) sym ∧
      tmp'.take baselen = base.take baselen ∧ tmp'.length = tmp.length := by
  unfold fillTmp
  by_cases hzero : baselen = 0
  · subst hzero
    have hstart : tmp.take 0 = [] := rfl
    obtain ⟨tmp', hwrite, htake, hl⟩ := writeAt_eq sym hstart rfl (by omega)
    refine ⟨tmp', sym.length, by simp [hwrite], ?_, by simp, hl⟩
    simpa [inScope] using htake
  · have hbase : (base.take baselen).length = baselen := List.length_take_of_le hlen
    have hne : base.take baselen ≠ [] := List.ne_nil_of_length_pos (by omega)
    have hstart : tmp.take 0 = [] := rfl
    obtain ⟨t₁, h₁, ht₁, hl₁⟩ := writeAt_eq (base.take baselen) hstart rfl (by omega)
    rw [hbase, Nat.zero_add, List.nil_append] at ht₁
    obtain ⟨t₂, h₂, ht₂, hl₂⟩ := writeAt_eq [46] ht₁ hbase (by simp; omega)
    obtain ⟨t₃, h₃, ht₃, hl₃⟩ := writeAt_eq sym ht₂ (by simp [hbase]) (by simp; omega)
    refine ⟨t₃, baselen + 1 + sym.length, by simp [hzero, h₁, h₂, show writeAt t₂ (baselen + 1) sym = _ from h₃], ?_, ?_, by omega⟩
    · simpa [inScope, hne] using ht₃
    · have := congrArg (List.take baselen) ht₃
      rw [List.take_take, Nat.min_eq_left (by simp; omega)] at this
      rw [this, List.append_assoc, List.take_append_of_le_length (by omega), List.take_of_length_le (by omega)]

/-- Where `remove_component` finds the last dot. -/
def lastDot (base : StrKey) (n : Nat) : Nat :=
  ((List.range n).reverse.find? fun i => 0 < i && base[i]? = some 46).getD 0

theorem lastDot_succ (base : StrKey) (n : Nat) :
    lastDot base (n + 1) = if 0 < n ∧ base[n]? = some 46 then n else lastDot base n := by
  unfold lastDot
  rw [List.range_succ, List.reverse_append, List.reverse_singleton, List.singleton_append, List.find?_cons]
  by_cases h : 0 < n ∧ base[n]? = some 46
  · simp [h]
  · rw [if_neg h]
    have hfalse : (decide (0 < n) && decide (base[n]? = some 46)) = false := by simpa using h
    rw [hfalse]

theorem lastDot_le (base : StrKey) (n : Nat) : lastDot base n ≤ n - 1 := by
  induction n with
  | zero => simp [lastDot]
  | succ n ih =>
    rw [lastDot_succ]
    split
    · omega
    · omega

/-- `remove_component` on the buffer reads nothing but the scope. -/
theorem removeComponentFrom_eq {pre : StrKey} {n : Nat} (hn : n < pre.length) (hpre : ∀ i ≤ n, buf[i]? = pre[i]?) :
    removeComponentFrom buf n = some (lastDot pre (n + 1)) := by
  induction n with
  | zero => simp [removeComponentFrom, lastDot]
  | succ n ih =>
    rw [removeComponentFrom, hpre (n + 1) (Nat.le_refl _), List.getElem?_eq_getElem hn, lastDot_succ,
      List.getElem?_eq_getElem hn, ih (by omega) fun i hi => hpre i (by omega)]
    by_cases hdot : pre[n + 1] = 46
    · simp [hdot]
    · simp [hdot]

theorem removeComponent_eq {n : Nat} (hn : n < base.length) :
    removeComponent (base.take (n + 1)) = some (base.take (lastDot (base.take (n + 1)) (n + 1))) := by
  have hlen : (base.take (n + 1)).length = n + 1 := List.length_take_of_le hn
  have hne : base.take (n + 1) ≠ [] := List.ne_nil_of_length_pos (by omega)
  have hle := lastDot_le (base.take (n + 1)) (n + 1)
  rw [removeComponent, if_neg hne, hlen]
  change some ((base.take (n + 1)).take (lastDot (base.take (n + 1)) (n + 1))) = _
  rw [List.take_take, Nat.min_eq_left (by omega)]

/-- **The buffer is large enough** in every round. -/
theorem resolveLoopTmp_eq (sym : StrKey) (n : Nat) (hlen : baselen ≤ base.length)
    (htmp : tmp.length = sym.length + base.length + 1) :
    resolveLoopTmp base sym n tmp baselen = resolveLoop sym n (base.take baselen) := by
  induction n generalizing tmp baselen with
  | zero => rfl
  | succ n ih =>
    obtain ⟨tmp', p, hfill, hname, hscope, hl⟩ := fillTmp_eq hlen htmp
    rw [resolveLoopTmp, hfill]
    dsimp only
    rw [hname, resolveLoop, ← inScope]
    refine congrArg (Build.poolCall _ >>= ·) (funext fun r => ?_)
    cases r with
    | some v => rfl
    | none =>
      dsimp only
      cases baselen with
      | zero => simp [removeComponent]
      | succ k =>
        have hget : ∀ i ≤ k, tmp'[i]? = (base.take (k + 1))[i]? := by
          intro i hi
          rw [← hscope, List.getElem?_take_of_lt (by omega)]
        have hk : k < (base.take (k + 1)).length := by
          rw [List.length_take_of_le hlen]
          omega
        have hle := lastDot_le (base.take (k + 1)) (k + 1)
        rw [if_neg (Nat.succ_ne_zero k), Nat.add_sub_cancel, removeComponentFrom_eq hk hget, removeComponent_eq hlen]
        exact ih (by omega) (by omega)

theorem resolveAny_relative (base : Option StrKey) (h₀ : sym ≠ []) (h₁ : sym.head? ≠ some 46) :
    resolveAny base sym = resolveLoop sym ((base.getD []).length + 2) (base.getD []) := by
  unfold resolveAny
  split
  · exact absurd rfl h₀
  · exact absurd rfl h₁
  · rfl

/-- **The buffer changes nothing**: `sym.size + baselen + 1` bytes hold every name that is looked up. -/
theorem resolveTmp_eq {malloc : Nat → StrKey} (hm : ∀ n, (malloc n).length = n) (base : Option StrKey) (sym : StrKey) :
    resolveTmp malloc base sym = resolveAny base sym := by
  unfold resolveTmp
  split
  · rfl
  · rfl
  next h₀ h₁ =>
    rw [resolveLoopTmp_eq _ _ (Nat.le_refl _) (hm _), List.take_length, resolveAny_relative base h₀]
    intro hhead
    obtain ⟨name, rfl⟩ := List.head?_eq_some_iff.mp hhead
    exact h₁ name rfl

end Buffer

/-! ### The scopes -/

/-- The components of a name. -/
def components (base : StrKey) : List StrKey := if base = [] then [] else base.splitOn 46

/-- The first `k` components of a name. -/
def scope (base : StrKey) (k : Nat) : StrKey := [46].intercalate ((components base).take k)

section Scopes

variable {base sym : StrKey} {k : Nat}

theorem scope_zero (base : StrKey) : scope base 0 = [] := rfl

theorem scope_length (base : StrKey) : scope base (components base).length = base := by
  rw [scope, List.take_length, components]
  by_cases h : base = []
  · simp [h]
  · rw [if_neg h, List.intercalate_splitOn]

theorem notMem_of_mem_splitOn {x : UInt8} {xs : StrKey} : ∀ c ∈ xs.splitOn x, x ∉ c := by
  induction xs with
  | nil => simp
  | cons a xs ih =>
    rw [List.splitOn_cons_eq_if_modifyHead]
    obtain ⟨part, parts, hsplit⟩ := List.exists_cons_of_ne_nil (List.splitOn_ne_nil x xs)
    rw [hsplit] at ih ⊢
    by_cases hax : a = x
    · simpa [hax] using ih
    · obtain ⟨hpart, hparts⟩ := List.forall_mem_cons.mp ih
      rw [if_neg (by simpa using hax), List.modifyHead_cons]
      exact List.forall_mem_cons.mpr ⟨by simp [Ne.symm hax, hpart], hparts⟩

theorem dot_notMem_component {c : StrKey} (hc : c ∈ components base) : 46 ∉ c := by
  unfold components at hc
  split at hc
  · exact absurd hc List.not_mem_nil
  · exact notMem_of_mem_splitOn c hc

theorem intercalate_concat {sep c : StrKey} {cs : List StrKey} (h : cs ≠ []) :
    sep.intercalate (cs ++ [c]) = sep.intercalate cs ++ sep ++ c := by
  induction cs with
  | nil => exact absurd rfl h
  | cons a cs ih =>
    cases cs with
    | nil => simp
    | cons b cs =>
      have hrest := ih (List.cons_ne_nil b cs)
      rw [List.cons_append, List.cons_append, List.intercalate_cons_cons, List.intercalate_cons_cons,
        ← List.cons_append, hrest]
      simp only [List.append_assoc]

/-- A scope and the one around it. -/
theorem scope_succ (hk : k < (components base).length) :
    ∃ c : StrKey, 46 ∉ c ∧ scope base (k + 1) = if k = 0 then c else scope base k ++ 46 :: c := by
  refine ⟨(components base)[k], dot_notMem_component (List.getElem_mem hk), ?_⟩
  rw [scope, List.take_succ_eq_append_getElem hk]
  by_cases h : k = 0
  · subst h
    simp
  · have hne : (components base).take k ≠ [] := List.ne_nil_of_length_pos (by rw [List.length_take]; omega)
    rw [if_neg h, intercalate_concat hne, ← scope, List.append_assoc, List.singleton_append]

theorem lastDot_append (pre : StrKey) {c : StrKey} (hc : 46 ∉ c) (n : Nat) :
    lastDot (pre ++ 46 :: c) (pre.length + 1 + n) = pre.length := by
  induction n with
  | zero =>
    rw [lastDot_succ]
    cases pre with
    | nil => simp [lastDot]
    | cons a pre => simp
  | succ n ih =>
    have hdot : (pre ++ 46 :: c)[pre.length + 1 + n]? ≠ some 46 := by
      rw [List.getElem?_append_right (by omega), Nat.add_assoc, Nat.add_sub_cancel_left, Nat.add_comm,
        List.getElem?_cons_succ]
      exact fun h => hc (List.mem_of_getElem? h)
    rw [← Nat.add_assoc, lastDot_succ, if_neg fun h => hdot h.2, ih]

theorem lastDot_of_notMem {c : StrKey} (hc : 46 ∉ c) (n : Nat) : lastDot c n = 0 := by
  induction n with
  | zero => rfl
  | succ n ih => rw [lastDot_succ, if_neg fun h => hc (List.mem_of_getElem? h.2), ih]

theorem eq_zero_of_scope_eq_nil (hk : k < (components base).length) (h : scope base (k + 1) = []) : k = 0 := by
  obtain ⟨c, -, hscope⟩ := scope_succ hk
  by_contra hne
  rw [hscope, if_neg hne] at h
  exact absurd h (by simp)

theorem scope_length_lt (hk : k < (components base).length) (hne : scope base (k + 1) ≠ []) :
    (scope base k).length < (scope base (k + 1)).length := by
  obtain ⟨c, -, hscope⟩ := scope_succ hk
  by_cases h : k = 0
  · subst h
    exact List.length_pos_iff.mpr hne
  · rw [hscope, if_neg h, List.length_append, List.length_cons]
    omega

/-- **`remove_component` goes to the scope around.** -/
theorem removeComponent_scope (hk : k < (components base).length) (hne : scope base (k + 1) ≠ []) :
    removeComponent (scope base (k + 1)) = some (scope base k) := by
  obtain ⟨c, hc, hscope⟩ := scope_succ hk
  obtain ⟨n, hn⟩ := Nat.exists_eq_add_of_lt (List.length_pos_iff.mpr hne)
  have hlt : n < (scope base (k + 1)).length := by omega
  have heq := removeComponent_eq hlt
  rw [List.take_of_length_le (by omega)] at heq
  rw [heq]
  by_cases h : k = 0
  · subst h
    rw [if_pos rfl] at hscope
    rw [hscope, lastDot_of_notMem hc]
    rfl
  · rw [if_neg h] at hscope
    have hlen : n + 1 = (scope base k).length + 1 + c.length := by
      rw [hscope] at hn
      simp at hn
      omega
    rw [hscope, hlen, lastDot_append _ hc, List.take_left]

/-- The symbol that the name stands for in the first scope of the innermost `k + 1` that has it. -/
def firstScope (syms : StrKey → Option DefPtr) (base sym : StrKey) : Nat → Option DefPtr
  | 0 => syms sym
  | k + 1 => (syms (inScope (scope base (k + 1)) sym)).or (firstScope syms base sym k)

theorem firstScope_eq_some {syms : StrKey → Option DefPtr} {p : DefPtr} :
    firstScope syms base sym k = some p ↔ ∃ i ≤ k, syms (inScope (scope base i) sym) = some p ∧
      ∀ j, i < j → j ≤ k → syms (inScope (scope base j) sym) = none := by
  induction k with
  | zero =>
    rw [firstScope]
    constructor
    · exact fun h => ⟨0, Nat.le_refl 0, h, fun j hj hj' => absurd hj' (Nat.not_le_of_lt hj)⟩
    · rintro ⟨i, hi, h, -⟩
      obtain rfl := Nat.le_zero.mp hi
      exact h
  | succ k ih =>
    rw [firstScope, Option.or_eq_some_iff, ih]
    constructor
    · rintro (h | ⟨hnone, i, hi, h, hin⟩)
      · exact ⟨k + 1, Nat.le_refl _, h, fun j hj hj' => absurd hj' (Nat.not_le_of_lt hj)⟩
      · refine ⟨i, Nat.le_succ_of_le hi, h, fun j hj hj' => ?_⟩
        obtain rfl | hj' := Nat.eq_or_lt_of_le hj'
        · exact hnone
        · exact hin j hj (Nat.le_of_lt_succ hj')
    · rintro ⟨i, hi, h, hin⟩
      obtain rfl | hi := Nat.eq_or_lt_of_le hi
      · exact .inl h
      · exact .inr ⟨hin (k + 1) hi (Nat.le_refl _), i, Nat.le_of_lt_succ hi, h,
          fun j hj hj' => hin j hj (Nat.le_succ_of_le hj')⟩

end Scopes

/-! ### Lookups in a pool -/

/-- `_hpb_DefBuilder_Errf` of a name that is nowhere. -/
def notFound (sym : StrKey) : Failure := .error "couldn't resolve name '%.*s'" [.str sym]

namespace DefPool

/-- **What a name stands for**: after a dot, the symbol of this name, else the one in the innermost scope that has it. -/
def Names (s : DefPool) (base sym : StrKey) (p : DefPtr) : Prop :=
  (∃ name, sym = 46 :: name ∧ (name, p) ∈ s.syms.pairs) ∨
    sym ≠ [] ∧ sym.head? ≠ some 46 ∧ ∃ i ≤ (components base).length,
      (inScope (scope base i) sym, p) ∈ s.syms.pairs ∧
        ∀ j, i < j → j ≤ (components base).length → inScope (scope base j) sym ∉ s.syms.keys

variable {s : DefPool} {b : BuildState} {base sym : StrKey} {syms : StrKey → Option DefPtr}

theorem Inv.symbols (hs : s.Inv) : ∃ syms : StrKey → Option DefPtr,
    (∀ name, s.lookupSym name = some (syms name)) ∧ ∀ name p, syms name = some p ↔ (name, p) ∈ s.syms.pairs :=
  ⟨_, fun name => (Table.lookup_spec hs.syms.table name).choose_spec.1,
    fun name p => (Table.lookup_spec hs.syms.table name).choose_spec.2 p⟩

theorem lookup_run {α : Type} (hs : ∀ name, s.lookupSym name = some (syms name)) (name : StrKey)
    (f : PoolReply (.lookupSym name) → Build α) :
    ((Build.poolCall (.lookupSym name) >>= f) b).run serve s = (f (syms name) b).run serve s := by
  change (Client.call (.lookupSym name) fun r => f r b).run serve s = _
  have hserve : serve (.lookupSym name) s = (.ok (syms name), s) := by
    change (orUndefined (s.lookupSym name), s) = _
    rw [hs]
    rfl
  rw [Client.run_call, hserve]

/-- A symbol, or none. -/
def reply (sym : StrKey) (b : BuildState) : Option DefPtr → Except Failure (DefPtr × BuildState)
  | some p => .ok (p, b)
  | none => .error (notFound sym)

/-- A round of the loop. -/
theorem resolveLoop_succ (hs : ∀ name, s.lookupSym name = some (syms name)) (n : Nat) (base : StrKey) :
    (resolveLoop sym (n + 1) base b).run serve s = match syms (inScope base sym) with
      | some p => (.ok (p, b), s)
      | none =>
        match removeComponent base with
        | some base => (resolveLoop sym n base b).run serve s
        | none => (.error (notFound sym), s) := by
  rw [resolveLoop, lookup_run hs, ← inScope]
  cases syms (inScope base sym) with
  | some p => rfl
  | none =>
    dsimp only
    cases removeComponent base <;> rfl

/-- The loop goes through the scopes, from the inside. -/
theorem resolveLoop_run (hs : ∀ name, s.lookupSym name = some (syms name)) {k n : Nat}
    (hk : k ≤ (components base).length) (hn : (scope base k).length < n) :
    (resolveLoop sym n (scope base k) b).run serve s = (reply sym b (firstScope syms base sym k), s) := by
  induction k generalizing n with
  | zero =>
    obtain ⟨n, rfl⟩ := Nat.exists_eq_succ_of_ne_zero (Nat.ne_of_gt (Nat.zero_lt_of_lt hn))
    rw [Nat.succ_eq_add_one, resolveLoop_succ hs, scope_zero, firstScope, inScope, if_pos rfl]
    cases syms sym <;> rfl
  | succ k ih =>
    obtain ⟨n, rfl⟩ := Nat.exists_eq_succ_of_ne_zero (Nat.ne_of_gt (Nat.zero_lt_of_lt hn))
    rw [Nat.succ_eq_add_one, resolveLoop_succ hs, firstScope]
    cases hsym : syms (inScope (scope base (k + 1)) sym) with
    | some p => rfl
    | none =>
      rw [Option.none_or]
      dsimp only
      by_cases hempty : scope base (k + 1) = []
      · -- an empty first component: there is no scope around it
        obtain rfl := eq_zero_of_scope_eq_nil hk hempty
        rw [hempty, inScope, if_pos rfl] at hsym
        rw [hempty, firstScope, hsym]
        rfl
      · have hlt := scope_length_lt hk hempty
        rw [removeComponent_scope hk hempty]
        exact ih (by omega) (by omega)

/-- **Names are resolved from the inside out**, and the buffer is large enough for it. -/
theorem resolveTmp_run (hs : s.Inv) {malloc : Nat → StrKey} (hm : ∀ n, (malloc n).length = n) (base : Option StrKey)
    (sym : StrKey) (b : BuildState) :
    (∀ p, s.Names (base.getD []) sym p → (resolveTmp malloc base sym b).run serve s = (.ok (p, b), s)) ∧
      ((∀ p, ¬s.Names (base.getD []) sym p) →
        (resolveTmp malloc base sym b).run serve s = (.error (notFound sym), s)) := by
  obtain ⟨syms, hlookup, hsyms⟩ := hs.symbols
  have hkey : ∀ name, name ∉ s.syms.keys ↔ syms name = none := by
    intro name
    rw [Option.eq_none_iff_forall_ne_some]
    simp [Table.keys, hsyms]
  rw [resolveTmp_eq hm]
  generalize hbase : base.getD [] = scopes
  by_cases h₀ : sym = []
  · subst h₀
    refine ⟨fun p hp => ?_, fun _ => rfl⟩
    obtain ⟨name, hname, -⟩ | ⟨hne, -⟩ := hp
    · cases hname
    · exact absurd rfl hne
  by_cases h₁ : sym.head? = some 46
  · obtain ⟨name, rfl⟩ := List.head?_eq_some_iff.mp h₁
    have hrun : (resolveAny base (46 :: name) b).run serve s = (reply (46 :: name) b (syms name), s) := by
      rw [resolveAny, lookup_run hlookup]
      cases syms name <;> rfl
    rw [hrun]
    refine ⟨fun p hp => ?_, fun hno => ?_⟩
    · obtain ⟨name', hname, hp⟩ | ⟨-, hne, -⟩ := hp
      · cases hname
        rw [(hsyms name p).mpr hp]
        rfl
      · exact absurd rfl hne
    · cases hp : syms name with
      | none => rfl
      | some p => exact absurd (.inl ⟨name, rfl, (hsyms name p).mp hp⟩) (hno p)
  · have hrun : (resolveLoop sym ((scope scopes (components scopes).length).length + 2)
        (scope scopes (components scopes).length) b).run serve s =
          (reply sym b (firstScope syms scopes sym (components scopes).length), s) :=
      resolveLoop_run hlookup (Nat.le_refl _) (Nat.lt_add_of_pos_right Nat.zero_lt_two)
    rw [scope_length] at hrun
    rw [resolveAny_relative base h₀ h₁, hbase, hrun]
    have hnames : ∀ p, s.Names scopes sym p ↔ firstScope syms scopes sym (components scopes).length = some p := by
      intro p
      rw [firstScope_eq_some]
      simp only [Names, hkey, hsyms, h₀, h₁, not_false_eq_true, true_and, ne_eq]
      constructor
      · rintro (⟨name, rfl, -⟩ | h)
        · exact absurd rfl h₁
        · exact h
      · exact .inr
    refine ⟨fun p hp => ?_, fun hno => ?_⟩
    · rw [(hnames p).mp hp]
      rfl
    · cases hp : firstScope syms scopes sym (components scopes).length with
      | none => rfl
      | some p => exact absurd ((hnames p).mpr hp) (hno p)

/-- The message `M`, from the scope `a`. -/
theorem resolveTmp_run_message :
    (resolveTmp (List.replicate · 0) (some [97]) [77] ⟨[], [], [], 0⟩).run serve (fresh.addFile noNumbers fileM).2 =
      (.ok (⟨.msg, 0, [77]⟩, ⟨[], [], [], 0⟩), (fresh.addFile noNumbers fileM).2) := by
  refine (resolveTmp_run reachable_fileM.sound.inv (fun n => List.length_replicate) (some [97]) [77] _).1 _ ?_
  have hpairs : (fresh.addFile noNumbers fileM).2.syms.pairs = [([77], ⟨.msg, 0, [77]⟩)] := by decide +kernel
  refine .inr ⟨by decide, by decide, 0, Nat.zero_le _, ?_, fun j hj hj' => ?_⟩
  · rw [hpairs]
    exact List.mem_singleton.mpr rfl
  · obtain rfl : j = 1 := Nat.le_antisymm hj' hj
    rw [Table.keys, hpairs]
    decide

end DefPool

end Reflection

end Hpb
