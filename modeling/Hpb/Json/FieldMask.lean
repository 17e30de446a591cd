import Hpb.Json.Integer

/-!
# Field masks in JSON (`jsonenc_fieldmask`, `jsondec_fieldmask`)

A field mask is a string of paths with commas between them, where `_` and a letter become a capital (`Camel`). The
encoder writes the paths as they are, without the escapes of a string, and the decoder reads no path behind the last
comma.

* `Camel`: a path and its text, one for both directions,
* `Split`: the texts between the commas, as the decoder finds them,
* `fieldmask_right_iff`: a list of paths is read back if and only if it is safe.
-/

namespace Hpb

namespace Jsonenc

/-- `jsonenc_fieldpath`. -/
def fieldpath : List UInt8 → Except String (List UInt8)
  | [] => .ok []
  | ch :: ptr =>
    if 'A'.toUInt8 ≤ ch ∧ ch ≤ 'Z'.toUInt8 then .error "Field mask element may not have upper-case letter."
    else if ch = '_'.toUInt8 then
      match ptr with
      | [] => .error "Underscore must be followed by a lowercase letter."
      | c :: ptr =>
        if c < 'a'.toUInt8 ∨ 'z'.toUInt8 < c then .error "Underscore must be followed by a lowercase letter."
        else do return (c - 32) :: (← fieldpath ptr)
    else do return ch :: (← fieldpath ptr)

/-- The loop of `jsonenc_fieldmask`. -/
def fieldpaths : Bool → List (List UInt8) → Except String (List UInt8)
  | _, [] => .ok []
  | first, path :: paths => do
    let text ← fieldpath path
    let rest ← fieldpaths false paths
    return (if first then [] else ascii ",") ++ text ++ rest

/-- `jsonenc_fieldmask`, on the paths of the message. -/
def fieldmask (paths : List (List UInt8)) : Except String (List UInt8) := do
  let text ← fieldpaths true paths
  return ascii "\"" ++ text ++ ascii "\""

end Jsonenc

namespace Jsondec

/-- `jsondec_mask`. -/
def mask : List UInt8 → JsonM (List UInt8)
  | [] => return []
  | ch :: ptr =>
    if 'A'.toUInt8 ≤ ch ∧ ch ≤ 'Z'.toUInt8 then do return '_'.toUInt8 :: (ch + 32) :: (← mask ptr)
    else if ch = '_'.toUInt8 then err "field mask may not contain '_'"
    else do return ch :: (← mask ptr)

/-- The loop of `jsondec_fieldmask`: the paths that it appends. Each round takes at least one byte, so as many rounds as
there are bytes are enough. -/
def fieldmaskLoop : Nat → List UInt8 → JsonM (List (List UInt8))
  | 0, _ => return []
  | n + 1, ptr =>
    if ptr = [] then return []
    else do
      let elem := ptr.takeWhile (· ≠ ','.toUInt8)
      let val ← mask elem
      let rest ← fieldmaskLoop n (ptr.drop (elem.length + 1))
      return val :: rest

/-- `jsondec_fieldmask`: the paths that it appends. -/
def fieldmask : JsonM (List (List UInt8)) := do
  let str ← string
  fieldmaskLoop str.length str

/-- **Field masks are read back.** -/
def MaskRight (paths : List (List UInt8)) : Prop :=
  ∀ text, Jsonenc.fieldmask paths = .ok text → ∀ (d : Jsondec) (tail : List UInt8),
    ∃ d', fieldmask { d with rest := text ++ tail } = .ok (paths, d') ∧ d'.rest = tail

/-- **A list of paths is safe**: its last path is not empty, and no path has a byte that the string would need an escape
for, or a comma. The first byte of the text may be a control character. -/
structure MaskSafe (paths : List (List UInt8)) : Prop where
  last : paths.getLast? ≠ some []
  plain : ∀ path ∈ paths, ∀ b ∈ path, b ≠ ','.toUInt8 ∧ b ≠ quote ∧ b ≠ backslash
  control : ∀ b ∈ (paths.headD []).tail ++ paths.tail.flatten, 0x20 ≤ b

/-! ### Paths and texts -/

/-- A path and its text. -/
inductive Camel : List UInt8 → List UInt8 → Prop where
  | nil : Camel [] []
  | capital {c : UInt8} {p e : List UInt8} (hc : 'a'.toUInt8 ≤ c ∧ c ≤ 'z'.toUInt8) (h : Camel p e) :
      Camel ('_'.toUInt8 :: c :: p) ((c - 32) :: e)
  | plain {c : UInt8} {p e : List UInt8} (hc : ¬('A'.toUInt8 ≤ c ∧ c ≤ 'Z'.toUInt8)) (hu : c ≠ '_'.toUInt8)
      (h : Camel p e) : Camel (c :: p) (c :: e)

section Paths

variable {p e : List UInt8} {d d' : Jsondec}

theorem fieldpath_of_camel (h : Camel p e) : Jsonenc.fieldpath p = .ok e := by
  induction h with
  | nil => rfl
  | capital hc _ ih =>
    rw [Jsonenc.fieldpath, if_neg (by decide), if_pos rfl, if_neg (by simpa [UInt8.not_lt] using hc), ih]
    rfl
  | plain hc hu _ ih =>
    rw [Jsonenc.fieldpath.eq_def]
    dsimp only
    rw [if_neg hc, if_neg hu, ih]
    rfl

/-- **The encoder writes the text of a path.** -/
theorem camel_of_fieldpath (h : Jsonenc.fieldpath p = .ok e) : Camel p e := by
  induction p using Jsonenc.fieldpath.induct generalizing e with
  | case1 =>
    cases h
    exact .nil
  | case2 c ptr hc =>
    rw [Jsonenc.fieldpath.eq_def] at h
    dsimp only at h
    rw [if_pos hc] at h
    cases h
  | case3 => cases h
  | case4 c ptr hc =>
    rw [Jsonenc.fieldpath, if_neg (by decide), if_pos rfl, if_pos hc] at h
    cases h
  | case5 c ptr hc _ ih =>
    rw [Jsonenc.fieldpath, if_neg (by decide), if_pos rfl, if_neg hc] at h
    cases hrest : Jsonenc.fieldpath ptr with
    | error m =>
      rw [hrest] at h
      cases h
    | ok e' =>
      rw [hrest] at h
      cases h
      exact .capital (by simpa [UInt8.not_lt] using hc) (ih hrest)
  | case6 c ptr hc hu ih =>
    rw [Jsonenc.fieldpath.eq_def] at h
    dsimp only at h
    rw [if_neg hc, if_neg hu] at h
    cases hrest : Jsonenc.fieldpath ptr with
    | error m =>
      rw [hrest] at h
      cases h
    | ok e' =>
      rw [hrest] at h
      cases h
      exact .plain hc hu (ih hrest)

theorem capital_of_lower : ∀ c : UInt8, 'a'.toUInt8 ≤ c ∧ c ≤ 'z'.toUInt8 →
    ('A'.toUInt8 ≤ c - 32 ∧ c - 32 ≤ 'Z'.toUInt8) ∧ c - 32 + 32 = c := by
  rintro c ⟨hlo, hhi⟩
  have hlo' : 97 ≤ c.toNat := UInt8.le_iff_toNat_le.mp hlo
  have hhi' : c.toNat ≤ 122 := UInt8.le_iff_toNat_le.mp hhi
  have hsub : (c - 32).toNat = c.toNat - 32 :=
    UInt8.toNat_sub_of_le c 32 (UInt8.le_iff_toNat_le.mpr (Nat.le_trans (by decide) hlo'))
  refine ⟨⟨?_, ?_⟩, UInt8.sub_add_cancel c 32⟩
  · rw [UInt8.le_iff_toNat_le, hsub]
    change 65 ≤ _
    omega
  · rw [UInt8.le_iff_toNat_le, hsub]
    change _ ≤ 90
    omega

theorem lower_of_capital : ∀ c : UInt8, 'A'.toUInt8 ≤ c ∧ c ≤ 'Z'.toUInt8 →
    ('a'.toUInt8 ≤ c + 32 ∧ c + 32 ≤ 'z'.toUInt8) ∧ c + 32 - 32 = c := by
  rintro c ⟨hlo, hhi⟩
  have hlo' : 65 ≤ c.toNat := UInt8.le_iff_toNat_le.mp hlo
  have hhi' : c.toNat ≤ 90 := UInt8.le_iff_toNat_le.mp hhi
  have hadd : (c + 32).toNat = c.toNat + 32 := by
    rw [UInt8.toNat_add]
    exact Nat.mod_eq_of_lt (show c.toNat + 32 < 256 by omega)
  refine ⟨⟨?_, ?_⟩, UInt8.add_sub_cancel c 32⟩
  · rw [UInt8.le_iff_toNat_le, hadd]
    change 97 ≤ _
    omega
  · rw [UInt8.le_iff_toNat_le, hadd]
    change _ ≤ 122
    omega

theorem mask_of_camel (h : Camel p e) (d : Jsondec) : mask e d = .ok (p, d) := by
  induction h with
  | nil => rfl
  | @capital c _ _ hc _ ih =>
    obtain ⟨hcapital, hc⟩ := capital_of_lower c hc
    rw [mask, if_pos hcapital, bind_ok ih, hc]
    rfl
  | plain hc hu _ ih =>
    rw [mask, if_neg hc, if_neg hu, bind_ok ih]
    rfl

/-- **The decoder reads the path of a text.** -/
theorem camel_of_mask (h : mask e d = .ok (p, d')) : Camel p e ∧ d' = d := by
  induction e generalizing p d' with
  | nil =>
    cases h
    exact ⟨.nil, rfl⟩
  | cons c e ih =>
    rw [mask] at h
    by_cases hc : 'A'.toUInt8 ≤ c ∧ c ≤ 'Z'.toUInt8
    · rw [if_pos hc] at h
      obtain ⟨p', d₁, hrest, h'⟩ := bind_eq_ok h
      obtain ⟨hcamel, rfl⟩ := ih hrest
      obtain ⟨hlower, hback⟩ := lower_of_capital c hc
      cases h'
      have hcapital := Camel.capital hlower hcamel
      rw [hback] at hcapital
      exact ⟨hcapital, rfl⟩
    rw [if_neg hc] at h
    by_cases hu : c = '_'.toUInt8
    · rw [if_pos hu] at h
      cases h
    · rw [if_neg hu] at h
      obtain ⟨p', d₁, hrest, h'⟩ := bind_eq_ok h
      obtain ⟨hcamel, rfl⟩ := ih hrest
      cases h'
      exact ⟨.plain hc hu hcamel, rfl⟩

end Paths

/-! ### Lists of paths -/

/-- The texts between the commas: there is none behind the last comma. -/
inductive Split : List UInt8 → List (List UInt8) → Prop where
  | nil : Split [] []
  | last {e : List UInt8} (hne : e ≠ []) (he : ','.toUInt8 ∉ e) : Split e [e]
  | cons {e t : List UInt8} {es : List (List UInt8)} (he : ','.toUInt8 ∉ e) (h : Split t es) :
      Split (e ++ ','.toUInt8 :: t) (e :: es)

/-- The texts with commas between them, and one in front if there are texts before. -/
def join : Bool → List (List UInt8) → List UInt8
  | _, [] => []
  | first, e :: es => (if first then [] else ascii ",") ++ e ++ join false es

section Lists

variable {p e str : List UInt8} {paths es : List (List UInt8)} {d d' : Jsondec} {n : Nat}

theorem fieldpaths_ok_iff {first : Bool} {text : List UInt8} : Jsonenc.fieldpaths first paths = .ok text ↔
    ∃ es, List.Forall₂ Camel paths es ∧ text = join first es := by
  constructor
  · intro h
    induction paths generalizing first text with
    | nil =>
      cases h
      exact ⟨[], .nil, rfl⟩
    | cons path paths ih =>
      rw [Jsonenc.fieldpaths] at h
      cases hpath : Jsonenc.fieldpath path with
      | error m =>
        rw [hpath] at h
        cases h
      | ok e =>
        rw [hpath] at h
        cases hrest : Jsonenc.fieldpaths false paths with
        | error m =>
          simp only [hrest] at h
          cases h
        | ok rest =>
          simp only [hrest] at h
          cases h
          obtain ⟨es, hes, rfl⟩ := ih hrest
          exact ⟨e :: es, .cons (camel_of_fieldpath hpath) hes, rfl⟩
  · rintro ⟨es, hes, rfl⟩
    induction hes generalizing first with
    | nil => rfl
    | cons hpath _ ih =>
      rw [Jsonenc.fieldpaths, fieldpath_of_camel hpath]
      simp only [ih]
      rfl

theorem fieldmask_ok_iff {text : List UInt8} : Jsonenc.fieldmask paths = .ok text ↔
    ∃ es, List.Forall₂ Camel paths es ∧ text = quote :: (join true es ++ [quote]) := by
  rw [Jsonenc.fieldmask]
  cases hpaths : Jsonenc.fieldpaths true paths with
  | error m =>
    refine ⟨nofun, fun ⟨es, hes, _⟩ => ?_⟩
    cases hpaths.symm.trans (fieldpaths_ok_iff.mpr ⟨es, hes, rfl⟩)
  | ok body =>
    obtain ⟨es, hes, rfl⟩ := fieldpaths_ok_iff.mp hpaths
    constructor
    · intro h
      exact ⟨es, hes, (Except.ok.inj h).symm⟩
    · rintro ⟨es', hes', rfl⟩
      have hsame := hpaths.symm.trans (fieldpaths_ok_iff.mpr ⟨es', hes', rfl⟩)
      rw [Except.ok.inj hsame]
      rfl

theorem takeWhile_comma (he : ','.toUInt8 ∉ e) (t : List UInt8) :
    (e ++ ','.toUInt8 :: t).takeWhile (· ≠ ','.toUInt8) = e ∧ e.takeWhile (· ≠ ','.toUInt8) = e := by
  have hall : ∀ b ∈ e, decide (b ≠ ','.toUInt8) = true := fun b hb => decide_eq_true fun h => he (h ▸ hb)
  refine ⟨?_, List.takeWhile_eq_self_iff.mpr hall⟩
  rw [List.takeWhile_append_of_pos hall, List.takeWhile_cons_of_neg (by simp), List.append_nil]

/-- The text in front of the first comma is found. -/
theorem split_takeWhile (hne : str ≠ []) (h : Split (str.drop ((str.takeWhile (· ≠ ','.toUInt8)).length + 1)) es) :
    Split str (str.takeWhile (· ≠ ','.toUInt8) :: es) := by
  have hcomma : ','.toUInt8 ∉ str.takeWhile (· ≠ ','.toUInt8) := fun hmem => by
    simpa using List.mem_takeWhile_imp hmem
  have hparts := List.takeWhile_append_dropWhile (p := (· ≠ ','.toUInt8)) (l := str)
  cases hrest : str.dropWhile (· ≠ ','.toUInt8) with
  | nil =>
    rw [hrest, List.append_nil] at hparts
    rw [hparts] at hcomma h ⊢
    rw [List.drop_eq_nil_of_le (Nat.le_succ _)] at h
    have hes : es = [] := by
      generalize hs : ([] : List UInt8) = s at h
      cases h with
      | nil => rfl
      | last hne => exact absurd hs.symm hne
      | cons => simp at hs
    rw [hes]
    exact .last hne hcomma
  | cons b t =>
    have hb : b = ','.toUInt8 := by
      have := List.head?_dropWhile_not (· ≠ ','.toUInt8) str
      rw [hrest] at this
      simpa using this
    subst hb
    rw [hrest] at hparts
    have hdrop : str.drop ((str.takeWhile (· ≠ ','.toUInt8)).length + 1) = t :=
      (congrArg (List.drop _) hparts.symm).trans (by simp)
    rw [hdrop] at h
    have hcons := Split.cons hcomma h
    rwa [hparts] at hcons

theorem fieldmaskLoop_nil (n : Nat) (d : Jsondec) : fieldmaskLoop n [] d = .ok ([], d) := by
  cases n <;> rfl

theorem fieldmaskLoop_of_split (h : Split str es) (hpaths : List.Forall₂ Camel paths es) (hn : str.length ≤ n)
    (d : Jsondec) : fieldmaskLoop n str d = .ok (paths, d) := by
  induction h generalizing paths n with
  | nil =>
    cases hpaths
    exact fieldmaskLoop_nil n d
  | @last e hne he =>
    obtain ⟨k, rfl⟩ : ∃ k, n = k + 1 := ⟨n - 1, by have := List.length_pos_iff.mpr hne; omega⟩
    cases hpaths with
    | cons hcamel hnil =>
      cases hnil
      rw [fieldmaskLoop, if_neg hne, (takeWhile_comma he []).2, bind_ok (mask_of_camel hcamel d), List.drop_eq_nil_of_le (Nat.le_succ _),
        bind_ok (fieldmaskLoop_nil k d)]
      rfl
  | @cons e t es he _ ih =>
    obtain ⟨k, rfl⟩ : ∃ k, n = k + 1 := ⟨n - 1, by simp at hn; omega⟩
    cases hpaths with
    | cons hcamel hrest =>
      have hdrop : (e ++ ','.toUInt8 :: t).drop (e.length + 1) = t := by simp
      rw [fieldmaskLoop, if_neg (by simp), (takeWhile_comma he t).1, bind_ok (mask_of_camel hcamel d), hdrop, bind_ok (ih hrest (by simp at hn; omega))]
      rfl

theorem split_of_fieldmaskLoop (h : fieldmaskLoop n str d = .ok (paths, d')) (hn : str.length ≤ n) :
    (∃ es, Split str es ∧ List.Forall₂ Camel paths es) ∧ d' = d := by
  induction n generalizing str paths d' with
  | zero =>
    obtain rfl : str = [] := List.length_eq_zero_iff.mp (Nat.le_zero.mp hn)
    cases h
    exact ⟨⟨[], .nil, .nil⟩, rfl⟩
  | succ n ih =>
    by_cases hne : str = []
    · subst hne
      cases h
      exact ⟨⟨[], .nil, .nil⟩, rfl⟩
    rw [fieldmaskLoop, if_neg hne] at h
    obtain ⟨p, d₁, hmask, h₁⟩ := bind_eq_ok h
    obtain ⟨rest, d₂, hloop, h₂⟩ := bind_eq_ok h₁
    cases h₂
    obtain ⟨hcamel, rfl⟩ := camel_of_mask hmask
    have hlen : (str.drop ((str.takeWhile (· ≠ ','.toUInt8)).length + 1)).length ≤ n := by
      rw [List.length_drop]
      omega
    obtain ⟨⟨es, hsplit, hes⟩, rfl⟩ := ih hloop hlen
    exact ⟨⟨_, split_takeWhile hne hsplit, .cons hcamel hes⟩, rfl⟩

theorem length_join_false (es : List (List UInt8)) (hne : es ≠ []) :
    (join false es).length = (join true es).length + 1 := by
  obtain ⟨e, es, rfl⟩ := List.exists_cons_of_ne_nil hne
  simp only [join, List.length_append, if_true, if_false, Bool.false_eq_true]
  have hcomma : (ascii ",").length = 1 := rfl
  simp only [hcomma, List.length_nil]
  omega

/-- A text is as long as its parts with commas, and longer if the last part is empty. -/
theorem Split.length (h : Split str es) : (join true es).length ≤ str.length ∧
    (es.getLast? = some [] → (join true es).length < str.length) := by
  induction h with
  | nil => exact ⟨Nat.le_refl _, nofun⟩
  | @last e hne _ =>
    refine ⟨by simp [join], fun h => absurd ?_ hne⟩
    simpa using h
  | @cons e t es _ _ ih =>
    simp only [join, if_true, List.nil_append, List.length_append, List.length_cons]
    by_cases hes : es = []
    · subst hes
      simp [join]
    · rw [length_join_false es hes, List.getLast?_cons_of_ne_nil hes]
      exact ⟨by omega, fun hlast => by have := ih.2 hlast; omega⟩

theorem Split.comma (h : Split str es) : ∀ e ∈ es, ','.toUInt8 ∉ e := by
  induction h with
  | nil => simp
  | last _ he => simpa using he
  | cons he _ ih => exact List.forall_mem_cons.mpr ⟨he, ih⟩

/-- Texts without commas are found, unless the last one is empty. -/
theorem split_join (hcomma : ∀ e ∈ es, ','.toUInt8 ∉ e) (hlast : es.getLast? ≠ some []) : Split (join true es) es := by
  induction es with
  | nil => exact .nil
  | cons e es ih =>
    obtain ⟨he, hes⟩ := List.forall_mem_cons.mp hcomma
    cases es with
    | nil =>
      have hjoin : join true [e] = e := by simp [join]
      rw [hjoin]
      exact .last (fun h => hlast (h ▸ rfl)) he
    | cons e' es =>
      have hjoin : join true (e :: e' :: es) = e ++ ','.toUInt8 :: join true (e' :: es) := by
        simp only [join, if_true, if_false, List.nil_append, Bool.false_eq_true, List.append_assoc]
        rfl
      rw [hjoin]
      exact .cons he (ih hes (by rwa [List.getLast?_cons_cons] at hlast))

end Lists

/-! ### Strings without escapes -/

section Strings

variable {text bs value tail r : List UInt8} {its : List StringItem} {d d' : Jsondec}

/-- An escape is longer than what it stands for. -/
theorem Escape.value_lt {e v : List UInt8} (h : Escape e v) : v.length < e.length := by
  have hfour : ∀ c : Char, (String.utf8EncodeChar c).length ≤ 4 := fun c => by
    rw [String.length_utf8EncodeChar]
    exact c.utf8Size_le_four
  cases h with
  | short => exact Nat.lt_succ_self 1
  | unicode h =>
    cases h with
    | @single digits c h =>
      have := hfour c
      simp only [List.length_cons, h.length]
      omega
    | @pair high low _ _ c hhigh hlow =>
      have := hfour c
      simp only [List.length_cons, List.length_append, hhigh.length]
      omega

/-- **What a text stands for is shorter than the text**, unless there are no escapes in it. -/
theorem Cut.value_length (h : Cut text its r) : (its.flatMap StringItem.value).length + r.length ≤ text.length ∧
    ((its.flatMap StringItem.value).length + r.length = text.length →
      ∃ bs, its = bs.map .byte ∧ (∀ b ∈ bs, b ≠ Jsondec.quote ∧ b ≠ backslash) ∧ text = bs ++ r) := by
  induction h with
  | nil | quote | malformed => exact ⟨Nat.le_of_eq (Nat.zero_add _), fun _ => ⟨[], rfl, by simp, rfl⟩⟩
  | @byte b t r its hq hs _ ih =>
    simp only [List.flatMap_cons, StringItem.value, List.length_append, List.length_cons, List.length_nil]
    refine ⟨by omega, fun heq => ?_⟩
    obtain ⟨bs, rfl, hbs, rfl⟩ := ih.2 (by omega)
    exact ⟨b :: bs, rfl, List.forall_mem_cons.mpr ⟨⟨hq, hs⟩, hbs⟩, rfl⟩
  | @escape e v t r its he _ ih =>
    have hlt := he.value_lt
    simp only [List.flatMap_cons, StringItem.value, List.length_append]
    exact ⟨by omega, fun heq => by omega⟩

theorem noneBehind_bytes (bs : List UInt8) :
    (NoneBehind true (bs.map .byte) ↔ ∀ b ∈ bs, 0x20 ≤ b) ∧
      (NoneBehind false (bs.map .byte) ↔ ∀ b ∈ bs.tail, 0x20 ≤ b) := by
  induction bs with
  | nil => simp [NoneBehind]
  | cons b bs ih => simp [NoneBehind, ih.1]

theorem flatMap_bytes (bs : List UInt8) : (bs.map StringItem.byte).flatMap StringItem.value = bs := by
  induction bs with
  | nil => rfl
  | cons b bs ih => rw [List.map_cons, List.flatMap_cons, ih]; rfl

theorem cut_bytes (h : ∀ b ∈ bs, b ≠ quote ∧ b ≠ backslash) (tail : List UInt8) :
    Cut (bs ++ quote :: tail) (bs.map .byte) (quote :: tail) := by
  induction bs with
  | nil => exact .quote
  | cons b bs ih =>
    obtain ⟨hb, hbs⟩ := List.forall_mem_cons.mp h
    exact .byte hb.1 hb.2 (ih hbs)

/-- A text without escapes is read as it is, also with a control character at its start. -/
theorem string_bytes (h : ∀ b ∈ bs, b ≠ quote ∧ b ≠ backslash) (hcontrol : ∀ b ∈ bs.tail, 0x20 ≤ b)
    (hd : d.rest = quote :: (bs ++ quote :: tail)) : ∃ d', string d = .ok (bs, d') ∧ d'.rest = tail := by
  obtain ⟨d₁, hrest, hloop⟩ := string_loop [] (by simp) hd
  have hends := stringLoop_ends [] (cut_bytes h tail) hrest (Nat.le_refl _)
  obtain ⟨k, hk⟩ := hends.accepts ((noneBehind_bytes bs).2.mpr hcontrol) tail rfl
  rw [flatMap_bytes] at hk
  exact ⟨_, hloop.trans hk, rfl⟩

/-- **A text that is read at its full length has no escapes.** -/
theorem string_full (hd : d.rest = quote :: (bs ++ [quote])) (h : string d = .ok (value, d'))
    (hlen : bs.length ≤ value.length) :
    value = bs ∧ (∀ b ∈ bs, b ≠ quote ∧ b ≠ backslash) ∧ ∀ b ∈ bs.tail, 0x20 ≤ b := by
  obtain ⟨its, r, hcut⟩ := cut_exists (bs ++ [quote])
  obtain ⟨d₁, hrest, hloop⟩ := string_loop [] (by simp) hd
  have hends := stringLoop_ends [] hcut hrest (Nat.le_refl _)
  have hrun := hloop.symm.trans h
  by_cases hnone : NoneBehind false its
  case neg => exact ((hends.control hnone).not_ok hrun).elim
  obtain rfl | ⟨t, rfl⟩ | ⟨t, rfl⟩ := hcut.rest_cases
  · by_cases hbyte : EndsInByte its
    · cases hrun.symm.trans (hends.overruns hnone rfl hbyte)
    · exact ((hends.ends rfl hbyte).not_ok hrun).elim
  · obtain ⟨k, hk⟩ := hends.accepts hnone t rfl
    cases hrun.symm.trans hk
    obtain ⟨hle, heq⟩ := hcut.value_length
    simp only [List.length_append, List.length_cons, List.length_nil, List.nil_append] at hle heq hlen
    obtain rfl : t = [] := List.length_eq_zero_iff.mp (by omega)
    obtain ⟨bs', rfl, hplain, htext⟩ := heq (by simp only [List.length_nil]; omega)
    obtain rfl := List.append_cancel_right htext
    exact ⟨by rw [flatMap_bytes]; rfl, hplain, (noneBehind_bytes bs).2.mp hnone⟩
  · exact ((hends.malformed hnone t rfl).not_ok hrun).elim

end Strings

/-! ### The lists that are read back -/

section Right

variable {p e : List UInt8} {paths es : List (List UInt8)} {P : UInt8 → Prop}

/-- Letters and `_` have a property. -/
def OfWords (P : UInt8 → Prop) : Prop :=
  ∀ b, 'A'.toUInt8 ≤ b ∧ b ≤ 'Z'.toUInt8 ∨ b = '_'.toUInt8 ∨ 'a'.toUInt8 ≤ b ∧ b ≤ 'z'.toUInt8 → P b

/-- What letters and `_` have is not lost or gained. -/
theorem Camel.forall_iff (h : Camel p e) (hP : OfWords P) : (∀ b ∈ e, P b) ↔ ∀ b ∈ p, P b := by
  induction h with
  | nil => exact Iff.rfl
  | @capital c _ _ hc _ ih =>
    simp only [List.forall_mem_cons, ih, hP _ (.inl (capital_of_lower c hc).1), hP _ (.inr (.inl rfl)),
      hP _ (.inr (.inr hc)), true_and]
  | plain _ _ _ ih => simp only [List.forall_mem_cons, ih]

theorem Camel.forall_tail_iff (h : Camel p e) (hP : OfWords P) : (∀ b ∈ e.tail, P b) ↔ ∀ b ∈ p.tail, P b := by
  cases h with
  | nil => exact Iff.rfl
  | capital hc h =>
    simp only [List.tail_cons, List.forall_mem_cons, h.forall_iff hP, hP _ (.inr (.inr hc)), true_and]
  | plain _ _ h => exact h.forall_iff hP

theorem camels_forall_iff (h : List.Forall₂ Camel paths es) (hP : OfWords P) :
    (∀ e ∈ es, ∀ b ∈ e, P b) ↔ ∀ p ∈ paths, ∀ b ∈ p, P b := by
  induction h with
  | nil => simp
  | cons hcamel _ ih => rw [List.forall_mem_cons, List.forall_mem_cons, hcamel.forall_iff hP, ih]

theorem camels_last (h : List.Forall₂ Camel paths es) : es.getLast? = some [] ↔ paths.getLast? = some [] := by
  induction h with
  | nil => exact Iff.rfl
  | @cons p e paths es hcamel h ih =>
    cases h with
    | nil =>
      cases hcamel with
      | nil => exact Iff.rfl
      | capital | plain => simp
    | cons => rwa [List.getLast?_cons_cons, List.getLast?_cons_cons]

theorem join_forall_iff (hcomma : P ','.toUInt8) (first : Bool) :
    (∀ b ∈ join first es, P b) ↔ ∀ e ∈ es, ∀ b ∈ e, P b := by
  have hsep : (ascii ",") = [','.toUInt8] := rfl
  induction es generalizing first with
  | nil => simp [join]
  | cons e es ih =>
    simp only [join, List.forall_mem_append, List.forall_mem_cons, ih]
    cases first <;> simp [hsep, hcomma]

theorem join_forall_tail_iff (hcomma : P ','.toUInt8) :
    (∀ b ∈ (join true es).tail, P b) ↔ (∀ b ∈ (es.headD []).tail, P b) ∧ ∀ e ∈ es.tail, ∀ b ∈ e, P b := by
  cases es with
  | nil => simp [join]
  | cons e es =>
    simp only [join, if_true, List.nil_append, List.headD_cons, List.tail_cons]
    cases e with
    | nil =>
      rw [List.nil_append, List.tail_nil]
      cases es with
      | nil => simp [join]
      | cons e' es =>
        have htail : (join false (e' :: es)).tail = e' ++ join false es := rfl
        rw [htail, List.forall_mem_append, join_forall_iff hcomma, List.forall_mem_cons]
        simp
    | cons b e => rw [List.cons_append, List.tail_cons, List.forall_mem_append, join_forall_iff hcomma, List.tail_cons]

/-- **A list is safe if its text is**: it is found between the commas, and needs no escape. -/
theorem maskSafe_iff (h : List.Forall₂ Camel paths es) : MaskSafe paths ↔
    (es.getLast? ≠ some [] ∧ ∀ e ∈ es, ','.toUInt8 ∉ e) ∧
      (∀ b ∈ join true es, b ≠ quote ∧ b ≠ backslash) ∧ ∀ b ∈ (join true es).tail, 0x20 ≤ b := by
  have hplain : OfWords fun b => b ≠ ','.toUInt8 ∧ b ≠ quote ∧ b ≠ backslash := by
    rintro b (⟨hlo, hhi⟩ | rfl | ⟨hlo, -⟩)
    · refine ⟨?_, ?_, ?_⟩ <;> rintro rfl
      · exact absurd hlo (by decide)
      · exact absurd hlo (by decide)
      · exact absurd hhi (by decide)
    · decide
    · refine ⟨?_, ?_, ?_⟩ <;> rintro rfl <;> exact absurd hlo (by decide)
  have hcontrol : OfWords fun b => 0x20 ≤ b := by
    rintro b (⟨hlo, -⟩ | rfl | ⟨hlo, -⟩)
    · exact UInt8.le_trans (by decide) hlo
    · decide
    · exact UInt8.le_trans (by decide) hlo
  have hescape : (∀ b ∈ join true es, b ≠ quote ∧ b ≠ backslash) ↔ ∀ e ∈ es, ∀ b ∈ e, b ≠ quote ∧ b ≠ backslash :=
    join_forall_iff (P := fun b => b ≠ quote ∧ b ≠ backslash) (by decide) true
  have htail : (∀ b ∈ (join true es).tail, 0x20 ≤ b) ↔ ∀ b ∈ (paths.headD []).tail ++ paths.tail.flatten, 0x20 ≤ b := by
    rw [join_forall_tail_iff (P := fun b => 0x20 ≤ b) (by decide), List.forall_mem_append, List.forall_mem_flatten]
    cases h with
    | nil => exact Iff.rfl
    | cons hcamel h => exact and_congr (hcamel.forall_tail_iff hcontrol) (camels_forall_iff h hcontrol)
  rw [hescape, htail]
  constructor
  · rintro ⟨hlast, hpaths, hcontrol⟩
    have hes := (camels_forall_iff h hplain).mpr hpaths
    exact ⟨⟨fun hl => hlast ((camels_last h).mp hl), fun e he hb => (hes e he _ hb).1 rfl⟩,
      fun e he b hb => (hes e he b hb).2, hcontrol⟩
  · rintro ⟨⟨hlast, hcomma⟩, hes, hcontrol⟩
    refine ⟨fun hl => hlast ((camels_last h).mpr hl), ?_, hcontrol⟩
    exact (camels_forall_iff h hplain).mp fun e he b hb => ⟨fun hc => hcomma e he (hc ▸ hb), hes e he b hb⟩

theorem camels_unique {es' : List (List UInt8)} (h : List.Forall₂ Camel paths es)
    (h' : List.Forall₂ Camel paths es') : es = es' := by
  induction h generalizing es' with
  | nil =>
    cases h'
    rfl
  | cons hcamel _ ih =>
    cases h' with
    | cons hcamel' h' =>
      have hsame := (fieldpath_of_camel hcamel).symm.trans (fieldpath_of_camel hcamel')
      rw [Except.ok.inj hsame, ih h']

theorem MaskRight.safe (h : MaskRight paths) (hes : List.Forall₂ Camel paths es) : MaskSafe paths := by
  obtain ⟨d', hrun, -⟩ := h _ (fieldmask_ok_iff.mpr ⟨es, hes, rfl⟩) { rest := [] } []
  obtain ⟨str, d₁, hstring, hloop⟩ := bind_eq_ok hrun
  obtain ⟨⟨es', hsplit, hes'⟩, -⟩ := split_of_fieldmaskLoop hloop (Nat.le_refl _)
  obtain rfl := camels_unique hes hes'
  obtain ⟨rfl, hplain, hcontrol⟩ := string_full (by simp : _ = quote :: (join true es ++ [quote])) hstring hsplit.length.1
  refine (maskSafe_iff hes).mpr ⟨⟨fun hlast => ?_, hsplit.comma⟩, hplain, hcontrol⟩
  exact absurd (hsplit.length.2 hlast) (Nat.lt_irrefl _)

/-- **A list of paths is read back if and only if it is safe**, among those that the encoder accepts. -/
theorem fieldmask_right_iff (paths : List (List UInt8)) :
    MaskRight paths ↔ ∀ text, Jsonenc.fieldmask paths = .ok text → MaskSafe paths := by
  constructor
  · intro hright text htext
    obtain ⟨es, hes, -⟩ := fieldmask_ok_iff.mp htext
    exact hright.safe hes
  · intro hsafe text htext d tail
    obtain ⟨es, hes, rfl⟩ := fieldmask_ok_iff.mp htext
    obtain ⟨⟨hlast, hcomma⟩, hplain, hcontrol⟩ := (maskSafe_iff hes).mp (hsafe _ htext)
    have hquoted : quote :: (join true es ++ [quote]) ++ tail = quote :: (join true es ++ quote :: tail) := by simp
    obtain ⟨d', hstring, hrest⟩ := string_bytes hplain hcontrol
      (d := { d with rest := quote :: (join true es ++ [quote]) ++ tail }) hquoted
    refine ⟨d', ?_, hrest⟩
    rw [fieldmask, bind_ok hstring]
    exact fieldmaskLoop_of_split (split_join hcomma hlast) hes (Nat.le_refl _) d'

/-- The list of an empty path is read as an empty list. -/
theorem not_fieldmask_right : ¬∀ paths, MaskRight paths :=
  fun h => ((h [[]]).safe (.cons .nil .nil)).last rfl

end Right

end Jsondec

end Hpb
