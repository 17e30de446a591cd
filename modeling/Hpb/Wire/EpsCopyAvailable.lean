import Hpb.Wire.EpsCopyFlat

/-!
# What `CheckDataSizeAvailable` promises

`hpb_EpsCopyInputStream_CheckDataSizeAvailable` should be true only for data that ends before every limit.
It compares with 16 bytes past `limit_ptr`, which is the end of the data only as long as the stream reads
the caller's buffer and no limit ends before it: then `e->limit` is 16 (`checkDataSizeAvailable_inside_iff`).
Past a limit, or past the end of the data in the patch buffer, it accepts up to 16 bytes more.

`Client.Within` is what a client's reads keep: they go at most 16 bytes past the limit.
-/

namespace Hpb

open EpsCopyInputStream

/-- The limits are nested, and what the client can read ends at most 16 bytes past the innermost. -/
structure Client.Within (fr : Frame) (c : Client) (f : Flat) : Prop where
  nested : f.limits.Pairwise (· ≤ ·)
  limits_le : ∀ l ∈ f.limits, l ≤ fr.size
  budget_le : c.budget ≤ slopBytes
  reads : f.pos + c.budget ≤ f.limit fr + slopBytes

section Within

variable {fr : Frame} {al : Bool} {c : Client} {f : Flat}

theorem Client.Within.init (fr : Frame) : Client.Within fr {} ⟨0, []⟩ :=
  ⟨.nil, by simp, by simp, by simp⟩

/-- The innermost limit is the least. -/
theorem Client.Within.limit_le (h : c.Within fr f) {l : Nat} (hl : l ∈ f.limits) : f.limit fr ≤ l := by
  obtain ⟨pos, limits⟩ := f
  cases limits with
  | nil => cases hl
  | cons x ls =>
    obtain rfl | hl := List.mem_cons.mp hl
    · exact Nat.le_refl _
    · exact (List.pairwise_cons.mp h.nested).1 l hl

theorem Client.Within.limit_le_size (h : c.Within fr f) : f.limit fr ≤ fr.size := by
  obtain ⟨pos, limits⟩ := f
  cases limits with
  | nil => exact Nat.le_refl _
  | cons x ls => exact h.limits_le x List.mem_cons_self

/-- Moving past data that ends before the limit. -/
theorem Client.Within.moved (h : c.Within fr f) {n : Nat} (hn : f.pos + n ≤ f.limit fr) :
    Client.Within fr { c with budget := 0, atLimit := false } { f with pos := f.pos + n } :=
  ⟨h.nested, h.limits_le, Nat.zero_le _, Nat.le_add_right_of_le hn⟩

/-- A call keeps it, unless it finds an error. -/
theorem Client.Within.step (h : c.Within fr f) {op : StreamOp} (hop : c.allows op = true)
    (herr : (f.step fr al op).1 ≠ .error) :
    Client.Within fr (c.next op (f.step fr al op).1) (f.step fr al op).2 := by
  cases op with
  | isDone =>
    rw [Flat.step] at herr ⊢
    split
    · next hlt =>
      refine ⟨h.nested, h.limits_le, Nat.le_refl _, ?_⟩
      change f.pos + slopBytes ≤ f.limit fr + slopBytes
      omega
    · split
      · next heq =>
        refine ⟨h.nested, h.limits_le, Nat.zero_le _, ?_⟩
        change f.pos + 0 ≤ f.limit fr + slopBytes
        omega
      · next hlt hne => simp [hlt, hne] at herr
  | read n =>
    have hn : n ≤ c.budget := by simp [Client.allows] at hop; exact hop.2
    have hreads := h.reads
    refine ⟨h.nested, h.limits_le, Nat.le_trans (Nat.sub_le _ _) h.budget_le, ?_⟩
    change f.pos + n + (c.budget - n) ≤ f.limit fr + slopBytes
    omega
  | skip n =>
    rw [Flat.step]
    split
    · next hn => exact h.moved hn
    · exact h
  | copy n =>
    rw [Flat.step]
    split
    · next hn => exact h.moved hn
    · exact h
  | readString n =>
    rw [Flat.step]
    split
    · next hn => exact h.moved hn
    · exact h
  | pushLimit n =>
    rw [Flat.step]
    split
    · next hn =>
      refine ⟨List.pairwise_cons.mpr ⟨fun l hl => Nat.le_trans hn (h.limit_le hl), h.nested⟩, ?_,
        h.budget_le, ?_⟩
      · intro l hl
        obtain rfl | hl := List.mem_cons.mp hl
        · exact Nat.le_trans hn h.limit_le_size
        · exact h.limits_le l hl
      · have := h.budget_le
        change f.pos + c.budget ≤ f.pos + n + slopBytes
        omega
    · exact h
  | popLimit =>
    have hreads := h.reads
    have htail : f.limit fr ≤ f.limits.tail.headD fr.size := by
      cases hl : f.limits.tail with
      | nil => exact h.limit_le_size
      | cons x ls => exact h.limit_le (List.mem_of_mem_tail (by rw [hl]; exact List.mem_cons_self))
    refine ⟨h.nested.tail, fun l hl => h.limits_le l (List.mem_of_mem_tail hl), Nat.zero_le _, ?_⟩
    change f.pos + 0 ≤ f.limits.tail.headD fr.size + slopBytes
    omega

end Within

/-- A run without an error leaves a stream that stands for the flat cursor. -/
theorem Stands.run_within {fr : Frame} {al : Bool} {m : Mode} {c : Client} {s s' : Stream} {f f' : Flat}
    {evs : List StreamEvent} (h : Stands fr al m c s f) (hw : c.Within fr f) {ops : List StreamOp}
    (hrun : c.run (Stream.step fr) s ops = some (evs, s'))
    (hflat : c.run (fun f op => some (Flat.step fr al f op)) f ops = some (evs, f'))
    (herr : StreamEvent.error ∉ evs) :
    ∃ m' c', Stands fr al m' c' s' f' ∧ c'.Within fr f' := by
  induction ops generalizing m c s f evs with
  | nil =>
    cases hrun
    cases hflat
    exact ⟨m, c, h, hw⟩
  | cons op ops ih =>
    by_cases hop : c.allows op = true
    · rw [Client.run, if_pos hop] at hrun hflat
      obtain ⟨s₁, hs₁, hcase⟩ := h.step hop
      rw [hs₁] at hrun
      simp only [Option.bind_eq_bind, Option.bind_some] at hrun hflat
      obtain ⟨⟨evs₁, t⟩, hrest, heq⟩ := Option.bind_eq_some_iff.mp hrun
      cases heq
      obtain ⟨⟨evs₂, u⟩, hrest', heq⟩ := Option.bind_eq_some_iff.mp hflat
      cases heq
      obtain ⟨hee, -⟩ | ⟨hne, m', h'⟩ := hcase
      · exact absurd (by rw [hee]; exact List.mem_cons_self) herr
      · exact ih h' (hw.step hop hne) hrest hrest' fun hmem => herr (List.mem_cons_of_mem _ hmem)
    · rw [Client.run, if_neg hop] at hrun hflat
      cases hrun
      cases hflat
      exact ⟨m, c, h, hw⟩

/-- The `size` bytes at the cursor are in the input and before every limit. -/
def Flat.Inside (fr : Frame) (f : Flat) (size : Int) : Prop :=
  0 ≤ size ∧ f.pos + size ≤ fr.size ∧ ∀ l ∈ f.limits, (f.pos : Int) + size ≤ l

/-- **What the check compares**: the data may end 16 bytes past the limit, or past `end`. -/
theorem Sim.checkDataSizeAvailable_eq {fr : Frame} {al : Bool} {m : Mode} {e : EpsCopyInputStream} {ptr : Int}
    {pos lim : Nat} (h : Sim fr al m e ptr pos lim) (hreads : pos ≤ lim + slopBytes) {size : Int}
    (hlo : -2 ^ 31 ≤ size) (hhi : size < 2 ^ 31) :
    checkDataSizeAvailable e ptr size =
      decide (0 ≤ size ∧ pos + size ≤ min lim (m.endOff fr) + slopBytes) := by
  have h1 := h.limit_eq
  have h2 := h.limitPtr_eq
  have h3 := h.lim_le
  have h4 := h.end_eq
  have h5 := h.ptr_eq
  have h6 := h.lo_le
  have h7 := h.pos_le
  have hb := fr.base_end
  have hp := fr.patch_end
  have hsz := h.size_le
  have hsum : uintptr (uintptr ptr + uintptr size) = uintptr (ptr + size) := by
    simp only [uintptr]
    omega
  have hlim : e.limitPtr = m.addr fr (min lim (m.endOff fr)) := by
    rw [h2, h1, h4]
    cases m <;> simp only [Mode.addr] <;> omega
  rw [checkDataSizeAvailable, checkSizeAvailable]
  simp only [Bool.false_eq_true, ↓reduceIte]
  rw [← Bool.decide_and, decide_eq_decide, hsum, hlim]
  generalize hk : min lim (m.endOff fr) = k
  have hk' : k ≤ m.endOff fr ∧ pos ≤ k + slopBytes := by omega
  cases m with
  | caller =>
    have hl := h.large rfl
    simp only [Mode.addr, Mode.endOff, Mode.lo, slopBytes, Frame.size, int32Max, uintptr] at *
    omega
  | patch =>
    simp only [Mode.addr, Mode.endOff, Mode.lo, slopBytes, Frame.size, Frame.patchLo, int32Max, uintptr] at *
    omega

/-- **`CheckDataSizeAvailable` is true only for data before every limit if and only if `e->limit` is 16**,
which is so while the stream reads the caller's buffer and no limit ends before the input does. -/
theorem checkDataSizeAvailable_inside_iff (fr : Frame) (hsz : fr.size ≤ int32Max) (al : Bool)
    (ops : List StreamOp) {evs : List StreamEvent} {s : Stream} {f : Flat}
    (hrun : Client.run (Stream.step fr) {} (Stream.init fr al) ops = some (evs, s))
    (hflat : Client.run (fun f op => some (Flat.step fr al f op)) {} ⟨0, []⟩ ops = some (evs, f))
    (herr : StreamEvent.error ∉ evs) :
    (∀ size : Int, -2 ^ 31 ≤ size → size < 2 ^ 31 → checkDataSizeAvailable s.e s.ptr size = true →
      f.Inside fr size) ↔ s.e.limit = slopBytes := by
  obtain ⟨m₀, hm⟩ := init_stands hsz al
  obtain ⟨m, c, h, hw⟩ := hm.run_within (.init fr) hrun hflat herr
  have hlimit := h.sim.limit_eq
  have hpos : f.pos ≤ f.limit fr + slopBytes := Nat.le_trans (Nat.le_add_right _ _) hw.reads
  have hsize := hw.limit_le_size
  have hend := h.sim.lim_le_end
  constructor
  · intro hall
    by_contra hne
    have hlt : f.limit fr < m.endOff fr + slopBytes := by
      refine Nat.lt_of_le_of_ne hend fun heq => hne ?_
      rw [hlimit]
      omega
    -- the smallest size that ends past the limit is accepted
    let size : Int := ((f.limit fr + 1 - f.pos : Nat) : Int)
    have hbound : size < 2 ^ 31 := by
      have hlo := h.sim.lo_le
      have hmax := h.sim.size_le
      have hlarge := h.sim.large
      cases m <;> simp only [Mode.lo, Mode.endOff, Frame.patchLo, int32Max, slopBytes] at * <;> omega
    have hin := hall size (by omega) hbound (by
      rw [h.sim.checkDataSizeAvailable_eq hpos (by omega) hbound, decide_eq_true_eq]
      have := h.sim.pos_le
      have := h.sim.large
      simp only [slopBytes] at *
      omega)
    have hlim : (f.pos : Int) + size ≤ f.limit fr := by
      obtain ⟨-, hs, hls⟩ := hin
      cases hl : f.limits with
      | nil => simpa [Flat.limit, hl] using hs
      | cons l ls => simpa [Flat.limit, hl] using hls l (by rw [hl]; exact List.mem_cons_self)
    omega
  · intro heq size hlo hhi hcheck
    rw [h.sim.checkDataSizeAvailable_eq hpos hlo hhi, decide_eq_true_eq] at hcheck
    obtain ⟨hnn, hle⟩ := hcheck
    have hin : (f.pos : Int) + size ≤ f.limit fr := by
      rw [hlimit] at heq
      omega
    exact ⟨hnn, by omega, fun l hl => by have := hw.limit_le hl; omega⟩

/-- One byte into a buffer of 20 without a limit, 19 bytes are available and they are the rest of it. -/
theorem checkDataSizeAvailable_inside_frame20 : frame20.size ≤ int32Max ∧
    ∃ s f, Client.run (Stream.step frame20) {} (Stream.init frame20 true) [.isDone, .read 1] =
        some ([.isDone false, .bytes [0]], s) ∧
      Client.run (fun f op => some (Flat.step frame20 true f op)) {} ⟨0, []⟩ [.isDone, .read 1] =
        some ([.isDone false, .bytes [0]], f) ∧
      checkDataSizeAvailable s.e s.ptr 19 = true ∧ f.Inside frame20 19 :=
  ⟨by decide, _, _, rfl, rfl, by decide,
    (checkDataSizeAvailable_inside_iff frame20 (by decide) true [.isDone, .read 1] rfl rfl (by decide)).mpr
      (by decide) 19 (by decide) (by decide) (by decide)⟩

/-- With a limit two bytes ahead, 18 bytes are available: the 16 bytes after the limit are counted. -/
theorem checkDataSizeAvailable_past_limit :
    ∃ s f, Client.run (Stream.step frame20) {} (Stream.init frame20 true) [.isDone, .read 1, .pushLimit 2] =
        some ([.isDone false, .bytes [0], .moved], s) ∧
      Client.run (fun f op => some (Flat.step frame20 true f op)) {} ⟨0, []⟩
        [.isDone, .read 1, .pushLimit 2] = some ([.isDone false, .bytes [0], .moved], f) ∧
      checkDataSizeAvailable s.e s.ptr 18 = true ∧ ¬f.Inside frame20 18 := by
  refine ⟨_, _, rfl, rfl, by decide, ?_⟩
  rintro ⟨-, -, hlimits⟩
  exact absurd (hlimits 3 (by decide)) (by decide)

end Hpb
