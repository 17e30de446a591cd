import Hpb.Wire.EpsCopySim

/-!
# Clients of the stream, and the flat cursor they see

`Client.run step` drives a stream (`Stream.step`) or the flat cursor (`Flat.step`) through a list of
calls. A call that the client may not make at that point ends the run: `IsDone` comes before each
field, the reads after it take at most 16 bytes, a limit is popped only where `IsDone` found it, and
nothing follows an error. `Skip`, `Copy`, `ReadString` and `PushLimit` are guarded by `CheckSize`.
-/

namespace Hpb

open EpsCopyInputStream

/-- A call on the stream. -/
inductive StreamOp where
  | isDone
  /-- Read `n` bytes at the pointer, without a bounds check. -/
  | read (n : Nat)
  | skip (size : Nat)
  | copy (size : Nat)
  | readString (size : Nat)
  | pushLimit (size : Nat)
  | popLimit
  deriving DecidableEq

/-- What a call shows to the client. -/
inductive StreamEvent where
  | isDone (done : Bool)
  /-- `IsDone` is true and `IsError` is too. -/
  | error
  | bytes (bs : List UInt8)
  | string (data : StrData)
  | moved
  /-- `CheckSize` is false. -/
  | rejected
  deriving DecidableEq

/-- What a client may do next. -/
structure Client where
  /-- The bytes it can read before the next `IsDone`. -/
  budget : Nat := 0
  /-- `IsDone` was true at the current position. -/
  atLimit : Bool := false
  /-- The limits it has pushed and not popped. -/
  depth : Nat := 0
  ended : Bool := false

namespace Client

/-- Whether the client may make the call. A size is an `int`. -/
def allows (c : Client) : StreamOp → Bool
  | .isDone => !c.ended
  | .read n => !c.ended && n ≤ c.budget
  | .skip size | .copy size | .readString size | .pushLimit size => !c.ended && size ≤ int32Max
  | .popLimit => !c.ended && c.atLimit && 0 < c.depth

/-- The client after the call. -/
def next (c : Client) : StreamOp → StreamEvent → Client
  | _, .error => { c with ended := true }
  | _, .rejected => c
  | .isDone, .isDone false => { c with budget := slopBytes, atLimit := false }
  | .isDone, _ => { c with budget := 0, atLimit := true }
  | .read n, _ => { c with budget := c.budget - n, atLimit := false }
  | .pushLimit _, _ => { c with depth := c.depth + 1, atLimit := false }
  | .popLimit, _ => { c with depth := c.depth - 1, budget := 0, atLimit := false }
  | _, _ => { c with budget := 0, atLimit := false }

/-- The events of the calls, up to the first one that the client may not make, and the last state.
`none`: a call went wrong. -/
def run {σ : Type} (step : σ → StreamOp → Option (StreamEvent × σ)) :
    Client → σ → List StreamOp → Option (List StreamEvent × σ)
  | _, s, [] => some ([], s)
  | c, s, op :: ops =>
    if c.allows op then do
      let (ev, s') ← step s op
      let (evs, t) ← run step (c.next op ev) s' ops
      return (ev :: evs, t)
    else some ([], s)

end Client

/-- A cursor over the caller's buffer with a stack of limits, the innermost first. -/
structure Flat where
  pos : Nat
  limits : List Nat

namespace Flat

/-- The innermost limit. -/
def limit (fr : Frame) (f : Flat) : Nat := f.limits.headD fr.size

/-- What each call does to the flat cursor. -/
def step (fr : Frame) (al : Bool) (f : Flat) : StreamOp → StreamEvent × Flat
  | .isDone =>
    if f.pos < f.limit fr then (.isDone false, f)
    else if f.pos = f.limit fr then (.isDone true, f)
    else (.error, f)
  | .read n => (.bytes (fr.bytesAt f.pos n), { f with pos := f.pos + n })
  | .skip n => if f.pos + n ≤ f.limit fr then (.moved, { f with pos := f.pos + n }) else (.rejected, f)
  | .copy n =>
    if f.pos + n ≤ f.limit fr then (.bytes ((fr.buf.drop f.pos).take n), { f with pos := f.pos + n })
    else (.rejected, f)
  | .readString n =>
    if f.pos + n ≤ f.limit fr then
      (.string (if al then .aliased (fr.base + f.pos) else .copied ((fr.buf.drop f.pos).take n)),
        { f with pos := f.pos + n })
    else (.rejected, f)
  | .pushLimit n =>
    if f.pos + n ≤ f.limit fr then (.moved, { f with limits := (f.pos + n) :: f.limits })
    else (.rejected, f)
  | .popLimit => (.moved, { f with limits := f.limits.tail })

end Flat

/-- A stream in use: the pointer, the deltas that the client keeps for `PopLimit`, and how often the
stream moved to the patch buffer. -/
structure Stream where
  e : EpsCopyInputStream
  ptr : Int
  deltas : List Int
  flips : Nat

namespace Stream

/-- `hpb_EpsCopyInputStream_Init`. -/
def init (fr : Frame) (al : Bool) : Stream :=
  { e := (EpsCopyInputStream.init fr al).1, ptr := (EpsCopyInputStream.init fr al).2
    deltas := [], flips := 0 }

/-- A call of a stream function. `none`: an invalid access, or a `NULL` where the data was there. -/
def step (fr : Frame) (s : Stream) : StreamOp → Option (StreamEvent × Stream)
  | .isDone => do
    let (done, e, ptr?) ← isDone fr s.e s.ptr
    let flips := if e.end_ ≠ s.e.end_ then s.flips + 1 else s.flips
    match ptr? with
    | some ptr => return (.isDone done, { s with e, ptr, flips })
    | none => if e.error then return (.error, { s with e, flips }) else none
  | .read n => do
    let bs ← loadN fr s.e s.ptr n
    return (.bytes bs, { s with ptr := s.ptr + n })
  | .skip n =>
    if checkSize s.e s.ptr n then do
      let ptr ← skip s.e s.ptr n
      return (.moved, { s with ptr })
    else return (.rejected, s)
  | .copy n =>
    if checkSize s.e s.ptr n then do
      let (bs, ptr) ← (← copy fr s.e s.ptr n)
      return (.bytes bs, { s with ptr })
    else return (.rejected, s)
  | .readString n =>
    if checkSize s.e s.ptr n then do
      let (str, ptr) ← (← readString fr s.e s.ptr n)
      return (.string str, { s with ptr })
    else return (.rejected, s)
  | .pushLimit n =>
    if checkSize s.e s.ptr n then
      let (delta, e) := pushLimit s.e s.ptr n
      return (.moved, { s with e, deltas := delta :: s.deltas })
    else return (.rejected, s)
  | .popLimit =>
    match s.deltas with
    | [] => none
    | delta :: deltas => return (.moved, { s with e := popLimit s.e delta, deltas })

end Stream

/-- The deltas that belong to a stack of limits. -/
def deltasOf (fr : Frame) : List Nat → List Int
  | [] => []
  | l :: ls => (((ls.headD fr.size : Nat) : Int) - l) :: deltasOf fr ls

/-- A stream stands for a flat cursor, for a client that may read `c.budget` bytes. -/
structure Stands (fr : Frame) (al : Bool) (m : Mode) (c : Client) (s : Stream) (f : Flat) : Prop where
  sim : Sim fr al m s.e s.ptr f.pos (f.limit fr)
  limits_le : ∀ l ∈ f.limits, l ≤ fr.size
  deltas_eq : s.deltas = deltasOf fr f.limits
  depth_eq : c.depth = f.limits.length
  budget_le : f.pos + c.budget ≤ m.endOff fr + slopBytes
  /-- The patch buffer is entered once: the flip leaves `caller` for good. -/
  flips_le : s.flips ≤ 1 ∧ (m = .caller → s.flips = 0)

section Step

variable {fr : Frame} {al : Bool} {m : Mode} {c : Client} {s : Stream} {f : Flat}

/-- What a step of both sides has to show. -/
def Agree (fr : Frame) (al : Bool) (c : Client) (s : Stream) (f : Flat) (op : StreamOp) : Prop :=
  ∃ s', s.step fr op = some ((f.step fr al op).1, s') ∧
    ((f.step fr al op).1 = .error ∧ s'.e.error = true ∧ s'.flips ≤ 1 ∨
      (f.step fr al op).1 ≠ .error ∧
      ∃ m', Stands fr al m' (c.next op (f.step fr al op).1) s' (f.step fr al op).2)

/-- The pointer moved past `n` bytes before the limit; the client has to ask `IsDone` again. -/
theorem Stands.moved (h : Stands fr al m c s f) {n : Nat} (hn : f.pos + n ≤ f.limit fr) :
    Stands fr al m { c with budget := 0, atLimit := false } { s with ptr := s.ptr + n }
      { f with pos := f.pos + n } := by
  have hle := h.sim.lim_le_end
  refine { h with sim := ?_, budget_le := ?_ }
  · exact h.sim.advance (by omega)
  · simp only [Nat.add_zero]; omega

theorem Stands.step_isDone (h : Stands fr al m c s f) : Agree fr al c s f .isDone := by
  obtain ⟨hlt, m', e', ptr', hrun, hsim, hend, hm⟩ | ⟨heq, hrun⟩ | ⟨hgt, hrun⟩ := h.sim.isDone_run
  · have hev : f.step fr al .isDone = (.isDone false, f) := by simp [Flat.step, hlt]
    refine ⟨_, by simp only [Stream.step, hrun, hev]; rfl, .inr ⟨by simp [hev], m', ?_⟩⟩
    rw [hev]
    refine { h with sim := hsim, budget_le := ?_, flips_le := ?_ }
    · simp only [Client.next]; omega
    · obtain ⟨rfl, rfl⟩ | ⟨rfl, rfl, hne⟩ := hm
      · simpa using h.flips_le
      · have := h.flips_le.2 rfl
        simp [hne, this]
  · have hev : f.step fr al .isDone = (.isDone true, f) := by simp [Flat.step, heq]
    refine ⟨_, by simp only [Stream.step, hrun, hev]; rfl, .inr ⟨by simp [hev], m, ?_⟩⟩
    rw [hev]
    refine { h with budget_le := ?_, flips_le := ?_ }
    · simpa [Client.next] using h.sim.pos_le
    · simpa using h.flips_le
  · have hev : f.step fr al .isDone = (.error, f) := by
      simp [Flat.step, Nat.lt_asymm hgt, Nat.ne_of_gt hgt]
    refine ⟨_, by simp only [Stream.step, hrun, hev]; rfl, .inl ⟨by rw [hev], rfl, ?_⟩⟩
    simpa using h.flips_le.1

theorem Stands.step_read (h : Stands fr al m c s f) {n : Nat} (hn : n ≤ c.budget) :
    Agree fr al c s f (.read n) := by
  have hb := h.budget_le
  have hl := h.sim.loadN_run (n := n) (by omega)
  refine ⟨_, by simp only [Stream.step, hl, Flat.step]; rfl, .inr ⟨by simp [Flat.step], m, ?_⟩⟩
  refine { h with sim := ?_, budget_le := ?_ }
  · exact h.sim.advance (by omega)
  · simp only [Flat.step, Client.next]; omega

/-- `CheckSize` rejects the size on both sides. -/
theorem Stands.step_rejected (h : Stands fr al m c s f) {op : StreamOp}
    (hs : s.step fr op = some (.rejected, s)) (hf : f.step fr al op = (.rejected, f)) :
    Agree fr al c s f op := by
  refine ⟨s, by rw [hs, hf], .inr ⟨by simp [hf], m, ?_⟩⟩
  rw [hf]
  cases op <;> exact h

theorem Stands.step_skip (h : Stands fr al m c s f) (n : Nat) : Agree fr al c s f (.skip n) := by
  have hc := h.sim.checkSize_eq n
  by_cases hn : f.pos + n ≤ f.limit fr
  · obtain ⟨hr, -⟩ := h.sim.skip_run hn
    exact ⟨{ s with ptr := s.ptr + n }, by simp [Stream.step, hc, hn, hr, Flat.step],
      .inr ⟨by simp [Flat.step, hn], m, by simpa [Flat.step, hn, Client.next] using h.moved hn⟩⟩
  · exact h.step_rejected (by simp [Stream.step, hc, hn]) (by simp [Flat.step, hn])

theorem Stands.step_copy (h : Stands fr al m c s f) (n : Nat) : Agree fr al c s f (.copy n) := by
  have hc := h.sim.checkSize_eq n
  by_cases hn : f.pos + n ≤ f.limit fr
  · have hr := h.sim.copy_run hn
    exact ⟨{ s with ptr := s.ptr + n }, by simp [Stream.step, hc, hn, hr, Flat.step],
      .inr ⟨by simp [Flat.step, hn], m, by simpa [Flat.step, hn, Client.next] using h.moved hn⟩⟩
  · exact h.step_rejected (by simp [Stream.step, hc, hn]) (by simp [Flat.step, hn])

theorem Stands.step_readString (h : Stands fr al m c s f) (n : Nat) :
    Agree fr al c s f (.readString n) := by
  have hc := h.sim.checkSize_eq n
  by_cases hn : f.pos + n ≤ f.limit fr
  · have hr := h.sim.readString_run hn
    exact ⟨{ s with ptr := s.ptr + n }, by simp [Stream.step, hc, hn, hr, Flat.step],
      .inr ⟨by simp [Flat.step, hn], m, by simpa [Flat.step, hn, Client.next] using h.moved hn⟩⟩
  · exact h.step_rejected (by simp [Stream.step, hc, hn]) (by simp [Flat.step, hn])

theorem Stands.step_pushLimit (h : Stands fr al m c s f) (n : Nat) :
    Agree fr al c s f (.pushLimit n) := by
  have hc := h.sim.checkSize_eq n
  by_cases hn : f.pos + n ≤ f.limit fr
  · obtain ⟨hd, hsim⟩ := h.sim.pushLimit_run hn
    have hlim := h.sim.lim_le
    have hf : f.step fr al (.pushLimit n) = (.moved, { f with limits := (f.pos + n) :: f.limits }) := by
      simp [Flat.step, hn]
    refine ⟨_, by simp only [Stream.step, hc, hn, decide_true, ↓reduceIte, hf]; rfl, .inr ⟨by simp [hf], m, ?_⟩⟩
    rw [hf]
    refine { h with sim := hsim, limits_le := ?_, deltas_eq := ?_, depth_eq := ?_ }
    · intro l hl
      obtain rfl | hl := List.mem_cons.mp hl
      · omega
      · exact h.limits_le l hl
    · simp only [deltasOf, hd, h.deltas_eq, Flat.limit]
    · simp [Client.next, h.depth_eq]
  · exact h.step_rejected (by simp [Stream.step, hc, hn]) (by simp [Flat.step, hn])

theorem Stands.step_popLimit (h : Stands fr al m c s f) (hd : 0 < c.depth) :
    Agree fr al c s f .popLimit := by
  have hlen := h.depth_eq
  cases hl : f.limits with
  | nil => rw [hl, List.length_nil] at hlen; omega
  | cons l ls =>
    have hde := h.deltas_eq
    rw [hl, deltasOf] at hde
    have hlim : f.limit fr = l := by simp [Flat.limit, hl]
    have hle : ∀ x ∈ ls, x ≤ fr.size := fun x hx => h.limits_le x (by simp [hl, hx])
    have hout : ls.headD fr.size ≤ fr.size := by
      cases ls with
      | nil => exact Nat.le_refl _
      | cons x xs => exact hle x (by simp)
    have hf : f.step fr al .popLimit = (.moved, { f with limits := ls }) := by simp [Flat.step, hl]
    refine ⟨_, by simp only [Stream.step, hde, hf]; rfl, .inr ⟨by simp [hf], m, ?_⟩⟩
    rw [hf]
    refine { h with sim := ?_, limits_le := hle, deltas_eq := rfl, depth_eq := ?_, budget_le := ?_ }
    · exact h.sim.popLimit_run hout (by rw [hlim])
    · simp only [Client.next, hlen, hl, List.length_cons]; omega
    · simpa [Client.next] using h.sim.pos_le

/-- One call that the client may make. -/
theorem Stands.step (h : Stands fr al m c s f) {op : StreamOp} (hop : c.allows op = true) :
    Agree fr al c s f op := by
  cases op with
  | isDone => exact h.step_isDone
  | read n => exact h.step_read (by simp [Client.allows] at hop; exact hop.2)
  | skip n => exact h.step_skip n
  | copy n => exact h.step_copy n
  | readString n => exact h.step_readString n
  | pushLimit n => exact h.step_pushLimit n
  | popLimit => exact h.step_popLimit (by simp [Client.allows] at hop; exact hop.2)

end Step

/-- A client whose run has ended makes no call. -/
theorem Client.run_ended {σ : Type} (step : σ → StreamOp → Option (StreamEvent × σ)) {c : Client}
    (hc : c.ended = true) (s : σ) (ops : List StreamOp) : c.run step s ops = some ([], s) := by
  cases ops with
  | nil => rfl
  | cons op ops => cases op <;> simp [run, allows, hc]

/-- A run of a stream that stands for a flat cursor. -/
theorem Stands.run {fr : Frame} {al : Bool} {m : Mode} {c : Client} {s : Stream} {f : Flat}
    (h : Stands fr al m c s f) (ops : List StreamOp) :
    ∃ evs s' f', c.run (Stream.step fr) s ops = some (evs, s') ∧
      c.run (fun f op => some (Flat.step fr al f op)) f ops = some (evs, f') ∧
      (s'.e.error = true ↔ StreamEvent.error ∈ evs) ∧ s'.flips ≤ 1 := by
  induction ops generalizing m c s f with
  | nil => exact ⟨[], s, f, rfl, rfl, by simp [h.sim.noError], h.flips_le.1⟩
  | cons op ops ih =>
    by_cases hop : c.allows op = true
    · obtain ⟨s₁, hs₁, ⟨herr, he, hfl⟩ | ⟨hne, m', h'⟩⟩ := h.step hop
      · -- the error ends the run on both sides
        have hend : (c.next op .error).ended = true := by cases op <;> rfl
        refine ⟨[.error], s₁, (f.step fr al op).2, ?_, ?_, by simp [he], hfl⟩
        · simp [Client.run, hop, hs₁, herr, Client.run_ended _ hend]
        · have hf : f.step fr al op = (.error, (f.step fr al op).2) := by rw [← herr]
          rw [Client.run, if_pos hop, hf]
          simp [Client.run_ended _ hend]
      · obtain ⟨evs, s', f', hs', hf', herr, hfl⟩ := ih h'
        refine ⟨(f.step fr al op).1 :: evs, s', f', ?_, ?_, ?_, hfl⟩
        · simp [Client.run, hop, hs₁, hs']
        · simp [Client.run, hop, hf']
        · rw [herr, List.mem_cons, or_iff_right (Ne.symm hne)]
    · exact ⟨[], s, f, by simp [Client.run, hop], by simp [Client.run, hop],
        by simp [h.sim.noError], h.flips_le.1⟩

/-- A new stream stands for the start of its buffer. -/
theorem init_stands {fr : Frame} (hsz : fr.size ≤ int32Max) (al : Bool) :
    ∃ m, Stands fr al m {} (Stream.init fr al) ⟨0, []⟩ := by
  obtain ⟨m, hm⟩ := init_sim hsz al
  exact ⟨m, { sim := hm
              limits_le := by simp
              deltas_eq := rfl
              depth_eq := rfl
              budget_le := by simp
              flips_le := by simp [Stream.init] }⟩

/-- **The stream simulates the flat cursor.** For every buffer that an `int` can measure and every
sequence of calls that a client may make, the stream gives the events of the flat cursor (what `IsDone` answers, the bytes
read, the place of an aliased string), raises its error where the flat cursor does, and moves to the
patch buffer at most once. -/
theorem stream_simulates_flat (fr : Frame) (hsz : fr.size ≤ int32Max) (al : Bool)
    (ops : List StreamOp) :
    ∃ evs s f, Client.run (Stream.step fr) {} (Stream.init fr al) ops = some (evs, s) ∧
      Client.run (fun f op => some (Flat.step fr al f op)) {} ⟨0, []⟩ ops = some (evs, f) ∧
      (s.e.error = true ↔ StreamEvent.error ∈ evs) ∧ s.flips ≤ 1 := by
  obtain ⟨m, h⟩ := init_stands hsz al
  exact h.run ops

/-- A buffer of 20 bytes with the patch buffer right after it. -/
def frame20 : Frame where
  base := 4096
  buf := (List.range 20).map UInt8.ofNat
  patch := 4116
  base_end := by decide
  patch_end := by decide
  apart := by decide

/-- The simulation on a run that pushes a limit, flips inside it and pops it in the patch buffer. -/
theorem stream_simulates_flat_frame20 : frame20.size ≤ int32Max ∧
    ∃ evs s f, Client.run (Stream.step frame20) {} (Stream.init frame20 true)
        [.isDone, .read 4, .pushLimit 15, .isDone, .readString 3, .isDone, .read 12, .isDone,
          .popLimit, .isDone, .read 1, .isDone] = some (evs, s) ∧
      Client.run (fun f op => some (Flat.step frame20 true f op)) {} ⟨0, []⟩
        [.isDone, .read 4, .pushLimit 15, .isDone, .readString 3, .isDone, .read 12, .isDone,
          .popLimit, .isDone, .read 1, .isDone] = some (evs, f) ∧
      (s.e.error = true ↔ StreamEvent.error ∈ evs) ∧ s.flips ≤ 1 :=
  ⟨by decide, stream_simulates_flat frame20 (by decide) true _⟩

end Hpb
