import Hpb.Text.Unknown

/-!
# What `txtenc_unknown` prints

`txtenc_unknown` prints the fields that `readUnknown` reads (`unknown_agrees`), and where it fails it leaves the depth
too high by the groups that are open. A speculative parse that fails takes back the position and the overflow, but not
the depth.
-/

namespace Hpb

open UnknownItem

namespace Txtenc

/-- What was read and what was printed: with the same end, and a text and a depth for it. -/
inductive Agrees {α : Type} (e : Txtenc) (text : α → List UInt8) (left : α → Nat) (place : α → UnknownStream × Nat) :
    Option (Except Nat α) → Option (Txtenc × Option (UnknownStream × Nat)) → Prop where
  | outOfFuel : Agrees e text left place none none
  | failed {n : Nat} {written : List UInt8} {e' : Txtenc} (h : e.Writes written n e') :
      Agrees e text left place (some (.error n)) (some (e', none))
  | read {a : α} {e' : Txtenc} (h : e.Writes (text a) (left a) e') :
      Agrees e text left place (some (.ok a)) (some (e', some (place a)))

/-- What was read of a payload, and how its speculative parse ended. -/
inductive AgreesPayload (e : Txtenc) : Option (Except Nat UnknownRead) → Option (Txtenc × Bool) → Prop where
  | outOfFuel : AgreesPayload e none none
  | failed {n : Nat} {e' : Txtenc} (h : e.Writes [] n e') (hpos : e'.out.pos = e.out.pos)
      (hoverflow : e'.out.overflow = e.out.overflow) : AgreesPayload e (some (.error n)) (some (e', false))
  | read {r : UnknownRead} {e' : Txtenc}
      (h : e.Writes (chars "\x7b" ++ endText e.options ++ itemsText e.options (e.indentDepth + 1) r.items ++
        indentText e.options (e.indentDepth + leftAll r.items) ++ chars "\x7d") (leftAll r.items) e') :
      AgreesPayload e (some (.ok r)) (some (e', true))

variable (e : Txtenc)

theorem writes_openBlock : e.Writes (chars "\x7b" ++ endText e.options) 1 e.openBlock := by
  have hend := (e.writes_putStr "\x7b").then_ (writes_endField _)
  have hdeep := hend.trans (writes_deepen _ 1)
  rwa [List.append_nil, Int.zero_add] at hdeep

theorem writes_closeBlock : e.Writes (indentText e.options (e.indentDepth - 1) ++ chars "\x7d") (-1) e.closeBlock := by
  have hindent := (writes_indent (e.deepen (-1))).then_ (writes_putStr _ "\x7d")
  have hclose := (writes_deepen e (-1)).trans hindent
  rwa [List.nil_append] at hclose

variable {e}

/-- A block with some fields in it. -/
theorem Writes.block {e' : Txtenc} {text : List UInt8} {n : Nat} (h : e.openBlock.Writes text n e') :
    e.Writes (chars "\x7b" ++ endText e.options ++ text ++ indentText e.options (e.indentDepth + n) ++ chars "\x7d") n
      e'.closeBlock := by
  have hopen := writes_openBlock e
  have hclose := writes_closeBlock e'
  have hdepth : e'.indentDepth - 1 = e.indentDepth + n := by
    rw [h.indentDepth, hopen.indentDepth]
    omega
  rw [h.options, hopen.options, hdepth] at hclose
  have hblock := (hopen.trans h).trans hclose
  rwa [← List.append_assoc, show (1 + (n : Int)) + -1 = n by omega] at hblock

/-- Back to where a speculative parse began. -/
theorem Writes.restore {e' : Txtenc} {text : List UInt8} {n : Nat} (h : e.openBlock.Writes text n e') :
    e.Writes [] n ((e'.deepen (-1)).restore e) where
  follows hb := by
    obtain ⟨hfollows, hlen⟩ := ((writes_openBlock e).trans h).follows hb
    refine ⟨?_, hlen⟩
    rw [List.append_nil]
    exact hfollows.restore hb hlen
  indentDepth := by
    change e'.indentDepth + -1 = _
    rw [h.indentDepth, (writes_openBlock e).indentDepth]
    omega
  options := h.options.trans (writes_openBlock e).options

section Run

variable (mem : Nat → UInt8) (fuel : Nat)

/-- The fields are printed. -/
def PrintsFields : Prop := ∀ (e : Txtenc) (ptr : Nat) (s : UnknownStream) (groupnum : Int),
  Agrees e (fun r : UnknownRead => itemsText e.options e.indentDepth r.items) (fun r => leftAll r.items)
    (fun r => (r.stream, r.ptr)) (readUnknown mem fuel ptr s groupnum) (unknown mem fuel e ptr s groupnum)

/-- A value is printed behind the number of its field. -/
def PrintsValue : Prop := ∀ (e : Txtenc) (ptr : Nat) (s : UnknownStream) (tag : Nat) (short : Bool),
  Agrees e (fun a : UnknownItem × UnknownStream × Nat => a.1.valueText e.options e.indentDepth) (fun a => a.1.left)
    (fun a => a.2) (readUnknownValue mem fuel ptr s tag short) (unknownValue mem fuel e ptr s tag)

/-- A payload is printed as a block, or the output goes back. -/
def PrintsPayload : Prop := ∀ (e : Txtenc) (ptr size : Nat),
  AgreesPayload e (readPayload mem fuel ptr size) (speculate mem fuel e ptr size)

variable {mem fuel}

theorem PrintsFields.payload (h : PrintsFields mem fuel) : PrintsPayload mem (fuel + 1) := by
  intro e ptr size
  have hrun := h e.openBlock ptr (.init ptr size) (-1)
  unfold readPayload speculate
  generalize readUnknown mem fuel ptr (.init ptr size) (-1) = r at hrun ⊢
  generalize unknown mem fuel e.openBlock ptr (.init ptr size) (-1) = x at hrun ⊢
  have hopen := writes_openBlock e
  cases hrun with
  | outOfFuel => exact .outOfFuel
  | failed hw => exact .failed hw.restore rfl rfl
  | read hw =>
    rw [hopen.options, hopen.indentDepth] at hw
    exact .read hw.block

/-- The number of a field is that of its tag. -/
theorem number_of_readUnknownValue {ptr : Nat} {s : UnknownStream} {tag : Nat} {short : Bool}
    {item : UnknownItem} {place : UnknownStream × Nat}
    (h : readUnknownValue mem fuel ptr s tag short = some (.ok (item, place))) : item.number = tag / 8 := by
  cases fuel with
  | zero =>
    unfold readUnknownValue at h
    cases h
  | succ fuel =>
    unfold readUnknownValue at h
    repeat' split at h
    all_goals cases h
    all_goals rfl

theorem value_agrees (hfields : PrintsFields mem fuel) (hpayload : PrintsPayload mem fuel) :
    PrintsValue mem (fuel + 1) := by
  intro e ptr s tag short
  unfold readUnknownValue unknownValue
  split
  · cases WireReader.readVarint (s.bytes mem ptr) with
    | none => exact .failed (.refl e)
    | some r => exact .read (writes_printf e _)
  · exact .read (writes_printf e _)
  · exact .read (writes_printf e _)
  · cases UnknownField.readSize (s.bytes mem ptr) with
    | none => exact .failed (.refl e)
    | some r =>
      obtain ⟨n, size⟩ := r
      dsimp only
      split
      · have hrun := hpayload e (ptr + n) size
        generalize readPayload mem fuel (ptr + n) size = r at hrun ⊢
        generalize speculate mem fuel e (ptr + n) size = x at hrun ⊢
        cases hrun with
        | outOfFuel => exact .outOfFuel
        | failed hw _ _ => 
          have hstring := hw.trans (writes_string _ (memorySlice mem (ptr + n) size) true)
          rw [List.nil_append, Int.add_zero] at hstring
          exact .read hstring
        | read hw => exact .read hw
      · exact .failed (.refl e)
  · have hrun := hfields e.openBlock ptr s (tag / 8)
    have hopen := writes_openBlock e
    generalize readUnknown mem fuel ptr s (tag / 8) = r at hrun ⊢
    generalize unknown mem fuel e.openBlock ptr s (tag / 8) = x at hrun ⊢
    cases hrun with
    | outOfFuel => exact .outOfFuel
    | failed hw =>
      have hopened := hopen.trans hw
      rw [Int.add_comm] at hopened
      exact .failed hopened
    | read hw =>
      rw [hopen.options, hopen.indentDepth] at hw
      exact .read hw.block
  · exact .failed (.refl e)

theorem fields_agree (hfields : PrintsFields mem fuel) (hvalue : PrintsValue mem fuel) :
    PrintsFields mem (fuel + 1) := by
  intro e ptr s groupnum
  unfold readUnknown unknown
  cases s.isDone ptr with
  | done =>
    dsimp only
    split
    · exact .read (.refl e)
    · exact .failed (.refl e)
  | error => exact .failed (.refl e)
  | more s =>
    dsimp only
    cases UnknownField.readTag (s.bytes mem ptr) with
    | none => exact .failed (.refl e)
    | some r =>
      obtain ⟨n, tag⟩ := r
      dsimp only
      split
      · exact .read (.refl e)
      · have hline := (writes_indent e).then_ (writes_printf e.indent (numberText tag))
        have hrun := hvalue (e.indent.printf (numberText tag)) (ptr + n) s tag (isShort (s.bytes mem ptr) n tag)
        have hnumber : ∀ item place, readUnknownValue mem fuel (ptr + n) s tag (isShort (s.bytes mem ptr) n tag) =
            some (.ok (item, place)) → item.number = tag / 8 := fun _ _ => number_of_readUnknownValue
        generalize readUnknownValue mem fuel (ptr + n) s tag (isShort (s.bytes mem ptr) n tag) = r at hrun hnumber ⊢
        generalize unknownValue mem fuel (e.indent.printf (numberText tag)) (ptr + n) s tag = x at hrun ⊢
        cases hrun with
        | outOfFuel => exact .outOfFuel
        | failed hw => exact .failed (hline.then_ hw)
        | @read a e' hw =>
          obtain ⟨item, s', ptr'⟩ := a
          rw [hline.options, hline.indentDepth, Int.add_zero] at hw
          have hfield := (hline.then_ hw).trans (writes_endField e')
          rw [Int.add_zero, hw.options, hline.options, numberText, ← hnumber item _ rfl] at hfield
          have hrest := hfields e'.endField ptr' s' groupnum
          dsimp only
          generalize readUnknown mem fuel ptr' s' groupnum = r at hrest ⊢
          generalize unknown mem fuel e'.endField ptr' s' groupnum = x at hrest ⊢
          cases hrest with
          | outOfFuel => exact .outOfFuel
          | failed hw' => exact .failed (n := item.left + _) (hfield.trans hw')
          | @read r e'' hw' =>
            rw [hfield.options, hfield.indentDepth] at hw'
            refine Agrees.read (a := { r with items := item :: r.items }) ?_
            rw [itemsText, leftAll, Int.natCast_add]
            exact hfield.trans hw'

theorem unknown_agrees (mem : Nat → UInt8) (fuel : Nat) :
    PrintsFields mem fuel ∧ PrintsValue mem fuel ∧ PrintsPayload mem fuel := by
  induction fuel with
  | zero =>
    refine ⟨fun _ _ _ _ => ?_, fun _ _ _ _ _ => ?_, fun _ _ _ => ?_⟩
    · unfold readUnknown unknown
      exact .outOfFuel
    · unfold readUnknownValue unknownValue
      exact .outOfFuel
    · unfold readPayload speculate
      exact .outOfFuel
  | succ fuel ih =>
    obtain ⟨hfields, hvalue, hpayload⟩ := ih
    exact ⟨fields_agree hfields hvalue, value_agrees hfields hpayload, hfields.payload⟩

end Run

/-- The position, the overflow and the depth are what they were. -/
structure Restored (start e : Txtenc) : Prop where
  pos : e.out.pos = start.out.pos
  overflow : e.out.overflow = start.out.overflow
  indentDepth : e.indentDepth = start.indentDepth

/-- The speculative parse of a payload fails, and no group is open there, nor where a speculative parse in it fails. -/
def FailsClosed (mem : Nat → UInt8) (fuel ptr size : Nat) : Prop := readPayload mem fuel ptr size = some (.error 0)

instance (mem : Nat → UInt8) (fuel ptr size : Nat) : Decidable (FailsClosed mem fuel ptr size) :=
  match h : readPayload mem fuel ptr size with
  | none => isFalse fun h' => nomatch h.symm.trans h'
  | some (.ok r) => isFalse fun h' => nomatch h.symm.trans h'
  | some (.error n) => decidable_of_iff (n = 0) ⟨fun hn => h.trans (by rw [hn]), fun h' =>
      Except.error.inj (Option.some.inj (h.symm.trans h'))⟩

/-- **A speculative parse that fails** takes back the position and the overflow. It takes back the depth too if and only
if no group is open where it fails, nor where a speculative parse in it fails. -/
theorem speculate_restored_iff {mem : Nat → UInt8} {fuel ptr size : Nat} {e e' : Txtenc}
    (h : speculate mem fuel e ptr size = some (e', false)) :
    (e'.out.pos = e.out.pos ∧ e'.out.overflow = e.out.overflow) ∧
      (Restored e e' ↔ FailsClosed mem fuel ptr size) := by
  unfold FailsClosed
  have hrun := (unknown_agrees mem fuel).2.2 e ptr size
  rw [h] at hrun
  generalize readPayload mem fuel ptr size = r at hrun ⊢
  cases hrun with
  | @failed left _ hw hpos hoverflow =>
    refine ⟨⟨hpos, hoverflow⟩, fun hrestored => ?_, fun hzero => ⟨hpos, hoverflow, ?_⟩⟩
    · have hdepth := hw.indentDepth
      rw [hrestored.indentDepth] at hdepth
      rw [show left = 0 by omega]
    · have hdepth := hw.indentDepth
      rwa [show left = 0 from Except.error.inj (Option.some.inj hzero), Int.natCast_zero, Int.add_zero] at hdepth

/-- A payload that ends in the middle of a varint: no group is open. -/
theorem speculate_restored_iff_varint :
    ∃ e', speculate (memoryOf [8, 128]) 6 (new ⟨false, false, false⟩ []) 0 2 = some (e', false) ∧
      Restored (new ⟨false, false, false⟩ []) e' := by
  have hrun : speculate (memoryOf [8, 128]) 6 (new ⟨false, false, false⟩ []) 0 2 =
      some (new ⟨false, false, false⟩ [], false) := by decide +kernel
  exact ⟨_, hrun, (speculate_restored_iff hrun).2.mpr (by decide +kernel)⟩

/-- **The start of a group as a payload**: the depth is one more after it, and the next field is moved to the right. -/
theorem not_speculate_restored :
    ¬∀ (mem : Nat → UInt8) (fuel ptr size : Nat) (e e' : Txtenc),
      speculate mem fuel e ptr size = some (e', false) → Restored e e' := by
  intro h
  have hrun : speculate (memoryOf [11]) 6 (new ⟨false, false, false⟩ []) 0 1 =
      some ((new ⟨false, false, false⟩ []).deepen 1, false) := by decide +kernel
  exact absurd (h _ _ _ _ _ _ hrun).indentDepth (by decide)

/-- The fields `1: "\013"` and `2: 5`. -/
example : (unknown (memoryOf [10, 1, 11, 16, 5]) 20 (new ⟨false, false, false⟩ (List.replicate 24 0)) 0 (.init 0 5)
    (-1)).map (fun r => r.1.out.buf.take r.1.out.pos) = some (chars "1: \"\\013\"\n  2: 5\n") := by
  decide +kernel

end Txtenc

end Hpb
