import Glip.Jtag.Tap

/-! The registers of the test access port follow its state diagram, from five edges with `tms` high on. -/
namespace Glip.Jtag
open Foundation

def TapState.toReset : TapState → Nat
  | .testLogicReset => 0
  | .selectIrScan => 1
  | .selectDrScan => 2
  | .runTestIdle | .updateDr | .updateIr => 3
  | .exit1Dr | .exit2Dr | .exit1Ir | .exit2Ir => 4
  | .captureDr | .shiftDr | .pauseDr | .captureIr | .shiftIr | .pauseIr => 5

def tapWalk : Transducer TapState TapPins TapState where
  next st p := st.next p.tms
  emit st _ := [st]

namespace TapState

theorem toReset_le (st : TapState) : st.toReset ≤ 5 := by
  cases st <;> decide

theorem toReset_next (st : TapState) : (st.next true).toReset = st.toReset - 1 := by
  cases st <;> rfl

theorem eq_reset_of_toReset {st : TapState} (h : st.toReset = 0) : st = .testLogicReset := by
  cases st <;> first | rfl | exact absurd h (by decide)

theorem oneHot_next (st : TapState) (tms : Bool) : st.oneHot.next tms false = (st.next tms).oneHot := by
  cases st <;> cases tms <;> rfl

end TapState

theorem TapStates.next_reset (s : TapStates) : s.next true true = TapState.testLogicReset.oneHot := by
  simp [TapStates.next, TapState.oneHot]

namespace Tap
variable {t : Tap} {st : TapState} {p : TapPins}

def ones (t : Tap) : Nat :=
  if !t.tmsQ1 then 0 else if !t.tmsQ2 then 1 else if !t.tmsQ3 then 2 else if !t.tmsQ4 then 3 else 4

/-- The port is in a state, where its history leads. -/
structure Synced (t : Tap) (st : TapState) : Prop where
  states : t.states = st.oneHot
  history : st.toReset + t.ones ≤ 5
  settled : t.negedge = t

theorem ones_next (t : Tap) (p : TapPins) : (t.next p).ones = if p.tms then min (t.ones + 1) 4 else 0 := by
  cases h : p.tms <;> cases h1 : t.tmsQ1 <;> cases h2 : t.tmsQ2 <;> cases h3 : t.tmsQ3 <;> cases h4 : t.tmsQ4 <;>
    simp [ones, next, negedge, posedge, h, h1, h2, h3, h4]

theorem tmsReset_iff (t : Tap) (p : TapPins) : t.tmsReset p = true ↔ t.ones = 4 ∧ p.tms = true := by
  cases h : p.tms <;> cases h1 : t.tmsQ1 <;> cases h2 : t.tmsQ2 <;> cases h3 : t.tmsQ3 <;> cases h4 : t.tmsQ4 <;>
    simp [ones, tmsReset, h, h1, h2, h3, h4]

@[simp] theorem next_states (t : Tap) (p : TapPins) : (t.next p).states = t.states.next p.tms (t.tmsReset p) := rfl

theorem settled_next (t : Tap) (p : TapPins) : (t.next p).negedge = t.next p := rfl

/-- A reset is where the state diagram is on its way to one. -/
theorem Synced.reset (h : t.Synced st) (hr : t.tmsReset p = true) : st.next p.tms = .testLogicReset := by
  obtain ⟨hones, htms⟩ := (t.tmsReset_iff p).mp hr
  have hhistory := h.history
  rw [htms]
  apply TapState.eq_reset_of_toReset
  rw [TapState.toReset_next]
  omega

theorem Synced.next (h : t.Synced st) (p : TapPins) : (t.next p).Synced (st.next p.tms) := by
  refine ⟨?_, ?_, t.settled_next p⟩
  · rw [next_states, h.states]
    cases hr : t.tmsReset p with
    | false => exact st.oneHot_next p.tms
    | true =>
      rw [h.reset hr, ((t.tmsReset_iff p).mp hr).2]
      exact TapStates.next_reset _
  · have hhistory := h.history
    rw [ones_next]
    cases htms : p.tms with
    | false =>
      have := (st.next false).toReset_le
      simpa using this
    | true =>
      have := st.toReset_next
      rw [if_pos rfl]
      omega

theorem Synced.run (h : t.Synced st) (ps : List TapPins) :
    (ps.foldl Tap.next t).Synced (tapWalk.after st ps) := by
  induction ps generalizing t st with
  | nil => exact h
  | cons p ps ih => exact ih (h.next p)

/-- Five edges with `tms` high, whatever the registers hold. -/
theorem five_ones (t : Tap) {lead : List TapPins} (hlen : lead.length = 5) (hones : ∀ p ∈ lead, p.tms = true) :
    (lead.foldl Tap.next t).Synced .testLogicReset ∧ (lead.foldl Tap.next t).latchedJtagIr = idcodeIr := by
  obtain ⟨a, b, c, d, e, rfl⟩ : ∃ a b c d e, lead = [a, b, c, d, e] := by
    rcases lead with _ | ⟨a, _ | ⟨b, _ | ⟨c, _ | ⟨d, _ | ⟨e, _ | ⟨g, rest⟩⟩⟩⟩⟩⟩ <;>
      first | exact ⟨_, _, _, _, _, rfl⟩ | simp at hlen
  simp only [List.mem_cons, List.not_mem_nil, or_false, forall_eq_or_imp, forall_eq] at hones
  obtain ⟨ha, hb, hc, hd, he⟩ := hones
  simp only [List.foldl_cons, List.foldl_nil]
  -- the first four edges fill the history
  have hfour : ((((t.next a).next b).next c).next d).tmsReset e = true := by
    simp [tmsReset, next, posedge, negedge, ha, hb, hc, hd, he]
  generalize (((t.next a).next b).next c).next d = t' at hfour ⊢
  refine ⟨⟨?_, ?_, settled_next t' e⟩, ?_⟩
  · rw [next_states, hfour, he]
    exact TapStates.next_reset _
  · rw [ones_next, if_pos he, TapState.toReset]
    omega
  · change (if t'.tmsReset e then idcodeIr else _) = idcodeIr
    rw [if_pos hfour]

end Tap

/-- Whatever the registers hold, after five edges with `tms` high the port is reset, with the instruction that
reads the code of the device, and from there on its registers are those of the state that the diagram is in. -/
theorem tap_follows_diagram (t : Tap) (lead ps : List TapPins) (hlen : lead.length = 5) (hones : ∀ p ∈ lead, p.tms = true) :
    ((lead ++ ps).foldl Tap.next t).states = (tapWalk.after .testLogicReset ps).oneHot ∧
      (lead.foldl Tap.next t).latchedJtagIr = idcodeIr := by
  obtain ⟨hsynced, hlatched⟩ := t.five_ones hlen hones
  rw [List.foldl_append]
  exact ⟨(hsynced.run ps).states, hlatched⟩

def clearTap : Tap :=
  ⟨⟨false, false, false, false, false, false, false, false, false, false, false, false, false, false, false, false⟩,
    false, false, false, false, 0, 0, 0, false, false, false, false, false, 0, false⟩

def fiveOnes : List TapPins := List.replicate 5 ⟨true, false⟩

theorem fiveOnes_tms : ∀ p ∈ fiveOnes, p.tms = true := by
  intro p hp
  rw [List.eq_of_mem_replicate hp]

/-- Low registers come to Shift-DR. -/
theorem tap_follows_diagram_clear :
    let ps : List TapPins := [⟨false, true⟩, ⟨true, true⟩, ⟨false, true⟩, ⟨false, true⟩]
    ((fiveOnes ++ ps).foldl Tap.next clearTap).states = TapState.shiftDr.oneHot ∧
      (fiveOnes.foldl Tap.next clearTap).latchedJtagIr = idcodeIr :=
  tap_follows_diagram clearTap fiveOnes _ rfl fiveOnes_tms

def resetTap (ps : List TapPins) : Tap := (fiveOnes ++ ps).foldl Tap.next clearTap

theorem resetTap_synced (ps : List TapPins) : (resetTap ps).Synced (tapWalk.after .testLogicReset ps) := by
  rw [resetTap, List.foldl_append]
  exact (clearTap.five_ones rfl fiveOnes_tms).1.run ps

end Glip.Jtag
