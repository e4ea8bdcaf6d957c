import Glip.Jtag.TapReset

/-! The bits that a scan moves through the test access port: the instruction, the code of the device and the bypass. -/
namespace Glip.Jtag
open Foundation

/-- `tdo_pad_o` where glip_jtag_toplevel.v wires all the chains through. -/
def Tap.tdo (t : Tap) (p : TapPins) : Bool := t.tdoPad p.tdi p.tdi p.tdi

def tapGives (shifting : TapStates → Bool) : Transducer Tap TapPins Bool where
  next := Tap.next
  emit t p := if shifting t.states then [t.tdo p] else []

def tapTakes (shifting : TapStates → Bool) : Transducer Tap TapPins Bool where
  next := Tap.next
  emit t p := if shifting t.states then [p.tdi] else []

/-- A state of a run on one instruction: the instruction is not updated, and the port is not reset. -/
def TapState.Keeps (st : TapState) : Prop := st ≠ .updateIr ∧ st ≠ .testLogicReset

namespace Tap
variable {t : Tap} {st : TapState} {p : TapPins} {ps : List TapPins} {L : BitVec 4}

theorem Synced.shiftIr_iff (h : t.Synced st) : t.states.shiftIr = true ↔ st = .shiftIr := by
  rw [h.states, TapState.oneHot, decide_eq_true_iff]

theorem Synced.shiftDr_iff (h : t.Synced st) : t.states.shiftDr = true ↔ st = .shiftDr := by
  rw [h.states, TapState.oneHot, decide_eq_true_iff]

/-- The edge before has left the falling edge what `tdo` shows. -/
theorem Synced.tdo_eq (h : t.Synced st) (p : TapPins) :
    t.tdo p = if st = .shiftIr then bitAt t.jtagIr 0
      else match tapInstruction t.latchedJtagIr with
        | .idcode => bitAt t.idcodeReg 0
        | .debug | .samplePreload | .extest | .mbist => p.tdi
        | .bypass => t.bypassReg := by
  have hneg : t.tdo p = t.negedge.tdo p := by rw [h.settled]
  rw [hneg, tdo, tdoPad]
  by_cases hshift : st = .shiftIr
  · have hnow : t.negedge.shiftIrNeg = true := h.shiftIr_iff.mpr hshift
    rw [if_pos hnow, if_pos hshift]
    rfl
  · have hnow : ¬t.negedge.shiftIrNeg = true := mt h.shiftIr_iff.mp hshift
    rw [if_neg hnow, if_neg hshift]
    cases hinst : tapInstruction t.latchedJtagIr <;> simp only [negedge, hinst]

/-- A reset comes with Test-Logic-Reset. -/
theorem Synced.latched_next (h : t.Synced st) (hupdate : st ≠ .updateIr) (hreset : st.next p.tms ≠ .testLogicReset) :
    (t.next p).latchedJtagIr = t.latchedJtagIr := by
  have hno : ¬t.tmsReset p = true := fun hr => hreset (h.reset hr)
  have hstay : ¬t.states.updateIr = true := by rwa [h.states, TapState.oneHot, decide_eq_true_iff]
  change (if t.tmsReset p then _ else if t.states.updateIr then _ else _) = _
  rw [if_neg hno, if_neg hstay]

/-- The states of the diagram and the instruction along a run. -/
theorem Synced.each {α : Type} {Q : TapState → TapPins → Prop} (h : t.Synced st) (hL : t.latchedJtagIr = L)
    (emit : Tap → TapPins → List α) (hwalk : tapWalk.Each (fun st p => st.Keeps ∧ Q st p) st ps) :
    Transducer.Each ⟨Tap.next, emit⟩ (fun t p => ∃ st, t.Synced st ∧ t.latchedJtagIr = L ∧ Q st p) t ps := by
  induction ps generalizing t st with
  | nil => trivial
  | cons p ps ih =>
    obtain ⟨⟨hkeeps, hQ⟩, hwalk⟩ := hwalk
    refine ⟨⟨st, h, hL, hQ⟩, ?_⟩
    rcases ps with _ | ⟨p', ps⟩
    · trivial
    · have hreset : st.next p.tms ≠ .testLogicReset := hwalk.1.1.2
      exact ih (h.next p) ((h.latched_next hkeeps.1 hreset).trans hL) hwalk

theorem Synced.each_states {α : Type} {Q : TapState → TapPins → Prop} (h : t.Synced st) (emit : Tap → TapPins → List α)
    (hwalk : tapWalk.Each Q st ps) : Transducer.Each ⟨Tap.next, emit⟩ (fun t p => ∃ st, t.Synced st ∧ Q st p) t ps := by
  induction ps generalizing t st with
  | nil => trivial
  | cons p ps ih => exact ⟨⟨st, h, hwalk.1⟩, ih (h.next p) hwalk.2⟩

/-- One edge for the bits of the instruction register. -/
theorem Synced.jtagIr_step (h : t.Synced st) (hst : st ≠ .captureIr) (p : TapPins) :
    (tapGives TapStates.shiftIr).emit t p ++ bitsOf (t.next p).jtagIr =
      bitsOf t.jtagIr ++ (tapTakes TapStates.shiftIr).emit t p := by
  have hcapture : ¬t.states.captureIr = true := by rwa [h.states, TapState.oneHot, decide_eq_true_iff]
  have hnext : (t.next p).jtagIr = if t.states.shiftIr then shiftIn p.tdi t.jtagIr else t.jtagIr := if_neg hcapture
  by_cases hshift : st = .shiftIr
  · have hs := h.shiftIr_iff.mpr hshift
    simp only [hnext, tapGives, tapTakes, hs, if_true, h.tdo_eq, if_pos hshift]
    exact bitsOf_shiftIn (by decide) p.tdi t.jtagIr
  · have hs := mt h.shiftIr_iff.mp hshift
    simp [hnext, tapGives, tapTakes, hs]

/-- The code of the device is loaded in every state but Shift-DR. -/
theorem Synced.idcodeReg_next (h : t.Synced st) (hst : st ≠ .shiftDr) (p : TapPins) : (t.next p).idcodeReg = idcodeValue := by
  have hshift := mt h.shiftDr_iff.mp hst
  change (if t.idcodeSelect && t.states.shiftDr then _ else _) = _
  rw [if_neg (by simp [hshift])]

/-- One edge in Shift-DR for the bits of the code. -/
theorem Synced.idcodeReg_step (h : t.Synced .shiftDr) (hcode : tapInstruction t.latchedJtagIr = .idcode) (p : TapPins) :
    (tapGives TapStates.shiftDr).emit t p ++ bitsOf (t.next p).idcodeReg =
      bitsOf t.idcodeReg ++ (tapTakes TapStates.shiftDr).emit t p := by
  have hs : t.states.shiftDr = true := h.shiftDr_iff.mpr rfl
  have hnext : (t.next p).idcodeReg = shiftIn p.tdi t.idcodeReg :=
    if_pos (by rw [hs, Bool.and_true, idcodeSelect, hcode]; rfl)
  have htdo : t.tdo p = bitAt t.idcodeReg 0 := by
    rw [h.tdo_eq, if_neg (by decide), hcode]
  simp only [hnext, tapGives, tapTakes, hs, if_true, htdo]
  exact bitsOf_shiftIn (by decide) p.tdi t.idcodeReg

/-- One edge for the bit of the bypass. -/
theorem Synced.bypassReg_step (h : t.Synced st) (hcode : tapInstruction t.latchedJtagIr = .bypass) (p : TapPins) :
    (tapGives TapStates.shiftDr).emit t p ++ [(t.next p).bypassReg] =
      [t.bypassReg] ++ (tapTakes TapStates.shiftDr).emit t p := by
  have hnext : (t.next p).bypassReg = if t.states.shiftDr then p.tdi else t.bypassReg := rfl
  by_cases hshift : st = .shiftDr
  · have hs := h.shiftDr_iff.mpr hshift
    have htdo : t.tdo p = t.bypassReg := by
      rw [h.tdo_eq, hshift, if_neg (by decide), hcode]
    simp [hnext, tapGives, tapTakes, hs, htdo]
  · have hs := mt h.shiftDr_iff.mp hshift
    simp [hnext, tapGives, tapTakes, hs]

/-- The edge that leaves Update-IR latches the instruction. -/
theorem Synced.latched_update (h : t.Synced .updateIr) (p : TapPins) : (t.next p).latchedJtagIr = t.jtagIr := by
  have hhistory := h.history
  have hno : ¬t.tmsReset p = true := by
    rw [tmsReset_iff]
    rintro ⟨hones, -⟩
    rw [hones] at hhistory
    exact absurd hhistory (by decide)
  have hs : t.states.updateIr = true := by rw [h.states]; rfl
  change (if t.tmsReset p then _ else if t.states.updateIr then _ else _) = _
  rw [if_neg hno, if_pos hs]

end Tap

/-- A scan from Capture-IR to Update-IR, with pauses or without: the bits that come out of it and those of the
instruction that is latched are the captured ones and the bits that go in. -/
theorem ir_scan {t : Tap} (h : t.Synced .captureIr) (p q : TapPins) (ps : List TapPins)
    (hwalk : tapWalk.Each (fun st _ => st ≠ .captureIr) (TapState.captureIr.next p.tms) ps)
    (hend : tapWalk.after (TapState.captureIr.next p.tms) ps = .updateIr) :
    (tapGives TapStates.shiftIr).emitted t (p :: ps) ++ bitsOf ((p :: ps ++ [q]).foldl Tap.next t).latchedJtagIr =
      bitsOf capturedIr ++ (tapTakes TapStates.shiftIr).emitted t (p :: ps) := by
  have hfirst : t.states.shiftIr = false := by rw [h.states]; rfl
  have hcaptured : (t.next p).jtagIr = capturedIr := if_pos (by rw [h.states]; rfl)
  have hupdate := (h.next p).run ps
  rw [hend] at hupdate
  have hshift := Transducer.shifts (fun t => bitsOf t.jtagIr) (fun t p ⟨_, hsync, hst⟩ => hsync.jtagIr_step hst p)
    ((h.next p).each_states (tapGives TapStates.shiftIr).emit hwalk)
  rw [List.foldl_append, List.foldl_cons, List.foldl_cons, List.foldl_nil, hupdate.latched_update q,
    Transducer.emitted_cons, Transducer.emitted_cons, List.append_assoc]
  have hgives : (tapGives TapStates.shiftIr).emit t p = [] := if_neg (by rw [hfirst]; decide)
  have htakes : (tapTakes TapStates.shiftIr).emit t p = [] := if_neg (by rw [hfirst]; decide)
  rw [hgives, htakes, List.nil_append, List.nil_append, ← hcaptured]
  exact hshift

/-- The instruction DEBUG with a pause in its scan, after low registers and a reset. -/
theorem ir_scan_debug :
    let t := resetTap [⟨false, false⟩, ⟨true, false⟩, ⟨true, false⟩, ⟨false, false⟩]
    let p : TapPins := ⟨false, false⟩
    let ps : List TapPins := [⟨false, false⟩, ⟨true, false⟩, ⟨false, true⟩, ⟨true, true⟩, ⟨false, true⟩, ⟨false, false⟩,
      ⟨true, true⟩, ⟨true, false⟩]
    (tapGives TapStates.shiftIr).emitted t (p :: ps) ++ bitsOf ((p :: ps ++ [p]).foldl Tap.next t).latchedJtagIr =
      bitsOf capturedIr ++ (tapTakes TapStates.shiftIr).emitted t (p :: ps) := by
  intro t p ps
  have hsync : t.Synced .captureIr := resetTap_synced [⟨false, false⟩, ⟨true, false⟩, ⟨true, false⟩, ⟨false, false⟩]
  exact ir_scan hsync p p ps (by simp [p, ps, tapWalk, Transducer.Each, TapState.next]) rfl

/-- A scan of a device with the instruction IDCODE: in every run of edges in Shift-DR the code of the device comes
out first, and then what goes in. -/
theorem idcode_scan {t : Tap} {st : TapState} (h : t.Synced st) (hst : st ≠ .shiftDr) (p : TapPins) (ps : List TapPins)
    (hcode : tapInstruction (t.next p).latchedJtagIr = .idcode)
    (hwalk : tapWalk.Each (fun st _ => st = .shiftDr) (st.next p.tms) ps) :
    (tapGives TapStates.shiftDr).emitted t (p :: ps) ++ bitsOf ((p :: ps).foldl Tap.next t).idcodeReg =
      bitsOf idcodeValue ++ (tapTakes TapStates.shiftDr).emitted t (p :: ps) := by
  have hfirst : ¬t.states.shiftDr = true := mt h.shiftDr_iff.mp hst
  have hgives : (tapGives TapStates.shiftDr).emit t p = [] := if_neg hfirst
  have htakes : (tapTakes TapStates.shiftDr).emit t p = [] := if_neg hfirst
  have hkeeps : tapWalk.Each (fun st _ => st.Keeps ∧ st = .shiftDr) (st.next p.tms) ps :=
    hwalk.imp fun st _ hst => ⟨by rw [hst]; exact ⟨by decide, by decide⟩, hst⟩
  have heach := (h.next p).each rfl (tapGives TapStates.shiftDr).emit hkeeps
  have hshift := Transducer.shifts (fun t => bitsOf t.idcodeReg)
    (fun t p ⟨st, hsync, hL, hst⟩ => (hst ▸ hsync).idcodeReg_step (hL ▸ hcode) p) heach
  rw [Transducer.emitted_cons, Transducer.emitted_cons, hgives, htakes, List.nil_append, List.nil_append,
    ← h.idcodeReg_next hst p]
  exact hshift

/-- The code of the device after a reset. -/
theorem idcode_scan_reset :
    let t := resetTap [⟨false, false⟩, ⟨true, false⟩, ⟨false, false⟩]
    let ps : List TapPins := List.replicate 8 ⟨false, true⟩
    (tapGives TapStates.shiftDr).emitted t (⟨false, false⟩ :: ps) ++ bitsOf ((⟨false, false⟩ :: ps).foldl Tap.next t).idcodeReg =
      bitsOf idcodeValue ++ (tapTakes TapStates.shiftDr).emitted t (⟨false, false⟩ :: ps) := by
  intro t ps
  have hsync : t.Synced .captureDr := resetTap_synced [⟨false, false⟩, ⟨true, false⟩, ⟨false, false⟩]
  exact idcode_scan hsync nofun ⟨false, false⟩ ps (by decide) (by simp [ps, List.replicate, tapWalk, Transducer.Each, TapState.next])

/-- In every run with a bypass, over any number of scans, the bits that come out in Shift-DR are those that went in
one such edge before; the first is the last bit of the scan before, whatever its instruction was. -/
theorem bypass_scan {t : Tap} {st : TapState} (h : t.Synced st) (ps : List TapPins)
    (hcode : tapInstruction t.latchedJtagIr = .bypass) (hwalk : tapWalk.Each (fun st _ => st.Keeps) st ps) :
    (tapGives TapStates.shiftDr).emitted t ps ++ [(ps.foldl Tap.next t).bypassReg] =
      [t.bypassReg] ++ (tapTakes TapStates.shiftDr).emitted t ps := by
  have heach := h.each rfl (tapGives TapStates.shiftDr).emit (hwalk.imp fun st p hst => ⟨hst, trivial⟩)
  exact Transducer.shifts (fun t => [t.bypassReg]) (fun t p ⟨_, hsync, hL, _⟩ => hsync.bypassReg_step (hL ▸ hcode) p) heach

/-- Low registers have the code of EXTEST, so a code that is none is latched first. -/
theorem bypass_scan_none :
    let lead : List TapPins := [⟨false, false⟩, ⟨true, false⟩, ⟨true, false⟩, ⟨false, false⟩, ⟨true, false⟩, ⟨true, false⟩, ⟨false, false⟩]
    let t := resetTap lead
    let ps : List TapPins := [⟨true, false⟩, ⟨false, false⟩, ⟨false, false⟩, ⟨false, true⟩, ⟨true, true⟩, ⟨true, false⟩, ⟨false, false⟩]
    t.latchedJtagIr = capturedIr ∧
    (tapGives TapStates.shiftDr).emitted t ps ++ [(ps.foldl Tap.next t).bypassReg] =
      [t.bypassReg] ++ (tapTakes TapStates.shiftDr).emitted t ps := by
  intro lead t ps
  have hsync : t.Synced .runTestIdle := resetTap_synced lead
  exact ⟨by decide, bypass_scan hsync ps (by decide)
    (by simp [ps, tapWalk, Transducer.Each, TapState.next, TapState.Keeps])⟩

end Glip.Jtag
