import Glip.Foundation.ShiftRegister

/-! The test access port of glip_jtag_tap.v, with `trst_pad_i` low, as glip_jtag_toplevel.v ties it. -/
namespace Glip.Jtag
open Foundation

inductive TapState
  | testLogicReset | runTestIdle
  | selectDrScan | captureDr | shiftDr | exit1Dr | pauseDr | exit2Dr | updateDr
  | selectIrScan | captureIr | shiftIr | exit1Ir | pauseIr | exit2Ir | updateIr
  deriving DecidableEq, Repr

def TapState.next : TapState → Bool → TapState
  | .testLogicReset, tms => if tms then .testLogicReset else .runTestIdle
  | .runTestIdle, tms => if tms then .selectDrScan else .runTestIdle
  | .selectDrScan, tms => if tms then .selectIrScan else .captureDr
  | .captureDr, tms => if tms then .exit1Dr else .shiftDr
  | .shiftDr, tms => if tms then .exit1Dr else .shiftDr
  | .exit1Dr, tms => if tms then .updateDr else .pauseDr
  | .pauseDr, tms => if tms then .exit2Dr else .pauseDr
  | .exit2Dr, tms => if tms then .updateDr else .shiftDr
  | .updateDr, tms => if tms then .selectDrScan else .runTestIdle
  | .selectIrScan, tms => if tms then .testLogicReset else .captureIr
  | .captureIr, tms => if tms then .exit1Ir else .shiftIr
  | .shiftIr, tms => if tms then .exit1Ir else .shiftIr
  | .exit1Ir, tms => if tms then .updateIr else .pauseIr
  | .pauseIr, tms => if tms then .exit2Ir else .pauseIr
  | .exit2Ir, tms => if tms then .updateIr else .shiftIr
  | .updateIr, tms => if tms then .selectDrScan else .runTestIdle

structure TapStates where
  testLogicReset : Bool
  runTestIdle : Bool
  selectDrScan : Bool
  captureDr : Bool
  shiftDr : Bool
  exit1Dr : Bool
  pauseDr : Bool
  exit2Dr : Bool
  updateDr : Bool
  selectIrScan : Bool
  captureIr : Bool
  shiftIr : Bool
  exit1Ir : Bool
  pauseIr : Bool
  exit2Ir : Bool
  updateIr : Bool
  deriving DecidableEq

def TapStates.next (s : TapStates) (tms tmsReset : Bool) : TapStates where
  testLogicReset := tmsReset || tms && (s.testLogicReset || s.selectIrScan)
  runTestIdle := !tmsReset && (!tms && (s.testLogicReset || s.runTestIdle || s.updateDr || s.updateIr))
  selectDrScan := !tmsReset && (tms && (s.runTestIdle || s.updateDr || s.updateIr))
  captureDr := !tmsReset && (!tms && s.selectDrScan)
  shiftDr := !tmsReset && (!tms && (s.captureDr || s.shiftDr || s.exit2Dr))
  exit1Dr := !tmsReset && (tms && (s.captureDr || s.shiftDr))
  pauseDr := !tmsReset && (!tms && (s.exit1Dr || s.pauseDr))
  exit2Dr := !tmsReset && (tms && s.pauseDr)
  updateDr := !tmsReset && (tms && (s.exit1Dr || s.exit2Dr))
  selectIrScan := !tmsReset && (tms && s.selectDrScan)
  captureIr := !tmsReset && (!tms && s.selectIrScan)
  shiftIr := !tmsReset && (!tms && (s.captureIr || s.shiftIr || s.exit2Ir))
  exit1Ir := !tmsReset && (tms && (s.captureIr || s.shiftIr))
  pauseIr := !tmsReset && (!tms && (s.exit1Ir || s.pauseIr))
  exit2Ir := !tmsReset && (tms && s.pauseIr)
  updateIr := !tmsReset && (tms && (s.exit1Ir || s.exit2Ir))

def TapState.oneHot (st : TapState) : TapStates where
  testLogicReset := st = .testLogicReset
  runTestIdle := st = .runTestIdle
  selectDrScan := st = .selectDrScan
  captureDr := st = .captureDr
  shiftDr := st = .shiftDr
  exit1Dr := st = .exit1Dr
  pauseDr := st = .pauseDr
  exit2Dr := st = .exit2Dr
  updateDr := st = .updateDr
  selectIrScan := st = .selectIrScan
  captureIr := st = .captureIr
  shiftIr := st = .shiftIr
  exit1Ir := st = .exit1Ir
  pauseIr := st = .pauseIr
  exit2Ir := st = .exit2Ir
  updateIr := st = .updateIr

inductive TapInstruction
  | extest | samplePreload | idcode | mbist | debug | bypass
  deriving DecidableEq, Repr

def tapInstruction (ir : BitVec 4) : TapInstruction :=
  if ir = 0b0000#4 then .extest
  else if ir = 0b0001#4 then .samplePreload
  else if ir = 0b0010#4 then .idcode
  else if ir = 0b1001#4 then .mbist
  else if ir = 0b1000#4 then .debug
  else .bypass

def idcodeIr : BitVec 4 := 0b0010

def debugIr : BitVec 4 := 0b1000

def idcodeValue : BitVec 32 := 0x24951185

def capturedIr : BitVec 4 := 0b0101

/-- The registers of the test access port; those at the end change at the falling edge. -/
structure Tap where
  states : TapStates
  tmsQ1 : Bool
  tmsQ2 : Bool
  tmsQ3 : Bool
  tmsQ4 : Bool
  jtagIr : BitVec 4
  latchedJtagIr : BitVec 4
  idcodeReg : BitVec 32
  bypassReg : Bool
  instructionTdo : Bool
  idcodeTdo : Bool
  bypassedTdo : Bool
  shiftIrNeg : Bool
  latchedJtagIrNeg : BitVec 4
  tdoPadoe : Bool
  deriving DecidableEq

structure TapPins where
  tms : Bool
  tdi : Bool
  deriving DecidableEq, Repr

namespace Tap
variable (t : Tap) (p : TapPins)

def tmsReset : Bool := t.tmsQ1 && t.tmsQ2 && t.tmsQ3 && t.tmsQ4 && p.tms

def debugSelect : Bool := tapInstruction t.latchedJtagIr = .debug

def idcodeSelect : Bool := tapInstruction t.latchedJtagIr = .idcode

def posedge : Tap :=
  { t with
    states := t.states.next p.tms (t.tmsReset p)
    tmsQ1 := p.tms
    tmsQ2 := t.tmsQ1
    tmsQ3 := t.tmsQ2
    tmsQ4 := t.tmsQ3
    jtagIr := if t.states.captureIr then capturedIr else if t.states.shiftIr then shiftIn p.tdi t.jtagIr else t.jtagIr
    latchedJtagIr := if t.tmsReset p then idcodeIr else if t.states.updateIr then t.jtagIr else t.latchedJtagIr
    idcodeReg := if t.idcodeSelect && t.states.shiftDr then shiftIn p.tdi t.idcodeReg else idcodeValue
    bypassReg := if t.states.shiftDr then p.tdi else t.bypassReg }

def negedge : Tap :=
  { t with
    instructionTdo := bitAt t.jtagIr 0
    idcodeTdo := bitAt t.idcodeReg 0
    bypassedTdo := t.bypassReg
    shiftIrNeg := t.states.shiftIr
    latchedJtagIrNeg := t.latchedJtagIr
    tdoPadoe := t.states.shiftIr || t.states.shiftDr || t.states.pauseDr && t.debugSelect }

def next : Tap := (t.posedge p).negedge

def tdoPad (debugTdi bsChainTdi mbistTdi : Bool) : Bool :=
  if t.shiftIrNeg then t.instructionTdo
  else
    match tapInstruction t.latchedJtagIrNeg with
    | .idcode => t.idcodeTdo
    | .debug => debugTdi
    | .samplePreload | .extest => bsChainTdi
    | .mbist => mbistTdi
    | .bypass => t.bypassedTdo

end Tap
end Glip.Jtag
