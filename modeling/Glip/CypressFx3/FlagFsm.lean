import Mathlib.Tactic.Common

/-! The state machine of glip_cypressfx3_toplevel.sv on `clk_io_100`. -/
namespace Glip.CypressFx3

def FORCE_SEND_TIMEOUT : BitVec 14 := 10000

def SWRW_WAIT : BitVec 4 := 15

inductive FsmState
  | idle | flgCRcvd | waitFlgD | read | readDrain1 | readDrain2 | readDrain3 | readDrain4 | flgARcvd
  | waitFlgB | write | writeFlush | flush | waitFlgA | swRead | swWrite | swWriteWaitflg | delayWr
  deriving DecidableEq, Repr

inductive Endpoint
  | epout | epin
  deriving DecidableEq, Repr

/-- The flags of the FX3, low when it has nothing to give (`c`, `d`) or no room (`a`, `b`). -/
structure Flags where
  flagaN : Bool
  flagbN : Bool
  flagcN : Bool
  flagdN : Bool

namespace Flags
variable (f : Flags)

def outEmpty : Bool := !f.flagcN
def outAlmostEmpty : Bool := !f.flagdN
def inFull : Bool := !f.flagaN
def inAlmostFull : Bool := !f.flagbN

end Flags

structure Fsm where
  state : FsmState
  idleCounter : BitVec 14
  flush : Bool
  swrwCount : BitVec 4
  deriving DecidableEq, Repr

structure FsmWires where
  nxtState : FsmState
  nxtIdleCounter : BitVec 14
  nxtFlush : Bool
  nxtSwrwCount : BitVec 4
  oe : Bool
  rd : Bool
  wr : Bool
  pktend : Bool
  /-- `none` for `2'bxx` -/
  fifoadr : Option Endpoint
  intFifoOutReady : Bool

namespace Fsm
variable (s : Fsm)

def defaults : FsmWires where
  nxtState := s.state
  nxtIdleCounter := if 0 < s.idleCounter then s.idleCounter - 1 else 0
  nxtFlush := if !s.flush && s.idleCounter == 1 then true else s.flush
  nxtSwrwCount := if 0 < s.swrwCount then s.swrwCount - 1 else 0
  oe := false
  rd := false
  wr := false
  pktend := false
  fifoadr := none
  intFifoOutReady := false

def wires (f : Flags) (intFifoInAlmostFull intFifoOutEmpty : Bool) : FsmWires :=
  let w := s.defaults
  match s.state with
  | .idle =>
    let w := { w with fifoadr := some .epin }
    if !f.inFull && !intFifoOutEmpty then { w with nxtState := .delayWr }
    else if s.flush then { w with nxtState := .writeFlush }
    else if !f.outEmpty && !intFifoInAlmostFull then { w with nxtState := .flgCRcvd }
    else w
  | .delayWr => { w with nxtState := .flgARcvd }
  | .flgARcvd =>
    { w with fifoadr := some .epin, nxtIdleCounter := 0, nxtFlush := false, nxtSwrwCount := SWRW_WAIT,
             nxtState := .waitFlgB }
  | .waitFlgB =>
    let w := { w with fifoadr := some .epin }
    if f.inFull then { w with nxtIdleCounter := FORCE_SEND_TIMEOUT, nxtState := .idle }
    else if !f.inAlmostFull then { w with nxtState := .write }
    else if s.swrwCount == 1 then { w with nxtState := .swWrite }
    else w
  | .write =>
    let w := { w with fifoadr := some .epin, wr := true, intFifoOutReady := true }
    if intFifoOutEmpty then
      { w with wr := false, intFifoOutReady := false, nxtIdleCounter := FORCE_SEND_TIMEOUT, nxtState := .idle }
    else if f.inAlmostFull then { w with intFifoOutReady := false, nxtState := .idle }
    else w
  | .swWrite =>
    { w with fifoadr := some .epin, wr := true, intFifoOutReady := true, nxtSwrwCount := 3,
             nxtState := .swWriteWaitflg }
  | .swWriteWaitflg =>
    let w := { w with fifoadr := some .epin }
    if w.nxtSwrwCount == 1 then { w with nxtIdleCounter := FORCE_SEND_TIMEOUT, nxtState := .idle } else w
  | .writeFlush =>
    { w with fifoadr := some .epin, nxtFlush := false, nxtState := if !f.inFull then .flush else .idle }
  | .flush =>
    { w with fifoadr := some .epin, pktend := true, nxtState := if !f.inFull then .waitFlgA else .idle }
  | .waitFlgA => if f.inFull then { w with nxtState := .idle } else w
  | .flgCRcvd => { w with fifoadr := some .epout, nxtSwrwCount := SWRW_WAIT, nxtState := .waitFlgD }
  | .waitFlgD =>
    let w := { w with fifoadr := some .epout }
    if !f.outAlmostEmpty then { w with nxtState := .read }
    else if s.swrwCount == 1 then { w with nxtState := .swRead }
    else w
  | .read =>
    let w := { w with fifoadr := some .epout, rd := true, oe := true }
    if intFifoInAlmostFull then { w with nxtState := .readDrain2 }
    else if f.outAlmostEmpty then { w with nxtState := .readDrain1 }
    else w
  | .swRead => { w with fifoadr := some .epout, rd := true, oe := true, nxtState := .readDrain2 }
  | .readDrain1 => { w with oe := true, rd := true, fifoadr := some .epout, nxtState := .readDrain2 }
  | .readDrain2 => { w with oe := true, fifoadr := some .epout, nxtState := .readDrain3 }
  | .readDrain3 => { w with oe := true, fifoadr := some .epout, nxtState := .readDrain4 }
  | .readDrain4 => { w with oe := true, fifoadr := some .epout, nxtState := .idle }

def reset : Fsm := ⟨.idle, 0, true, 0⟩

end Fsm

def FsmWires.registers (w : FsmWires) : Fsm := ⟨w.nxtState, w.nxtIdleCounter, w.nxtFlush, w.nxtSwrwCount⟩

@[simp] theorem FsmWires.registers_state (w : FsmWires) : w.registers.state = w.nxtState := rfl

end Glip.CypressFx3
