import Glip.Foundation.Transducer
import Glip.Uart.HostMessages

/-! The state machine of glip_uart_control_egress.v, which mixes the words of the
user logic with the credit for the host. -/
namespace Glip.Uart
open Foundation

inductive EgressState where
  | idle
  | passthrough
  | passthroughRepeat
  | sendCredit1
  | sendCredit2
  | sendCredit3
  deriving DecidableEq

structure EgressIn where
  inData : UInt8
  inValid : Bool
  outDone : Bool
  canSend : Bool
  credit : Nat

/-- The outputs of `glip_uart_control_egress`; `outData` is a don't care unless `outEnable` is high. -/
structure EgressOut where
  inReady : Bool
  outData : UInt8
  outEnable : Bool
  creditAck : Bool

def creditHigh (credit : Nat) : UInt8 := UInt8.ofNat (concat 1 (slice 14 8 credit) 1)
def creditLow (credit : Nat) : UInt8 := UInt8.ofNat (slice 7 0 credit)

namespace EgressState

def out (s : EgressState) (i : EgressIn) : EgressOut :=
  match s with
  | idle => ⟨false, 0, false, false⟩
  | passthrough => ⟨i.outDone, i.inData, i.canSend, false⟩
  | passthroughRepeat => ⟨false, marker, i.canSend, false⟩
  | sendCredit1 => ⟨false, marker, true, false⟩
  | sendCredit2 => ⟨false, creditHigh i.credit, true, false⟩
  | sendCredit3 => ⟨false, creditLow i.credit, true, i.outDone⟩

def nxt (s : EgressState) (i : EgressIn) (creditEn : Bool) : EgressState :=
  match s with
  | idle => if creditEn then sendCredit1 else if i.canSend && i.inValid then passthrough else idle
  | passthrough =>
    if i.outDone then if i.inData = marker then passthroughRepeat else idle else passthrough
  | passthroughRepeat => if i.outDone then idle else passthroughRepeat
  | sendCredit1 => if i.outDone then sendCredit2 else sendCredit1
  | sendCredit2 => if i.outDone then sendCredit3 else sendCredit2
  | sendCredit3 => if i.outDone then idle else sendCredit3

def transfer (s : EgressState) (i : EgressIn) : Bool := i.inValid && (s.out i).inReady

end EgressState
end Glip.Uart
