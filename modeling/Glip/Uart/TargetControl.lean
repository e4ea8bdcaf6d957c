import Glip.Uart.ControlEgress
import Glip.Uart.ControlIngress
import Glip.Uart.CreditCounters

/-! The control module glip_uart_control.v of the target as glip_uart_toplevel.v
instantiates it, one clock cycle at a time. -/
namespace Glip.Uart
open Foundation

def fifoCreditWidth : Nat := 12

def inputFifoCredit : Nat := 4090

structure Control where
  ingress : Ingress
  egress : EgressState
  debtor : Nat
  creditor : Creditor
  transferCounter : Nat
  sendCreditPnd : Bool
  getCredit : Bool
  comRstHost : Bool
  ctrlLogicRst : Bool
  deriving DecidableEq

structure ControlIn where
  rst : Bool
  ingressInData : UInt8
  ingressInValid : Bool
  ingressOutReady : Bool
  egressInData : UInt8
  egressInValid : Bool
  egressOutDone : Bool
  transferIn : Bool

structure CreditLogic where
  nxtTransferCounter : Nat
  nxtSendCreditPnd : Bool
  nxtGetCredit : Bool
  creditEn : Bool

namespace Control
variable (c : Control) (i : ControlIn)

def comRst : Bool := c.comRstHost || i.rst

def ingressIn : IngressIn := ⟨i.rst, i.ingressInData, i.ingressInValid, i.ingressOutReady⟩

def ingressOut : IngressOut := c.ingress.out (ingressIn i)

/-- The credit of the creditor is widened to 15 bits. -/
def egressIn : EgressIn :=
  ⟨i.egressInData, i.egressInValid, i.egressOutDone, owing c.debtor, c.creditor.credit⟩

def egressOut : EgressOut := c.egress.out (c.egressIn i)

def debtorIn : DebtorIn :=
  { rst := c.comRst i, payback := c.egress.transfer (c.egressIn i)
    lend := (c.ingressOut i).creditEn, tranche := (c.ingressOut i).creditVal }

def creditorIn : CreditorIn := ⟨c.comRst i, i.transferIn, c.getCredit⟩

def getCreditAck : Bool := (c.creditor.comb 15 fifoCreditWidth (c.creditorIn i)).grant

def creditLogic : CreditLogic :=
  if c.sendCreditPnd then
    { nxtTransferCounter :=
        if c.transferCounter ≠ 0 ∧ i.transferIn then c.transferCounter - 1 else c.transferCounter
      nxtSendCreditPnd := if c.getCredit then true else !(c.egressOut i).creditAck
      nxtGetCredit := c.getCredit && !c.getCreditAck i
      creditEn := if c.getCredit then c.getCreditAck i else true }
  else if c.transferCounter = 0 then ⟨inputFifoCredit / 2, true, true, false⟩
  else if i.transferIn then ⟨c.transferCounter - 1, false, c.getCredit, false⟩
  else ⟨c.transferCounter, false, c.getCredit, false⟩

/-- `error`; the egress state machine never raises its own. -/
def error : Bool :=
  debtorError 15 c.debtor (c.debtorIn i) ||
    c.creditor.error 15 fifoCreditWidth inputFifoCredit (c.creditorIn i) || (c.ingressOut i).error

def next : Control :=
  let l := c.creditLogic i
  let r := c.comRst i
  { ingress := c.ingress.next (ingressIn i)
    egress := if r then .idle else c.egress.nxt (c.egressIn i) l.creditEn
    debtor := debtorNext 15 c.debtor (c.debtorIn i)
    creditor := c.creditor.next 15 fifoCreditWidth inputFifoCredit (c.creditorIn i)
    transferCounter := if r then 0 else l.nxtTransferCounter
    sendCreditPnd := if r then false else l.nxtSendCreditPnd
    getCredit := if r then false else l.nxtGetCredit
    comRstHost :=
      if i.rst then false
      else if (c.ingressOut i).comRstEn then (c.ingressOut i).comRstVal else c.comRstHost
    ctrlLogicRst :=
      if i.rst then false
      else if (c.ingressOut i).logicRstEn then (c.ingressOut i).logicRstVal else c.ctrlLogicRst }

end Control
end Glip.Uart
