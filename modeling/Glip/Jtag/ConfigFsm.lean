import Glip.Jtag.ScanTarget

/-! The state machine of glip_jtag_config_discovery_fsm.v, which answers a header of ones, and
the output of the target. -/
namespace Glip.Jtag
open Foundation
variable {W : Nat}

inductive ConfigState
  | idle | sendWordWidth | sendBufferSize | waitForUpdate
  deriving DecidableEq, Repr

structure ConfigFsm (W : Nat) where
  configState : ConfigState
  bitCnt : BitVec W
  inReg : BitVec W
  dataTransfer : Bool
  configDiscovery : Bool
  ctrlLogicRst : Bool
  deriving DecidableEq

structure ConfigWires (W : Nat) where
  nxt : ConfigFsm W
  tdo : Bool

namespace ConfigFsm
variable (numWords : Nat) (s : ConfigFsm W) (i : TapIn)

def wires : ConfigWires W :=
  let s := { s with ctrlLogicRst := false }
  match s.configState with
  | .idle =>
    if i.shift then
      let nxt := { s with inReg := setBit s.inReg s.bitCnt.toNat i.tdi, configDiscovery := false, dataTransfer := false }
      if s.bitCnt.toNat = W - 1 then
        let nxt := { nxt with bitCnt := 0 }
        if withTop i.tdi s.inReg = BitVec.allOnes W then
          ⟨{ nxt with configState := .sendWordWidth, configDiscovery := true }, false⟩
        else ⟨{ nxt with configState := .waitForUpdate, dataTransfer := true }, false⟩
      else ⟨{ nxt with bitCnt := s.bitCnt + 1 }, false⟩
    else ⟨s, false⟩
  | .sendWordWidth =>
    let tdo := bitAt (BitVec.ofNat W W) s.bitCnt.toNat
    let nxt := { s with configDiscovery := true, dataTransfer := false, ctrlLogicRst := decide (s.bitCnt = 0) && i.tdi }
    if s.bitCnt.toNat = W - 1 then ⟨{ nxt with bitCnt := 0, configState := .sendBufferSize }, tdo⟩
    else ⟨{ nxt with bitCnt := s.bitCnt + 1 }, tdo⟩
  | .sendBufferSize =>
    let tdo := bitAt (BitVec.ofNat W numWords) s.bitCnt.toNat
    let nxt := { s with configDiscovery := true, dataTransfer := false }
    if s.bitCnt.toNat = W - 1 then ⟨{ nxt with bitCnt := 0, configState := .waitForUpdate, inReg := 0 }, tdo⟩
    else ⟨{ nxt with bitCnt := s.bitCnt + 1 }, tdo⟩
  | .waitForUpdate => ⟨{ s with configState := if i.update then .idle else .waitForUpdate }, false⟩

def cleared (W : Nat) : ConfigFsm W := ⟨.idle, 0, 0, false, false, false⟩

def next : ConfigFsm W := if i.update then cleared W else (s.wires numWords i).nxt

end ConfigFsm

def configCycles (W numWords : Nat) : Transducer (ConfigFsm W) TapIn (Bool × Bool) where
  next s i := s.next numWords i
  emit s i := [((s.wires numWords i).tdo, s.ctrlLogicRst)]

/-- The whole target over the cycles of a scan, with the bits of `tdo` while bits are shifted. -/
def toplevel (numWords : Nat) (f : FifoSide W) : Transducer (ConfigFsm W × Target W) (TapIn × Nat) Bool where
  next s i := (s.1.next numWords i.1, (target f).next s.2 i)
  emit s i :=
    let dataTdo := (s.2.output.wires (s.2.outputIn f i)).tdo
    if i.1.shift then [if s.1.configDiscovery then (s.1.wires numWords i.1).tdo else dataTdo] else []

def pulses (numWords : Nat) (s : ConfigFsm W) (is : List TapIn) : Nat :=
  ((configCycles W numWords).emitted s is).countP Prod.snd

theorem pulses_append (numWords : Nat) (s : ConfigFsm W) (is js : List TapIn) :
    pulses numWords s (is ++ js) = pulses numWords s is + pulses numWords ((configCycles W numWords).after s is) js := by
  rw [pulses, Transducer.emitted_append, List.countP_append, pulses, pulses]

theorem toplevel_config {numWords : Nat} {f : FifoSide W} {s : ConfigFsm W × Target W} (cs : List (TapIn × Nat)) :
    ((toplevel numWords f).after s cs).1 = (configCycles W numWords).after s.1 (cs.map Prod.fst) := by
  induction cs generalizing s with
  | nil => rfl
  | cons c cs ih => exact ih

end Glip.Jtag
