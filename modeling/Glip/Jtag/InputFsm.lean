import Glip.Foundation.BitSerial
import Glip.Jtag.SyncFifo

/-! The state machine of glip_jtag_input_fsm.v, which takes the words of a data transfer. -/
namespace Glip.Jtag
open Foundation
variable {W length : Nat}

inductive InputState
  | idle | readPacketLength | ignoreReadLength | readPacket | dropPacket
  deriving DecidableEq, Repr

structure InputFsm (W : Nat) where
  inputState : InputState
  bitCnt : BitVec W
  inRegData : BitVec W
  inRegCnt : BitVec W
  accCnt : BitVec W
  jtagReset : Bool
  error : Bool
  deriving DecidableEq

structure TapIn where
  tdi : Bool
  shift : Bool
  update : Bool
  capture : Bool
  deriving DecidableEq

structure InputWires (W : Nat) where
  nxt : InputFsm W
  inValid : Bool
  inFlit : BitVec W

def withTop (tdi : Bool) (x : BitVec W) : BitVec W := setBit x (W - 1) tdi

namespace InputFsm
variable (s : InputFsm W)

def wires (i : TapIn) (inReady : Bool) : InputWires W :=
  match s.inputState with
  | .idle =>
    let nxt := { s with error := false, bitCnt := 0, inRegData := 0, inRegCnt := 0, jtagReset := false, accCnt := 0 }
    if i.shift then
      ⟨{ nxt with inputState := .readPacketLength, bitCnt := s.bitCnt + 1,
                  inRegCnt := setBit 0 s.bitCnt.toNat i.tdi }, false, 0⟩
    else ⟨nxt, false, 0⟩
  | .readPacketLength =>
    let nxt := { s with inRegCnt := setBit s.inRegCnt s.bitCnt.toNat i.tdi }
    if s.bitCnt.toNat < W - 1 then ⟨{ nxt with bitCnt := s.bitCnt + 1 }, false, 0⟩
    else if s.bitCnt.toNat = W - 1 then
      let nxt := { nxt with bitCnt := 0 }
      if withTop i.tdi nxt.inRegCnt = BitVec.allOnes W then
        ⟨{ nxt with inputState := .dropPacket, jtagReset := true, error := false }, false, 0⟩
      else if withTop i.tdi nxt.inRegCnt ≠ 0 then
        ⟨{ nxt with inputState := .ignoreReadLength, jtagReset := false, error := false }, false, 0⟩
      else ⟨{ nxt with inputState := .dropPacket, jtagReset := false }, false, 0⟩
    else ⟨{ nxt with error := false }, false, 0⟩
  | .ignoreReadLength =>
    if s.bitCnt.toNat = W - 1 then ⟨{ s with bitCnt := 0, inputState := .readPacket }, false, 0⟩
    else ⟨{ s with bitCnt := s.bitCnt + 1 }, false, 0⟩
  | .readPacket =>
    let nxt := { s with error := false }
    if s.bitCnt.toNat < W - 1 then
      ⟨{ nxt with bitCnt := s.bitCnt + 1, inRegData := setBit s.inRegData s.bitCnt.toNat i.tdi }, false, 0⟩
    else if s.bitCnt.toNat = W - 1 then
      let nxt := { nxt with inRegData := setBit s.inRegData s.bitCnt.toNat i.tdi, bitCnt := 0 }
      let inFlit := withTop i.tdi nxt.inRegData
      if inReady then
        ⟨{ nxt with accCnt := s.accCnt + 1, inRegCnt := s.inRegCnt - 1,
                    inputState := if s.inRegCnt - 1 = 0 then .dropPacket else .readPacket }, true, inFlit⟩
      else ⟨{ nxt with inputState := .dropPacket }, false, inFlit⟩
    else ⟨nxt, false, 0⟩
  | .dropPacket =>
    if i.update || i.capture then
      ⟨{ s with bitCnt := 0, inputState := .idle, error := false, jtagReset := false }, false, 0⟩
    else ⟨{ s with bitCnt := 0, jtagReset := false }, false, 0⟩

def next (rst : Bool) (i : TapIn) (inReady : Bool) : InputFsm W :=
  let nxt := (s.wires i inReady).nxt
  if rst || i.update then
    { inputState := .dropPacket, bitCnt := 0, inRegData := 0, inRegCnt := 0, accCnt := 0, jtagReset := false
      error := nxt.error }
  else nxt

def offers (i : TapIn) (inReady : Bool) : List (BitVec W) :=
  let w := s.wires i inReady
  if w.inValid then [w.inFlit] else []

end InputFsm

structure InputPath (W length : Nat) where
  fsm : InputFsm W
  syncFifo : SyncFifo length (BitVec W)

namespace InputPath
variable (s : InputPath W length) (rst : Bool) (i : TapIn) (fifoReady : Bool)

def next : InputPath W length where
  fsm := s.fsm.next rst i s.syncFifo.inReady
  syncFifo :=
    let w := s.fsm.wires i s.syncFifo.inReady
    s.syncFifo.next w.inValid fifoReady rst w.inFlit

def accepts : List (BitVec W) := s.fsm.offers i s.syncFifo.inReady

def passes : List (BitVec W) := s.syncFifo.gives fifoReady

end InputPath
end Glip.Jtag
