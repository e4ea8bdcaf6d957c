import Glip.Jtag.InputFsm

/-! The state machine of glip_jtag_output_fsm.v, which answers a data transfer. -/
namespace Glip.Jtag
open Foundation
variable {W : Nat}

inductive OutputState
  | idle | writeLength | readLength | noData | sendData | sendCountWrite | sendCountRead | configDisc
  deriving DecidableEq, Repr

structure OutputFsm (W : Nat) where
  outputState : OutputState
  outReg : BitVec W
  wordCnt : BitVec W
  packetCount : BitVec W
  free : BitVec W
  bitCnt : BitVec W
  inRegCnt : BitVec W
  writeLengthReg : BitVec W
  readLengthReg : BitVec W
  deriving DecidableEq

structure OutputIn (W : Nat) where
  tap : TapIn
  inError : Bool
  inWritten : BitVec W
  fifoData : BitVec W
  fifoValid : Bool
  deriving DecidableEq

structure OutputWires (W : Nat) where
  nxt : OutputFsm W
  tdo : Bool
  fifoReady : Bool

def minusOne (x : BitVec W) : Nat := (x.toNat + 2 ^ max W 32 - 1) % 2 ^ max W 32

theorem minusOne_eq {x : BitVec W} (h : 0 < x.toNat) : minusOne x = x.toNat - 1 := by
  have hlt : x.toNat < 2 ^ max W 32 :=
    Nat.lt_of_lt_of_le x.isLt (Nat.pow_le_pow_right (by decide) (Nat.le_max_left W 32))
  rw [minusOne, show x.toNat + 2 ^ max W 32 - 1 = x.toNat - 1 + 2 ^ max W 32 by omega, Nat.add_mod_right]
  exact Nat.mod_eq_of_lt (by omega)

namespace OutputFsm
variable (s : OutputFsm W)

def wires (i : OutputIn W) : OutputWires W :=
  match s.outputState with
  | .idle =>
    let nxt := { s with wordCnt := 0, packetCount := 0, inRegCnt := 0, free := 0, writeLengthReg := 0, readLengthReg := 0 }
    let tdo := bitAt i.fifoData 0
    if i.tap.shift then
      ⟨{ nxt with outputState := .writeLength, bitCnt := s.bitCnt + 1,
                  inRegCnt := setBit 0 s.bitCnt.toNat i.tap.tdi }, tdo, false⟩
    else ⟨nxt, tdo, false⟩
  | .writeLength =>
    let tdo := bitAt i.fifoData 0
    let nxt := { s with inRegCnt := setBit s.inRegCnt s.bitCnt.toNat i.tap.tdi }
    if s.bitCnt.toNat < W - 1 then ⟨{ nxt with bitCnt := s.bitCnt + 1 }, tdo, false⟩
    else
      let nxt := { nxt with bitCnt := 0 }
      let length := withTop i.tap.tdi nxt.inRegCnt
      if length = BitVec.allOnes W then ⟨{ nxt with outputState := .configDisc }, tdo, false⟩
      else ⟨{ nxt with outputState := .readLength, writeLengthReg := length }, tdo, false⟩
  | .readLength =>
    let tdo := bitAt i.fifoData 0
    let nxt := { s with inRegCnt := setBit s.inRegCnt s.bitCnt.toNat i.tap.tdi }
    if s.bitCnt.toNat < W - 1 then ⟨{ nxt with bitCnt := s.bitCnt + 1 }, tdo, false⟩
    else
      let length := withTop i.tap.tdi nxt.inRegCnt
      let nxt := { nxt with outReg := i.fifoData, bitCnt := 0, readLengthReg := length }
      if length ≠ 0 then
        let nxt := { nxt with inRegCnt := if s.writeLengthReg > length then s.writeLengthReg else nxt.inRegCnt }
        if i.fifoValid then ⟨{ nxt with outputState := .sendData }, tdo, true⟩
        else ⟨{ nxt with outputState := .noData }, tdo, false⟩
      else if s.writeLengthReg > 0 then
        ⟨{ nxt with outputState := .noData, inRegCnt := s.writeLengthReg }, tdo, false⟩
      else ⟨{ nxt with outputState := .sendCountWrite }, tdo, false⟩
  | .sendData =>
    let tdo := bitAt s.outReg s.bitCnt.toNat
    if i.tap.shift then
      if s.bitCnt.toNat = W - 1 then
        let nxt := { s with bitCnt := 0 }
        if s.wordCnt.toNat = minusOne s.inRegCnt then
          ⟨{ nxt with outputState := .sendCountWrite, packetCount := s.wordCnt + 1 }, tdo, false⟩
        else if s.wordCnt.toNat = minusOne s.readLengthReg then
          ⟨{ nxt with outputState := .noData, packetCount := s.wordCnt + 1 }, tdo, false⟩
        else
          let nxt := { nxt with wordCnt := s.wordCnt + 1 }
          if i.fifoValid then ⟨{ nxt with outReg := i.fifoData }, tdo, true⟩
          else ⟨{ nxt with packetCount := s.wordCnt + 1, outputState := .noData }, tdo, false⟩
      else ⟨{ s with bitCnt := s.bitCnt + 1 }, tdo, false⟩
    else ⟨s, tdo, false⟩
  | .noData =>
    if i.tap.shift then
      if s.bitCnt.toNat = W - 1 then
        let nxt := { s with bitCnt := 0 }
        if s.wordCnt.toNat = minusOne s.inRegCnt then ⟨{ nxt with outputState := .sendCountWrite }, false, false⟩
        else ⟨{ nxt with wordCnt := s.wordCnt + 1 }, false, false⟩
      else ⟨{ s with bitCnt := s.bitCnt + 1 }, false, false⟩
    else ⟨s, false, false⟩
  | .sendCountWrite =>
    let free := if !i.inError && s.bitCnt = 0 then i.inWritten else s.free
    let tdo :=
      if i.inError then true
      else if s.bitCnt = 0 then bitAt i.inWritten 0
      else bitAt s.free s.bitCnt.toNat
    if s.bitCnt.toNat = W - 1 then ⟨{ s with free, bitCnt := 0, outputState := .sendCountRead }, tdo, false⟩
    else ⟨{ s with free, bitCnt := s.bitCnt + 1 }, tdo, false⟩
  | .sendCountRead =>
    let tdo := bitAt s.packetCount s.bitCnt.toNat
    if s.bitCnt.toNat < W - 1 then ⟨{ s with bitCnt := s.bitCnt + 1 }, tdo, false⟩
    else ⟨{ s with bitCnt := 0, outputState := .idle }, tdo, false⟩
  | .configDisc =>
    ⟨{ s with bitCnt := 0, outputState := if i.tap.update then .idle else .configDisc }, false, false⟩

def next (i : OutputIn W) : OutputFsm W := if i.tap.update then ⟨.idle, 0, 0, 0, 0, 0, 0, 0, 0⟩ else (s.wires i).nxt

def pops (i : OutputIn W) : List (BitVec W) := if (s.wires i).fifoReady && i.fifoValid then [i.fifoData] else []

end OutputFsm

/-- The state machine over cycles: the bit that it sends in each, and the words that it takes. -/
def outputCycles (W : Nat) : Transducer (OutputFsm W) (OutputIn W) (Bool × List (BitVec W)) where
  next s i := s.next i
  emit s i := [((s.wires i).tdo, s.pops i)]

end Glip.Jtag
