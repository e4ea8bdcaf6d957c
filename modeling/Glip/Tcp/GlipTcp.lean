import Glip.Foundation.BigEndian

/-! The class of GlipTcp.cpp that connects a simulation to the sockets: its queues, the items
that it puts together or takes apart, and one pass of its thread. -/
namespace Glip.Tcp
open Foundation

abbrev Byte : Type := BitVec 8

structure TempStorage where
  valid : Bool
  mPartial : Nat
  value : BitVec 64
  deriving DecidableEq

def TempStorage.reset : TempStorage := ⟨false, 0, 0⟩

def dataCapacity : Nat := 1 * 1024 * 1024
def controlCapacity : Nat := 256

structure GlipTcp (mNumBytes : Nat) where
  mConnected : Bool
  mDataIn : List Byte
  mDataOut : List Byte
  mControl : List Byte
  mReadItem : TempStorage
  mWriteItem : TempStorage
  mControlItem : TempStorage
  deriving DecidableEq

structure CycleState where
  controlAvailable : Bool
  incomingAvailable : Bool
  outgoingReady : Bool

inductive WriteResult where
  | all
  | part (n : Nat)
  /-- `-1` with `EAGAIN` -/
  | eagain
  deriving DecidableEq

/-- `data << n` on a byte that is promoted to `int`; a shift by 32 or more is undefined. -/
def shlInt (overshift : BitVec 32 → Nat → BitVec 32) (data : Byte) (n : Nat) : BitVec 32 :=
  if n < 32 then data.setWidth 32 <<< n else overshift (data.setWidth 32) n

section Items
variable (overshift : BitVec 32 → Nat → BitVec 32)

def TempStorage.add (n : Nat) (item : TempStorage) (data : Byte) : TempStorage :=
  { item with
    value := item.value ||| (shlInt overshift data ((n - item.mPartial - 1) * 8)).signExtend 64
    mPartial := item.mPartial + 1 }

def popItem (n : Nat) : TempStorage → List Byte → TempStorage × List Byte
  | item, [] => (item, [])
  | item, data :: queue =>
    if item.mPartial < n then popItem n (item.add overshift n data) queue else (item, data :: queue)

def pushItem (capacity : Nat) : Nat → TempStorage → List Byte → TempStorage × List Byte
  | 0, item, queue => (item, queue)
  | k + 1, item, queue =>
    if queue.length < capacity then
      pushItem capacity k { item with mPartial := item.mPartial + 1 }
        (queue ++ [((item.value >>> (k * 8)) &&& 0xff).setWidth 8])
    else (item, queue)

end Items

namespace GlipTcp
variable {n : Nat} (overshift : BitVec 32 → Nat → BitVec 32) (s : GlipTcp n)

def reset (connected : Bool) : GlipTcp n := ⟨connected, [], [], [], .reset, .reset, .reset⟩

/-- The part of `next_cycle` for the control message. -/
def nextControl : GlipTcp n :=
  let (item, queue) := popItem overshift 2 s.mControlItem s.mControl
  { s with mControl := queue, mControlItem := { item with valid := item.mPartial == 2 } }

def nextRead : GlipTcp n :=
  if s.mReadItem.valid then s
  else
    let (item, queue) := popItem overshift n s.mReadItem s.mDataIn
    { s with mDataIn := queue, mReadItem := { item with valid := item.mPartial == n } }

def nextWrite : GlipTcp n :=
  if s.mWriteItem.valid then
    let (item, queue) := pushItem dataCapacity (n - s.mWriteItem.mPartial) s.mWriteItem s.mDataOut
    { s with mDataOut := queue, mWriteItem := { item with valid := item.mPartial != n } }
  else s

/-- `next_cycle`; `none` is a failed assertion. -/
def nextCycle : Option (CycleState × GlipTcp n) :=
  if !s.mConnected then some (⟨false, false, false⟩, s)
  else if s.mControlItem.valid then none
  else
    let s := ((s.nextControl overshift).nextRead overshift).nextWrite
    some (⟨s.mControlItem.valid, s.mReadItem.valid, !s.mWriteItem.valid⟩, s)

def controlMsg : BitVec 32 × GlipTcp n :=
  (s.mControlItem.value.setWidth 32, { s with mControlItem := { s.mControlItem with valid := false, mPartial := 0 } })

def readData : Option (BitVec 64) := if s.mReadItem.valid then some s.mReadItem.value else none

def readAck : GlipTcp n := { s with mReadItem := .reset }

def writeData (data : BitVec 64) : Option (GlipTcp n) :=
  if s.mWriteItem.valid then none else some { s with mWriteItem := ⟨true, 0, data⟩ }

/-- The thread pushes a byte that it has read; while the queue is full it tries again. -/
def receiveData (data : Byte) : GlipTcp n :=
  if s.mDataIn.length < dataCapacity then { s with mDataIn := s.mDataIn ++ [data] } else s

def receiveControl (data : Byte) : GlipTcp n :=
  if s.mControl.length < controlCapacity then { s with mControl := s.mControl ++ [data] } else s

def block : List Byte := s.mDataOut.take 4096

/-- The bytes of the block that `write` takes; of an empty one it takes all. -/
def taken : WriteResult → List Byte
  | .all => s.block
  | .part k => s.block.take (min k (s.block.length - 1))
  | .eagain => []

/-- The write of a pass of the thread; `none` is the failed assertion on a short write. -/
def send (r : WriteResult) : Option (GlipTcp n) :=
  if r = .eagain ∨ (s.taken r).length = s.block.length then some { s with mDataOut := s.mDataOut.drop 4096 } else none

end GlipTcp
end Glip.Tcp
