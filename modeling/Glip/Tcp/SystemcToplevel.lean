import Glip.Foundation.Transducer
import Glip.Tcp.GlipTcp

/-! The clocked method and the data thread of the SystemC module, out of reset. -/
namespace Glip.Tcp
open Foundation

abbrev Word : Type := BitVec 16

def outputBufSize : Nat := 1024
def bufferWords : Nat := 1024

structure SystemcToplevel where
  mInputQueue : List Word
  mOutputQueue : List Word
  fifoOutReady : Bool
  fifoInValid : Bool
  fifoInData : Word
  deriving DecidableEq

structure SystemcCycle where
  fifoOutValid : Bool
  fifoOutData : Word
  fifoInReady : Bool

inductive SystemcStep where
  | clk (i : SystemcCycle)
  /-- `recv` returns a chunk of bytes -/
  | recv (chunk : List Byte)
  /-- the thread writes a buffer -/
  | send

inductive SystemcEvent where
  /-- a word is pushed into `m_input_queue` or `m_output_queue` -/
  | received (word : Word)
  | pushed (word : Word)
  /-- valid and ready are both 1 at an edge -/
  | delivered (word : Word)
  | accepted (word : Word)
  deriving DecidableEq

/-- The words of a buffer, on a little-endian host; a byte that is left over is dropped. -/
def chunkWords : List Byte → List Word
  | b :: b' :: chunk => (b' ++ b) :: chunkWords chunk
  | _ => []

namespace SystemcToplevel
variable (s : SystemcToplevel)

/-- `fifo_if_proc`; the ports show what it assigns from the next edge on. -/
def fifoIfProc (i : SystemcCycle) : SystemcToplevel :=
  let mOutputQueue := if i.fifoOutValid then s.mOutputQueue ++ [i.fifoOutData] else s.mOutputQueue
  { mInputQueue := if i.fifoInReady && !s.mInputQueue.isEmpty then s.mInputQueue.tail else s.mInputQueue
    mOutputQueue := mOutputQueue
    fifoOutReady := mOutputQueue.length ≤ outputBufSize
    fifoInValid := !s.mInputQueue.isEmpty
    fifoInData := s.mInputQueue.headD 0 }

def step : SystemcStep → SystemcToplevel × List SystemcEvent
  | .clk i =>
    (s.fifoIfProc i,
      (if i.fifoOutValid then [.pushed i.fifoOutData] else []) ++
        (if i.fifoOutValid && s.fifoOutReady then [.accepted i.fifoOutData] else []) ++
        if s.fifoInValid && i.fifoInReady then [.delivered s.fifoInData] else [])
  | .recv chunk => ({ s with mInputQueue := s.mInputQueue ++ chunkWords chunk }, (chunkWords chunk).map .received)
  | .send => ({ s with mOutputQueue := s.mOutputQueue.drop bufferWords }, [])

end SystemcToplevel

section Events
variable (evs : List SystemcEvent)

def receivedWords : List Word := evs.filterMap fun | .received word => some word | _ => none
def pushedWords : List Word := evs.filterMap fun | .pushed word => some word | _ => none
def deliveredWords : List Word := evs.filterMap fun | .delivered word => some word | _ => none
def acceptedWords : List Word := evs.filterMap fun | .accepted word => some word | _ => none

end Events
end Glip.Tcp
