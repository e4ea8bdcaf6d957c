import Glip.Foundation.Transducer
import Glip.Tcp.GlipTcp

/-! glip_tcp_toplevel.sv around the class of GlipTcp.cpp, over the cycles of `clk_logic` and the
actions of its thread. `WIDTH` is `8 * n`. -/
namespace Glip.Tcp
open Foundation
variable {n : Nat}

def uartDelay : Nat := 8

structure DpiToplevel (n : Nat) where
  obj : GlipTcp n
  logicRst : Bool
  comRst : Bool
  rcnt : Nat
  wcnt : Nat
  fifoInData : BitVec (8 * n)
  fifoInValid : Bool
  fifoOutReady : Bool
  deriving DecidableEq

/-- The inputs in a cycle; the user logic sets its signals between the two edges. -/
structure DpiCycle (n : Nat) where
  rst : Bool
  fifoInReady : Bool
  fifoOutValid : Bool
  fifoOutData : BitVec (8 * n)

inductive DpiStep (n : Nat) where
  /-- the thread has a byte of the data or of the control connection -/
  | data (b : Byte)
  | control (b : Byte)
  /-- the thread writes -/
  | send (r : WriteResult)
  | cycle (i : DpiCycle n)

inductive DpiEvent (n : Nat) where
  | arrived (b : Byte)
  | controlArrived (b : Byte)
  /-- a word is transferred on `fifo_in` or on `fifo_out` -/
  | delivered (word : BitVec (8 * n))
  | accepted (word : BitVec (8 * n))
  /-- a byte is pushed into `mDataOut`, or taken by the data socket -/
  | queued (b : Byte)
  | sent (b : Byte)
  | message (value : BitVec 32)
  /-- a cycle with `logic_rst` -/
  | logicRst
  deriving DecidableEq

section Events
variable (evs : List (DpiEvent n))

def arrivals : List Byte := evs.filterMap fun | .arrived b => some b | _ => none
def controlArrivals : List Byte := evs.filterMap fun | .controlArrived b => some b | _ => none
def deliveries : List (BitVec (8 * n)) := evs.filterMap fun | .delivered word => some word | _ => none
def accepts : List (BitVec (8 * n)) := evs.filterMap fun | .accepted word => some word | _ => none
def queuedBytes : List Byte := evs.filterMap fun | .queued b => some b | _ => none
def sentBytes : List Byte := evs.filterMap fun | .sent b => some b | _ => none
def messages : List (BitVec 32) := evs.filterMap fun | .message value => some value | _ => none
def logicRsts : Nat := (evs.filterMap fun | .logicRst => some () | _ => none).length

end Events

namespace DpiToplevel
variable (overshift : BitVec 32 → Nat → BitVec 32) (uartLike : Bool) (s : DpiToplevel n)

def armed (available : Bool) (cnt : Nat) : Nat := if available && uartLike && cnt == 0 then uartDelay else cnt

/-- The negative edge, with the control message that it takes; `none` is a failed assertion. -/
def negedge (rst : Bool) : Option (Option (BitVec 32) × DpiToplevel n) :=
  if rst then some (none, { s with logicRst := false, comRst := false, rcnt := 0, wcnt := 0 })
  else do
    let (state, obj) ← s.obj.nextCycle overshift
    let message := if state.controlAvailable then some obj.controlMsg.1 else none
    let obj := if state.controlAvailable then obj.controlMsg.2 else obj
    let rcnt := armed uartLike state.incomingAvailable s.rcnt
    let wcnt := armed uartLike state.outgoingReady s.wcnt
    let fifoInValid := state.incomingAvailable && (!uartLike || rcnt == 1)
    let fifoInData ← if fifoInValid then obj.readData.map (BitVec.setWidth (8 * n)) else some s.fifoInData
    pure (message,
      { obj := obj
        logicRst := message.any (BitVec.getLsbD · 0)
        comRst := !s.obj.mConnected
        rcnt := rcnt - 1
        wcnt := wcnt - 1
        fifoInData := fifoInData
        fifoInValid := fifoInValid
        fifoOutReady := state.outgoingReady && (!uartLike || wcnt == 1) })

def posedge (i : DpiCycle n) : Option (DpiToplevel n) := do
  let obj := if s.fifoInValid && i.fifoInReady then s.obj.readAck else s.obj
  let obj ← if i.fifoOutValid && s.fifoOutReady then obj.writeData (i.fifoOutData.setWidth 64) else some obj
  pure { s with obj := obj }

def seen (message : Option (BitVec 32)) (s₁ : DpiToplevel n) (i : DpiCycle n) : List (DpiEvent n) :=
  (s₁.obj.mDataOut.drop s.obj.mDataOut.length).map .queued ++ (message.map .message).toList ++
    (if s₁.logicRst then [.logicRst] else []) ++
    (if s₁.fifoInValid && i.fifoInReady then [.delivered s₁.fifoInData] else []) ++
    if i.fifoOutValid && s₁.fifoOutReady then [.accepted i.fifoOutData] else []

def cycle (i : DpiCycle n) : Option (DpiToplevel n × List (DpiEvent n)) := do
  let (message, s₁) ← s.negedge overshift uartLike i.rst
  let s₂ ← s₁.posedge i
  pure (s₂, s.seen message s₁ i)

def step : DpiStep n → Option (DpiToplevel n × List (DpiEvent n))
  | .data b => some ({ s with obj := s.obj.receiveData b },
      if s.obj.mDataIn.length < dataCapacity then [.arrived b] else [])
  | .control b => some ({ s with obj := s.obj.receiveControl b },
      if s.obj.mControl.length < controlCapacity then [.controlArrived b] else [])
  | .send r => (s.obj.send r).map fun obj => ({ s with obj := obj }, (s.obj.taken r).map .sent)
  | .cycle i => s.cycle overshift uartLike i

structure Connected (s : DpiToplevel n) : Prop where
  obj : s.obj = .reset true
  rcnt : s.rcnt ≤ uartDelay
  wcnt : s.wcnt ≤ uartDelay

end DpiToplevel

/-- The run of the module and the thread; a run in which an assertion fails ends with `none`. -/
def dpiRun (n : Nat) (overshift : BitVec 32 → Nat → BitVec 32) (uartLike : Bool) :
    Transducer (Option (DpiToplevel n)) (DpiStep n) (DpiEvent n) where
  next s e := (s.bind fun s => s.step overshift uartLike e).map Prod.fst
  emit s e := ((s.bind fun s => s.step overshift uartLike e).map Prod.snd).getD []

section Run
variable {overshift : BitVec 32 → Nat → BitVec 32} {uartLike : Bool} {s s' : DpiToplevel n} {e : DpiStep n}
  {evs : List (DpiEvent n)}

theorem dpiRun_next (h : s.step overshift uartLike e = some (s', evs)) :
    (dpiRun n overshift uartLike).next (some s) e = some s' := congrArg (Option.map Prod.fst) h

theorem dpiRun_emit (h : s.step overshift uartLike e = some (s', evs)) :
    (dpiRun n overshift uartLike).emit (some s) e = evs := congrArg (fun r => (r.map Prod.snd).getD []) h

def eventsOf (n : Nat) (overshift : BitVec 32 → Nat → BitVec 32) (uartLike : Bool) (s : DpiToplevel n)
    (steps : List (DpiStep n)) : List (DpiEvent n) := (dpiRun n overshift uartLike).emitted (some s) steps

theorem after_cons_step (h : s.step overshift uartLike e = some (s', evs)) (steps : List (DpiStep n)) :
    (dpiRun n overshift uartLike).after (some s) (e :: steps) = (dpiRun n overshift uartLike).after (some s') steps := by
  rw [Transducer.after_cons, dpiRun_next h]

theorem eventsOf_cons_step (h : s.step overshift uartLike e = some (s', evs)) (steps : List (DpiStep n)) :
    eventsOf n overshift uartLike s (e :: steps) = evs ++ eventsOf n overshift uartLike s' steps := by
  rw [eventsOf, Transducer.emitted_cons, dpiRun_next h, dpiRun_emit h]
  rfl

theorem eventsOf_append {steps : List (DpiStep n)} (more : List (DpiStep n))
    (h : (dpiRun n overshift uartLike).after (some s) steps = some s') :
    eventsOf n overshift uartLike s (steps ++ more) =
      eventsOf n overshift uartLike s steps ++ eventsOf n overshift uartLike s' more := by
  rw [eventsOf, Transducer.emitted_append, h]
  rfl

end Run

end Glip.Tcp
