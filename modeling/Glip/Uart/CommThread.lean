import Glip.Foundation.GuardedRun
import Glip.Uart.BackendContext
import Glip.Uart.ParseBuffer
import Glip.Uart.TargetControl
import Mathlib.Logic.Relation

/-! The communication thread of backend_uart.c and the target, joined by the two
lines of the UART, with the user on one side and the user logic on the other. -/
namespace Glip.Uart
open Foundation CircularBuffer

def tmpBufferSize : Nat := 256

inductive Caller where
  | reset
  | wait (p : Parse)
  | loop

inductive Stop where
  /-- `term_request` -/
  | terminated
  /-- a failed assertion of `reset` -/
  | reset
  /-- a failed assertion of `parse_buffer` -/
  | parse
  /-- a failed assertion in the branch of `thread_func` for a full buffer -/
  | full
  /-- a failed assertion in the write part of `thread_func` -/
  | write

/-- Where the host is, from the second `reset_com` of `reset` on. The bytes that a
`write_blocking` has not written yet, and those that a `read_blocking` has read, are
in the argument. -/
inductive Pc where
  /-- `reset_com(ctx, 0)` -/
  | release (bs : List UInt8)
  /-- the two `cbuf_discard` of `reset` -/
  | clear
  /-- the read of the debt in `reset` -/
  | debt (got : List UInt8)
  /-- the test of `reset_request` -/
  | top
  /-- `reset_logic(ctx, 1)` and `reset_logic(ctx, 0)` -/
  | resetLogic (bs : List UInt8)
  /-- the test of `term_request` -/
  | term
  /-- `avail = cbuf_free_level(bctx->input_buffer)` -/
  | readLevel
  /-- `read`, with `avail` -/
  | read (avail : Nat)
  /-- the `read_blocking` of the branch for a full buffer -/
  | full (got : List UInt8)
  /-- `parse_buffer` -/
  | parse (p : Parse)
  /-- `debt > 0` and the fill level of the output buffer -/
  | writeLevel
  /-- `cbuf_read` with `size` -/
  | writeRead (size : Nat)
  /-- the loop that writes each word -/
  | send (bs : List UInt8) (size : Nat)
  /-- `credit < UART_MAX_TRANCHE` -/
  | update
  /-- the free level in `update_credit` -/
  | credit (ret : Caller)
  /-- the `write_blocking` of `update_credit` -/
  | grant (ret : Caller) (add : Nat) (bs : List UInt8)
  | stopped (why : Stop)

def Caller.pc : Caller → Pc
  | reset => .debt []
  | wait p => .parse p
  | loop => .top

structure Link where
  pc : Pc
  ctx : BackendCtx
  resetRequest : Bool
  termRequest : Bool
  /-- the bytes on their way to the target -/
  down : List UInt8
  /-- the bytes on their way to the host -/
  up : List UInt8
  target : Control
  /-- the words that the user logic has ready for the egress state machine -/
  fromLogic : List UInt8
  /-- a word of the user has left the ingress state machine since the last communication reset -/
  fed : Bool

namespace Link

def push (s : Link) (b : UInt8) (pc : Pc) : Link := { s with down := s.down ++ [b], pc := pc }

def debtStep (s : Link) : List UInt8 → Option Link
  | [d0, d1, d2] =>
    if d0 ≠ marker then
      match s.up with
      | b :: up => some { s with up := up, pc := .debt [d0, d1, d2, b] }
      | [] => none
    else some { s with ctx := s.ctx.updateDebt d1 d2, pc := .top }
  | [_, d1, d2, d3] =>
    if d1 = marker then some { s with ctx := s.ctx.updateDebt d2 d3, pc := .top }
    else some { s with pc := .stopped .reset }
  | got => match s.up with
    | b :: up => some { s with up := up, pc := .debt (got ++ [b]) }
    | [] => none

/-- A `read` that brings `n` bytes; `junk` is what else is in the buffer. -/
def readStep (n : Nat) (junk : Nat → UInt8) (avail : Nat) (s : Link) : Option Link :=
  let size := if avail = 0 then 1 else intMin avail tmpBufferSize
  if n ≤ size ∧ n ≤ s.up.length then
    if n = 0 then some { s with pc := .writeLevel }
    else if avail = 0 then
      some { s with up := s.up.drop n, pc := if s.up.take n = [marker] then .full [] else .stopped .full }
    else some { s with up := s.up.drop n, pc := .parse (.call junk (s.up.take n)) }
  else none

def fullStep (s : Link) : List UInt8 → Option Link
  | [] => match s.up with
    | b :: up => some { s with up := up, pc := .full [b] }
    | [] => none
  | first :: _ => match s.up with
    | b :: up => some { s with up := up, ctx := s.ctx.updateDebt first b, pc := .writeLevel }
    | [] => none

def parseStep (p : Parse) (s : Link) : Option Link :=
  match p.op with
  | .finished => some { s with pc := .writeLevel }
  | .word b next => match s.ctx.storeWord b with
    | some ctx => some { s with ctx := ctx, pc := .parse next }
    | none => some { s with pc := .stopped .parse }
  | .debt first second next => some { s with ctx := s.ctx.updateDebt first second, pc := .parse next }
  | .read next => match s.up with
    | b :: up => some { s with up := up, pc := .parse (next b) }
    | [] => none
  | .wait next => some { s with pc := if 2 ≤ s.ctx.credit then .parse next else .credit (.wait p) }

def writeLevelStep (n : Nat) (s : Link) : Option Link :=
  if s.ctx.debt = 0 then some { s with pc := .update }
  else if n ≤ s.ctx.outputBuffer.length then
    some { s with pc := if n = 0 then .update else .writeRead (intMin n (intMin s.ctx.debt tmpBufferSize)) }
  else none

/-- `cbuf_read` can also fail while the user fills the buffer up, here for `n = 0`. -/
def writeReadStep (n size : Nat) (s : Link) : Option Link :=
  if n ≠ 0 ∧ size ≤ s.ctx.outputBuffer.length then
    some { s with
      ctx := { s.ctx with outputBuffer := s.ctx.outputBuffer.drop size }
      pc := .send ((s.ctx.outputBuffer.take size).flatMap wordBytes) size }
  else some { s with pc := .stopped .write }

/-- The bytes of a credit; the update of `credit`, which no one else looks at, goes
with the last of them. -/
def grantStep (ret : Caller) (add : Nat) (s : Link) : List UInt8 → Option Link
  | [] => none
  | [b] => some { s.push b ret.pc with ctx := { s.ctx with credit := sizeAdd s.ctx.credit add } }
  | b :: bs => some (s.push b (.grant ret add bs))

/-- The next step of the host; `n` stands for what it is told by a `read` or by a
fill level, and there is no step while a read or a write has to wait. -/
def hostStep (n : Nat) (junk : Nat → UInt8) (s : Link) : Option Link :=
  match s.pc with
  | .release [] => some { s with pc := .clear }
  | .release (b :: bs) => some (s.push b (.release bs))
  | .clear => s.ctx.clear.map fun ctx => { s with ctx := ctx, pc := .credit .reset }
  | .debt got => s.debtStep got
  | .top => some { s with
      pc := if s.resetRequest then .resetLogic (resetLogicBytes 1 ++ resetLogicBytes 0) else .term }
  | .resetLogic [] => some { s with resetRequest := false, pc := .term }
  | .resetLogic (b :: bs) => some (s.push b (.resetLogic bs))
  | .term => some { s with pc := if s.termRequest then .stopped .terminated else .readLevel }
  | .readLevel => some { s with pc := .read (cbufFreeLevel s.ctx.inputBuffer) }
  | .read avail => s.readStep n junk avail
  | .full got => s.fullStep got
  | .parse p => s.parseStep p
  | .writeLevel => s.writeLevelStep n
  | .writeRead size => s.writeReadStep n size
  | .send [] size => some { s with ctx := { s.ctx with debt := sizeSub s.ctx.debt size }, pc := .update }
  | .send (b :: bs) size => some (s.push b (.send bs size))
  | .update => some { s with pc := if s.ctx.credit < maxTranche then .credit .loop else .top }
  | .credit ret => some { s with
      pc := if s.ctx.targetCreditAdd = 0 then ret.pc
        else .grant ret s.ctx.targetCreditAdd (creditBytes s.ctx.targetCreditAdd) }
  | .grant ret add bs => s.grantStep ret add bs
  | .stopped _ => none

/-- What is up to the surroundings in a clock cycle of the target: whether a byte
arrives, whether the transmitter is done with a byte, whether there is room for a
word of the user, and `transfer_in`. -/
structure Cycle where
  receive : Bool
  done : Bool
  outReady : Bool
  transferIn : Bool

def controlIn (s : Link) (c : Cycle) : ControlIn where
  rst := false
  ingressInData := s.down.headD 0
  ingressInValid := c.receive
  ingressOutReady := c.outReady
  egressInData := s.fromLogic.headD 0
  egressInValid := s.fromLogic ≠ []
  egressOutDone := c.done
  transferIn := c.transferIn

/-- A byte arrives only if one is on its way, the transmitter can be done only with
what it was given, and words of the user leave the ingress path only after they
have come in, since the communication reset empties it. -/
structure Cycle.Allowed (s : Link) (c : Cycle) : Prop where
  receive : c.receive = true → s.down ≠ []
  done : c.done = true → (s.target.egressOut (s.controlIn c)).outEnable = true
  transferIn : c.transferIn = true → s.fed = true

def clock (s : Link) (c : Cycle) : Link :=
  let i := s.controlIn c
  let out := s.target.egressOut i
  { s with
    down := if c.receive then s.down.tail else s.down
    up := if c.done then s.up ++ [out.outData] else s.up
    target := s.target.next i
    fromLogic := if s.target.egress.transfer (s.target.egressIn i) then s.fromLogic.tail else s.fromLogic
    fed := !s.target.comRst i && (s.fed || (s.target.ingressOut i).outValid) }

inductive Step : Link → Link → Prop where
  | host (s s' : Link) (n : Nat) (junk : Nat → UInt8) : s.hostStep n junk = some s' → Step s s'
  | userRead (s : Link) (n : Nat) : n ≤ s.ctx.inputBuffer.length →
      Step s { s with ctx := { s.ctx with inputBuffer := s.ctx.inputBuffer.drop n } }
  | userWrite (s : Link) (data : List UInt8) : data.length ≤ cbufFreeLevel s.ctx.outputBuffer →
      Step s { s with ctx := { s.ctx with outputBuffer := s.ctx.outputBuffer ++ data } }
  | userReset (s : Link) : Step s { s with resetRequest := true }
  | userClose (s : Link) : Step s { s with termRequest := true }
  | logic (s : Link) (word : UInt8) : Step s { s with fromLogic := s.fromLogic ++ [word] }
  | clock (s : Link) (c : Cycle) : c.Allowed s → Step s (s.clock c)

inductive Move where
  | host (n : Nat) (junk : Nat → UInt8)
  | userRead (n : Nat)
  | userWrite (data : List UInt8)
  | userReset
  | userClose
  | logic (word : UInt8)
  | clock (c : Link.Cycle)

instance (s : Link) (c : Cycle) : Decidable (c.Allowed s) :=
  decidable_of_iff
    ((c.receive = true → s.down ≠ []) ∧ (c.done = true → (s.target.egressOut (s.controlIn c)).outEnable = true) ∧
      (c.transferIn = true → s.fed = true))
    ⟨fun ⟨hr, hd, ht⟩ => ⟨hr, hd, ht⟩, fun ⟨hr, hd, ht⟩ => ⟨hr, hd, ht⟩⟩

def move (s : Link) : Move → Option Link
  | .host n junk => s.hostStep n junk
  | .userRead n =>
    if n ≤ s.ctx.inputBuffer.length then some { s with ctx := { s.ctx with inputBuffer := s.ctx.inputBuffer.drop n } }
    else none
  | .userWrite data =>
    if data.length ≤ cbufFreeLevel s.ctx.outputBuffer then
      some { s with ctx := { s.ctx with outputBuffer := s.ctx.outputBuffer ++ data } }
    else none
  | .userReset => some { s with resetRequest := true }
  | .userClose => some { s with termRequest := true }
  | .logic word => some { s with fromLogic := s.fromLogic ++ [word] }
  | .clock c => if c.Allowed s then some (s.clock c) else none

variable {s s' : Link}

theorem move_step {m : Move} (h : s.move m = some s') : Step s s' := by
  cases m with
  | host n junk => exact .host s s' n junk h
  | userRead n =>
    obtain ⟨hn, h⟩ := Option.ite_none_right_eq_some.mp h
    cases h
    exact .userRead s n hn
  | userWrite data =>
    obtain ⟨hdata, h⟩ := Option.ite_none_right_eq_some.mp h
    cases h
    exact .userWrite s data hdata
  | userReset =>
    cases h
    exact .userReset s
  | userClose =>
    cases h
    exact .userClose s
  | logic word =>
    cases h
    exact .logic s word
  | clock c =>
    obtain ⟨hc, h⟩ := Option.ite_none_right_eq_some.mp h
    cases h
    exact .clock s c hc

theorem step_iff_move : Step s s' ↔ ∃ m, s.move m = some s' := by
  refine ⟨fun h => ?_, fun ⟨_, hmove⟩ => move_step hmove⟩
  cases h with
  | host _ n junk hs => exact ⟨.host n junk, hs⟩
  | userRead n hn => exact ⟨.userRead n, if_pos hn⟩
  | userWrite data hdata => exact ⟨.userWrite data, if_pos hdata⟩
  | userReset => exact ⟨.userReset, rfl⟩
  | userClose => exact ⟨.userClose, rfl⟩
  | logic word => exact ⟨.logic word, rfl⟩
  | clock c hc => exact ⟨.clock c, if_pos hc⟩

def links : Guarded Link Move := ⟨move⟩

theorem links_run {moves : List Move} (h : links.run s moves = some s') : Relation.ReflTransGen Step s s' := by
  induction moves generalizing s with
  | nil =>
    cases h
    exact .refl
  | cons m moves ih =>
    obtain ⟨s₁, hmove, hrest⟩ := Guarded.run_cons_iff.mp h
    exact .head (move_step hmove) (ih hrest)

structure Held (t : Control) : Prop where
  comRst : t.comRstHost = true
  ingress : t.ingress.state = .passthrough
  egress : t.egress = .idle
  debtor : t.debtor = 0
  creditor : t.creditor = ⟨inputFifoCredit, 0⟩
  transferCounter : t.transferCounter = 0
  sendCreditPnd : t.sendCreditPnd = false
  getCredit : t.getCredit = false

/-- `reset` on a new context, when it has asserted the communication reset and
drained the line: one byte of trash may have been left there. -/
structure Start (s : Link) : Prop where
  pc : s.pc = .release (resetComBytes 0)
  ctx : s.ctx = ⟨[], [], 0, 0⟩
  down : s.down = []
  up : s.up = [] ∨ ∃ trash, trash ≠ marker ∧ s.up = [trash]
  target : Held s.target
  fed : s.fed = false

def Reachable (s : Link) : Prop := ∃ s₀, Start s₀ ∧ Relation.ReflTransGen Step s₀ s

end Link
end Glip.Uart
