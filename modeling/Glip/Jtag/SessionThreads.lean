import Glip.Foundation.GuardedRun
import Glip.Jtag.Discovery

/-! The threads of a context of backend_jtag.c: `poll_thread`, and the user's, one call at a time. -/
namespace Glip.Jtag
open Foundation

inductive ScanPoint
  /-- before `pthread_mutex_lock` -/
  | lock
  /-- the request is being put together -/
  | request
  /-- at a `write`, at a `read`, and with what a `read` gave -/
  | write
  | read
  | fields
  deriving DecidableEq

inductive ScanMove
  /-- the line is too long for OpenOCD, or it is sent; `last` if it is sent to the end, or not at all -/
  | tooLong
  | send
  | written (last : Bool)
  | received
  /-- the response goes on; it is over, and `jtag_drscan` returns 0 or an error -/
  | more
  | over (resp : Option (List Byte))

inductive ScanResult
  | goesOn (p : ScanPoint)
  | returned (resp : Option (List Byte))

/-- The part of `jtag_drscan` in which it holds the lock. -/
def ScanPoint.move : ScanPoint → ScanMove → Option ScanResult
  | .request, .tooLong => some (.returned none)
  | .request, .send => some (.goesOn .write)
  | .write, .written last => some (.goesOn (if last then .read else .write))
  | .read, .received => some (.goesOn .fields)
  | .fields, .more => some (.goesOn .read)
  | .fields, .over resp => some (.returned resp)
  | _, _ => none

def ScanPoint.cancellable : ScanPoint → Bool
  | .write | .read => true
  | _ => false

inductive ThreadPoint
  | none
  | discover (p : ScanPoint)
  | calc
  | poll (p : ScanPoint)
  /-- it has returned; it has been stopped by the cancellation; it has divided by zero -/
  | ended
  | stopped
  | crashed
  deriving DecidableEq

inductive UserPoint
  | idle
  | logicReset (p : ScanPoint)
  /-- `gb_jtag_close` waits for the thread -/
  | closing
  deriving DecidableEq

inductive Party
  | thread
  | user
  deriving DecidableEq

structure JtagSession where
  /-- in bytes -/
  targetWordWidth : Nat
  /-- the owner of `oocd_access_mutex` -/
  mutex : Option Party
  thread : ThreadPoint
  cancelled : Bool
  user : UserPoint
  isOpen : Bool
  /-- the word width of the connected target, in bytes -/
  connected : Nat
  /-- the response of the last discovery that returned 0 -/
  lastAnswer : Option (List Byte)

inductive JtagStep
  /-- `gb_jtag_open`: what it is connected to, and if `pthread_create` works -/
  | gbOpen (target : Option (Nat × Bool))
  | getFifoWidth
  | gbLogicReset
  /-- `gb_jtag_close` up to `pthread_join`, and its return -/
  | gbClose
  | closeReturns
  | threadLocks
  | userLocks
  | threadMoves (m : ScanMove)
  | userMoves (m : ScanMove)
  /-- `calc_payload_len` and `build_jtag_req`, which may fail -/
  | calcPayload (builds : Bool)
  | threadStops

/-- `gb_jtag_new` -/
def newJtagSession : JtagSession := ⟨0, none, .none, false, .idle, false, 0, none⟩

namespace JtagSession
variable (s : JtagSession)

def threadLocks : Option JtagSession :=
  match s.mutex, s.thread with
  | none, .discover .lock => some { s with mutex := some .thread, thread := .discover .request }
  | none, .poll .lock => some { s with mutex := some .thread, thread := .poll .request }
  | _, _ => none

def userLocks : Option JtagSession :=
  match s.mutex, s.user with
  | none, .logicReset .lock => some { s with mutex := some .user, user := .logicReset .request }
  | _, _ => none

/-- `discover_targetconf` from the return of its scan on; a failed assertion ends everything. -/
def discovered : Option (List Byte) → Option JtagSession
  | none => some { s with mutex := none, thread := .calc }
  | some resp => (discoverTargetconf resp).map fun conf =>
    { s with targetWordWidth := conf.1, mutex := none, thread := .calc, lastAnswer := some resp }

/-- What `poll_thread` does; with a cancellation requested it does not come past a cancellation point. -/
def threadMoves (m : ScanMove) : Option JtagSession :=
  match s.thread with
  | .discover p =>
    if s.cancelled && p.cancellable then none
    else (p.move m).bind fun
      | .goesOn p => some { s with thread := .discover p }
      | .returned resp => s.discovered resp
  | .poll p =>
    if s.cancelled && p.cancellable then none
    else (p.move m).map fun
      | .goesOn p => { s with thread := .poll p }
      | .returned resp => { s with mutex := none, thread := if resp.isSome then .calc else .ended }
  | _ => none

def userMoves (m : ScanMove) : Option JtagSession :=
  match s.user with
  | .logicReset p => (p.move m).map fun
    | .goesOn p => { s with user := .logicReset p }
    | .returned _ => { s with mutex := none, user := .idle }
  | _ => none

def stops : Option JtagSession :=
  match s.thread with
  | .discover p | .poll p => if s.cancelled && p.cancellable then some { s with thread := .stopped } else none
  | _ => none

/-- `to_words` divides by the width. -/
def calcPayload (builds : Bool) : Option JtagSession :=
  if s.thread = .calc then
    some { s with thread := if s.targetWordWidth = 0 then .crashed else if builds then .poll .lock else .ended }
  else none

def gbOpen (target : Option (Nat × Bool)) : Option JtagSession :=
  if s.isOpen then none
  else match target with
    | none => some s
    | some (wordWidth, created) =>
      some { s with thread := if created then .discover .lock else .none, isOpen := true, connected := wordWidth }

def closeReturns : Option JtagSession :=
  if s.user = .closing ∧ (s.thread = .ended ∨ s.thread = .stopped) then
    some { s with thread := .none, cancelled := false, user := .idle, isOpen := false }
  else none

def step (i : JtagStep) : Option JtagSession :=
  if s.thread = .crashed then none
  else match i with
    | .gbOpen target => s.gbOpen target
    | .getFifoWidth => if s.isOpen then some s else none
    | .gbLogicReset => if s.isOpen ∧ s.user = .idle then some { s with user := .logicReset .lock } else none
    | .gbClose =>
      if s.isOpen ∧ s.user = .idle ∧ s.thread ≠ .none then some { s with cancelled := true, user := .closing } else none
    | .closeReturns => s.closeReturns
    | .threadLocks => s.threadLocks
    | .userLocks => s.userLocks
    | .threadMoves m => s.threadMoves m
    | .userMoves m => s.userMoves m
    | .calcPayload builds => s.calcPayload builds
    | .threadStops => s.stops

end JtagSession

def jtagSessions : Guarded JtagSession JtagStep := ⟨JtagSession.step⟩

end Glip.Jtag
