import Glip.CircularBuffer.ReadSide
import Glip.CircularBuffer.WriteSide

/-! The calls that the two sides of a circular buffer make. -/
namespace Glip.CircularBuffer
open Foundation

/-- A call with its arguments. In `reserveCommit` the caller stores `data` through
the pointer it gets and commits `m` bytes; in `peek` it looks at `m` bytes. -/
inductive Request where
  | setHintMaxReadSize (hint : Nat)
  | setHintMaxWriteSize (hint : Nat)
  | isEmpty
  | isFull
  | fillLevel
  | freeLevel
  | write (data : List UInt8)
  | reserveCommit (alloc : Alloc) (n : Nat) (data : List UInt8) (m : Nat)
  | read (n : Nat)
  | peek (alloc : Alloc) (n m : Nat)
  | discard (n : Nat)

inductive Result where
  | done
  | flag (b : Bool)
  | level (n : Nat)
  | code (rc : Rc)
  | bytes (rc : Rc) (bs : List UInt8)
  deriving DecidableEq

def Result.rc : Result → Option Rc
  | code rc => some rc
  | bytes rc _ => some rc
  | _ => none

/-- What a caller must see to: it stores and looks only where it was given room,
and when no allocation is to fail then none does. -/
def Request.Proper (oom : Prop) : Request → Prop
  | reserveCommit alloc n data m => (alloc = none → oom) ∧ data.length ≤ n ∧ m ≤ data.length
  | peek alloc n m => (alloc = none → oom) ∧ m ≤ n
  | _ => True

def perform (size : Nat) : Request → Prog Cbuf Result
  | .setHintMaxReadSize hint => setHintMaxReadSize hint >>= fun _ => pure .done
  | .setHintMaxWriteSize hint => setHintMaxWriteSize hint >>= fun _ => pure .done
  | .isEmpty => isEmpty >>= fun b => pure (.flag b)
  | .isFull => isFull size >>= fun b => pure (.flag b)
  | .fillLevel => fillLevel size >>= fun n => pure (.level n)
  | .freeLevel => freeLevel size >>= fun n => pure (.level n)
  | .write data => cbufWrite size data >>= fun rc => pure (.code rc)
  | .reserveCommit alloc n data m => reserveCommit size alloc n data m >>= fun rc => pure (.code rc)
  | .read n => cbufRead size n >>= fun r => pure (.bytes r.1 r.2)
  | .peek alloc n m => peekBytes size alloc n m >>= fun r => pure (.bytes r.1 r.2)
  | .discard n => cbufDiscard size n >>= fun rc => pure (.code rc)

end Glip.CircularBuffer
