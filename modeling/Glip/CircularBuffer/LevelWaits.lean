import Glip.CircularBuffer.Contents
import Glip.Foundation.GuardedRun

/-! The waits for a level change in cbuf.c: one waiter, a peer that moves the pointers
and broadcasts under the mutex, and a thread in `_cbuf_cancel_waits`. -/
namespace Glip.CircularBuffer
open Foundation

inductive WaitRc where
  | ok
  | etimedout
  | ecanceled
  deriving DecidableEq

inductive Holder where
  | waiter
  | peer
  deriving DecidableEq

inductive Waiter where
  | returned (rv : WaitRc)
  | entering (level : Nat) (timed : Bool)
  | testing (level : Nat) (timed : Bool)
  | unchanged (level : Nat) (timed : Bool)
  | blocked (level : Nat) (timed : Bool)
  | woken (rv : WaitRc)
  | unlocking (rv : WaitRc)
  | leaving (rv : WaitRc)
  deriving DecidableEq

inductive PeerCall where
  | write (n : Nat)
  | commit (n : Nat)
  | read (n : Nat)
  | discard (n : Nat)
  deriving DecidableEq

inductive Peer where
  | outside
  | entering (c : PeerCall)
  | locked (c : PeerCall)
  | moved
  | told
  deriving DecidableEq

structure Waits where
  buf : Cbuf
  mutex : Option Holder
  cancelWaits : Bool
  waiter : Waiter
  peer : Peer
  /-- between the two statements of `_cbuf_cancel_waits` -/
  cancelling : Bool

inductive WaitStep where
  | call (level : Nat) (timed : Bool)
  | lock
  | lockExpires
  | test
  | wait
  | expires
  | relock
  | unlock
  | leave
  | begin (c : PeerCall)
  | peerLock
  | move
  | broadcast
  | peerUnlock
  | setCancel
  | cancelBroadcast
  deriving DecidableEq

def PeerCall.Proceeds (size : Nat) (buf : Cbuf) : PeerCall → Prop
  | write n => ¬ n > sizeSub size (levelIn size buf)
  | commit n => n ≠ 0
  | read n => n ≠ 0 ∧ ¬ levelIn size buf < n
  | discard n => ¬ levelIn size buf < n

instance (size : Nat) (buf : Cbuf) : DecidablePred (PeerCall.Proceeds size buf)
  | .write n => inferInstanceAs (Decidable (¬ n > sizeSub size (levelIn size buf)))
  | .commit n => inferInstanceAs (Decidable (n ≠ 0))
  | .read n => inferInstanceAs (Decidable (n ≠ 0 ∧ ¬ levelIn size buf < n))
  | .discard n => inferInstanceAs (Decidable (¬ levelIn size buf < n))

def PeerCall.moves (size : Nat) (buf : Cbuf) : PeerCall → Cbuf
  | write n | commit n => { buf with wrPtr := ptrAdd size buf.wrPtr n }
  | read n | discard n => { buf with rdPtr := ptrAdd size buf.rdPtr n }

namespace Waits

/-- `pthread_cond_broadcast`: who is blocked has to lock the mutex again before it goes on. -/
def wake : Waiter → Waiter
  | .blocked _ _ => .woken .ok
  | w => w

/-- One step of one party; none where that party is not at such a step, or waits for the mutex. An unlock
frees the mutex, whoever holds it. -/
def step (size : Nat) (s : Waits) : WaitStep → Option Waits
  | .call level timed => match s.waiter with
    | .returned _ => some { s with waiter := .entering level timed }
    | _ => none
  | .lock => match s.waiter, s.mutex with
    | .entering level timed, none => some { s with waiter := .testing level timed, mutex := some .waiter }
    | _, _ => none
  | .lockExpires => match s.waiter, s.mutex with
    | .entering _ true, some _ => some { s with waiter := .unlocking .etimedout }
    | _, _ => none
  | .test => match s.waiter with
    | .testing level timed =>
      some { s with waiter := if levelIn size s.buf ≠ level then .unlocking .ok else .unchanged level timed }
    | _ => none
  | .wait => match s.waiter with
    | .unchanged level timed => some { s with waiter := .blocked level timed, mutex := none }
    | _ => none
  | .expires => match s.waiter with
    | .blocked _ true => some { s with waiter := .woken .etimedout }
    | _ => none
  | .relock => match s.waiter, s.mutex with
    | .woken rv, none => some { s with waiter := .unlocking rv, mutex := some .waiter }
    | _, _ => none
  | .unlock => match s.waiter with
    | .unlocking rv => some { s with waiter := .leaving rv, mutex := none }
    | _ => none
  | .leave => match s.waiter with
    | .leaving rv => some { s with waiter := .returned (if s.cancelWaits then .ecanceled else rv) }
    | _ => none
  | .begin c => match s.peer with
    | .outside => if c.Proceeds size s.buf then some { s with peer := .entering c } else none
    | _ => none
  | .peerLock => match s.peer, s.mutex with
    | .entering c, none => some { s with peer := .locked c, mutex := some .peer }
    | _, _ => none
  | .move => match s.peer with
    | .locked c => some { s with peer := .moved, buf := c.moves size s.buf }
    | _ => none
  | .broadcast => match s.peer with
    | .moved => some { s with peer := .told, waiter := wake s.waiter }
    | _ => none
  | .peerUnlock => match s.peer with
    | .told => some { s with peer := .outside, mutex := none }
    | _ => none
  | .setCancel => if s.cancelling then none else some { s with cancelWaits := true, cancelling := true }
  | .cancelBroadcast => if s.cancelling then some { s with cancelling := false, waiter := wake s.waiter } else none

def system (size : Nat) : Guarded Waits WaitStep := ⟨step size⟩

def start (buf : Cbuf) : Waits := ⟨buf, none, false, .returned .ok, .outside, false⟩

/-- A waiter that is blocked although waits are cancelled, or although the level is not the one it was
called with, has a broadcast still to come from a step under way. -/
def Signalled (size : Nat) (s : Waits) : Prop :=
  ∀ level timed, s.waiter = .blocked level timed → s.cancelWaits ∨ levelIn size s.buf ≠ level →
    s.peer = .moved ∨ s.cancelling

/-- No wait begins once waits are cancelled and that has been broadcast, and no deadline
passes while the waiter is still waiting for the mutex. -/
def Allowed (s : Waits) : WaitStep → Prop
  | .wait => s.cancelWaits → s.cancelling
  | .lockExpires => False
  | _ => True

def holds : Waiter → Prop
  | .testing .. | .unchanged .. | .unlocking _ => True
  | _ => False

def peerHolds : Peer → Prop
  | .locked _ | .moved | .told => True
  | _ => False

/-- Who is in a locked section holds the mutex, the level that a waiter found unchanged is so until it
sleeps, and afterwards what changes is still to be broadcast. -/
structure Coherent (size : Nat) (s : Waits) : Prop where
  waiter : s.mutex = some .waiter ↔ holds s.waiter
  peer : s.mutex = some .peer ↔ peerHolds s.peer
  unchanged : ∀ level timed, s.waiter = .unchanged level timed → levelIn size s.buf = level
  blocked : ∀ level timed, s.waiter = .blocked level timed →
    (levelIn size s.buf = level ∨ s.peer = .moved) ∧ (s.cancelWaits → s.cancelling)

variable {size : Nat} {s s' : Waits} {a : WaitStep}

@[simp] theorem holds_wake (w : Waiter) : holds (wake w) ↔ holds w := by
  cases w <;> rfl

theorem wake_ne_blocked (w : Waiter) (level : Nat) (timed : Bool) : wake w ≠ .blocked level timed := by
  cases w <;> simp [wake]

theorem wake_eq_unchanged {w : Waiter} {level : Nat} {timed : Bool} (h : wake w = .unchanged level timed) :
    w = .unchanged level timed := by
  cases w <;> simp_all [wake]

/-- A broadcast leaves nobody blocked. -/
theorem Coherent.told (h : s.Coherent size) {p : Peer} {c : Bool} (hp : peerHolds p ↔ peerHolds s.peer) :
    Coherent size { s with waiter := wake s.waiter, peer := p, cancelling := c } where
  waiter := h.waiter.trans (holds_wake _).symm
  peer := h.peer.trans hp.symm
  unchanged level timed hu := h.unchanged level timed (wake_eq_unchanged hu)
  blocked _ _ hb := (wake_ne_blocked _ _ _ hb).elim

/-- A step of the waiter that neither finds the level unchanged nor goes to sleep. -/
theorem Coherent.waits (h : s.Coherent size) {w : Waiter} {m : Option Holder}
    (hw : m = some .waiter ↔ holds w) (hp : m = some .peer ↔ s.mutex = some .peer)
    (hu : ∀ level timed, w ≠ .unchanged level timed) (hb : ∀ level timed, w ≠ .blocked level timed) :
    Coherent size { s with waiter := w, mutex := m } where
  waiter := hw
  peer := hp.trans h.peer
  unchanged level timed h := (hu level timed h).elim
  blocked level timed h := (hb level timed h).elim

theorem coherent_step (h : s.Coherent size) (ha : s.Allowed a) (hstep : step size s a = some s') :
    s'.Coherent size := by
  have howner := h.waiter
  have hpeer := h.peer
  cases a with
  | lockExpires => exact ha.elim
  | call _ _ | lock | expires | relock | unlock | leave =>
    simp only [step] at hstep
    split at hstep
    · cases hstep
      apply h.waits <;> simp_all [holds]
    · cases hstep
  | test =>
    simp only [step] at hstep
    split at hstep
    · cases hstep
      split
      · apply h.waits <;> simp_all [holds]
      · refine ⟨by simp_all [holds], hpeer, ?_, by simp⟩
        intro level timed hlevel
        cases hlevel
        simp_all
    · cases hstep
  | wait =>
    simp only [step] at hstep
    split at hstep
    · rename_i level timed hw
      cases hstep
      refine ⟨by simp [holds], by simp_all [holds], by simp, ?_⟩
      intro level' timed' hblocked
      cases hblocked
      exact ⟨.inl (h.unchanged level timed hw), ha⟩
    · cases hstep
  | begin c =>
    simp only [step] at hstep
    split at hstep
    · split at hstep
      · cases hstep
        exact ⟨howner, by simp_all [peerHolds], h.unchanged, by have := h.blocked; simp_all⟩
      · cases hstep
    · cases hstep
  | peerLock =>
    simp only [step] at hstep
    split at hstep
    · cases hstep
      exact ⟨by simp_all, by simp [peerHolds], h.unchanged, by have := h.blocked; simp_all⟩
    · cases hstep
  | move =>
    simp only [step] at hstep
    split at hstep
    · cases hstep
      refine ⟨howner, by simp_all [peerHolds], ?_, ?_⟩
      · intro level timed hw
        simp_all [holds, peerHolds]
      · intro level timed hw
        exact ⟨.inr rfl, (h.blocked level timed hw).2⟩
    · cases hstep
  | broadcast =>
    simp only [step] at hstep
    split at hstep
    · cases hstep
      exact h.told (by simp_all [peerHolds])
    · cases hstep
  | peerUnlock =>
    simp only [step] at hstep
    split at hstep
    · cases hstep
      exact ⟨by simp_all [peerHolds], by simp [peerHolds], h.unchanged, by have := h.blocked; simp_all⟩
    · cases hstep
  | setCancel =>
    simp only [step] at hstep
    split at hstep
    · cases hstep
    · cases hstep
      exact ⟨howner, hpeer, h.unchanged, fun level timed hw => ⟨(h.blocked level timed hw).1, fun _ => rfl⟩⟩
  | cancelBroadcast =>
    simp only [step] at hstep
    split at hstep
    · cases hstep
      exact h.told Iff.rfl
    · cases hstep

theorem coherent_start (buf : Cbuf) : (start buf).Coherent size := by
  constructor <;> simp [start, holds, peerHolds]

/-- In a run in which no wait begins after a cancellation has been broadcast and no deadline passes at the
mutex, nobody is left blocked without a broadcast to come. -/
theorem no_lost_wakeup (size : Nat) (buf : Cbuf) (steps : List WaitStep)
    (hrun : (system size).run (start buf) steps = some s) (hall : (system size).Each Allowed (start buf) steps) :
    s.Signalled size := by
  have h : s.Coherent size :=
    Guarded.run_keeps (fun _ _ _ h ha hstep => coherent_step h ha hstep) (coherent_start buf) hall hrun
  intro level timed hblocked hcause
  obtain ⟨hlevel, hcancel⟩ := h.blocked level timed hblocked
  rcases hcause with hset | hchanged
  · exact .inr (hcancel hset)
  · exact .inl (hlevel.resolve_left hchanged)

instance : DecidableRel Allowed
  | s, .wait => inferInstanceAs (Decidable (s.cancelWaits → s.cancelling))
  | _, .lockExpires => instDecidableFalse
  | _, .call _ _ | _, .lock | _, .test | _, .expires | _, .relock | _, .unlock | _, .leave | _, .begin _
  | _, .peerLock | _, .move | _, .broadcast | _, .peerUnlock | _, .setCancel | _, .cancelBroadcast =>
    instDecidableTrue

def overlappingWait : List WaitStep :=
  [.call 0 true, .lock, .begin (.write 1), .setCancel, .test, .wait, .peerLock, .move]

theorem no_lost_wakeup_overlapping :
    ∃ s, (system 4).run (start (newCbuf 4)) overlappingWait = some s ∧ s.waiter = .blocked 0 true ∧
      s.cancelWaits ∧ levelIn 4 s.buf ≠ 0 ∧ s.Signalled 4 :=
  ⟨_, rfl, rfl, rfl, by decide +kernel, no_lost_wakeup 4 (newCbuf 4) overlappingWait rfl (by decide +kernel)⟩

/-- `_cbuf_cancel_waits` between the level test of a wait and its sleep. -/
def lateCancel : List WaitStep := [.call 0 false, .lock, .test, .setCancel, .cancelBroadcast, .wait]

/-- A wait whose deadline passes at the mutex frees it for the peer, and the next wait
tests the level before the peer moves the pointer and sleeps after the broadcast. -/
def freedMutex : List WaitStep :=
  [.begin (.write 1), .peerLock, .call 0 true, .lockExpires, .unlock, .leave, .call 0 false, .lock, .test, .move,
    .broadcast, .wait]

/-- Blocked for good: nobody is under way who would broadcast. -/
theorem wakeup_lost :
    (∃ s, (system 4).run (start (newCbuf 4)) lateCancel = some s ∧ s.waiter = .blocked 0 false ∧ s.cancelWaits ∧
      ¬ s.Signalled 4) ∧
    ∃ s, (system 4).run (start (newCbuf 4)) freedMutex = some s ∧ s.waiter = .blocked 0 false ∧
      levelIn 4 s.buf = 1 ∧ ¬ s.Signalled 4 := by
  refine ⟨⟨_, rfl, rfl, rfl, fun h => ?_⟩, ⟨_, rfl, rfl, by decide +kernel, fun h => ?_⟩⟩
  · exact absurd (h 0 false rfl (.inl rfl)) (by decide +kernel)
  · exact absurd (h 0 false rfl (.inr (by decide +kernel))) (by decide +kernel)

end Waits
end Glip.CircularBuffer
